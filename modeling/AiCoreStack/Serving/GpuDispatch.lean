import AiCoreStack.Serving.GpuTiles

/-!
# A dispatch

The workgroups of a dispatch write the product of a chunk: together they write every cell once.
-/

namespace AiCoreStack.Serving.GpuGemm

open Foundation
open scoped List

variable {K H : Type} [Field K] [CommRing H]

/-! ## The buffers of a dispatch -/

omit [Field K] [CommRing H] in
theorem ReadsBlock.congr [Field K] {wq : List UInt32} {use : Bool} {base : UInt32}
    {head : BlockHead K} {weight other : Nat → K} (reads : ReadsBlock wq use base head weight)
    (same : ∀ e < 256, weight e = other e) : ReadsBlock wq use base head other := by
  intro g inside b small
  obtain ⟨word, found, nibbles⟩ := reads g inside b small
  refine ⟨word, found, fun lane within => ?_⟩
  rw [← same _ (by omega), ← same _ (by omega)]
  exact nibbles lane within

theorem wordOf_slice (data : List UInt8) (start width : Nat) {w : Nat}
    (inside : 4 * w + 4 ≤ 4 * width) :
    wordOf (slice data (4 * start) (4 * width)) w = wordOf data (start + w) := by
  have shift (i : Nat) (small : i < 4) :
      byteAt (slice data (4 * start) (4 * width)) (4 * w + i) =
        byteAt data (4 * (start + w) + i) := by
    rw [byteAt_slice _ _ (by omega), ← Nat.add_assoc, ← Nat.mul_add]
  rw [wordOf, wordOf, shift 1 (by omega), shift 2 (by omega), shift 3 (by omega)]
  have first := shift 0 (by omega)
  simp only [Nat.add_zero] at first
  rw [first]

/-- The columns of the matrix are read from the words of the data. -/
theorem readsColumns_words (half : UInt16 → K) {data : List UInt8} {n k : Nat} {p : Params}
    (columns : p.n.toNat = n) (blocks : p.kb.toNat = k / 256)
    (long : data.length = n * (k / 256) * 144) (small : n * (k / 256) * 36 ≤ 2 ^ 32) :
    ReadsColumns half p (words data) (weightAt half data k) := by
  intro col kb inside
  by_cases use : col < p.n
  · have column_ : col.toNat < n := columns ▸ UInt32.lt_iff_toNat_lt.mp use
    have block : col.toNat * (k / 256) + k / 256 ≤ n * (k / 256) := part_inside column_
    rw [blocks] at inside
    have place : ((col * p.kb + UInt32.ofNat kb) * 36).toNat =
        (col.toNat * (k / 256) + kb) * 36 := by
      have counted : kb < p.kb.toNat := blocks ▸ inside
      have wide := UInt32.toNat_lt p.kb
      simp only [UInt32.toNat_mul, UInt32.toNat_add, UInt32.toNat_ofNat', UInt32.reduceToNat,
        blocks]
      rw [Nat.mod_eq_of_lt (by omega : kb < 2 ^ 32),
        Nat.mod_eq_of_lt (by omega : col.toNat * (k / 256) < 2 ^ 32),
        Nat.mod_eq_of_lt (by omega : col.toNat * (k / 256) + kb < 2 ^ 32),
        Nat.mod_eq_of_lt (by omega)]
    obtain ⟨head, read, weights⟩ := readsBlock_used half (words data)
      ((col * p.kb + UInt32.ofNat kb) * 36) (blockOf data k col.toNat kb) (by
        intro i within index same
        rw [same, place, getElem?_words data (by omega), blockOf,
          show (col.toNat * (k / 256) + kb) * 144 = 4 * ((col.toNat * (k / 256) + kb) * 36) by omega,
          wordOf_slice data _ 36 (by omega)]) (by omega)
    rw [decide_eq_true use]
    refine ⟨head, read, weights.congr fun e within => ?_⟩
    rw [columnWeight, if_pos use, weightAt, div_part within, mod_part within]
  · rw [decide_eq_false use]
    obtain ⟨read, zeros⟩ := readsBlock_unused half (words data)
      ((col * p.kb + UInt32.ofNat kb) * 36)
    refine ⟨_, read, zeros.congr fun e _ => ?_⟩
    rw [columnWeight, if_neg use]

omit [Field K] in
/-- A buffer of rows of the same length, read as vectors. -/
theorem vectors_holds {x : Nat → Nat → H} {count stride : Nat} :
    Holds (vectors ((List.range count).flatMap fun e => (List.range (stride * 4)).map (x e)))
      stride count x := by
  have uniform : ∀ e < count, ((List.range (stride * 4)).map (x e)).length = stride * 4 := by
    simp
  have long := length_flatMap_range uniform
  intro e inside v within
  have part : e * stride + stride ≤ count * stride := part_inside inside
  have total : count * (stride * 4) / 4 = count * stride := by
    rw [← Nat.mul_assoc, Nat.mul_div_cancel _ (by omega)]
  rw [vectors, long, total, List.getElem?_map, List.getElem?_range (by omega), Option.map_some]
  refine congrArg some (funext fun c => ?_)
  have place : 4 * (e * stride + v) + c.val = e * (stride * 4) + (4 * v + c.val) := by
    rw [← Nat.mul_assoc e]
    omega
  rw [List.getD_eq_getElem?_getD, place, getElem?_flatMap_range uniform inside (by omega),
    List.getElem?_map, List.getElem?_range (by omega)]
  rfl

/-! ## Cells -/

/-- The cells of a column in the rows of a workgroup. -/
def cells (m n y j : Nat) : List Nat :=
  if j < n then (List.range (min (m - y * 16) 16)).map fun r => (y * 16 + r) * n + j else []

/-- All workgroups together reach the cells of a column. -/
theorem flatMap_cells {m n wgY : Nat} (rows : m ≤ wgY * 16) (j : Nat) :
    ((List.range wgY).flatMap fun y => cells m n y j) =
      if j < n then (List.range m).map fun row => j + n * row else [] := by
  by_cases inside : j < n
  · have blocks := congrArg (List.map fun row => j + n * row) (flatMap_range_blocks 16 m wgY)
    rw [Nat.min_eq_left rows, List.map_flatMap] at blocks
    rw [if_pos inside, ← blocks]
    refine List.flatMap_congr fun y _ => ?_
    rw [cells, if_pos inside, List.map_map]
    refine List.map_congr_left fun r _ => ?_
    rw [Function.comp_apply, Nat.mul_comm, Nat.add_comm]
  · have none_ (y : Nat) : cells m n y j = [] := if_neg inside
    simp [none_, inside]

/-- The threads of all workgroups together reach every cell once. -/
theorem cells_perm {m n : Nat} (cols wgX wgY : Nat) (columns : n ≤ wgX * (64 * cols))
    (rows : m ≤ wgY * 16) :
    ((List.range wgX).flatMap fun x => (List.range wgY).flatMap fun y =>
      (List.range 64).flatMap fun lid => (List.range cols).flatMap fun s =>
        cells m n y (x * (64 * cols) + lid + 64 * s)) ~ List.range (m * n) := by
  let column_ (j : Nat) : List Nat := if j < n then (List.range m).map fun row => j + n * row else []
  have threads (x : Nat) : ((List.range wgY).flatMap fun y => (List.range 64).flatMap fun lid =>
      (List.range cols).flatMap fun s => cells m n y (x * (64 * cols) + lid + 64 * s)) ~
      (List.range (64 * cols)).flatMap fun i => column_ (x * (64 * cols) + i) := by
    have swapped : ((List.range wgY).flatMap fun y => (List.range 64).flatMap fun lid =>
        (List.range cols).flatMap fun s => cells m n y (x * (64 * cols) + lid + 64 * s)) ~
        (List.range 64).flatMap fun lid => (List.range cols).flatMap fun s =>
          (List.range wgY).flatMap fun y => cells m n y (x * (64 * cols) + lid + 64 * s) :=
      (flatMap_swap _ _ _).trans (List.Perm.flatMap_left _ fun _ _ => flatMap_swap _ _ _)
    have strided := (strided_perm 64 cols).flatMap_right fun i => column_ (x * (64 * cols) + i)
    rw [List.flatMap_assoc, Nat.mul_comm cols] at strided
    refine swapped.trans (.trans (.of_eq ?_) strided)
    refine List.flatMap_congr fun lid _ => ?_
    rw [List.flatMap_map]
    refine List.flatMap_congr fun s _ => ?_
    rw [flatMap_cells rows, Nat.add_assoc]
  have outside : wgX * (64 * cols) = n + (wgX * (64 * cols) - n) := by omega
  have rest : (((List.range (wgX * (64 * cols) - n)).map (n + ·)).flatMap column_) = [] := by
    rw [List.flatMap_map]
    exact List.flatMap_eq_nil_iff.mpr fun j _ => if_neg (by omega)
  calc ((List.range wgX).flatMap fun x => (List.range wgY).flatMap fun y =>
        (List.range 64).flatMap fun lid => (List.range cols).flatMap fun s =>
          cells m n y (x * (64 * cols) + lid + 64 * s))
    _ ~ (List.range wgX).flatMap fun x =>
          (List.range (64 * cols)).flatMap fun i => column_ (x * (64 * cols) + i) :=
        List.Perm.flatMap_left _ fun x _ => threads x
    _ = (List.range (wgX * (64 * cols))).flatMap column_ := flatMap_range_mul ..
    _ = (List.range n).flatMap column_ := by
        rw [outside, List.range_add, List.flatMap_append, rest, List.append_nil]
    _ = (List.range n).flatMap fun j => (List.range m).map fun row => j + n * row :=
        List.flatMap_congr fun j member => if_pos (List.mem_range.mp member)
    _ ~ List.range (m * n) := strided_perm n m

/-! ## Writes -/

/-- A cell of the product. -/
def cell (value : H →+* K) (x : Nat → Nat → H) (weight : Nat → Nat → K) (k n t : Nat) : K :=
  ∑ e ∈ Finset.range k, value (x e (t / n)) * weight (t % n) e

section Writes

variable {half : UInt16 → K} {kernel : Kernel K H} {value : H →+* K} {p : Params} {m n y : Nat}

omit [Field K] in
theorem columnWrites_eq (tall : p.m.toNat = m) (wide : p.n.toNat = n) (small : m * n ≤ 2 ^ 32)
    (inside : y * 16 < m) (col : UInt32) (acc : Rows K) :
    columnWrites p (UInt32.ofNat y) col acc = if col.toNat < n then
      (List.range (min (m - y * 16) 16)).map fun r =>
        ((y * 16 + r) * n + col.toNat, acc (Fin.ofNat 4 (r / 4)) (Fin.ofNat 4 (r % 4))) else [] := by
  have bound := UInt32.toNat_lt p.m
  have row0 : (UInt32.ofNat y * 16).toNat = y * 16 := by
    simp only [UInt32.toNat_mul, UInt32.toNat_ofNat', UInt32.reduceToNat]
    omega
  have left : (p.m - UInt32.ofNat y * 16).toNat = m - y * 16 := by
    rw [UInt32.toNat_sub_of_le _ _ (UInt32.le_iff_toNat_le.mpr (by omega)), row0, tall]
  have rows : (min 16 (p.m - UInt32.ofNat y * 16)).toNat = min (m - y * 16) 16 := by
    have pick (d : UInt32) : (min 16 d).toNat = min d.toNat 16 := by
      have chosen : min 16 d = if 16 ≤ d then 16 else d := rfl
      rw [chosen]
      split_ifs with le
      · exact (Nat.min_eq_right (UInt32.le_iff_toNat_le.mp le)).symm
      · have less : ¬ 16 ≤ d.toNat := fun above => le (UInt32.le_iff_toNat_le.mpr above)
        exact (Nat.min_eq_left (by omega)).symm
    rw [pick, left]
  rw [columnWrites]
  by_cases use : col < p.n
  · have column_ : col.toNat < n := wide ▸ UInt32.lt_iff_toNat_lt.mp use
    rw [if_pos use, if_pos column_, rows]
    refine List.map_congr_left fun r member => ?_
    have low := List.mem_range.mp member
    have part : (y * 16 + r) * n + n ≤ m * n := part_inside (by omega)
    have scaled : (y * 16 + r) * p.n.toNat = (y * 16 + r) * n := by rw [wide]
    refine Prod.ext ?_ rfl
    simp only [UInt32.toNat_mul, UInt32.toNat_add, UInt32.toNat_ofNat', row0]
    rw [Nat.mod_eq_of_lt (by omega : r < 2 ^ 32),
      Nat.mod_eq_of_lt (by omega : y * 16 + r < 2 ^ 32), Nat.mod_eq_of_lt (by omega), wide,
      Nat.mod_eq_of_lt (by omega)]
  · rw [if_neg use, if_neg (by rwa [← wide, ← UInt32.lt_iff_toNat_lt])]

omit [Field K] in
/-- A workgroup writes the cells of its columns. -/
theorem columnWrites_places (tall : p.m.toNat = m) (wide : p.n.toNat = n)
    (small : m * n ≤ 2 ^ 32) (inside : y * 16 < m) (col : UInt32) (acc : Rows K) :
    (columnWrites p (UInt32.ofNat y) col acc).map Prod.fst = cells m n y col.toNat := by
  rw [columnWrites_eq tall wide small inside, cells]
  split_ifs
  · rw [List.map_map]
    rfl
  · rfl

theorem columnWrites_values (tall : p.m.toNat = m) (wide : p.n.toNat = n)
    (small : m * n ≤ 2 ^ 32) (inside : y * 16 < m) (col : UInt32) {x : Nat → Nat → H}
    {weight : Nat → Nat → K} {k : Nat} :
    ∀ write ∈ columnWrites p (UInt32.ofNat y) col (products value p x weight y col k),
      write.2 = cell value x weight k n write.1 := by
  intro write member
  rw [columnWrites_eq tall wide small inside] at member
  split_ifs at member with column_
  · obtain ⟨r, low, rfl⟩ := List.mem_map.mp member
    have use : col < p.n := UInt32.lt_iff_toNat_lt.mpr (wide ▸ column_)
    have row : 4 * (y * 4 + (Fin.ofNat 4 (r / 4)).val) + (Fin.ofNat 4 (r % 4)).val = y * 16 + r := by
      have below := List.mem_range.mp low
      simp only [Fin.ofNat]
      omega
    have weights (e : Nat) : columnWeight p weight col e = weight col.toNat e := if_pos use
    simp only [cell, products, row, div_part column_, mod_part column_, weights]
  · exact absurd member List.not_mem_nil

end Writes

theorem column_toNat {kernel : Kernel K H} {value : H →+* K} (exact_ : kernel.Exact value)
    {n x lid s : Nat} (narrow : n < 2 ^ 31)
    (inside : x < (n + 64 * kernel.cols - 1) / (64 * kernel.cols)) (thread : lid < 64)
    (taken : s < kernel.cols) :
    (column kernel (UInt32.ofNat x) lid s).toNat = x * (64 * kernel.cols) + lid + 64 * s := by
  simp only [column, UInt32.toNat_mul, UInt32.toNat_add, UInt32.toNat_ofNat']
  rcases exact_.cols with two | four
  · rw [two] at inside taken ⊢
    omega
  · rw [four] at inside taken ⊢
    omega

omit [CommRing H] in
theorem le_ensureBuffer (pool : List K) (size : Nat) : size ≤ (ensureBuffer pool size).length := by
  rw [ensureBuffer]
  split_ifs with less
  · rw [List.length_replicate]
    exact (Nat.le_pow_clog (by decide) size).trans (Nat.le_max_left _ _)
  · exact not_lt.mp less

/-! ## The workgroups of a dispatch -/

section Grid

variable (kernel : Kernel K H) (value : H →+* K) (p : Params) (x : Nat → Nat → H)
variable (weight : Nat → Nat → K) (k : Nat)

/-- What a workgroup writes. -/
def groupWrites (a y : Nat) : List (Nat × K) :=
  (List.range 64).flatMap fun lid => (List.range kernel.cols).flatMap fun s =>
    columnWrites p (UInt32.ofNat y) (column kernel (UInt32.ofNat a) lid s)
      (products value p x weight y (column kernel (UInt32.ofNat a) lid s) k)

/-- What all workgroups write. -/
def gridWrites (wgX wgY : Nat) : List (Nat × K) :=
  (List.range wgX).flatMap fun a =>
    (List.range wgY).flatMap (groupWrites kernel value p x weight k a)

variable {kernel value p} {m n : Nat}

/-- The workgroups write every cell once. -/
theorem writesOnce_gridWrites (exact_ : kernel.Exact value) (tall : p.m.toNat = m)
    (wide : p.n.toNat = n) (outputs : m * n ≤ 2 ^ 32) (narrow : n < 2 ^ 31) :
    WritesOnce (m * n) (gridWrites kernel value p x weight k
      ((n + 64 * kernel.cols - 1) / (64 * kernel.cols)) ((m + 16 - 1) / 16)) := by
  rw [WritesOnce, gridWrites, List.map_flatMap]
  refine (List.Perm.of_eq ?_).trans (cells_perm kernel.cols
    ((n + 64 * kernel.cols - 1) / (64 * kernel.cols)) ((m + 16 - 1) / 16) ?_ ?_)
  · refine List.flatMap_congr fun a inside => ?_
    rw [List.map_flatMap]
    refine List.flatMap_congr fun y row => ?_
    rw [groupWrites, List.map_flatMap]
    refine List.flatMap_congr fun lid thread => ?_
    rw [List.map_flatMap]
    refine List.flatMap_congr fun s taken => ?_
    rw [List.mem_range] at inside row thread taken
    rw [columnWrites_places tall wide outputs (by omega),
      column_toNat exact_ narrow inside thread taken]
  · rcases exact_.cols with two | four
    · rw [two]
      omega
    · rw [four]
      omega
  · omega

/-- What they write is the product. -/
theorem gridWrites_values (tall : p.m.toNat = m) (wide : p.n.toNat = n)
    (outputs : m * n ≤ 2 ^ 32) (wgX : Nat) :
    ∀ write ∈ gridWrites kernel value p x weight k wgX ((m + 16 - 1) / 16),
      write.2 = cell value x weight k n write.1 := by
  intro write member
  obtain ⟨a, -, member⟩ := List.mem_flatMap.mp member
  obtain ⟨y, row, member⟩ := List.mem_flatMap.mp member
  obtain ⟨lid, -, member⟩ := List.mem_flatMap.mp member
  obtain ⟨s, -, member⟩ := List.mem_flatMap.mp member
  rw [List.mem_range] at row
  exact columnWrites_values tall wide outputs (by omega) _ write member

/-- The workgroups run, and what they write is what the grid writes. -/
theorem workgroups_eq {half : UInt16 → K} {wq : List UInt32} {act : List (Fin 4 → H)}
    (schedule : Schedule) (exact_ : kernel.Exact value) (reads : ReadsColumns half p wq weight)
    (held : Holds act p.mp4.toNat k x) (depth : p.kb.toNat * 256 = k)
    (small : k * p.mp4.toNat ≤ 2 ^ 32) {wgY : Nat} (rows : wgY * 4 ≤ p.mp4.toNat) (wgX : Nat) :
    ∃ groups, ((List.range wgX).mapM fun a => (List.range wgY).mapM fun y =>
        workgroup half kernel p wq schedule act (UInt32.ofNat a) (UInt32.ofNat y)) = some groups ∧
      (groups.map List.flatten).flatten = gridWrites kernel value p x weight k wgX wgY := by
  subst depth
  refine ⟨(List.range wgX).map fun a =>
    (List.range wgY).map (groupWrites kernel value p x weight (p.kb.toNat * 256) a), ?_, ?_⟩
  · refine mapM_eq_some fun a _ => mapM_eq_some fun y member => ?_
    have row := List.mem_range.mp member
    rw [workgroup_eq schedule exact_ reads held small _ (by omega)]
    rfl
  · rw [List.map_map, List.flatten_eq_flatMap, List.flatMap_map]
    rfl

end Grid

omit [CommRing H] in
/-- The range read back after the writes holds the product. -/
theorem range?_scatter (schedule : Schedule) {writes : List (Nat × K)} {size : Nat} {value : Nat → K}
    (once : WritesOnce size writes) (values : ∀ write ∈ writes, write.2 = value write.1)
    (pool : List K) :
    ∃ after, scatter (ensureBuffer pool size) (schedule.arrange writes) = some after ∧
      range? after 0 size = some ((List.range size).map value) := by
  obtain ⟨after, scattered, long, front⟩ := scatter_once (ensureBuffer pool size) once
    (schedule.perm writes) (le_ensureBuffer pool size) values
  have inside : 0 + size ≤ after.length := by
    rw [long, Nat.zero_add]
    exact le_ensureBuffer pool size
  have taken := range?_eq_some inside
  rw [Nat.zero_add] at taken
  exact ⟨after, scattered, by rw [taken, slice, List.drop_zero, front]⟩

/-- A dispatch leaves the product in the front of the buffer of the pool. -/
theorem dispatch_eq (half : UInt16 → K) {kernel : Kernel K H} {value : H →+* K}
    (schedule : Schedule) (exact_ : kernel.Exact value) {data : List UInt8} {n k m : Nat}
    (long : data.length = n * (k / 256) * 144) (whole : k % 256 = 0) (positive : 0 < n)
    (deep : 0 < k) (chunk : m ≤ 1024) (weights : n * (k / 256) * 36 ≤ 2 ^ 32)
    (activations : k * ((m + 16 - 1) / 16 * 16 / 4) ≤ 2 ^ 32) (outputs : m * n ≤ 2 ^ 32)
    (x : Nat → Nat → H) (pool : List K) :
    ∃ done, dispatch half kernel schedule ⟨words data, n, k⟩
        ((List.range k).flatMap fun e => (List.range ((m + 16 - 1) / 16 * 16)).map (x e))
        m ((m + 16 - 1) / 16 * 16) pool = some done ∧
      done.out = (List.range (m * n)).map (cell value x (weightAt half data k) k n) ∧
      WritesOnce (m * n) done.writes := by
  have blocks : 0 < k / 256 := by omega
  have narrow : n < 2 ^ 31 := by
    have := Nat.le_mul_of_pos_right n blocks
    omega
  have shallow : k / 256 < 2 ^ 31 := by
    have := Nat.le_mul_of_pos_left (k / 256) positive
    omega
  let wgX := (n + 64 * kernel.cols - 1) / (64 * kernel.cols)
  let wgY := (m + 16 - 1) / 16
  have quarter : wgY * 16 / 4 = wgY * 4 := by omega
  let p : Params := ⟨UInt32.ofNat m, UInt32.ofNat (wgY * 16 / 4), UInt32.ofNat n,
    UInt32.ofNat (k / 256)⟩
  have toNat {v : Nat} (small : v < 2 ^ 32) : (UInt32.ofNat v).toNat = v :=
    UInt32.toNat_ofNat_of_lt' small
  have tall : p.m.toNat = m := toNat (by omega)
  have wide : p.n.toNat = n := toNat (by omega)
  have depth : p.kb.toNat = k / 256 := toNat (by omega)
  have stride : p.mp4.toNat = wgY * 4 := by
    rw [← quarter]
    exact toNat (by omega)
  have reads : ReadsColumns half p (words data) (weightAt half data k) :=
    readsColumns_words half wide depth long weights
  have elements : p.kb.toNat * 256 = k := by
    rw [depth]
    omega
  have held : Holds (vectors ((List.range k).flatMap fun e =>
      (List.range (wgY * 16)).map (x e))) p.mp4.toNat k x := by
    rw [stride, show wgY * 16 = wgY * 4 * 4 by omega]
    exact vectors_holds
  obtain ⟨groups, ran, flat⟩ := workgroups_eq x (weightAt half data k) k schedule exact_ reads held
    elements (by rwa [stride, ← quarter]) stride.ge wgX
  have sizeX : (UInt32.ofNat wgX).toNat = wgX := by
    refine toNat ?_
    have : wgX ≤ n + 64 * kernel.cols - 1 := Nat.div_le_self _ _
    have := exact_.cols
    omega
  have sizeY : (UInt32.ofNat wgY).toNat = wgY := toNat (by omega)
  have once : WritesOnce (m * n) (groups.map List.flatten).flatten := by
    rw [flat]
    exact writesOnce_gridWrites x (weightAt half data k) k exact_ tall wide outputs narrow
  have values : ∀ write ∈ (groups.map List.flatten).flatten,
      write.2 = cell value x (weightAt half data k) k n write.1 := by
    rw [flat]
    exact gridWrites_values x (weightAt half data k) k tall wide outputs wgX
  obtain ⟨after, scattered, taken⟩ := range?_scatter schedule once values pool
  refine ⟨⟨_, after, (groups.map List.flatten).flatten⟩, ?_, rfl, once⟩
  have counted : ((List.range (UInt32.ofNat wgX).toNat).mapM fun a =>
      (List.range (UInt32.ofNat wgY).toNat).mapM fun y =>
        workgroup half kernel p (words data) schedule (vectors ((List.range k).flatMap fun e =>
          (List.range (wgY * 16)).map (x e))) (UInt32.ofNat a) (UInt32.ofNat y)) = some groups := by
    rw [sizeX, sizeY]
    exact ran
  refine (congrArg (Option.bind · _) counted).trans ?_
  refine (congrArg (Option.bind · _) scattered).trans ?_
  exact congrArg (Option.bind · _) taken

end AiCoreStack.Serving.GpuGemm
