import AiCoreStack.Serving.GpuWeights

/-!
# A column of the product

What a thread adds to the accumulators of a column for one block: the sum, over the 256 elements of
the block, of the activations of the tile times the weights of the reference.  A column outside the
matrix adds nothing, and reads nothing but the tile.
-/

namespace AiCoreStack.Serving.GpuGemm

open Foundation

variable {K H : Type} [Field K] [CommRing H]

/-- A kernel whose numbers stand for exact values. -/
structure Kernel.Exact (kernel : Kernel K H) (value : H →+* K) : Prop where
  cols : kernel.cols = 2 ∨ kernel.cols = 4
  upload : ∀ x, value (kernel.upload x) = x
  convert : ∀ x, value (kernel.convert x) = x
  flush : ∀ {loop : Rows H → Option (Rows H)} {added : Rows H},
    (∀ acc, loop acc = some (acc + added)) → ∀ acc,
      kernel.flush loop acc = some fun q c => acc q c + value (added q c)

theorem shader_exact : (shader : Kernel K K).Exact (RingHom.id K) where
  cols := .inr rfl
  upload _ := rfl
  convert _ := rfl
  flush adds acc := adds acc

/-- Half precision without rounding. -/
structure HalfFormat.Exact (format : HalfFormat K H) (value : H →+* K) : Prop where
  fromF32 : ∀ x, value (format.fromF32 x) = x
  f16 : ∀ x, value (format.f16 x) = x
  f32 : ∀ h, format.f32 h = value h

theorem shaderF16_exact {format : HalfFormat K H} {value : H →+* K}
    (exact_ : format.Exact value) : (shaderF16 format).Exact value where
  cols := .inl rfl
  upload := exact_.fromF32
  convert := exact_.f16
  flush adds acc := by
    dsimp only [shaderF16]
    rw [adds]
    simp only [Option.map_some, exact_.f32, Pi.add_apply, zero_add]

/-! ## Sums over a block -/

theorem sum_range_mul {M : Type} [AddCommMonoid M] (count width : Nat) (f : Nat → M) :
    ∑ i ∈ Finset.range (count * width), f i =
      ∑ i ∈ Finset.range count, ∑ t ∈ Finset.range width, f (i * width + t) := by
  induction count with
  | zero => simp
  | succ count ih => rw [Nat.succ_mul, Finset.sum_range_add, ih, Finset.sum_range_succ]

/-- The elements of a block in the order of the shader: the two halves of a group side by side. -/
theorem sum_block {M : Type} [AddCommMonoid M] (f : Nat → M) :
    ∑ g ∈ Finset.range 4, ∑ bi ∈ Finset.range 32, (f (g * 64 + bi) + f (g * 64 + 32 + bi)) =
      ∑ e ∈ Finset.range 256, f e := by
  rw [show 256 = 4 * 64 from rfl, sum_range_mul]
  apply Finset.sum_congr rfl
  intro g _
  rw [show 64 = 32 + 32 from rfl, Finset.sum_range_add, Finset.sum_add_distrib]
  simp only [Nat.add_assoc]

/-! ## A group -/

/-- A tile holds the rows of the elements of a block. -/
def TileHolds (tile : List (Vec4 H)) (a : Nat → Rows H) : Prop :=
  ∀ e < 256, ∀ q : Fin 4, tile[4 * e + q.val]? = some (a e q)

/-- What a thread reads of a block are the weights of its elements. -/
def ReadsBlock (wq : List UInt32) (use : Bool) (base : UInt32) (head : BlockHead K)
    (weight : Nat → K) : Prop :=
  ∀ g < 4, ∀ b < 8, ∃ word : UInt32,
    readWord wq use (base + 4 + UInt32.ofNat g * 8 + UInt32.ofNat b) = some word ∧
      ∀ lane < 4,
        head.d.1 * ((scaleMin (2 * UInt32.ofNat g) head.s0 head.s1 head.s2).1.toNat : K) *
              ((((word >>> (8 * UInt32.ofNat lane)) &&& 0xff) &&& 0xf).toNat : K) -
            head.d.2 * ((scaleMin (2 * UInt32.ofNat g) head.s0 head.s1 head.s2).2.toNat : K) =
          weight (g * 64 + (b * 4 + lane)) ∧
        head.d.1 * ((scaleMin (2 * UInt32.ofNat g + 1) head.s0 head.s1 head.s2).1.toNat : K) *
              ((((word >>> (8 * UInt32.ofNat lane)) &&& 0xff) >>> 4).toNat : K) -
            head.d.2 * ((scaleMin (2 * UInt32.ofNat g + 1) head.s0 head.s1 head.s2).2.toNat : K) =
          weight (g * 64 + 32 + (b * 4 + lane))

omit [CommRing H] in
theorem TileHolds.read {tile : List (Vec4 H)} {a : Nat → Rows H} (holds : TileHolds tile a)
    {index : UInt32} {e : Nat} (place : index.toNat = 4 * e) (inside : e < 256) :
    readTile tile index = some (a e) := by
  have at_ (i : UInt32) (q : Fin 4) (small : i.toNat = q.val) :
      tile[(index + i).toNat]? = some (a e q) := by
    rw [UInt32.toNat_add, place, small, Nat.mod_eq_of_lt (by omega)]
    exact holds e inside q
  have first : tile[index.toNat]? = some (a e 0) := by
    rw [place]
    exact holds e inside 0
  rw [readTile, first, at_ 1 1 rfl, at_ 2 2 rfl, at_ 3 3 rfl]
  refine congrArg some (funext fun q => ?_)
  fin_cases q <;> rfl

/-- What a group adds. -/
def groupSum (convert : K → H) (a : Nat → Rows H) (weight : Nat → K) (g count : Nat) : Rows H :=
  fun q c => ∑ bi ∈ Finset.range count,
    (a (g * 64 + bi) q c * convert (weight (g * 64 + bi)) +
      a (g * 64 + 32 + bi) q c * convert (weight (g * 64 + 32 + bi)))

theorem groupLoop_eq (convert : K → H) {tile : List (Vec4 H)} {a : Nat → Rows H}
    (holds : TileHolds tile a) {wq : List UInt32} {use : Bool} {base : UInt32}
    {head : BlockHead K} {weight : Nat → K} (reads : ReadsBlock wq use base head weight) {g : Nat}
    (inside : g < 4) (acc : Rows H) :
    groupLoop convert tile wq use base head (UInt32.ofNat g) acc =
      some (acc + groupSum convert a weight g 32) := by
  have none_ : acc = acc + groupSum convert a weight g 0 := by
    funext q c
    simp [groupSum]
  rw [groupLoop]
  refine foldlM_range_eq (fun b => acc + groupSum convert a weight g (b * 4)) 8
    (by rw [Nat.zero_mul]; exact none_) ?_
  intro b small
  obtain ⟨word, found, nibbles⟩ := reads g inside b small
  dsimp only
  rw [found, Nat.succ_mul, Option.bind_eq_bind, Option.bind_some]
  refine foldlM_range_eq (fun lane => acc + groupSum convert a weight g (b * 4 + lane)) 4 rfl ?_
  intro lane within
  obtain ⟨low, high⟩ := nibbles lane within
  have lowPlace : ((UInt32.ofNat g * 64 + (UInt32.ofNat b * 4 + UInt32.ofNat lane)) * 4).toNat =
      4 * (g * 64 + (b * 4 + lane)) := by
    simp only [UInt32.toNat_mul, UInt32.toNat_add, UInt32.toNat_ofNat', UInt32.reduceToNat]
    omega
  have highPlace : ((UInt32.ofNat g * 64 + 32 + (UInt32.ofNat b * 4 + UInt32.ofNat lane)) *
      4).toNat = 4 * (g * 64 + 32 + (b * 4 + lane)) := by
    simp only [UInt32.toNat_mul, UInt32.toNat_add, UInt32.toNat_ofNat', UInt32.reduceToNat]
    omega
  rw [holds.read lowPlace (by omega), holds.read highPlace (by omega), low, high]
  refine congrArg some (funext fun q => funext fun c => ?_)
  simp only [groupSum, Pi.add_apply, ← Nat.add_assoc, Finset.sum_range_succ]
  ring

/-- A block adds the products of its elements, whatever was added before. -/
theorem columnStep_eq {half : UInt16 → K} {kernel : Kernel K H} {value : H →+* K}
    (exact_ : kernel.Exact value) {p : Params} {wq : List UInt32} {tile : List (Vec4 H)}
    {a : Nat → Rows H} (holds : TileHolds tile a) {kb col : UInt32} {head : BlockHead K}
    (found : readHead half wq (decide (col < p.n)) ((col * p.kb + kb) * 36) = some head)
    {weight : Nat → K}
    (reads : ReadsBlock wq (decide (col < p.n)) ((col * p.kb + kb) * 36) head weight)
    (acc : Rows K) :
    columnStep half kernel p wq tile kb col acc =
      some fun q c => acc q c + ∑ e ∈ Finset.range 256, value (a e q c) * weight e := by
  rw [columnStep, found]
  let after (g : Nat) : Rows K := fun q c =>
    acc q c + ∑ g ∈ Finset.range g, value (groupSum kernel.convert a weight g 32 q c)
  have ran : (List.range 4).foldlM (fun acc g => kernel.flush
      (groupLoop kernel.convert tile wq (decide (col < p.n)) ((col * p.kb + kb) * 36) head
        (UInt32.ofNat g)) acc) acc = some (after 4) := by
    refine foldlM_range_eq after 4 (by simp [after]) ?_
    intro g inside
    rw [exact_.flush fun acc => groupLoop_eq kernel.convert holds reads inside acc]
    refine congrArg some (funext fun q => funext fun c => ?_)
    simp only [after, Finset.sum_range_succ, add_assoc]
  refine ran.trans (congrArg some (funext fun q => funext fun c => ?_))
  rw [← sum_block fun e => value (a e q c) * weight e]
  simp only [after, groupSum, map_sum, map_add, map_mul, exact_.convert]

/-! ## The words of a column -/

/-- A column outside the matrix reads nothing, and adds nothing. -/
theorem readsBlock_unused (half : UInt16 → K) (wq : List UInt32) (base : UInt32) :
    readHead half wq false base = some ⟨(0, 0), 0, 0, 0⟩ ∧
      ReadsBlock wq false base (⟨(0, 0), 0, 0, 0⟩ : BlockHead K) fun _ => 0 := by
  refine ⟨rfl, fun g _ b _ => ⟨0, rfl, fun lane _ => ?_⟩⟩
  simp

/-- A column of the matrix reads the words of its block. -/
theorem readsBlock_used (half : UInt16 → K) (wq : List UInt32) (base : UInt32)
    (block : List UInt8)
    (found : ∀ i < 36, ∀ index : UInt32, index.toNat = base.toNat + i →
      wq[index.toNat]? = some (wordOf block i)) (small : base.toNat + 36 ≤ 2 ^ 32) :
    ∃ head, readHead half wq true base = some head ∧
      ReadsBlock wq true base head (blockWeight half block) := by
  have head_ (i : UInt32) (j : Nat) (place : i.toNat = j) (front : j < 36) :
      wq[(base + i).toNat]? = some (wordOf block j) := by
    apply found j front
    rw [UInt32.toNat_add, place, Nat.mod_eq_of_lt (by omega)]
  have first : wq[base.toNat]? = some (wordOf block 0) := found 0 (by omega) base rfl
  refine ⟨⟨(halfAt half block 0, halfAt half block 2), wordOf block 1, wordOf block 2,
    wordOf block 3⟩, ?_, ?_⟩
  · rw [readHead, if_pos rfl, first, head_ 1 1 rfl (by omega), head_ 2 2 rfl (by omega),
      head_ 3 3 rfl (by omega), ← unpack_wordOf half block]
    rfl
  intro g inside b small'
  refine ⟨wordOf block (4 + g * 8 + b), ?_, fun lane within => ?_⟩
  · rw [readWord, if_pos rfl]
    apply found _ (by omega)
    simp only [UInt32.toNat_mul, UInt32.toNat_add, UInt32.toNat_ofNat', UInt32.reduceToNat]
    omega
  have byte := byte_of_word block (4 + g * 8 + b) within
  have even : (2 : UInt32) * UInt32.ofNat g = UInt32.ofNat (2 * g) := (UInt32.ofNat_mul 2 g).symm
  have odd : UInt32.ofNat (2 * g) + 1 = UInt32.ofNat (2 * g + 1) := (UInt32.ofNat_add (2 * g) 1).symm
  have scaleLow := scaleMin_wordOf block (j := 2 * g) (by omega)
  have scaleHigh := scaleMin_wordOf block (j := 2 * g + 1) (by omega)
  constructor
  · rw [even, blockWeight]
    have group : (g * 64 + (b * 4 + lane)) / 64 = g := by omega
    have rest : (g * 64 + (b * 4 + lane)) % 64 = b * 4 + lane := by omega
    have place : 4 * (4 + g * 8 + b) + lane = 16 + (32 * g + (b * 4 + lane)) := by omega
    dsimp only
    rw [group, rest, if_pos (by omega), toNat_low, byte, place, ← scaleLow]
  · rw [even, odd, blockWeight]
    have group : (g * 64 + 32 + (b * 4 + lane)) / 64 = g := by omega
    have rest : (g * 64 + 32 + (b * 4 + lane)) % 64 = 32 + (b * 4 + lane) := by omega
    have back : 32 + (b * 4 + lane) - 32 = b * 4 + lane := by omega
    have place : 4 * (4 + g * 8 + b) + lane = 16 + (32 * g + (b * 4 + lane)) := by omega
    dsimp only
    rw [group, rest, if_neg (by omega), back, UInt32.toNat_shiftRight, byte, place, ← scaleHigh]
    rfl

end AiCoreStack.Serving.GpuGemm
