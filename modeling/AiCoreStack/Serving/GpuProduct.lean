import AiCoreStack.Serving.GpuDispatch

/-!
# The product and its reference

The product that the GPU computes is the product of the activations with the dequantized weights,
for both shaders and for every order of the writes.
-/

namespace AiCoreStack.Serving.GpuGemm

open Foundation
open scoped List

variable {K H : Type} [Field K] [CommRing H]

/-- A cell of the product of the activations with the transposed weights. -/
def referenceCell (half : UInt16 → K) (data : List UInt8) (a : List K) (k i j : Nat) : K :=
  ∑ e ∈ Finset.range k, a.getD (i * k + e) 0 * weightAt half data k j e

/-- The product of the activations with the transposed weights, row by row. -/
def reference (half : UInt16 → K) (data : List UInt8) (a : List K) (m n k : Nat) : List K :=
  (List.range m).flatMap fun i => (List.range n).map (referenceCell half data a k i)

/-- The writes of all chunks, at their places in the output. -/
def placed (n : Nat) (writes : List (List (Nat × K))) : List (Nat × K) :=
  writes.zipIdx.flatMap fun (chunk, i) => chunk.map fun write => (i * 1024 * n + write.1, write.2)

omit [Field K] in
theorem placed_append (n : Nat) (writes : List (List (Nat × K))) (chunk : List (Nat × K)) :
    placed n (writes ++ [chunk]) = placed n writes ++
      chunk.map fun write => (writes.length * 1024 * n + write.1, write.2) := by
  rw [placed, List.zipIdx_append, List.flatMap_append, placed]
  simp

/-! ## A chunk -/

section Chunk

variable {half : UInt16 → K} {kernel : Kernel K H} {value : H →+* K}

/-- The activations of a chunk as they are loaded. -/
def loadedRow (kernel : Kernel K H) (aChunk : List K) (k rows e r : Nat) : H :=
  if r < rows then kernel.upload (aChunk.getD (r * k + e) 0) else 0

theorem transposed_eq {aChunk : List K} {k rows mp : Nat} (long : aChunk.length = rows * k)
    (positive : 0 < mp) :
    transposed kernel aChunk k rows mp =
      some ((List.range k).flatMap fun e =>
        (List.range mp).map (loadedRow kernel aChunk k rows e)) := by
  refine parChunks_mul positive fun e inside => mapM_eq_some fun r _ => ?_
  rw [loadedRow]
  split_ifs with row
  · have part : r * k + k ≤ rows * k := part_inside row
    rw [List.getD_eq_getElem?_getD, List.getElem?_eq_getElem (by omega)]
    rfl
  · rfl

/-- A cell of a chunk is a cell of the reference. -/
theorem cell_loadedRow (exact_ : kernel.Exact value) (data : List UInt8) (a : List K)
    {start rows n k t : Nat} (inside : t < rows * n) :
    cell value (loadedRow kernel (slice a (start * k) (rows * k)) k rows) (weightAt half data k) k n
        t =
      referenceCell half data a k (start + t / n) (t % n) := by
  have row : t / n < rows := Nat.div_lt_of_lt_mul (Nat.mul_comm rows n ▸ inside)
  have part : t / n * k + k ≤ rows * k := part_inside row
  refine Finset.sum_congr rfl fun e member => ?_
  have element := Finset.mem_range.mp member
  rw [loadedRow, if_pos row, exact_.upload, List.getD_eq_getElem?_getD,
    getElem?_slice _ _ (by omega), ← Nat.add_assoc, ← Nat.add_mul, ← List.getD_eq_getElem?_getD]

/-- The rows of the first chunks are filled, and every cell of them was written once. -/
structure Filled (half : UInt16 → K) (data : List UInt8) (a : List K) (m n k i : Nat)
    (progress : Progress K) : Prop where
  long : progress.out.length = m * n
  chunks : progress.writes.length = i
  front : ∀ t < min (i * 1024) m * n,
    progress.out[t]? = some (referenceCell half data a k (t / n) (t % n))
  once : WritesOnce (min (i * 1024) m * n) (placed n progress.writes)

/-- The sizes for which every index of a buffer fits into a word. -/
structure Sizes (m n k : Nat) : Prop where
  columns : 0 < n
  deep : 0 < k
  blocks : k % 256 = 0
  weights : n * (k / 256) * 36 ≤ 2 ^ 32
  activations : k * ((min m 1024 + 16 - 1) / 16 * 16 / 4) ≤ 2 ^ 32
  outputs : min m 1024 * n ≤ 2 ^ 32

/-- The cells of the next rows, each written once, extend the rows that are filled. -/
theorem Filled.place {data : List UInt8} {a : List K} {m n k i : Nat} {progress : Progress K}
    (filled : Filled half data a m n k i progress) (columns : 0 < n) {start rows : Nat}
    (starts : start = i * 1024) (reached : min (i * 1024) m = start)
    (reaches : min ((i + 1) * 1024) m = start + rows) (fits : start * n + rows * n ≤ m * n)
    {out : List K} {writes : List (Nat × K)} (long : out.length = rows * n)
    (cells : ∀ u < rows * n,
      out[u]? = some (referenceCell half data a k (start + u / n) (u % n)))
    (once : WritesOnce (rows * n) writes) (pool : List K) :
    Filled half data a m n k (i + 1)
      ⟨splice progress.out (start * n) out, pool, progress.writes ++ [writes]⟩ := by
  have inside : start * n + out.length ≤ progress.out.length := by
    rw [long, filled.long]
    exact fits
  constructor
  · exact (length_splice inside).trans filled.long
  · rw [List.length_append, filled.chunks, List.length_singleton]
  · intro t below
    rw [reaches, Nat.add_mul] at below
    rw [getElem?_splice inside, long]
    split_ifs with within
    · obtain ⟨u, rfl⟩ := Nat.exists_eq_add_of_le within.1
      have quotient : (start * n + u) / n = start + u / n := by
        rw [Nat.mul_comm, Nat.mul_add_div columns]
      have remainder : (start * n + u) % n = u % n := by
        rw [Nat.mul_comm, Nat.mul_add_mod]
      rw [Nat.add_sub_cancel_left, quotient, remainder]
      exact cells u (by omega)
    · exact filled.front t (by rw [reached]; omega)
  · have earlier := filled.once
    rw [reached] at earlier
    have later : (writes.map fun write => (start * n + write.1, write.2)).map Prod.fst ~
        (List.range (rows * n)).map (start * n + ·) := by
      have moved := once.map (start * n + ·)
      rwa [List.map_map] at moved ⊢
    rw [placed_append, filled.chunks, ← starts, reaches, WritesOnce, List.map_append, Nat.add_mul,
      List.range_add]
    exact earlier.append later

/-- A chunk fills its rows. -/
theorem chunkStep_filled (schedule : Schedule) (exact_ : kernel.Exact value) {data : List UInt8}
    {a : List K} {m n k : Nat} (sizes : Sizes m n k) (long : data.length = n * (k / 256) * 144)
    (activations : a.length = m * k) {i : Nat} (inside : i < (m + 1024 - 1) / 1024)
    {progress : Progress K} (filled : Filled half data a m n k i progress) :
    ∃ next, chunkStep half kernel schedule ⟨words data, n, k⟩ a m progress i = some next ∧
      Filled half data a m n k (i + 1) next := by
  obtain ⟨start, starts⟩ : ∃ start, start = i * 1024 := ⟨_, rfl⟩
  obtain ⟨rows, counted⟩ : ∃ rows, rows = min 1024 (m - start) := ⟨_, rfl⟩
  obtain ⟨mp, padded⟩ : ∃ mp, mp = (rows + 16 - 1) / 16 * 16 := ⟨_, rfl⟩
  have before : start < m := by omega
  have after : start + rows ≤ m := by omega
  have reached : min (i * 1024) m = start := by omega
  have reaches : min ((i + 1) * 1024) m = start + rows := by
    rw [Nat.succ_mul, ← starts, counted]
    omega
  have small : rows ≤ min m 1024 := by omega
  have sliceRows (width : Nat) : start * width + rows * width ≤ m * width := by
    rw [← Nat.add_mul]
    exact Nat.mul_le_mul_right width after
  have aRange : range? a (start * k) ((start + rows) * k) =
      some (slice a (start * k) (rows * k)) := by
    rw [Nat.add_mul]
    exact range?_eq_some (activations ▸ sliceRows k)
  have outRange : range? progress.out (start * n) ((start + rows) * n) =
      some (slice progress.out (start * n) (rows * n)) := by
    rw [Nat.add_mul]
    exact range?_eq_some (filled.long ▸ sliceRows n)
  have aLong : (slice a (start * k) (rows * k)).length = rows * k :=
    length_slice (activations ▸ sliceRows k)
  have loaded : transposed kernel (slice a (start * k) (rows * k)) k rows mp = _ :=
    transposed_eq aLong (by omega)
  obtain ⟨done, ran, out, once⟩ := dispatch_eq half schedule exact_ long sizes.blocks sizes.columns
    sizes.deep (by omega : rows ≤ 1024) sizes.weights
    ((Nat.mul_le_mul_left k (by omega)).trans sizes.activations)
    ((Nat.mul_le_mul_right n small).trans sizes.outputs)
    (loadedRow kernel (slice a (start * k) (rows * k)) k rows) progress.pool
  rw [← padded] at ran
  refine ⟨⟨splice progress.out (start * n) done.out, done.pool, progress.writes ++ [done.writes]⟩,
    ?_, ?_⟩
  · rw [chunkStep]
    dsimp only
    rw [← starts, ← counted, ← padded, aRange, outRange]
    refine (congrArg (Option.bind · _) loaded).trans ?_
    exact congrArg (Option.bind · _) ran
  · refine filled.place sizes.columns starts reached reaches (sliceRows n) ?_ ?_ once done.pool
    · rw [out, List.length_map, List.length_range]
    · intro u inner
      rw [out, List.getElem?_map, List.getElem?_range inner]
      exact congrArg some (cell_loadedRow exact_ data a inner)

theorem gemm_filled (schedule : Schedule) (exact_ : kernel.Exact value) {data : List UInt8}
    {a : List K} {m n k : Nat} (sizes : Sizes m n k) (long : data.length = n * (k / 256) * 144)
    (activations : a.length = m * k) (positive : 0 < m) (pool : List K) :
    ∃ result, gemm half kernel schedule ⟨words data, n, k⟩ a m pool = some result ∧
      result.out = reference half data a m n k ∧ WritesOnce (m * n) (placed n result.writes) := by
  have begin_ : Filled half data a m n k 0 ⟨List.replicate (m * n) 0, pool, []⟩ := by
    constructor
    · exact List.length_replicate
    · rfl
    · intro t below
      rw [Nat.zero_mul, Nat.zero_min, Nat.zero_mul] at below
      exact absurd below (Nat.not_lt_zero t)
    · rw [Nat.zero_mul, Nat.zero_min, Nat.zero_mul]
      exact List.Perm.refl []
  obtain ⟨result, ran, filled⟩ := foldlM_range (Filled half data a m n k)
    ((m + 1024 - 1) / 1024) begin_ fun i inside progress held =>
      chunkStep_filled schedule exact_ sizes long activations inside held
  have all : min ((m + 1024 - 1) / 1024 * 1024) m = m := by omega
  refine ⟨result, ?_, ?_, ?_⟩
  · rw [gemm, if_neg (not_or.mpr ⟨not_not.mpr activations, positive.ne'⟩)]
    exact ran
  · refine eq_flatMap_range (by simp) filled.long fun i row j column_ => ?_
    have part : i * n + n ≤ m * n := part_inside row
    rw [filled.front _ (by rw [all]; omega), div_part column_, mod_part column_,
      List.getElem?_map, List.getElem?_range column_]
    rfl
  · have once := filled.once
    rwa [all] at once

end Chunk

/-- What the call computes: the reference, with every cell of the output written exactly once.
Every read is checked, so none is outside its buffer. -/
def MatchesReference (half : UInt16 → K) (kernel : Kernel K H) (schedule : Schedule)
    (data : List UInt8) (a : List K) (m n k : Nat) (pool : List K) : Prop :=
  ∃ weight result, uploadWeight data n k = some weight ∧
    gemm half kernel schedule weight a m pool = some result ∧
    result.out = reference half data a m n k ∧ WritesOnce (m * n) (placed n result.writes)

/-- Both shaders compute the reference. -/
theorem gemm_matches_reference (half : UInt16 → K) (schedule : Schedule) {data : List UInt8}
    {a : List K} {m n k : Nat} (sizes : Sizes m n k) (long : data.length = n * (k / 256) * 144)
    (activations : a.length = m * k) (positive : 0 < m) (pool : List K) :
    MatchesReference half shader schedule data a m n k pool ∧
      ∀ {H : Type} [CommRing H] (format : HalfFormat K H) (value : H →+* K), format.Exact value →
        MatchesReference half (shaderF16 format) schedule data a m n k pool := by
  have uploaded : uploadWeight data n k = some ⟨words data, n, k⟩ := by
    rw [uploadWeight, if_neg (by rw [sizes.blocks]; decide), if_neg (by omega)]
  constructor
  · obtain ⟨result, ran, filled⟩ := gemm_filled schedule shader_exact sizes long activations positive
      pool
    exact ⟨_, result, uploaded, ran, filled⟩
  · intro H _ format value exact_
    obtain ⟨result, ran, filled⟩ := gemm_filled schedule (shaderF16_exact exact_) sizes long
      activations positive pool
    exact ⟨_, result, uploaded, ran, filled⟩

/-- Half precision that is as precise as single precision. -/
def sameFormat : HalfFormat K K := ⟨id, id, id⟩

/-- Two row tiles and a partial group of columns, of blocks whose bytes are all the same. -/
theorem gemm_matches_reference_seventeen :
    MatchesReference (fun bits => (bits.toNat : ℚ)) shader Schedule.inOrder
        (List.replicate (65 * 2 * 144) 0x53) (List.replicate (17 * 512) (3 : ℚ)) 17 65 512 [] ∧
      MatchesReference (fun bits => (bits.toNat : ℚ)) (shaderF16 sameFormat) Schedule.inOrder
        (List.replicate (65 * 2 * 144) 0x53) (List.replicate (17 * 512) (3 : ℚ)) 17 65 512 [] := by
  have sizes : Sizes 17 65 512 := by constructor <;> decide
  have product := gemm_matches_reference (fun bits => (bits.toNat : ℚ)) Schedule.inOrder sizes
    (List.length_replicate (n := 65 * 2 * 144) (a := (0x53 : UInt8)))
    (List.length_replicate (n := 17 * 512) (a := (3 : ℚ))) (by decide) []
  exact ⟨product.1, product.2 sameFormat (RingHom.id ℚ) ⟨fun _ => rfl, fun _ => rfl, fun _ => rfl⟩⟩

end AiCoreStack.Serving.GpuGemm
