import AiCoreStack.Serving.GpuColumns

/-!
# A workgroup

The threads of a workgroup load a tile for each block, and then every thread adds the block to its
columns.  After all blocks the accumulators are the products, and the threads write those of the
columns and rows inside the matrix.
-/

namespace AiCoreStack.Serving.GpuGemm

open Foundation
open scoped List

variable {K H : Type} [Field K] [CommRing H]

/-! ## Tiles -/

/-- A buffer of vectors holds the numbers `x e r`, element by element. -/
def Holds (a : List (Vec4 H)) (stride count : Nat) (x : Nat → Nat → H) : Prop :=
  ∀ e < count, ∀ v < stride, a[e * stride + v]? = some fun c => x e (4 * v + c.val)

/-- The rows of an element of a block. -/
def tileRows (x : Nat → Nat → H) (wgY kb e : Nat) : Rows H := fun q c =>
  x (kb * 256 + e) (4 * (wgY * 4 + q.val) + c.val)

/-- A vector of the tile. -/
def tileVector (x : Nat → Nat → H) (wgY kb t : Nat) : Vec4 H := fun c =>
  x (kb * 256 + t / 4) (4 * (wgY * 4 + t % 4) + c.val)

section Load

variable {p : Params} {a : List (Vec4 H)} {x : Nat → Nat → H} {count wgY kb : Nat}

omit [CommRing H] in
theorem tileWrites_eq (holds : Holds a p.mp4.toNat count x) (inside : kb * 256 + 256 ≤ count)
    (rows : wgY * 4 + 4 ≤ p.mp4.toNat) (small : count * p.mp4.toNat ≤ 2 ^ 32) {lid : Nat}
    (thread : lid < 64) :
    tileWrites p a (UInt32.ofNat wgY) (UInt32.ofNat kb) lid =
      some ((List.range' lid 16 64).map fun t => (t, tileVector x wgY kb t)) := by
  apply mapM_eq_some
  intro t member
  obtain ⟨i, step, rfl⟩ := List.mem_range'.mp member
  have low : lid + 64 * i < 1024 := by omega
  generalize lid + 64 * i = t at low
  have element : kb * 256 + t / 4 < count := by omega
  have vector : wgY * 4 + t % 4 < p.mp4.toNat := by omega
  have part : (kb * 256 + t / 4) * p.mp4.toNat + p.mp4.toNat ≤ count * p.mp4.toNat :=
    part_inside element
  have most : count ≤ count * p.mp4.toNat := Nat.le_mul_of_pos_right _ (by omega)
  have stride := UInt32.toNat_lt p.mp4
  have place : ((UInt32.ofNat kb * 256 + UInt32.ofNat t / 4) * p.mp4 + UInt32.ofNat wgY * 4 +
      UInt32.ofNat t % 4).toNat = (kb * 256 + t / 4) * p.mp4.toNat + (wgY * 4 + t % 4) := by
    have front : (UInt32.ofNat kb * 256 + UInt32.ofNat t / 4).toNat = kb * 256 + t / 4 := by
      simp only [UInt32.toNat_mul, UInt32.toNat_add, UInt32.toNat_div, UInt32.toNat_ofNat',
        UInt32.reduceToNat]
      omega
    have back : (UInt32.ofNat wgY * 4).toNat = wgY * 4 ∧ (UInt32.ofNat t % 4).toNat = t % 4 := by
      simp only [UInt32.toNat_mul, UInt32.toNat_mod, UInt32.toNat_ofNat', UInt32.reduceToNat]
      omega
    have scaled : ((UInt32.ofNat kb * 256 + UInt32.ofNat t / 4) * p.mp4).toNat =
        (kb * 256 + t / 4) * p.mp4.toNat := by
      rw [UInt32.toNat_mul, front, Nat.mod_eq_of_lt (by omega)]
    simp only [UInt32.toNat_add, scaled, back]
    omega
  have same : (UInt32.ofNat t).toNat = t := by
    rw [UInt32.toNat_ofNat', Nat.mod_eq_of_lt (by omega)]
  dsimp only
  rw [place, holds _ element _ vector, same]
  rfl

/-- The tile after the barrier, in whatever order the threads wrote it. -/
theorem loadTile_holds (schedule : Schedule) (holds : Holds a p.mp4.toNat count x)
    (inside : kb * 256 + 256 ≤ count) (rows : wgY * 4 + 4 ≤ p.mp4.toNat)
    (small : count * p.mp4.toNat ≤ 2 ^ 32) :
    ∃ tile, loadTile p schedule a (UInt32.ofNat wgY) (UInt32.ofNat kb) = some tile ∧
      TileHolds tile (tileRows x wgY kb) := by
  let writes (lid : Nat) := (List.range' lid 16 64).map fun t => (t, tileVector x wgY kb t)
  have loaded : (List.range 64).mapM (tileWrites p a (UInt32.ofNat wgY) (UInt32.ofNat kb)) =
      some ((List.range 64).map writes) :=
    mapM_eq_some fun lid member => tileWrites_eq holds inside rows small (List.mem_range.mp member)
  have flat : ((List.range 64).map writes).flatten = (List.range 64).flatMap writes :=
    List.flatMap_def.symm
  have once : WritesOnce 1024 ((List.range 64).map writes).flatten := by
    rw [WritesOnce, flat, List.map_flatMap]
    refine List.Perm.trans (List.Perm.of_eq ?_) (strided_perm 64 16)
    apply List.flatMap_congr
    intro lid _
    rw [List.map_map]
    apply List.ext_getElem <;> simp
  have values : ∀ write ∈ ((List.range 64).map writes).flatten,
      write.2 = tileVector x wgY kb write.1 := by
    intro write member
    rw [flat] at member
    obtain ⟨lid, -, member⟩ := List.mem_flatMap.mp member
    obtain ⟨t, -, rfl⟩ := List.mem_map.mp member
    rfl
  obtain ⟨tile, ran, long, front⟩ := scatter_once
    (List.replicate 1024 fun _ => (0 : H)) once
    (schedule.perm ((List.range 64).map writes).flatten) (by rw [List.length_replicate]) values
  refine ⟨tile, ?_, fun e within q => ?_⟩
  · rw [loadTile, loaded]
    exact ran
  rw [List.length_replicate] at long
  have below : 4 * e + q.val < 1024 := by omega
  have quotient : (4 * e + q.val) / 4 = e := by omega
  have remainder : (4 * e + q.val) % 4 = q.val := by omega
  rw [← List.getElem?_take_of_lt below, front, List.getElem?_map, List.getElem?_range below]
  refine congrArg some (funext fun c => ?_)
  rw [tileVector, quotient, remainder, tileRows]

end Load

/-! ## Threads -/

theorem zipIdx_map_range {α : Type} (f : Nat → α) (count : Nat) :
    ((List.range count).map f).zipIdx = (List.range count).map fun i => (f i, i) := by
  apply List.ext_getElem <;> simp

/-- A weight of a column, or zero outside the matrix. -/
def columnWeight (p : Params) (weight : Nat → Nat → K) (col : UInt32) (e : Nat) : K :=
  if col < p.n then weight col.toNat e else 0

/-- What the threads read of the columns are the weights. -/
def ReadsColumns (half : UInt16 → K) (p : Params) (wq : List UInt32) (weight : Nat → Nat → K) :
    Prop :=
  ∀ (col : UInt32), ∀ kb < p.kb.toNat, ∃ head,
    readHead half wq (decide (col < p.n)) ((col * p.kb + UInt32.ofNat kb) * 36) = some head ∧
      ReadsBlock wq (decide (col < p.n)) ((col * p.kb + UInt32.ofNat kb) * 36) head
        fun e => columnWeight p weight col (kb * 256 + e)

/-- The sums of the products over the first elements. -/
def products (value : H →+* K) (p : Params) (x : Nat → Nat → H) (weight : Nat → Nat → K)
    (wgY : Nat) (col : UInt32) (count : Nat) : Rows K := fun q c =>
  ∑ e ∈ Finset.range count, value (x e (4 * (wgY * 4 + q.val) + c.val)) *
    columnWeight p weight col e

section Threads

variable {half : UInt16 → K} {kernel : Kernel K H} {value : H →+* K} {p : Params}
  {wq : List UInt32} {a : List (Vec4 H)} {x : Nat → Nat → H} {weight : Nat → Nat → K}

/-- A block of a column extends its products. -/
theorem columnStep_products (exact_ : kernel.Exact value) (reads : ReadsColumns half p wq weight)
    {tile : List (Vec4 H)} {wgY kb : Nat} (holds : TileHolds tile (tileRows x wgY kb))
    (inside : kb < p.kb.toNat) (col : UInt32) :
    columnStep half kernel p wq tile (UInt32.ofNat kb) col
        (products value p x weight wgY col (kb * 256)) =
      some (products value p x weight wgY col ((kb + 1) * 256)) := by
  obtain ⟨head, found, block⟩ := reads col kb inside
  rw [columnStep_eq exact_ holds found block]
  refine congrArg some (funext fun q => funext fun c => ?_)
  rw [products, products, Nat.succ_mul kb, Finset.sum_range_add]
  rfl

/-- What a workgroup writes. -/
theorem workgroup_eq (schedule : Schedule) (exact_ : kernel.Exact value)
    (reads : ReadsColumns half p wq weight)
    (holds : Holds a p.mp4.toNat (p.kb.toNat * 256) x)
    (small : p.kb.toNat * 256 * p.mp4.toNat ≤ 2 ^ 32) (wgX : UInt32) {wgY : Nat}
    (rows : wgY * 4 + 4 ≤ p.mp4.toNat) :
    workgroup half kernel p wq schedule a wgX (UInt32.ofNat wgY) =
      some ((List.range 64).flatMap fun lid => (List.range kernel.cols).flatMap fun s =>
        columnWrites p (UInt32.ofNat wgY) (column kernel wgX lid s)
          (products value p x weight wgY (column kernel wgX lid s) (p.kb.toNat * 256))) := by
  let accs (done : Nat) := (List.range 64).map fun lid => (List.range kernel.cols).map fun s =>
    products value p x weight wgY (column kernel wgX lid s) (done * 256)
  have begin_ : List.replicate 64 (List.replicate kernel.cols (fun _ _ => 0 : Rows K)) =
      accs 0 := by
    have zero (col : UInt32) : products value p x weight wgY col (0 * 256) = fun _ _ => 0 := by
      funext q c
      simp [products]
    simp only [accs, zero, List.map_const', List.length_range]
  have ran : (List.range p.kb.toNat).foldlM (fun accs kb => do
      let tile ← loadTile p schedule a (UInt32.ofNat wgY) (UInt32.ofNat kb)
      accs.zipIdx.mapM fun thread => thread.1.zipIdx.mapM fun entry =>
        columnStep half kernel p wq tile (UInt32.ofNat kb) (column kernel wgX thread.2 entry.2)
          entry.1)
      (List.replicate 64 (List.replicate kernel.cols (fun _ _ => 0 : Rows K))) =
      some (accs p.kb.toNat) := by
    refine foldlM_range_eq accs _ begin_ fun kb inside => ?_
    obtain ⟨tile, loaded, held⟩ := loadTile_holds schedule holds
      (by omega : kb * 256 + 256 ≤ p.kb.toNat * 256) rows small
    have thread (lid : Nat) : (((List.range kernel.cols).map fun s => products value p x weight
        wgY (column kernel wgX lid s) (kb * 256)).zipIdx.mapM fun entry =>
          columnStep half kernel p wq tile (UInt32.ofNat kb) (column kernel wgX lid entry.2)
            entry.1) =
        some ((List.range kernel.cols).map fun s => products value p x weight wgY
          (column kernel wgX lid s) ((kb + 1) * 256)) := by
      rw [zipIdx_map_range, List.mapM_map]
      exact mapM_eq_some fun s _ => columnStep_products exact_ reads held inside _
    rw [loaded, zipIdx_map_range]
    refine (List.mapM_map ..).trans ?_
    exact mapM_eq_some fun lid _ => thread lid
  refine (congrArg (Option.bind · _) ran).trans (congrArg some ?_)
  rw [zipIdx_map_range, List.flatMap_map]
  refine List.flatMap_congr fun lid _ => ?_
  dsimp only
  rw [zipIdx_map_range, List.flatMap_map]

end Threads

end AiCoreStack.Serving.GpuGemm
