import AiCoreStack.Foundation.Scatter

/-!
# The matrix product on the GPU

Model of `gpu_gemm.rs`: the two shaders, and the host code that cuts the activations into chunks,
transposes and pads them, and starts the workgroups.  A shader computes indices in `u32` and reads
its buffers with checked bounds.  All writes to a tile happen, in some order, before the barrier
that its reads are behind.  Numbers are from a field in place of `f32`; devices do not fail.
-/

namespace AiCoreStack.Serving.GpuGemm

open Foundation

/-- `vec4`. -/
abbrev Vec4 (α : Type) := Fin 4 → α

/-- Sixteen rows in four vectors. -/
abbrev Rows (α : Type) := Fin 4 → Vec4 α

/-- The uniform parameters. -/
structure Params where
  m : UInt32
  mp4 : UInt32
  n : UInt32
  kb : UInt32

/-! ## The shaders -/

/-- `scale_min`: the six-bit scale and minimum of a sub-block. -/
def scaleMin (j s0 s1 s2 : UInt32) : UInt32 × UInt32 :=
  if j < 4 then
    let sj := (s0 >>> (8 * j)) &&& 0xff
    let sj4 := (s1 >>> (8 * j)) &&& 0xff
    let sc := sj &&& (63 : UInt32)
    let mn := sj4 &&& (63 : UInt32)
    (sc, mn)
  else
    let j4 := j - 4
    let sj8 := (s2 >>> (8 * j4)) &&& 0xff
    let sjm4 := (s0 >>> (8 * j4)) &&& 0xff
    let sj := (s1 >>> (8 * j4)) &&& 0xff
    let sc := (sj8 &&& (0xf : UInt32)) ||| ((sjm4 >>> 6) <<< 4)
    let mn := (sj8 >>> 4) ||| ((sj >>> 6) <<< 4)
    (sc, mn)

/-- What a thread holds of a block: the two factors and the words of the scales. -/
structure BlockHead (K : Type) where
  d : K × K
  s0 : UInt32
  s1 : UInt32
  s2 : UInt32

section Shader

variable {K H : Type} [Field K] [CommRing H] (half : UInt16 → K)

/-- `unpack2x16float`. -/
def unpack2x16float (word : UInt32) : K × K := (half word.toUInt16, half (word >>> 16).toUInt16)

/-- The front of a block, or zeros for a column outside the matrix. -/
def readHead (wq : List UInt32) (use : Bool) (base : UInt32) : Option (BlockHead K) :=
  if use then do
    let word ← wq[base.toNat]?
    let s0 ← wq[(base + 1).toNat]?
    let s1 ← wq[(base + 2).toNat]?
    let s2 ← wq[(base + 3).toNat]?
    pure ⟨unpack2x16float half word, s0, s1, s2⟩
  else some ⟨(0, 0), 0, 0, 0⟩

/-- A word of nibbles, or zero for a column outside the matrix. -/
def readWord (wq : List UInt32) (use : Bool) (index : UInt32) : Option UInt32 :=
  if use then wq[index.toNat]? else some 0

/-- The four vectors of an element in the tile. -/
def readTile (tile : List (Vec4 H)) (e : UInt32) : Option (Rows H) := do
  let a0 ← tile[e.toNat]?
  let a1 ← tile[(e + 1).toNat]?
  let a2 ← tile[(e + 2).toNat]?
  let a3 ← tile[(e + 3).toNat]?
  pure ![a0, a1, a2, a3]

/-- A group of 64 elements of a column. -/
def groupLoop (convert : K → H) (tile : List (Vec4 H)) (wq : List UInt32) (use : Bool)
    (base : UInt32) (head : BlockHead K) (g : UInt32) (acc : Rows H) : Option (Rows H) :=
  let sml := scaleMin (2 * g) head.s0 head.s1 head.s2
  let smh := scaleMin (2 * g + 1) head.s0 head.s1 head.s2
  let wloS := head.d.1 * (sml.1.toNat : K)
  let wloM := head.d.2 * (sml.2.toNat : K)
  let whiS := head.d.1 * (smh.1.toNat : K)
  let whiM := head.d.2 * (smh.2.toNat : K)
  (List.range 8).foldlM (fun acc b => do
    let b := UInt32.ofNat b
    let word ← readWord wq use (base + 4 + g * 8 + b)
    (List.range 4).foldlM (fun acc lane => do
      let lane := UInt32.ofNat lane
      let bi := b * 4 + lane
      let alo ← readTile tile ((g * 64 + bi) * 4)
      let ahi ← readTile tile ((g * 64 + 32 + bi) * 4)
      let byte := (word >>> (8 * lane)) &&& 0xff
      let wlo := convert (wloS * ((byte &&& 0xf).toNat : K) - wloM)
      let whi := convert (whiS * ((byte >>> 4).toNat : K) - whiM)
      pure fun q c => acc q c + (alo q c * wlo + ahi q c * whi)) acc) acc

/-- How the two shaders differ: the columns of a thread, the numbers of the tile, and what a group
does with the accumulators. -/
structure Kernel (K H : Type) [Field K] [CommRing H] where
  cols : Nat
  upload : K → H
  convert : K → H
  flush : (Rows H → Option (Rows H)) → Rows K → Option (Rows K)

/-- `SHADER`: four columns in single precision, a group adds to the accumulators. -/
def shader : Kernel K K where
  cols := 4
  upload x := x
  convert x := x
  flush loop acc := loop acc

/-- What half precision is called for: the conversions of the host and of the shader. -/
structure HalfFormat (K H : Type) where
  fromF32 : K → H
  f16 : K → H
  f32 : H → K

/-- `SHADER_F16`: two columns in half precision, the sum of a group is added in single precision. -/
def shaderF16 (format : HalfFormat K H) : Kernel K H where
  cols := 2
  upload := format.fromF32
  convert := format.f16
  flush loop acc := (loop fun _ _ => 0).map fun h q c => acc q c + format.f32 (h q c)

variable (kernel : Kernel K H) (p : Params) (wq : List UInt32)

/-- A block of a column. -/
def columnStep (tile : List (Vec4 H)) (kb col : UInt32) (acc : Rows K) : Option (Rows K) := do
  let use : Bool := col < p.n
  let base := (col * p.kb + kb) * 36
  let head ← readHead half wq use base
  (List.range 4).foldlM (fun acc g =>
    kernel.flush (groupLoop kernel.convert tile wq use base head (UInt32.ofNat g)) acc) acc

/-- What a thread loads into the tile. -/
def tileWrites (a : List (Vec4 H)) (wgY kb : UInt32) (lid : Nat) :
    Option (List (Nat × Vec4 H)) :=
  (List.range' lid 16 64).mapM fun t => do
    let t := UInt32.ofNat t
    let value ← a[((kb * 256 + t / 4) * p.mp4 + wgY * 4 + t % 4).toNat]?
    pure (t.toNat, value)

/-- The tile after the first barrier. -/
def loadTile (schedule : Schedule) (a : List (Vec4 H)) (wgY kb : UInt32) :
    Option (List (Vec4 H)) := do
  let writes ← (List.range 64).mapM (tileWrites p a wgY kb)
  scatter (List.replicate 1024 fun _ => 0) (schedule.arrange writes.flatten)

/-- A column of a thread. -/
def column (kernel : Kernel K H) (wgX : UInt32) (lid s : Nat) : UInt32 :=
  wgX * UInt32.ofNat (64 * kernel.cols) + UInt32.ofNat lid + UInt32.ofNat (64 * s)

/-- What a thread writes of a column. -/
def columnWrites (wgY col : UInt32) (acc : Rows K) : List (Nat × K) :=
  let row0 := wgY * 16
  let rows := min 16 (p.m - row0)
  if col < p.n then
    (List.range rows.toNat).map fun r =>
      (((row0 + UInt32.ofNat r) * p.n + col).toNat, acc (Fin.ofNat 4 (r / 4)) (Fin.ofNat 4 (r % 4)))
  else []

/-- `main` of a workgroup: the accumulators of all threads, block by block, and then what they
write. -/
def workgroup (schedule : Schedule) (a : List (Vec4 H)) (wgX wgY : UInt32) :
    Option (List (Nat × K)) := do
  let accs ← (List.range p.kb.toNat).foldlM (fun accs kb => do
    let kb := UInt32.ofNat kb
    let tile ← loadTile p schedule a wgY kb
    accs.zipIdx.mapM fun (thread, lid) => thread.zipIdx.mapM fun (acc, s) =>
      columnStep half kernel p wq tile kb (column kernel wgX lid s) acc)
    (List.replicate 64 (List.replicate kernel.cols (fun _ _ => 0 : Rows K)))
  pure (accs.zipIdx.flatMap fun (thread, lid) => thread.zipIdx.flatMap fun (acc, s) =>
    columnWrites p wgY (column kernel wgX lid s) acc)

end Shader

/-! ## The host -/

/-- Little-endian words of a buffer of bytes. -/
def words : List UInt8 → List UInt32
  | b0 :: b1 :: b2 :: b3 :: rest =>
      UInt32.ofNat (b0.toNat + 2 ^ 8 * b1.toNat + 2 ^ 16 * b2.toNat + 2 ^ 24 * b3.toNat) ::
        words rest
  | _ => []

structure GpuWeight where
  buffer : List UInt32
  n : Nat
  k : Nat

/-- `upload_weight`, of a tensor in `Q4_K` with two dimensions. -/
def uploadWeight (data : List UInt8) (n k : Nat) : Option GpuWeight :=
  if k % 256 ≠ 0 then none
  else if data.length ≠ n * (k / 256) * 36 * 4 then none
  else some ⟨words data, n, k⟩

/-- `ensure_buffer`, for buffers of numbers: a buffer that is too small is replaced. -/
def ensureBuffer {α : Type} [Zero α] (slot : List α) (size : Nat) : List α :=
  if slot.length < size then List.replicate (max (2 ^ Nat.clog 2 size) (2 ^ 14)) 0 else slot

section Host

variable {K H : Type} [Field K] [CommRing H] (half : UInt16 → K) (kernel : Kernel K H)
variable (schedule : Schedule) (weight : GpuWeight)

/-- A buffer of numbers as one of vectors. -/
def vectors (buffer : List H) : List (Vec4 H) :=
  (List.range (buffer.length / 4)).map fun i c => buffer.getD (4 * i + c.val) 0

/-- The chunk of the output, the buffer that stays in the pool, and what was written to it. -/
structure Dispatched (K : Type) where
  out : List K
  pool : List K
  writes : List (Nat × K)

/-- `dispatch`. -/
def dispatch (a : List H) (m mp : Nat) (pool : List K) : Option (Dispatched K) := do
  let p : Params := ⟨UInt32.ofNat m, UInt32.ofNat (mp / 4), UInt32.ofNat weight.n,
    UInt32.ofNat (weight.k / 256)⟩
  let colsPerWg := 64 * kernel.cols
  let wgX := UInt32.ofNat ((weight.n + colsPerWg - 1) / colsPerWg)
  let wgY := UInt32.ofNat ((m + 16 - 1) / 16)
  let writes ← (List.range wgX.toNat).mapM fun x => (List.range wgY.toNat).mapM fun y =>
    workgroup half kernel p weight.buffer schedule (vectors a) (UInt32.ofNat x) (UInt32.ofNat y)
  let writes := (writes.map List.flatten).flatten
  let c ← scatter (ensureBuffer pool (m * weight.n)) (schedule.arrange writes)
  let out ← range? c 0 (m * weight.n)
  pure ⟨out, c, writes⟩

/-- The chunk of the activations, transposed to `[k][mp]` and padded with zeros. -/
def transposed (aChunk : List K) (k rows mp : Nat) : Option (List H) :=
  parChunks mp (k * mp) fun e len => (List.range len).mapM fun r =>
    if r < rows then (aChunk[r * k + e]?).map kernel.upload else some 0

/-- The output so far, the pool, and what was written for each chunk. -/
structure Progress (K : Type) where
  out : List K
  pool : List K
  writes : List (List (Nat × K)) := []

/-- A chunk of the rows. -/
def chunkStep (a : List K) (m : Nat) (progress : Progress K) (i : Nat) : Option (Progress K) := do
  let chunkStart := i * 1024
  let rows := min 1024 (m - chunkStart)
  let mp := (rows + 16 - 1) / 16 * 16
  let aChunk ← range? a (chunkStart * weight.k) ((chunkStart + rows) * weight.k)
  let _ ← range? progress.out (chunkStart * weight.n) ((chunkStart + rows) * weight.n)
  let aT ← transposed kernel aChunk weight.k rows mp
  let done ← dispatch half kernel schedule weight aT rows mp progress.pool
  pure
    { out := splice progress.out (chunkStart * weight.n) done.out
      pool := done.pool
      writes := progress.writes ++ [done.writes] }

/-- `gemm`: the product with the transposed weights. -/
def gemm (a : List K) (m : Nat) (pool : List K) : Option (Progress K) :=
  if a.length ≠ m * weight.k ∨ m = 0 then none
  else
    (List.range ((m + 1024 - 1) / 1024)).foldlM (chunkStep half kernel schedule weight a m)
      ⟨List.replicate (m * weight.n) 0, pool, []⟩

end Host

end AiCoreStack.Serving.GpuGemm
