import AiCoreStack.Foundation.Buffers
import AiCoreStack.Foundation.Softmax
import AiCoreStack.Serving.Generation

/-!
# The Qwen3 decoder

Model of the forward pass in `qwen3_model.rs` and of the decoder in `qwen3_gguf.rs`, on the
CPU and over an ordered field in place of `f32`.  A tensor is a list of rows, one for each
position; flat buffers are laid out as the source has them.  The matrix products, the norms,
the rotation of a head, the activation and two attention kernels come from the tensor library,
whose caches append and reset as it documents.
-/

namespace AiCoreStack.Serving.Qwen3

open Foundation

variable {K : Type} [Field K] [LinearOrder K]

/-! ## Attention kernels -/

/-- `vec_dot`. -/
def vecDot (a b : List K) : K := (List.zipWith (· * ·) a b).sum

/-- The sizes of a model. -/
structure Config where
  numHeads : Nat
  numKvHeads : Nat
  headDim : Nat
  contextLength : Nat

def Config.numKvGroups (config : Config) : Nat := config.numHeads / config.numKvHeads

/-- Query rows that are processed together. -/
def attnQueryBlock : Nat := 16

/-- The rows of one block of one head in `blocked_causal_prefill_f32`. -/
def blockRows (exp : K → K) (qH kH vH : List K) (l d : Nat) (scale : K) (q0 : Nat) :
    List (Softmax K) :=
  let rows := min (l - q0) attnQueryBlock
  (List.range (q0 + rows)).foldl (fun states j =>
    let kRow := slice kH (j * d) d
    let vRow := slice vH (j * d) d
    states.mapIdx fun i state =>
      -- row `i` may attend to `j` only when `q0 + i ≥ j`
      if j - q0 ≤ i then
        state.step exp (vecDot (slice qH ((q0 + i) * d) d) kRow * scale) vRow
      else state) (List.replicate rows (.start d))

/-- `blocked_causal_prefill_f32`: the buffers hold the heads one behind the other. -/
def blockedCausalPrefill (exp : K → K) (q k v : List K) (hQ hKv l d : Nat) (scale : K) : List K :=
  let groups := hQ / hKv
  (List.range hQ).flatMap fun h =>
    let kvH := h / groups
    let qH := slice q (h * (l * d)) (l * d)
    let kH := slice k (kvH * (l * d)) (l * d)
    let vH := slice v (kvH * (l * d)) (l * d)
    (List.range ((l + attnQueryBlock - 1) / attnQueryBlock)).flatMap fun blk =>
      (blockRows exp qH kH vH l d scale (blk * attnQueryBlock)).flatMap Softmax.finish

/-- `gqa_decode_f32_interleaved`: the cache holds the positions one behind the other, and in
each of them the heads, a key and a value at a time. -/
def gqaDecode (exp : K → K) (q kv : List K) (hQ hKv d kvLen : Nat) (scale : K) : List K :=
  let rk := hQ / hKv
  let kvHeadStride := 2 * d
  let kvSeqStride := hKv * kvHeadStride
  (List.range hKv).flatMap fun kvH =>
    let states := (List.range kvLen).foldl (fun states pos =>
      let base := pos * kvSeqStride + kvH * kvHeadStride
      let kRow := slice kv base d
      let vRow := slice kv (base + d) d
      states.mapIdx fun j state =>
        state.step exp (vecDot (slice q ((kvH * rk + j) * d) d) kRow * scale) vRow)
      (List.replicate rk (.start d))
    states.flatMap Softmax.finish

/-! ## Caches -/

/-- A position: a key and a value for each head. -/
abbrev KvPosition (K : Type) := List (List K × List K)

/-- The caches of a layer: the interleaved one by its positions, the raw one by its active
part. -/
structure Caches (K : Type) where
  interleaved : List (KvPosition K) := []
  raw : List K := []
  rawLen : Nat := 0

/-- `write_kv`: one position, the heads one behind the other. -/
def Caches.writeKv (config : Config) (caches : Caches K) (k v : List K) : Caches K :=
  { caches with
    raw := caches.raw ++ (List.range config.numKvHeads).flatMap fun h =>
      slice k (h * config.headDim) config.headDim ++ slice v (h * config.headDim) config.headDim
    rawLen := caches.rawLen + 1 }

/-- `write_kv_batch`. -/
def Caches.writeKvBatch (config : Config) (caches : Caches K) (k v : List K) (seqLen : Nat) :
    Caches K :=
  let hd := config.numKvHeads * config.headDim
  (List.range seqLen).foldl (fun caches s =>
    caches.writeKv config (slice k (s * hd) hd) (slice v (s * hd) hd)) caches

/-- `clear_kv_cache` of a layer. -/
def Caches.reset (_ : Caches K) : Caches K := {}

/-! ## Weights -/

/-- A quantized linear map with its kernels: on quantized weights, on dequantized ones, and on
the GPU, where a product can fail. -/
structure HybridQMatMul (K : Type) where
  quantized : List K → List K
  dequantized : List K → List K
  gpu : Option (List (List K) → Option (List (List K))) := none

/-- `forward_gpu`: the front rows on the GPU, the others on the CPU. -/
def HybridQMatMul.forwardGpu (linear : HybridQMatMul K) (rows : List (List K)) :
    Option (List (List K)) :=
  match linear.gpu with
  | none => none
  | some gemm =>
      let mGpu := rows.length * 3 / 5 / 16 * 16
      if mGpu = 0 then none
      else
        let front := rows.take mGpu
        some ((gemm front).getD (front.map linear.dequantized) ++
          (rows.drop mGpu).map linear.dequantized)

/-- `HybridQMatMul::forward`. -/
def HybridQMatMul.forward (linear : HybridQMatMul K) (rows : List (List K)) : List (List K) :=
  if 64 ≤ rows.length then (linear.forwardGpu rows).getD (rows.map linear.dequantized)
  else rows.map linear.quantized

structure AttentionWeights (K : Type) where
  qProj : HybridQMatMul K
  kProj : HybridQMatMul K
  vProj : HybridQMatMul K
  oProj : HybridQMatMul K
  qNorm : List K → List K
  kNorm : List K → List K

structure LayerWeights (K : Type) where
  selfAttn : AttentionWeights K
  gateProj : HybridQMatMul K
  upProj : HybridQMatMul K
  downProj : HybridQMatMul K
  ln1 : List K → List K
  ln2 : List K → List K

/-- A layer with its caches. -/
structure Layer (K : Type) where
  weights : LayerWeights K
  caches : Caches K := {}

/-- What is called of the tensor library. -/
structure Library (K : Type) where
  exp : K → K
  silu : K → K
  /-- Rotate a head for its position. -/
  rope : Nat → List K → List K
  /-- Attention of the query rows over the cached positions, with an offset. -/
  flashAttn : List (List (List K)) → List (KvPosition K) → K → Nat → List (List (List K))
  /-- Attention of one query row over an interleaved cache. -/
  causalDecode : List K → List K → Nat → Nat → Nat → Nat → K → List K
  /-- The text of its error for a position beyond a table. -/
  narrowError : String

/-- A model without its layers. -/
structure ModelWeights (K : Type) where
  config : Config
  scale : K
  /-- The row of a token, or the error for an unknown one. -/
  embedTokens : UInt32 → Except EngineError (List K)
  norm : List K → List K
  lmHead : HybridQMatMul K

/-! ## The forward pass -/

section Forward

variable (lib : Library K) (model : ModelWeights K)

/-- The query heads of a row at a position. -/
def qHeads (weights : AttentionWeights K) (pos : Nat) (row : List K) : List (List K) :=
  (chunks model.config.headDim model.config.numHeads row).map fun head =>
    lib.rope pos (weights.qNorm head)

/-- The key heads of a row at a position. -/
def kHeads (weights : AttentionWeights K) (pos : Nat) (row : List K) : List (List K) :=
  (chunks model.config.headDim model.config.numKvHeads row).map fun head =>
    lib.rope pos (weights.kNorm head)

/-- The value heads of a row. -/
def vHeads (row : List K) : List (List K) := chunks model.config.headDim model.config.numKvHeads row

/-- The contiguous buffer of a tensor whose heads come first. -/
def headMajor (heads : Nat) (rows : List (List (List K))) : List K :=
  (List.range heads).flatMap fun h => rows.flatMap fun row => row.getD h []

/-- A single token: attention over the raw cache. -/
def AttentionWeights.decode (q k v : List (List K)) (caches : Caches K) : List K × Caches K :=
  let config := model.config
  let caches := caches.writeKv config k.flatten v.flatten
  let ctx :=
    if 2 < config.numKvGroups then
      gqaDecode lib.exp q.flatten caches.raw config.numHeads config.numKvHeads config.headDim
        caches.rawLen model.scale
    else
      lib.causalDecode q.flatten caches.raw config.numHeads config.numKvHeads config.headDim
        caches.rawLen model.scale
  (ctx, caches)

/-- Several tokens: attention over the interleaved cache, for a long prompt by blocks. -/
def AttentionWeights.prefill (q k v : List (List (List K))) (offset : Nat) (caches : Caches K) :
    List (List K) × Caches K :=
  let config := model.config
  let l := q.length
  let caches := { caches with interleaved := caches.interleaved ++ List.zipWith List.zip k v }
  let caches := caches.writeKvBatch config (k.flatMap List.flatten) (v.flatMap List.flatten) l
  let ctx :=
    if 256 ≤ l ∧ offset = 0 then
      let out := blockedCausalPrefill lib.exp (headMajor config.numHeads q)
        (headMajor config.numKvHeads k) (headMajor config.numKvHeads v) config.numHeads
        config.numKvHeads l config.headDim model.scale
      (List.range l).map fun i => (List.range config.numHeads).flatMap fun h =>
        slice out (h * (l * config.headDim) + i * config.headDim) config.headDim
    else (lib.flashAttn q caches.interleaved model.scale offset).map List.flatten
  (ctx, caches)

/-- `AttentionWeights::forward`.  The rotation fails beyond the context length. -/
def AttentionWeights.forward (weights : AttentionWeights K) (rows : List (List K)) (offset : Nat)
    (caches : Caches K) : Except EngineError (List (List K)) × Caches K :=
  let q := (weights.qProj.forward rows).mapIdx fun i row => qHeads lib model weights (offset + i) row
  let k := (weights.kProj.forward rows).mapIdx fun i row => kHeads lib model weights (offset + i) row
  let v := (weights.vProj.forward rows).map (vHeads model)
  if model.config.contextLength < offset + rows.length then (.error (.candle lib.narrowError), caches)
  else if rows.length = 1 then
    let (ctx, caches) := decode lib model (q.headD []) (k.headD []) (v.headD []) caches
    (.ok (weights.oProj.forward [ctx]), caches)
  else
    let (ctx, caches) := prefill lib model q k v offset caches
    (.ok (weights.oProj.forward ctx), caches)

/-- Add rows. -/
def addRows (left right : List (List K)) : List (List K) :=
  List.zipWith (List.zipWith (· + ·)) left right

/-- `MlpWeights::forward`. -/
def LayerWeights.mlp (weights : LayerWeights K) (rows : List (List K)) : List (List K) :=
  let gate := (weights.gateProj.forward rows).map fun row => row.map lib.silu
  let up := weights.upProj.forward rows
  weights.downProj.forward (List.zipWith (List.zipWith (· * ·)) gate up)

/-- `LayerWeights::forward`. -/
def Layer.forward (layer : Layer K) (x : List (List K)) (offset : Nat) :
    Except EngineError (List (List K)) × Layer K :=
  let weights := layer.weights
  let (attended, caches) := weights.selfAttn.forward lib model (x.map weights.ln1) offset layer.caches
  let result := attended.map fun h =>
    let x := addRows x h
    addRows x (weights.mlp lib (x.map weights.ln2))
  (result, { layer with caches })

/-- The layers one after the other, up to the first that fails. -/
def forwardLayers (offset : Nat) : List (Layer K) → List (List K) →
    Except EngineError (List (List K)) × List (Layer K)
  | [], x => (.ok x, [])
  | layer :: rest, x =>
      match layer.forward lib model x offset with
      | (.error error, layer) => (.error error, layer :: rest)
      | (.ok x, layer) =>
          let (result, rest) := forwardLayers offset rest x
          (result, layer :: rest)

/-- `ModelWeights::forward`: the logits behind the last token. -/
def forward (layers : List (Layer K)) (tokens : List UInt32) (offset : Nat) :
    Except EngineError (List K) × List (Layer K) :=
  match tokens.mapM model.embedTokens with
  | .error error => (.error error, layers)
  | .ok x =>
      let (result, layers) := forwardLayers lib model offset layers x
      (result.map fun h =>
        (model.lmHead.forward [(h.map model.norm).getLastD []]).headD [], layers)

/-! ## The decoder -/

structure Decoder (K : Type) where
  layers : List (Layer K)
  nextPosition : Nat := 0

/-- `clear_cache`. -/
def Decoder.clearCache (decoder : Decoder K) : Decoder K where
  layers := decoder.layers.map fun layer => { layer with caches := layer.caches.reset }

/-- `forward_tokens`. -/
def Decoder.forwardTokens (decoder : Decoder K) (tokens : List UInt32) (position : Nat) :
    Except EngineError (List K) × Decoder K :=
  if tokens = [] then
    (.error (.invalidGenerationConfig "the prompt must contain at least one token"), decoder)
  else
    let (result, layers) := forward lib model decoder.layers tokens position
    (result, { decoder with layers })

/-- `prefill`. -/
def Decoder.prefill (decoder : Decoder K) (prompt : List UInt32) :
    Except EngineError (List K) × Decoder K :=
  match decoder.clearCache.forwardTokens lib model prompt 0 with
  | (.ok logits, decoder) => (.ok logits, { decoder with nextPosition := prompt.length })
  | failed => failed

/-- `decode`. -/
def Decoder.decode (decoder : Decoder K) (token : UInt32) :
    Except EngineError (List K) × Decoder K :=
  match decoder.forwardTokens lib model [token] decoder.nextPosition with
  | (.ok logits, decoder) => (.ok logits, { decoder with nextPosition := decoder.nextPosition + 1 })
  | failed => failed

/-- `prefill` and then `decode` for each further token, up to the first that fails: the last
logits. -/
def Decoder.incremental (decoder : Decoder K) (prompt tokens : List UInt32) :
    Except EngineError (List K) × Decoder K :=
  tokens.foldl (fun (result, decoder) token =>
    match result with
    | .ok _ => decoder.decode lib model token
    | .error error => (.error error, decoder)) (decoder.prefill lib model prompt)

end Forward

end AiCoreStack.Serving.Qwen3
