import AiCoreStack.Serving.Qwen3Attention

/-!
# Incremental decoding

Decoding one token after the other gives the logits that prefilling all of them gives.  Row by
row, a layer depends on the rows up to it; its caches hold the keys and values of these rows, so
that a further token goes through all layers as in one run over all tokens.
-/

namespace AiCoreStack.Serving.Qwen3

open Foundation

variable {K : Type} [Field K] [LinearOrder K]

/-! ## Layers, row by row -/

section Rows

variable (lib : Library K) (model : ModelWeights K)

/-- `MlpWeights::forward` of a row. -/
def LayerWeights.mlpRow (weights : LayerWeights K) (row : List K) : List K :=
  weights.downProj.dequantized (List.zipWith (· * ·)
    ((weights.gateProj.dequantized row).map lib.silu) (weights.upProj.dequantized row))

/-- A row of a layer behind the attention. -/
def LayerWeights.finishRow (weights : LayerWeights K) (x attended : List K) : List K :=
  let x := List.zipWith (· + ·) x attended
  List.zipWith (· + ·) x (weights.mlpRow lib (weights.ln2 x))

/-- The keys and values of the rows of a layer. -/
def LayerWeights.kvsOf (weights : LayerWeights K) (xs : List (List K)) : List (KvPosition K) :=
  weights.selfAttn.kvsOf lib model (xs.map weights.ln1)

/-- A row of a layer. -/
def LayerWeights.rowOut (weights : LayerWeights K) (pos : Nat) (x : List K)
    (kvs : List (KvPosition K)) : List K :=
  weights.finishRow lib x (weights.selfAttn.rowOut lib model pos (weights.ln1 x) kvs)

/-- A layer from scratch: each row depends on the rows up to it. -/
def LayerWeights.apply (weights : LayerWeights K) (xs : List (List K)) : List (List K) :=
  xs.mapIdx fun pos x =>
    weights.rowOut lib model pos x ((weights.kvsOf lib model xs).take (pos + 1))

/-- The caches of a layer hold the keys and values of its rows. -/
def Layer.Holds (layer : Layer K) (xs : List (List K)) : Prop :=
  layer.caches.Holds (layer.weights.kvsOf lib model xs)

end Rows

section Layers

variable {E : Exponential K} {lib : Library K} {model : ModelWeights K}
variable {weights : LayerWeights K}

omit [LinearOrder K] in
@[simp] theorem length_apply (xs : List (List K)) :
    (weights.apply lib model xs).length = xs.length := by
  simp [LayerWeights.apply]

omit [Field K] [LinearOrder K] in
theorem layer_kvsOf_snoc (xs : List (List K)) (x : List K) :
    weights.kvsOf lib model (xs ++ [x]) =
      weights.kvsOf lib model xs ++
        [weights.selfAttn.kvAt lib model xs.length (weights.ln1 x)] := by
  rw [LayerWeights.kvsOf, List.map_append, kvsOf_append]
  simp [LayerWeights.kvsOf]

omit [LinearOrder K] in
/-- A further row leaves the rows before it as they are. -/
theorem apply_snoc (xs : List (List K)) (x : List K) :
    weights.apply lib model (xs ++ [x]) =
      weights.apply lib model xs ++
        [weights.rowOut lib model xs.length x (weights.kvsOf lib model (xs ++ [x]))] := by
  have count : (weights.kvsOf lib model xs).length = xs.length := by
    simp [LayerWeights.kvsOf, AttentionWeights.kvsOf]
  rw [LayerWeights.apply, List.mapIdx_append, layer_kvsOf_snoc]
  congr 1
  · apply List.ext_getElem
    · simp [LayerWeights.apply]
    · intro pos left right
      have within : pos + 1 ≤ (weights.kvsOf lib model xs).length := by
        simp at left
        omega
      simp only [LayerWeights.apply, List.getElem_mapIdx]
      rw [List.take_append_of_le_length within]
  · simp [count, List.take_of_length_le]

omit [LinearOrder K] in
theorem mlp_eq (sound : weights.Sound model.config) (rows : List (List K)) :
    weights.mlp lib rows = rows.map (weights.mlpRow lib) := by
  simp only [LayerWeights.mlp, sound.gateProj.forward_eq, sound.upProj.forward_eq,
    sound.downProj.forward_eq, List.map_map, List.zipWith_map, List.zipWith_self]
  rfl

omit [LinearOrder K] in
theorem finishRows_eq (sound : weights.Sound model.config) (xs attended : List (List K)) :
    addRows (addRows xs attended) (weights.mlp lib ((addRows xs attended).map weights.ln2)) =
      List.zipWith (weights.finishRow lib) xs attended := by
  rw [mlp_eq sound, List.map_map, addRows, List.zipWith_map_right, List.zipWith_self, addRows,
    List.map_zipWith]
  rfl

variable [IsStrictOrderedRing K] (valid : model.config.Valid) (exact : lib.Exact E model.config)

include valid exact

/-- A prompt on a layer whose caches are empty. -/
theorem Layer.forward_fresh {layer : Layer K} (sound : layer.weights.Sound model.config)
    (empty : layer.caches = {}) {xs : List (List K)}
    (inside : xs.length ≤ model.config.contextLength) :
    ∃ next, layer.forward lib model xs 0 = (.ok (layer.weights.apply lib model xs), next) ∧
      next.weights = layer.weights ∧ next.Holds lib model xs := by
  have short : (xs.map layer.weights.ln1).length ≤ model.config.contextLength := by
    simpa using inside
  obtain ⟨caches, result, held⟩ := AttentionWeights.forward_fresh sound.selfAttn exact valid short
  refine ⟨{ layer with caches }, ?_, rfl, held⟩
  rw [Layer.forward, empty, result]
  simp only [Except.map, finishRows_eq sound, mapIdx_map, zipWith_mapIdx]
  rfl

/-- A further token on a layer. -/
theorem Layer.forward_single {layer : Layer K} (sound : layer.weights.Sound model.config)
    {xs : List (List K)} (holds : layer.Holds lib model xs) (x : List K)
    (inside : xs.length + 1 ≤ model.config.contextLength) :
    ∃ y next, layer.forward lib model [x] xs.length = (.ok [y], next) ∧
      layer.weights.apply lib model (xs ++ [x]) = layer.weights.apply lib model xs ++ [y] ∧
      next.weights = layer.weights ∧ next.Holds lib model (xs ++ [x]) := by
  obtain ⟨caches, result, held⟩ := AttentionWeights.forward_single sound.selfAttn exact valid
    (kvsOf_shapes sound.selfAttn exact _) holds (layer.weights.ln1 x) inside
  rw [← LayerWeights.kvsOf, ← layer_kvsOf_snoc] at held result
  refine ⟨_, { layer with caches }, ?_, apply_snoc xs x, rfl, held⟩
  rw [Layer.forward, List.map_singleton, result]
  simp only [Except.map, finishRows_eq sound]
  rfl

end Layers

/-! ## All layers -/

section Layers

variable (lib : Library K) (model : ModelWeights K)

/-- The layers from scratch. -/
def applyLayers : List (LayerWeights K) → List (List K) → List (List K)
  | [], xs => xs
  | weights :: rest, xs => applyLayers rest (weights.apply lib model xs)

/-- The caches of each layer hold the keys and values of its rows. -/
def LayersHold : List (Layer K) → List (List K) → Prop
  | [], _ => True
  | layer :: rest, xs => layer.Holds lib model xs ∧ LayersHold rest (layer.weights.apply lib model xs)

/-- The logits behind some rows, from scratch. -/
def logitsOf (layers : List (LayerWeights K)) (xs : List (List K)) : List K :=
  model.lmHead.dequantized (((applyLayers lib model layers xs).map model.norm).getLastD [])

end Layers

section Model

variable [IsStrictOrderedRing K] {E : Exponential K} {lib : Library K} {model : ModelWeights K}
variable (valid : model.config.Valid) (exact : lib.Exact E model.config)

include valid exact

theorem forwardLayers_fresh {layers : List (Layer K)}
    (sound : ∀ layer ∈ layers, layer.weights.Sound model.config)
    (empty : ∀ layer ∈ layers, layer.caches = {}) {xs : List (List K)}
    (inside : xs.length ≤ model.config.contextLength) :
    ∃ next, forwardLayers lib model 0 layers xs =
        (.ok (applyLayers lib model (layers.map Layer.weights) xs), next) ∧
      next.map Layer.weights = layers.map Layer.weights ∧ LayersHold lib model next xs := by
  induction layers generalizing xs with
  | nil => exact ⟨[], rfl, rfl, trivial⟩
  | cons layer rest ih =>
      obtain ⟨first, result, kept, held⟩ := Layer.forward_fresh valid exact
        (sound layer List.mem_cons_self) (empty layer List.mem_cons_self) inside
      have short : (layer.weights.apply lib model xs).length ≤ model.config.contextLength := by
        rw [length_apply]
        exact inside
      obtain ⟨next, results, keptAll, heldAll⟩ :=
        ih (fun other member => sound other (List.mem_cons_of_mem layer member))
          (fun other member => empty other (List.mem_cons_of_mem layer member)) short
      refine ⟨first :: next, ?_, ?_, held, kept ▸ heldAll⟩
      · rw [forwardLayers, result]
        dsimp only
        rw [results]
        rfl
      · rw [List.map_cons, List.map_cons, kept, keptAll]

/-- A further row goes through all layers as in one run over all rows. -/
theorem forwardLayers_single {layers : List (Layer K)}
    (sound : ∀ layer ∈ layers, layer.weights.Sound model.config) {xs : List (List K)}
    (holds : LayersHold lib model layers xs) (x : List K)
    (inside : xs.length + 1 ≤ model.config.contextLength) :
    ∃ y next, forwardLayers lib model xs.length layers [x] = (.ok [y], next) ∧
      applyLayers lib model (layers.map Layer.weights) (xs ++ [x]) =
        applyLayers lib model (layers.map Layer.weights) xs ++ [y] ∧
      next.map Layer.weights = layers.map Layer.weights ∧
      LayersHold lib model next (xs ++ [x]) := by
  induction layers generalizing xs x with
  | nil => exact ⟨x, [], rfl, rfl, rfl, trivial⟩
  | cons layer rest ih =>
      obtain ⟨y, first, result, applied, kept, held⟩ := Layer.forward_single valid exact
        (sound layer List.mem_cons_self) holds.1 x inside
      have short : (layer.weights.apply lib model xs).length + 1 ≤ model.config.contextLength := by
        rw [length_apply]
        exact inside
      obtain ⟨z, next, results, appliedAll, keptAll, heldAll⟩ :=
        ih (fun other member => sound other (List.mem_cons_of_mem layer member)) holds.2 y short
      rw [length_apply] at results
      refine ⟨z, first :: next, ?_, ?_, ?_, held, ?_⟩
      · rw [forwardLayers, result]
        dsimp only
        rw [results]
      · rw [List.map_cons, applyLayers, applied, appliedAll]
        rfl
      · rw [List.map_cons, List.map_cons, kept, keptAll]
      · rw [kept, applied]
        exact heldAll

variable (headAgrees : model.lmHead.Agrees)

include headAgrees

theorem forward_fresh {layers : List (Layer K)}
    (sound : ∀ layer ∈ layers, layer.weights.Sound model.config)
    (empty : ∀ layer ∈ layers, layer.caches = {}) {tokens : List UInt32} {xs : List (List K)}
    (embedded : tokens.mapM model.embedTokens = .ok xs)
    (inside : xs.length ≤ model.config.contextLength) :
    ∃ next, forward lib model layers tokens 0 =
        (.ok (logitsOf lib model (layers.map Layer.weights) xs), next) ∧
      next.map Layer.weights = layers.map Layer.weights ∧ LayersHold lib model next xs := by
  obtain ⟨next, result, kept, held⟩ := forwardLayers_fresh valid exact sound empty inside
  refine ⟨next, ?_, kept, held⟩
  rw [forward, embedded]
  dsimp only
  rw [result]
  simp only [Except.map, headAgrees.forward_eq]
  rfl

theorem forward_single {layers : List (Layer K)}
    (sound : ∀ layer ∈ layers, layer.weights.Sound model.config) {xs : List (List K)}
    (holds : LayersHold lib model layers xs) {token : UInt32} {x : List K}
    (embedded : model.embedTokens token = .ok x)
    (inside : xs.length + 1 ≤ model.config.contextLength) :
    ∃ next, forward lib model layers [token] xs.length =
        (.ok (logitsOf lib model (layers.map Layer.weights) (xs ++ [x])), next) ∧
      next.map Layer.weights = layers.map Layer.weights ∧
      LayersHold lib model next (xs ++ [x]) := by
  obtain ⟨y, next, result, applied, kept, held⟩ :=
    forwardLayers_single valid exact sound holds x inside
  have single : [token].mapM model.embedTokens = .ok [x] := by
    simp [embedded, pure, bind, Except.pure, Except.bind]
  refine ⟨next, ?_, kept, held⟩
  rw [forward, single]
  dsimp only
  rw [result, logitsOf, applied]
  simp [Except.map, headAgrees.forward_eq]

end Model

/-! ## Decoding -/

section Decoding

variable (lib : Library K) (model : ModelWeights K) (layers : List (LayerWeights K))

/-- A decoder has read some rows. -/
structure Decoder.Follows (decoder : Decoder K) (xs : List (List K)) : Prop where
  weights : decoder.layers.map Layer.weights = layers
  caches : LayersHold lib model decoder.layers xs
  nextPosition : decoder.nextPosition = xs.length

/-- An outcome is the one from scratch: the logits behind all tokens, or the error for the
first unknown one. -/
structure Computes (tokens : List UInt32) (outcome : Except EngineError (List K) × Decoder K) :
    Prop where
  ok : ∀ xs, tokens.mapM model.embedTokens = .ok xs →
    outcome.1 = .ok (logitsOf lib model layers xs) ∧ outcome.2.Follows lib model layers xs
  error : ∀ error, tokens.mapM model.embedTokens = .error error → outcome.1 = .error error

end Decoding

section Decoder

variable {lib : Library K} {model : ModelWeights K} {layers : List (LayerWeights K)}

omit [Field K] [LinearOrder K] in
theorem embedTokens_snoc (tokens : List UInt32) (token : UInt32) :
    (tokens ++ [token]).mapM model.embedTokens = (do
      let xs ← tokens.mapM model.embedTokens
      let x ← model.embedTokens token
      pure (xs ++ [x])) := by
  simp [List.mapM_append, List.mapM_cons]

omit [Field K] [LinearOrder K] in
theorem exists_embedded {tokens : List UInt32}
    (every : ∀ token ∈ tokens, ∃ x, model.embedTokens token = .ok x) :
    ∃ xs, tokens.mapM model.embedTokens = .ok xs := by
  induction tokens with
  | nil => exact ⟨[], rfl⟩
  | cons token tokens ih =>
      obtain ⟨x, first⟩ := every token List.mem_cons_self
      obtain ⟨xs, rest⟩ := ih fun other member => every other (List.mem_cons_of_mem token member)
      refine ⟨x :: xs, ?_⟩
      rw [List.mapM_cons, first, rest]
      rfl

omit [Field K] [LinearOrder K] in
theorem length_of_embedded {tokens : List UInt32} {xs : List (List K)}
    (embedded : tokens.mapM model.embedTokens = .ok xs) : xs.length = tokens.length := by
  induction tokens generalizing xs with
  | nil =>
      cases embedded
      rfl
  | cons token tokens ih =>
      rw [List.mapM_cons] at embedded
      cases first : model.embedTokens token with
      | error error =>
          rw [first] at embedded
          cases embedded
      | ok x =>
          cases rest : tokens.mapM model.embedTokens with
          | error error =>
              rw [first, rest] at embedded
              cases embedded
          | ok more =>
              rw [first, rest] at embedded
              cases embedded
              rw [List.length_cons, ih rest, List.length_cons]

variable [IsStrictOrderedRing K] {E : Exponential K}
variable (valid : model.config.Valid) (exact : lib.Exact E model.config)
variable (headAgrees : model.lmHead.Agrees)
variable (sound : ∀ weights ∈ layers, weights.Sound model.config)

include valid exact headAgrees sound

/-- Whatever the state of a decoder, a prompt is read from scratch. -/
theorem computes_prefill {decoder : Decoder K} (weights : decoder.layers.map Layer.weights = layers)
    {prompt : List UInt32} (full : prompt ≠ [])
    (inside : prompt.length ≤ model.config.contextLength) :
    Computes lib model layers prompt (decoder.prefill lib model prompt) := by
  have cleared : decoder.clearCache.layers.map Layer.weights = layers := by
    rw [← weights, Decoder.clearCache, List.map_map]
    rfl
  have empty : ∀ layer ∈ decoder.clearCache.layers, layer.caches = {} := by
    intro layer member
    obtain ⟨before, _, rfl⟩ := List.mem_map.mp member
    rfl
  have known : ∀ layer ∈ decoder.clearCache.layers, layer.weights.Sound model.config := by
    intro layer member
    exact sound _ (cleared ▸ List.mem_map_of_mem member)
  constructor
  · intro xs embedded
    have count := length_of_embedded embedded
    obtain ⟨next, result, kept, held⟩ := forward_fresh valid exact headAgrees known empty embedded
      (by omega)
    rw [cleared] at result kept
    rw [Decoder.prefill, Decoder.forwardTokens, if_neg full, result]
    exact ⟨rfl, kept, held, count.symm⟩
  · intro error failed
    rw [Decoder.prefill, Decoder.forwardTokens, if_neg full, forward, failed]

/-- A further token is read as if all tokens were read from scratch. -/
theorem computes_decode {decoder : Decoder K} {xs : List (List K)}
    (follows : decoder.Follows lib model layers xs) {tokens : List UInt32}
    (embedded : tokens.mapM model.embedTokens = .ok xs) {token : UInt32}
    (inside : tokens.length + 1 ≤ model.config.contextLength) :
    Computes lib model layers (tokens ++ [token]) (decoder.decode lib model token) := by
  have count := length_of_embedded embedded
  have known : ∀ layer ∈ decoder.layers, layer.weights.Sound model.config := by
    intro layer member
    exact sound _ (follows.weights ▸ List.mem_map_of_mem member)
  cases found : model.embedTokens token with
  | error problem =>
      have joined : (tokens ++ [token]).mapM model.embedTokens = .error problem := by
        rw [embedTokens_snoc, embedded, found]
        rfl
      have single : [token].mapM model.embedTokens = .error problem := by
        rw [List.mapM_cons, found]
        rfl
      constructor
      · intro ys together
        cases joined.symm.trans together
      · intro error failed
        cases joined.symm.trans failed
        rw [Decoder.decode, Decoder.forwardTokens, if_neg (by simp), forward, single]
  | ok x =>
      have joined : (tokens ++ [token]).mapM model.embedTokens = .ok (xs ++ [x]) := by
        rw [embedTokens_snoc, embedded, found]
        rfl
      obtain ⟨next, result, kept, held⟩ := forward_single valid exact headAgrees known
        follows.caches found (by omega)
      rw [follows.weights] at result kept
      constructor
      · intro ys together
        cases joined.symm.trans together
        rw [Decoder.decode, Decoder.forwardTokens, if_neg (by simp), follows.nextPosition, result]
        refine ⟨rfl, kept, held, ?_⟩
        rw [List.length_append, List.length_singleton]
      · intro error failed
        cases joined.symm.trans failed

/-- A whole run is the outcome from scratch. -/
theorem computes_incremental {decoder : Decoder K}
    (weights : decoder.layers.map Layer.weights = layers) {prompt tokens : List UInt32}
    (full : prompt ≠ []) (inside : (prompt ++ tokens).length ≤ model.config.contextLength) :
    Computes lib model layers (prompt ++ tokens)
      (decoder.incremental lib model prompt tokens) := by
  induction tokens using List.reverseRecOn with
  | nil =>
      rw [List.append_nil] at inside ⊢
      exact computes_prefill valid exact headAgrees sound weights full inside
  | append_singleton tokens token ih =>
      rw [← List.append_assoc, List.length_append, List.length_singleton] at inside
      have before := ih (by omega)
      rw [Decoder.incremental, List.foldl_append, ← Decoder.incremental, ← List.append_assoc]
      generalize decoder.incremental lib model prompt tokens = outcome at before
      obtain ⟨result, reached⟩ := outcome
      cases embedded : (prompt ++ tokens).mapM model.embedTokens with
      | error problem =>
          have failed := before.error problem embedded
          dsimp only at failed
          subst failed
          have joined : (prompt ++ tokens ++ [token]).mapM model.embedTokens = .error problem := by
            rw [embedTokens_snoc, embedded]
            rfl
          constructor
          · intro ys together
            cases joined.symm.trans together
          · intro error failed
            cases joined.symm.trans failed
            rfl
      | ok xs =>
          obtain ⟨answered, follows⟩ := before.ok xs embedded
          dsimp only at answered follows
          subst answered
          exact computes_decode valid exact headAgrees sound follows embedded inside

omit sound

/-- Whatever two decoders of a model have done before: prefilling a prompt and decoding further
tokens on the one has the outcome of prefilling all of them on the other, the logits when every
token is known. -/
theorem incremental_eq_prefill {decoder other : Decoder K}
    (sound : ∀ layer ∈ decoder.layers, layer.weights.Sound model.config)
    (same : other.layers.map Layer.weights = decoder.layers.map Layer.weights)
    {prompt tokens : List UInt32} (full : prompt ≠ [])
    (inside : (prompt ++ tokens).length ≤ model.config.contextLength) :
    (decoder.incremental lib model prompt tokens).1 = (other.prefill lib model (prompt ++ tokens)).1 ∧
      ((∀ token ∈ prompt ++ tokens, ∃ x, model.embedTokens token = .ok x) →
        ∃ logits, (decoder.incremental lib model prompt tokens).1 = .ok logits) := by
  have known : ∀ weights ∈ decoder.layers.map Layer.weights, weights.Sound model.config :=
    List.forall_mem_map.mpr sound
  have nonempty : prompt ++ tokens ≠ [] := by simp [full]
  have stepwise := computes_incremental valid exact headAgrees known rfl full inside
  have scratch := computes_prefill valid exact headAgrees known same nonempty inside
  constructor
  · cases embedded : (prompt ++ tokens).mapM model.embedTokens with
    | error problem => rw [stepwise.error problem embedded, scratch.error problem embedded]
    | ok xs => rw [(stepwise.ok xs embedded).1, (scratch.ok xs embedded).1]
  · intro every
    obtain ⟨xs, embedded⟩ := exists_embedded every
    exact ⟨_, (stepwise.ok xs embedded).1⟩

end Decoder

/-! ## A small model over the reals -/

noncomputable section Small

/-- A matrix of rows, with a GPU that computes the same products. -/
def linearOf (matrix : List (List ℝ)) : HybridQMatMul ℝ where
  quantized row := matrix.map (vecDot row)
  dequantized row := matrix.map (vecDot row)
  gpu := some fun rows => some (rows.map fun row => matrix.map (vecDot row))

theorem linearOf_agrees (matrix : List (List ℝ)) : (linearOf matrix).Agrees where
  quantized _ := rfl
  gpu gemm uploaded rows out result := by
    cases uploaded
    cases result
    rfl

def rmsNorm (row : List ℝ) : List ℝ :=
  row.map (· / Real.sqrt ((row.map (· ^ 2)).sum / row.length + 1 / 1000000))

/-- Rotate a pair by its position. -/
def rotate (pos : Nat) : List ℝ → List ℝ
  | [x, y] => [x * Real.cos pos - y * Real.sin pos, x * Real.sin pos + y * Real.cos pos]
  | head => head

def smallConfig : Config where
  numHeads := 4
  numKvHeads := 1
  headDim := 2
  contextLength := 8

def smallLibrary : Library ℝ where
  exp := Real.exp
  silu x := x / (1 + Real.exp (-x))
  rope := rotate
  flashAttn q kvs scale offset :=
    q.mapIdx fun i row => attend Real.exp scale smallConfig row (kvs.take (offset + i + 1))
  causalDecode := gqaDecode Real.exp
  narrowError := "narrow invalid args"

def smallModel : ModelWeights ℝ where
  config := smallConfig
  scale := 1 / Real.sqrt 2
  embedTokens token :=
    if token < 3 then .ok [token.toNat, 1] else .error (.candle "invalid index in index-select")
  norm := rmsNorm
  lmHead := linearOf [[1, 0], [0, 1], [1, 1]]

def smallWeights : LayerWeights ℝ where
  selfAttn :=
    { qProj := linearOf [[1, 0], [0, 1], [1, 1], [2, 1], [1, 2], [0, 2], [2, 0], [2, 2]]
      kProj := linearOf [[1, 2], [2, 1]]
      vProj := linearOf [[1, 0], [1, 1]]
      oProj := linearOf [[1, 0, 1, 0, 1, 0, 1, 0], [0, 1, 0, 1, 0, 1, 0, 1]]
      qNorm := rmsNorm
      kNorm := rmsNorm }
  gateProj := linearOf [[1, 1], [1, 2], [2, 1]]
  upProj := linearOf [[1, 0], [0, 1], [1, 1]]
  downProj := linearOf [[1, 0, 1], [0, 1, 1]]
  ln1 := rmsNorm
  ln2 := rmsNorm

theorem smallConfig_valid : smallConfig.Valid where
  kvHeads := by decide
  groups := by decide
  heads := by decide

theorem length_rotate (pos : Nat) (head : List ℝ) : (rotate pos head).length = head.length := by
  unfold rotate
  split
  next => rfl
  next => rfl

theorem smallLibrary_exact : smallLibrary.Exact realExp smallConfig where
  exp := rfl
  rope := length_rotate
  flashAttn _ _ _ _ _ _ _ := rfl
  causalDecode _ _ _ shape shapes full :=
    gqaDecode_eq realExp smallConfig_valid shape full shapes

theorem smallWeights_sound : smallWeights.Sound smallConfig where
  selfAttn :=
    { qProj := linearOf_agrees _
      kProj := linearOf_agrees _
      vProj := linearOf_agrees _
      oProj := linearOf_agrees _
      qWidth := fun _ => rfl
      kWidth := fun _ => rfl
      vWidth := fun _ => rfl
      qNorm := fun _ => List.length_map _
      kNorm := fun _ => List.length_map _ }
  gateProj := linearOf_agrees _
  upProj := linearOf_agrees _
  downProj := linearOf_agrees _

/-- A decoder whose last request failed on its way. -/
def usedDecoder : Decoder ℝ where
  layers := [{ weights := smallWeights, caches := { raw := [1, 2, 3, 4], rawLen := 2 } }]
  nextPosition := 5

/-- A decoder as it is loaded. -/
def loadedDecoder : Decoder ℝ where
  layers := [{ weights := smallWeights }]

theorem incremental_usedDecoder :
    (usedDecoder.incremental smallLibrary smallModel [1, 2] [0, 1]).1 =
        (loadedDecoder.prefill smallLibrary smallModel [1, 2, 0, 1]).1 ∧
      ∃ logits, (usedDecoder.incremental smallLibrary smallModel [1, 2] [0, 1]).1 = .ok logits := by
  have sound : ∀ layer ∈ usedDecoder.layers, layer.weights.Sound smallModel.config := by
    intro layer member
    cases List.mem_singleton.mp member
    exact smallWeights_sound
  have inside : ([1, 2] ++ [0, 1] : List UInt32).length ≤ smallModel.config.contextLength := by
    decide
  have valid : smallModel.config.Valid := smallConfig_valid
  have agrees : smallModel.lmHead.Agrees := linearOf_agrees _
  have same : loadedDecoder.layers.map Layer.weights = usedDecoder.layers.map Layer.weights := rfl
  have outcome := incremental_eq_prefill valid smallLibrary_exact agrees sound same (by decide) inside
  have known : ∀ token ∈ ([1, 2] ++ [0, 1] : List UInt32), token < 3 := by simp
  refine ⟨outcome.1, outcome.2 ?_⟩
  intro token member
  exact ⟨[token.toNat, 1], if_pos (known token member)⟩

end Small

end AiCoreStack.Serving.Qwen3
