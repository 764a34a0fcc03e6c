import AiCoreStack.Serving.Qwen3Kernels

/-!
# Causal attention, row by row

What the decoder relies on of the tensor library, and what its attention then computes: a row
attends to the rows up to it, whatever kernel is chosen and whether the rows come in one batch
or one at a time.  The raw cache holds the keys and values of the rows so far.
-/

namespace AiCoreStack.Serving.Qwen3

open Foundation

variable {K : Type} [Field K] [LinearOrder K]

/-! ## What the code relies on -/

/-- The kernels of a linear map agree. -/
structure HybridQMatMul.Agrees (linear : HybridQMatMul K) : Prop where
  quantized : ∀ row, linear.quantized row = linear.dequantized row
  gpu : ∀ gemm, linear.gpu = some gemm →
    ∀ rows out, gemm rows = some out → out = rows.map linear.dequantized

/-- The projections have the widths of the model, and the norms keep the width of a head. -/
structure AttentionWeights.Sound (config : Config) (weights : AttentionWeights K) : Prop where
  qProj : weights.qProj.Agrees
  kProj : weights.kProj.Agrees
  vProj : weights.vProj.Agrees
  oProj : weights.oProj.Agrees
  qWidth : ∀ row, (weights.qProj.dequantized row).length = config.numHeads * config.headDim
  kWidth : ∀ row, (weights.kProj.dequantized row).length = config.numKvHeads * config.headDim
  vWidth : ∀ row, (weights.vProj.dequantized row).length = config.numKvHeads * config.headDim
  qNorm : ∀ head, (weights.qNorm head).length = head.length
  kNorm : ∀ head, (weights.kNorm head).length = head.length

structure LayerWeights.Sound (config : Config) (weights : LayerWeights K) : Prop where
  selfAttn : weights.selfAttn.Sound config
  gateProj : weights.gateProj.Agrees
  upProj : weights.upProj.Agrees
  downProj : weights.downProj.Agrees

/-- The kernels of the tensor library compute exact causal attention, and a rotation keeps the
width of a head. -/
structure Library.Exact (E : Exponential K) (config : Config) (lib : Library K) : Prop where
  exp : lib.exp = E.exp
  rope : ∀ pos head, (lib.rope pos head).length = head.length
  flashAttn : ∀ (q : List (List (List K))) (kvs : List (KvPosition K)) (scale : K) (offset : Nat),
    (∀ row ∈ q, QShape config row) → (∀ kv ∈ kvs, KvShape config kv) →
    offset + q.length ≤ kvs.length →
    lib.flashAttn q kvs scale offset =
      q.mapIdx fun i row => attend E.exp scale config row (kvs.take (offset + i + 1))
  causalDecode : ∀ (q : List (List K)) (kvs : List (KvPosition K)) (scale : K),
    QShape config q → (∀ kv ∈ kvs, KvShape config kv) → kvs ≠ [] →
    lib.causalDecode q.flatten (interleave kvs) config.numHeads config.numKvHeads config.headDim
        kvs.length scale =
      (attend E.exp scale config q kvs).flatten

omit [Field K] [LinearOrder K] in
/-- Whatever kernel is chosen, a linear map acts on each row. -/
theorem HybridQMatMul.Agrees.forward_eq {linear : HybridQMatMul K} (agrees : linear.Agrees)
    (rows : List (List K)) : linear.forward rows = rows.map linear.dequantized := by
  have same : linear.quantized = linear.dequantized := funext agrees.quantized
  rw [HybridQMatMul.forward, HybridQMatMul.forwardGpu, same]
  split
  next =>
    cases found : linear.gpu with
    | none => rfl
    | some gemm =>
        dsimp only
        split
        next => rfl
        next =>
          generalize rows.length * 3 / 5 / 16 * 16 = count
          have front : (gemm (rows.take count)).getD ((rows.take count).map linear.dequantized) =
              (rows.take count).map linear.dequantized := by
            cases result : gemm (rows.take count) with
            | none => rfl
            | some out => exact agrees.gpu gemm found _ _ result
          rw [Option.getD_some, front, ← List.map_append, List.take_append_drop]
  next => rfl

/-! ## The raw cache -/

/-- The raw cache holds some positions. -/
structure Caches.Holds (caches : Caches K) (kvs : List (KvPosition K)) : Prop where
  raw : caches.raw = interleave kvs
  rawLen : caches.rawLen = kvs.length

omit [Field K] [LinearOrder K] in
/-- A written position. -/
theorem Caches.writeKv_eq {config : Config} {kv : KvPosition K} (shape : KvShape config kv)
    (caches : Caches K) :
    caches.writeKv config (kv.map Prod.fst).flatten (kv.map Prod.snd).flatten =
      { caches with
        raw := caches.raw ++ interleave [kv]
        rawLen := caches.rawLen + 1 } := by
  have keys : ∀ key ∈ kv.map Prod.fst, key.length = config.headDim := by
    simpa using fun key value => shape.key (key, value)
  have values : ∀ value ∈ kv.map Prod.snd, value.length = config.headDim := by
    simpa using fun value key => shape.value (key, value)
  have entries := map_take_eq_map_range (fun entry : List K × List K => entry.1 ++ entry.2)
    ([], []) (Nat.le_refl kv.length)
  rw [List.take_length, shape.count] at entries
  have written : ((List.range config.numKvHeads).flatMap fun h =>
      slice (kv.map Prod.fst).flatten (h * config.headDim) config.headDim ++
        slice (kv.map Prod.snd).flatten (h * config.headDim) config.headDim) = interleave [kv] := by
    rw [interleave, List.map_singleton, List.flatten_singleton, entries, List.flatMap_def]
    congr 1
    apply List.map_congr_left
    intro h member
    have inside : h < kv.length := shape.count ▸ List.mem_range.mp member
    rw [slice_flatten keys (by simpa using inside), slice_flatten values (by simpa using inside)]
    simp [inside]
  rw [Caches.writeKv, written]

omit [Field K] [LinearOrder K] in
/-- The positions of a batch are written one after the other. -/
theorem Caches.writeKvBatch_eq {config : Config} {kvs : List (KvPosition K)}
    (shapes : ∀ kv ∈ kvs, KvShape config kv) (caches : Caches K) :
    caches.writeKvBatch config ((kvs.map (List.map Prod.fst)).flatMap List.flatten)
        ((kvs.map (List.map Prod.snd)).flatMap List.flatten) kvs.length =
      { caches with
        raw := caches.raw ++ interleave kvs
        rawLen := caches.rawLen + kvs.length } := by
  have wide (part : List K × List K → List K)
      (long : ∀ kv ∈ kvs, ∀ entry ∈ kv, (part entry).length = config.headDim) :
      ∀ row ∈ (kvs.map (List.map part)).map List.flatten,
        row.length = config.numKvHeads * config.headDim := by
    intro row member
    obtain ⟨heads, found, rfl⟩ := List.mem_map.mp member
    obtain ⟨kv, known, rfl⟩ := List.mem_map.mp found
    rw [length_flatten_uniform (List.forall_mem_map.mpr (long kv known)), List.length_map,
      (shapes kv known).count]
  have keys := wide Prod.fst fun kv member => (shapes kv member).key
  have values := wide Prod.snd fun kv member => (shapes kv member).value
  have positions : caches.writeKvBatch config ((kvs.map (List.map Prod.fst)).flatMap List.flatten)
        ((kvs.map (List.map Prod.snd)).flatMap List.flatten) kvs.length =
      kvs.foldl (fun caches kv =>
        caches.writeKv config (kv.map Prod.fst).flatten (kv.map Prod.snd).flatten) caches := by
    have entries := map_take_eq_map_range (fun kv : KvPosition K => kv) [] (Nat.le_refl kvs.length)
    rw [List.take_length, List.map_id'] at entries
    conv_rhs => rw [entries, List.foldl_map]
    rw [Caches.writeKvBatch]
    apply List.foldl_ext
    intro caches s member
    have inside := List.mem_range.mp member
    rw [List.flatMap_def, List.flatMap_def, slice_flatten keys (by simpa using inside),
      slice_flatten values (by simpa using inside)]
    simp [inside]
  rw [positions]
  clear positions keys values wide
  induction kvs generalizing caches with
  | nil => simp [interleave]
  | cons kv kvs ih =>
      rw [List.foldl_cons, Caches.writeKv_eq (shapes kv List.mem_cons_self),
        ih fun other member => shapes other (List.mem_cons_of_mem kv member)]
      simp only [List.append_assoc, ← interleave_append, List.singleton_append, List.length_cons]
      congr 1
      omega

/-! ## Attention, row by row -/

section Rows

variable (lib : Library K) (model : ModelWeights K)

/-- The query heads of a row. -/
def AttentionWeights.queryAt (weights : AttentionWeights K) (pos : Nat) (row : List K) :
    List (List K) :=
  qHeads lib model weights pos (weights.qProj.dequantized row)

/-- The keys and values of a row. -/
def AttentionWeights.kvAt (weights : AttentionWeights K) (pos : Nat) (row : List K) :
    KvPosition K :=
  (kHeads lib model weights pos (weights.kProj.dequantized row)).zip
    (vHeads model (weights.vProj.dequantized row))

/-- The keys and values of some rows. -/
def AttentionWeights.kvsOf (weights : AttentionWeights K) (rows : List (List K)) :
    List (KvPosition K) :=
  rows.mapIdx fun pos row => weights.kvAt lib model pos row

/-- What a row attends to, projected back. -/
def AttentionWeights.rowOut (weights : AttentionWeights K) (pos : Nat) (row : List K)
    (kvs : List (KvPosition K)) : List K :=
  weights.oProj.dequantized
    (attend lib.exp model.scale model.config (weights.queryAt lib model pos row) kvs).flatten

end Rows

section Attention

variable {E : Exponential K} {lib : Library K} {model : ModelWeights K}
variable {weights : AttentionWeights K}

omit [Field K] [LinearOrder K] in
theorem kvsOf_append (rows more : List (List K)) :
    weights.kvsOf lib model (rows ++ more) =
      weights.kvsOf lib model rows ++
        more.mapIdx fun pos row => weights.kvAt lib model (rows.length + pos) row := by
  rw [AttentionWeights.kvsOf, AttentionWeights.kvsOf, List.mapIdx_append]
  simp only [Nat.add_comm]

omit [Field K] [LinearOrder K] in
theorem map_fst_kvAt (pos : Nat) (row : List K) :
    (weights.kvAt lib model pos row).map Prod.fst =
      kHeads lib model weights pos (weights.kProj.dequantized row) := by
  apply List.map_fst_zip
  simp [kHeads, vHeads]

omit [Field K] [LinearOrder K] in
theorem map_snd_kvAt (pos : Nat) (row : List K) :
    (weights.kvAt lib model pos row).map Prod.snd =
      vHeads model (weights.vProj.dequantized row) := by
  apply List.map_snd_zip
  simp [kHeads, vHeads]

omit [Field K] [LinearOrder K] in
theorem map_fst_kvsOf (rows : List (List K)) :
    (weights.kvsOf lib model rows).map (List.map Prod.fst) =
      rows.mapIdx fun pos row => kHeads lib model weights pos (weights.kProj.dequantized row) := by
  simp only [AttentionWeights.kvsOf, map_mapIdx, map_fst_kvAt]

omit [Field K] [LinearOrder K] in
theorem map_snd_kvsOf (rows : List (List K)) :
    (weights.kvsOf lib model rows).map (List.map Prod.snd) =
      (rows.map weights.vProj.dequantized).map (vHeads model) := by
  simp only [AttentionWeights.kvsOf, map_mapIdx, map_snd_kvAt]
  apply List.ext_getElem
  · simp
  · simp

variable (sound : weights.Sound model.config) (exact : lib.Exact E model.config)

include sound exact

theorem queryAt_shape (pos : Nat) (row : List K) :
    QShape model.config (weights.queryAt lib model pos row) where
  count := by simp [AttentionWeights.queryAt, qHeads]
  width := by
    intro head member
    obtain ⟨chunk, found, rfl⟩ := List.mem_map.mp member
    rw [exact.rope, sound.qNorm, length_of_mem_chunks (sound.qWidth row) found]

theorem kvAt_shape (pos : Nat) (row : List K) :
    KvShape model.config (weights.kvAt lib model pos row) where
  count := by simp [AttentionWeights.kvAt, kHeads, vHeads]
  key := by
    intro entry member
    obtain ⟨chunk, found, same⟩ := List.mem_map.mp (List.of_mem_zip member).1
    rw [← same, exact.rope, sound.kNorm, length_of_mem_chunks (sound.kWidth row) found]
  value := by
    intro entry member
    exact length_of_mem_chunks (sound.vWidth row) (List.of_mem_zip member).2

theorem kvsOf_shapes (rows : List (List K)) :
    ∀ kv ∈ weights.kvsOf lib model rows, KvShape model.config kv := by
  intro kv member
  obtain ⟨pos, _, rfl⟩ := List.mem_mapIdx.mp member
  exact kvAt_shape sound exact _ _

omit sound

variable [IsStrictOrderedRing K] (valid : model.config.Valid)

include valid

/-- A single token is written and attends to everything in the raw cache. -/
theorem decode_eq {q : List (List K)} (qShape : QShape model.config q) {kv : KvPosition K}
    (shape : KvShape model.config kv) {kvs : List (KvPosition K)}
    (shapes : ∀ kv ∈ kvs, KvShape model.config kv) {caches : Caches K} (holds : caches.Holds kvs) :
    ∃ next, AttentionWeights.decode lib model q (kv.map Prod.fst) (kv.map Prod.snd) caches =
        ((attend E.exp model.scale model.config q (kvs ++ [kv])).flatten, next) ∧
      next.Holds (kvs ++ [kv]) := by
  have together : ∀ other ∈ kvs ++ [kv], KvShape model.config other := by
    intro other member
    rcases List.mem_append.mp member with found | found
    · exact shapes other found
    · exact List.mem_singleton.mp found ▸ shape
  have full : kvs ++ [kv] ≠ [] := by simp
  have written : (caches.writeKv model.config (kv.map Prod.fst).flatten
      (kv.map Prod.snd).flatten).Holds (kvs ++ [kv]) := by
    rw [Caches.writeKv_eq shape]
    constructor
    · rw [holds.raw, interleave_append]
    · rw [holds.rawLen, List.length_append, List.length_singleton]
  refine ⟨_, ?_, written⟩
  rw [AttentionWeights.decode, written.raw, written.rawLen, exact.exp,
    gqaDecode_eq E valid qShape full together, exact.causalDecode q _ _ qShape together full, ite_self]

/-- Several tokens on empty caches: each attends to the tokens up to it, whatever kernel is
chosen. -/
theorem prefill_eq {q : List (List (List K))} (qShapes : ∀ row ∈ q, QShape model.config row)
    {kvs : List (KvPosition K)} (shapes : ∀ kv ∈ kvs, KvShape model.config kv)
    (same : kvs.length = q.length) :
    ∃ next, AttentionWeights.prefill lib model q (kvs.map (List.map Prod.fst))
        (kvs.map (List.map Prod.snd)) 0 {} =
        (q.mapIdx fun i row =>
          (attend E.exp model.scale model.config row (kvs.take (i + 1))).flatten, next) ∧
      next.Holds kvs := by
  have zipped : List.zipWith List.zip (kvs.map (List.map Prod.fst)) (kvs.map (List.map Prod.snd)) =
      kvs := by
    rw [List.zipWith_map, List.zipWith_self]
    simp [List.zip_eq_zipWith]
  have blocked : ((List.range q.length).map fun i => (List.range model.config.numHeads).flatMap fun h =>
      slice (blockedCausalPrefill E.exp (headMajor model.config.numHeads q)
        (headMajor model.config.numKvHeads (kvs.map (List.map Prod.fst)))
        (headMajor model.config.numKvHeads (kvs.map (List.map Prod.snd))) model.config.numHeads
        model.config.numKvHeads q.length model.config.headDim model.scale)
        (h * (q.length * model.config.headDim) + i * model.config.headDim) model.config.headDim) =
      q.mapIdx fun i row =>
        (attend E.exp model.scale model.config row (kvs.take (i + 1))).flatten := by
    apply List.ext_getElem
    · simp
    · intro i left right
      have within : i < q.length := by simpa using left
      rw [List.getElem_map, List.getElem_range,
        blockedCausalPrefill_row E valid qShapes shapes same within]
      simp [within]
  have flash := exact.flashAttn q kvs model.scale 0 qShapes shapes (by omega)
  simp only [Nat.zero_add] at flash
  have flattened : (q.mapIdx fun i row =>
      attend E.exp model.scale model.config row (kvs.take (i + 1))).map List.flatten =
      q.mapIdx fun i row =>
        (attend E.exp model.scale model.config row (kvs.take (i + 1))).flatten := by
    rw [map_mapIdx]
  refine ⟨{ interleaved := kvs, raw := interleave kvs, rawLen := kvs.length }, ?_, ⟨rfl, rfl⟩⟩
  rw [AttentionWeights.prefill]
  simp only [zipped, List.nil_append, ← same, Caches.writeKvBatch_eq shapes]
  rw [same, exact.exp, blocked, flash, flattened, ite_self, Nat.zero_add]

include sound

/-- A further token. -/
theorem AttentionWeights.forward_single {kvs : List (KvPosition K)}
    (shapes : ∀ kv ∈ kvs, KvShape model.config kv) {caches : Caches K} (holds : caches.Holds kvs)
    (row : List K) {pos : Nat} (inside : pos + 1 ≤ model.config.contextLength) :
    ∃ next, weights.forward lib model [row] pos caches =
        (.ok [weights.rowOut lib model pos row (kvs ++ [weights.kvAt lib model pos row])], next) ∧
      next.Holds (kvs ++ [weights.kvAt lib model pos row]) := by
  obtain ⟨next, result, held⟩ := decode_eq exact valid (queryAt_shape sound exact pos row)
    (kvAt_shape sound exact pos row) shapes holds
  rw [map_fst_kvAt, map_snd_kvAt, AttentionWeights.queryAt] at result
  refine ⟨next, ?_, held⟩
  rw [AttentionWeights.forward]
  simp only [sound.qProj.forward_eq, sound.kProj.forward_eq, sound.vProj.forward_eq,
    sound.oProj.forward_eq, List.map_singleton, List.mapIdx_singleton, List.length_singleton,
    List.headD_cons, Nat.add_zero, if_neg (Nat.not_lt.mpr inside), if_true, result]
  rw [AttentionWeights.rowOut, exact.exp, AttentionWeights.queryAt]

/-- The tokens of a prompt, on empty caches. -/
theorem AttentionWeights.forward_fresh {rows : List (List K)}
    (inside : rows.length ≤ model.config.contextLength) :
    ∃ next, weights.forward lib model rows 0 {} =
        (.ok (rows.mapIdx fun i row =>
          weights.rowOut lib model i row ((weights.kvsOf lib model rows).take (i + 1))), next) ∧
      next.Holds (weights.kvsOf lib model rows) := by
  by_cases single : rows.length = 1
  · obtain ⟨row, rfl⟩ := List.length_eq_one_iff.mp single
    have empty : ({} : Caches K).Holds [] := ⟨rfl, rfl⟩
    exact AttentionWeights.forward_single sound exact valid (by simp) empty row inside
  · have qShapes : ∀ q ∈ rows.mapIdx (fun pos row => weights.queryAt lib model pos row),
        QShape model.config q := by
      intro q member
      obtain ⟨pos, _, rfl⟩ := List.mem_mapIdx.mp member
      exact queryAt_shape sound exact _ _
    obtain ⟨next, result, held⟩ := prefill_eq exact valid qShapes (kvsOf_shapes sound exact rows)
      (by simp [AttentionWeights.kvsOf])
    rw [map_fst_kvsOf, map_snd_kvsOf] at result
    refine ⟨next, ?_, held⟩
    rw [AttentionWeights.forward]
    simp only [sound.qProj.forward_eq, sound.kProj.forward_eq, sound.vProj.forward_eq,
      sound.oProj.forward_eq, mapIdx_map, Nat.zero_add, if_neg (Nat.not_lt.mpr inside),
      if_neg single]
    simp only [AttentionWeights.queryAt] at result
    rw [result]
    simp only [List.mapIdx_mapIdx, map_mapIdx, AttentionWeights.rowOut, exact.exp,
      AttentionWeights.queryAt, Function.comp_def]

end Attention

end AiCoreStack.Serving.Qwen3
