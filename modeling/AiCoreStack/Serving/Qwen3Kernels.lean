import AiCoreStack.Serving.Qwen3

/-!
# The attention kernels are exact

Both kernels of the decoder compute causal attention: each query head is the mean of the
values of its key head, weighted by the exponentials of the scaled products with the keys.
-/

namespace AiCoreStack.Serving.Qwen3

open Foundation

variable {K : Type} [Field K] [LinearOrder K]

/-! ## Exact attention -/

/-- The score and the value of a position for a query head. -/
def entryOf (scale : K) (head : List K) (kvH : Nat) (kv : KvPosition K) : K × List K :=
  let entry := kv.getD kvH ([], [])
  (vecDot head entry.1 * scale, entry.2)

/-- Attention of one query head over some positions. -/
def attendHead (exp : K → K) (scale : K) (d kvH : Nat) (head : List K)
    (kvs : List (KvPosition K)) : List K :=
  softmaxMean exp d (kvs.map (entryOf scale head kvH))

/-- Attention of the query heads over some positions; groups of query heads share a key
head. -/
def attend (exp : K → K) (scale : K) (config : Config) (q : List (List K))
    (kvs : List (KvPosition K)) : List (List K) :=
  (List.range config.numHeads).map fun h =>
    attendHead exp scale config.headDim (h / config.numKvGroups) (q.getD h []) kvs

/-- The query heads of a position have the sizes of the model. -/
structure QShape (config : Config) (q : List (List K)) : Prop where
  count : q.length = config.numHeads
  width : ∀ head ∈ q, head.length = config.headDim

/-- The keys and values of a position have the sizes of the model. -/
structure KvShape (config : Config) (kv : KvPosition K) : Prop where
  count : kv.length = config.numKvHeads
  key : ∀ entry ∈ kv, entry.1.length = config.headDim
  value : ∀ entry ∈ kv, entry.2.length = config.headDim

/-- The query heads fall into groups of the same size. -/
structure Config.Valid (config : Config) : Prop where
  kvHeads : 0 < config.numKvHeads
  groups : 0 < config.numKvGroups
  heads : config.numHeads = config.numKvHeads * config.numKvGroups

omit [LinearOrder K] in
theorem length_attendHead (exp : K → K) (scale : K) (d kvH : Nat) (head : List K)
    (kvs : List (KvPosition K)) : (attendHead exp scale d kvH head kvs).length = d := by
  simp [attendHead, softmaxMean]

section Exact

variable [IsStrictOrderedRing K] (E : Exponential K)

/-- A pass over some positions gives the attention of a head. -/
theorem finish_positions {config : Config} {scale : K} {head : List K} {kvH : Nat}
    (inside : kvH < config.numKvHeads) {kvs : List (KvPosition K)} (full : kvs ≠ [])
    (shapes : ∀ kv ∈ kvs, KvShape config kv) :
    ((kvs.map (entryOf scale head kvH)).foldl (fun state entry => state.step E.exp entry.1 entry.2)
      (Softmax.start config.headDim)).finish =
      attendHead E.exp scale config.headDim kvH head kvs := by
  apply Softmax.finish_run E
  · simpa using full
  · intro entry member
    obtain ⟨kv, found, rfl⟩ := List.mem_map.mp member
    have shape := shapes kv found
    have within : kvH < kv.length := shape.count ▸ inside
    rw [entryOf]
    simp only [List.getD_eq_getElem _ _ within]
    exact shape.value _ (List.getElem_mem within)

end Exact

/-! ## The interleaved cache -/

/-- The buffer of some positions: in each of them the heads, a key and a value at a time. -/
def interleave (kvs : List (KvPosition K)) : List K :=
  (kvs.map fun kv => (kv.map fun entry => entry.1 ++ entry.2).flatten).flatten

omit [Field K] [LinearOrder K] in
theorem interleave_append (left right : List (KvPosition K)) :
    interleave (left ++ right) = interleave left ++ interleave right := by
  simp [interleave]

omit [Field K] [LinearOrder K] in
theorem length_entry {config : Config} {kv : KvPosition K} (shape : KvShape config kv) :
    ∀ part ∈ kv.map (fun entry => entry.1 ++ entry.2), part.length = 2 * config.headDim := by
  intro part member
  obtain ⟨entry, found, rfl⟩ := List.mem_map.mp member
  rw [List.length_append, shape.key entry found, shape.value entry found]
  omega

omit [Field K] [LinearOrder K] in
theorem length_position {config : Config} {kvs : List (KvPosition K)}
    (shapes : ∀ kv ∈ kvs, KvShape config kv) :
    ∀ part ∈ kvs.map (fun kv => (kv.map fun entry => entry.1 ++ entry.2).flatten),
      part.length = config.numKvHeads * (2 * config.headDim) := by
  intro part member
  obtain ⟨kv, found, rfl⟩ := List.mem_map.mp member
  have shape := shapes kv found
  rw [length_flatten_uniform (length_entry shape), List.length_map, shape.count]

omit [Field K] [LinearOrder K] in
/-- The slice of a head at a position of the buffer is its key and its value. -/
theorem slice_interleave {config : Config} {kvs : List (KvPosition K)}
    (shapes : ∀ kv ∈ kvs, KvShape config kv) {pos kvH : Nat} (within : pos < kvs.length)
    (inside : kvH < config.numKvHeads) :
    slice (interleave kvs)
        (pos * (config.numKvHeads * (2 * config.headDim)) + kvH * (2 * config.headDim))
        (2 * config.headDim) =
      ((kvs.getD pos []).getD kvH ([], [])).1 ++ ((kvs.getD pos []).getD kvH ([], [])).2 := by
  have known : kvs.getD pos [] = kvs[pos] := List.getD_eq_getElem _ _ within
  have shape : KvShape config (kvs.getD pos []) := known ▸ shapes _ (List.getElem_mem within)
  have bound : kvH * (2 * config.headDim) + 2 * config.headDim ≤
      config.numKvHeads * (2 * config.headDim) := by
    rw [← Nat.succ_mul]
    exact Nat.mul_le_mul_right _ inside
  have position : (kvs.map fun kv => (kv.map fun entry => entry.1 ++ entry.2).flatten).getD pos [] =
      ((kvs.getD pos []).map fun entry => entry.1 ++ entry.2).flatten := by
    simp [within]
  have head : kvH < (kvs.getD pos []).length := shape.count ▸ inside
  rw [← slice_slice _ _ bound, interleave, slice_flatten (length_position shapes) (by simpa using within),
    position, slice_flatten (length_entry shape) (by simpa using head)]
  generalize kvs.getD pos [] = kv at head
  simp [head]

omit [Field K] [LinearOrder K] in
/-- The key and the value of a head at a position of the buffer. -/
theorem slices_interleave {config : Config} {kvs : List (KvPosition K)}
    (shapes : ∀ kv ∈ kvs, KvShape config kv) {pos kvH : Nat} (within : pos < kvs.length)
    (inside : kvH < config.numKvHeads) :
    slice (interleave kvs)
        (pos * (config.numKvHeads * (2 * config.headDim)) + kvH * (2 * config.headDim))
        config.headDim = ((kvs.getD pos []).getD kvH ([], [])).1 ∧
      slice (interleave kvs)
        (pos * (config.numKvHeads * (2 * config.headDim)) + kvH * (2 * config.headDim) +
          config.headDim) config.headDim = ((kvs.getD pos []).getD kvH ([], [])).2 := by
  have both := slice_interleave shapes within inside
  have shape : KvShape config (kvs.getD pos []) := by
    rw [List.getD_eq_getElem _ _ within]
    exact shapes _ (List.getElem_mem within)
  have head : kvH < (kvs.getD pos []).length := shape.count ▸ inside
  have member : (kvs.getD pos []).getD kvH ([], []) ∈ kvs.getD pos [] := by
    rw [List.getD_eq_getElem _ _ head]
    exact List.getElem_mem head
  have key := shape.key _ member
  have value := shape.value _ member
  have front : 0 + config.headDim ≤ 2 * config.headDim := by omega
  have back : config.headDim + config.headDim ≤ 2 * config.headDim := by omega
  constructor
  · have first := slice_slice (interleave kvs)
      (pos * (config.numKvHeads * (2 * config.headDim)) + kvH * (2 * config.headDim)) front
    rw [both, slice_append_left _ (by omega), ← key, slice_zero_length] at first
    rw [← key]
    exact first.symm
  · have split := slice_append_right ((kvs.getD pos []).getD kvH ([], [])).1
      ((kvs.getD pos []).getD kvH ([], [])).2 0 config.headDim
    rw [key, Nat.add_zero] at split
    rw [← slice_slice _ _ back, both, split]
    conv_lhs => rw [← value]
    exact slice_zero_length _

/-! ## Decoding -/

section Exact

variable (E : Exponential K) {config : Config}

/-- Reading the positions of a buffer is reading the positions. -/
theorem foldl_interleave {scale : K} {head : List K} {kvH : Nat}
    (inside : kvH < config.numKvHeads) {kvs : List (KvPosition K)}
    (shapes : ∀ kv ∈ kvs, KvShape config kv) (state : Softmax K) :
    (List.range kvs.length).foldl (fun state pos =>
      state.step E.exp
        (vecDot head (slice (interleave kvs)
          (pos * (config.numKvHeads * (2 * config.headDim)) + kvH * (2 * config.headDim))
          config.headDim) * scale)
        (slice (interleave kvs)
          (pos * (config.numKvHeads * (2 * config.headDim)) + kvH * (2 * config.headDim) +
            config.headDim) config.headDim)) state =
      (kvs.map (entryOf scale head kvH)).foldl
        (fun state entry => state.step E.exp entry.1 entry.2) state := by
  have entries := map_take_eq_map_range (entryOf scale head kvH) [] (Nat.le_refl kvs.length)
  rw [List.take_length] at entries
  rw [entries, List.foldl_map]
  apply List.foldl_ext
  intro state pos member
  obtain ⟨key, value⟩ := slices_interleave shapes (List.mem_range.mp member) inside
  rw [key, value]
  rfl

variable [IsStrictOrderedRing K] (valid : config.Valid)

include valid

/-- The decoding kernel computes the attention of the query heads. -/
theorem gqaDecode_eq {scale : K} {q : List (List K)} (qShape : QShape config q)
    {kvs : List (KvPosition K)} (full : kvs ≠ []) (shapes : ∀ kv ∈ kvs, KvShape config kv) :
    gqaDecode E.exp q.flatten (interleave kvs) config.numHeads config.numKvHeads config.headDim
        kvs.length scale =
      (attend E.exp scale config q kvs).flatten := by
  have single (kvH j : Nat) (inside : kvH < config.numKvHeads) (within : j < config.numKvGroups) :
      ((List.range kvs.length).foldl (fun state pos =>
        state.step E.exp
          (vecDot (slice q.flatten ((kvH * config.numKvGroups + j) * config.headDim) config.headDim)
            (slice (interleave kvs)
              (pos * (config.numKvHeads * (2 * config.headDim)) + kvH * (2 * config.headDim))
              config.headDim) * scale)
          (slice (interleave kvs)
            (pos * (config.numKvHeads * (2 * config.headDim)) + kvH * (2 * config.headDim) +
              config.headDim) config.headDim))
        (Softmax.start config.headDim)).finish =
      attendHead E.exp scale config.headDim ((kvH * config.numKvGroups + j) / config.numKvGroups)
        (q.getD (kvH * config.numKvGroups + j) []) kvs := by
    have bound := Nat.mul_le_mul_right config.numKvGroups (Nat.succ_le_of_lt inside)
    have position : kvH * config.numKvGroups + j < q.length := by
      rw [qShape.count, valid.heads]
      rw [Nat.succ_mul] at bound
      omega
    have shared : (kvH * config.numKvGroups + j) / config.numKvGroups = kvH := by
      rw [Nat.mul_comm, Nat.mul_add_div valid.groups, Nat.div_eq_of_lt within, Nat.add_zero]
    rw [slice_flatten qShape.width position, foldl_interleave E inside shapes,
      finish_positions E inside full shapes, shared]
  have groups : config.numHeads / config.numKvHeads = config.numKvGroups := rfl
  simp only [gqaDecode, groups, foldl_mapIdx_replicate, List.flatMap_map]
  rw [attend, ← List.flatMap_def, valid.heads, ← flatMap_range_mul]
  apply List.flatMap_congr
  intro kvH inside
  apply List.flatMap_congr
  intro j within
  exact single kvH j (List.mem_range.mp inside) (List.mem_range.mp within)

end Exact

/-! ## Prefilling -/

omit [Field K] [LinearOrder K] in
/-- The rows of a head are behind one another in the buffer. -/
theorem slice_headMajor {heads d : Nat} {rows : List (List (List K))}
    (wide : ∀ row ∈ rows, ∀ h < heads, (row.getD h []).length = d) {h : Nat} (inside : h < heads) :
    slice (headMajor heads rows) (h * (rows.length * d)) (rows.length * d) =
      rows.flatMap fun row => row.getD h [] := by
  apply slice_flatMap_range _ inside
  intro h inside
  rw [List.flatMap_def, length_flatten_uniform, List.length_map]
  intro head member
  obtain ⟨row, found, rfl⟩ := List.mem_map.mp member
  exact wide row found h inside

omit [Field K] [LinearOrder K] in
theorem slice_head {heads d : Nat} {rows : List (List (List K))}
    (wide : ∀ row ∈ rows, ∀ h < heads, (row.getD h []).length = d) {h : Nat} (inside : h < heads)
    {i : Nat} (within : i < rows.length) :
    slice (rows.flatMap fun row => row.getD h []) (i * d) d = (rows.getD i []).getD h [] := by
  have parts : ∀ head ∈ rows.map (fun row => row.getD h []), head.length = d := by
    intro head member
    obtain ⟨row, found, rfl⟩ := List.mem_map.mp member
    exact wide row found h inside
  rw [List.flatMap_def, slice_flatten parts (by simpa using within)]
  simp [within]

/-- The state of a row after the positions up to its own. -/
def rowState (exp : K → K) (qH kH vH : List K) (d : Nat) (scale : K) (i : Nat) : Softmax K :=
  (List.range (i + 1)).foldl (fun state j =>
    state.step exp (vecDot (slice qH (i * d) d) (slice kH (j * d) d) * scale) (slice vH (j * d) d))
    (.start d)

/-- A block runs its rows side by side, and each up to its own position. -/
theorem blockRows_eq (exp : K → K) (qH kH vH : List K) (l d : Nat) (scale : K) (q0 : Nat) :
    blockRows exp qH kH vH l d scale q0 =
      (List.range (min (l - q0) attnQueryBlock)).map fun i =>
        rowState exp qH kH vH d scale (q0 + i) := by
  rw [blockRows, foldl_mapIdx_replicate]
  apply List.map_congr_left
  intro i member
  have inside := List.mem_range.mp member
  have guard (j : Nat) : j - q0 ≤ i ↔ j < q0 + i + 1 := by omega
  simp only [guard]
  exact foldl_range_guard _ _ (by omega)

/-- The blocks of a head give all its rows. -/
theorem flatMap_blockRows (exp : K → K) (qH kH vH : List K) (l d : Nat) (scale : K) :
    ((List.range ((l + attnQueryBlock - 1) / attnQueryBlock)).flatMap fun blk =>
      (blockRows exp qH kH vH l d scale (blk * attnQueryBlock)).flatMap Softmax.finish) =
      (List.range l).flatMap fun i => (rowState exp qH kH vH d scale i).finish := by
  have whole : min l ((l + attnQueryBlock - 1) / attnQueryBlock * attnQueryBlock) = l := by
    rw [attnQueryBlock]
    omega
  conv_rhs => rw [← whole, ← flatMap_range_blocks, List.flatMap_assoc]
  apply List.flatMap_congr
  intro blk _
  rw [blockRows_eq, List.flatMap_map, List.flatMap_map]

section Exact

variable [IsStrictOrderedRing K] (E : Exponential K) {config : Config} (valid : config.Valid)

omit [Field K] [LinearOrder K] [IsStrictOrderedRing K] in
theorem wide_queries {q : List (List (List K))} (qShapes : ∀ row ∈ q, QShape config row) :
    ∀ row ∈ q, ∀ h < config.numHeads, (row.getD h []).length = config.headDim := by
  intro row member h inside
  have shape := qShapes row member
  have within : h < row.length := shape.count ▸ inside
  rw [List.getD_eq_getElem _ _ within]
  exact shape.width _ (List.getElem_mem within)

omit [Field K] [LinearOrder K] [IsStrictOrderedRing K] in
theorem wide_entries {kvs : List (KvPosition K)} (part : List K × List K → List K)
    (wide : ∀ kv ∈ kvs, ∀ entry ∈ kv, (part entry).length = config.headDim)
    (counts : ∀ kv ∈ kvs, kv.length = config.numKvHeads) :
    ∀ row ∈ kvs.map (List.map part), ∀ h < config.numKvHeads,
      (row.getD h []).length = config.headDim := by
  intro row member h inside
  obtain ⟨kv, found, rfl⟩ := List.mem_map.mp member
  have within : h < kv.length := counts kv found ▸ inside
  rw [List.getD_eq_getElem _ _ (by simpa using within), List.getElem_map]
  exact wide kv found _ (List.getElem_mem within)

include valid

/-- The prefilling kernel computes the attention of every query head over the positions up to
its own. -/
theorem blockedCausalPrefill_eq {scale : K} {q : List (List (List K))}
    (qShapes : ∀ row ∈ q, QShape config row) {kvs : List (KvPosition K)}
    (shapes : ∀ kv ∈ kvs, KvShape config kv) (same : kvs.length = q.length) :
    blockedCausalPrefill E.exp (headMajor config.numHeads q)
        (headMajor config.numKvHeads (kvs.map (List.map Prod.fst)))
        (headMajor config.numKvHeads (kvs.map (List.map Prod.snd))) config.numHeads
        config.numKvHeads q.length config.headDim scale =
      (List.range config.numHeads).flatMap fun h => (List.range q.length).flatMap fun i =>
        attendHead E.exp scale config.headDim (h / config.numKvGroups) ((q.getD i []).getD h [])
          (kvs.take (i + 1)) := by
  have keys := wide_entries Prod.fst (fun kv member => (shapes kv member).key)
    (fun kv member => (shapes kv member).count)
  have values := wide_entries Prod.snd (fun kv member => (shapes kv member).value)
    (fun kv member => (shapes kv member).count)
  have queries := wide_queries qShapes
  have groups : config.numHeads / config.numKvHeads = config.numKvGroups := rfl
  simp only [blockedCausalPrefill, groups, flatMap_blockRows]
  apply List.flatMap_congr
  intro h member
  have inside := List.mem_range.mp member
  have shared : h / config.numKvGroups < config.numKvHeads := by
    rw [Nat.div_lt_iff_lt_mul valid.groups, ← valid.heads]
    exact inside
  have keyRows := slice_headMajor keys shared
  have valueRows := slice_headMajor values shared
  rw [List.length_map, same] at keyRows valueRows
  rw [slice_headMajor queries inside, keyRows, valueRows]
  apply List.flatMap_congr
  intro i member
  have within := List.mem_range.mp member
  have upTo : i + 1 ≤ kvs.length := by omega
  have full : kvs.take (i + 1) ≠ [] := by
    rw [← List.length_pos_iff, List.length_take]
    omega
  rw [← finish_positions E shared full fun kv member => shapes kv (List.mem_of_mem_take member),
    map_take_eq_map_range _ [] upTo, List.foldl_map, rowState, slice_head queries inside within]
  congr 1
  apply List.foldl_ext
  intro state j member
  have position : j < kvs.length := by
    have earlier := List.mem_range.mp member
    omega
  rw [slice_head keys shared (by simpa using position),
    slice_head values shared (by simpa using position), entryOf]
  have count := (shapes _ (List.getElem_mem position)).count
  simp [position, count, shared]

/-- The heads of a row, gathered from the output of the prefilling kernel. -/
theorem blockedCausalPrefill_row {scale : K} {q : List (List (List K))}
    (qShapes : ∀ row ∈ q, QShape config row) {kvs : List (KvPosition K)}
    (shapes : ∀ kv ∈ kvs, KvShape config kv) (same : kvs.length = q.length) {i : Nat}
    (within : i < q.length) :
    ((List.range config.numHeads).flatMap fun h =>
      slice (blockedCausalPrefill E.exp (headMajor config.numHeads q)
        (headMajor config.numKvHeads (kvs.map (List.map Prod.fst)))
        (headMajor config.numKvHeads (kvs.map (List.map Prod.snd))) config.numHeads
        config.numKvHeads q.length config.headDim scale)
        (h * (q.length * config.headDim) + i * config.headDim) config.headDim) =
      (attend E.exp scale config (q.getD i []) (kvs.take (i + 1))).flatten := by
  have bound : i * config.headDim + config.headDim ≤ q.length * config.headDim := by
    rw [← Nat.succ_mul]
    exact Nat.mul_le_mul_right _ within
  rw [blockedCausalPrefill_eq E valid qShapes shapes same, attend, ← List.flatMap_def]
  apply List.flatMap_congr
  intro h member
  rw [← slice_slice _ _ bound, slice_flatMap_range _ (List.mem_range.mp member),
    slice_flatMap_range _ within]
  · intro i _
    exact length_attendHead ..
  · intro h _
    apply length_flatMap_range
    intro i _
    exact length_attendHead ..

end Exact

/-- The exponential function. -/
noncomputable def realExp : Exponential ℝ where
  exp := Real.exp
  exp_add := Real.exp_add
  exp_pos := Real.exp_pos

end AiCoreStack.Serving.Qwen3
