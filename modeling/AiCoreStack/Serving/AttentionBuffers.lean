import AiCoreStack.Foundation.CheckedBuffers
import AiCoreStack.Serving.Qwen3Kernels

/-!
# The attention kernels on their buffers

The two kernels on flat buffers, with every slice and every index checked.  On buffers of the sizes
that they are called with no check fails, and the output is the exact mean.
-/

namespace AiCoreStack.Serving.Qwen3

open Foundation

variable {K : Type} [Field K] [LinearOrder K]

/-! ## The kernels -/

/-- The arrays of a block: for each row the largest score, the sum of the weights, and the weighted
sum of the values, the rows one behind the other. -/
structure BlockArrays (K : Type) where
  m : List (Option K)
  ssum : List K
  acc : List K

/-- `vec_dot` reads `d` numbers behind each pointer. -/
def vecDot? (d : Nat) (a b : List K) : Option K :=
  if a.length = d ∧ b.length = d then some (vecDot a b) else none

/-- The score of a row and its `online_softmax_step`. -/
def BlockArrays.update (exp : K → K) (d : Nat) (scale : K) (qRow kRow vRow : List K)
    (block : BlockArrays K) (i : Nat) : Option (BlockArrays K) := do
  let score ← vecDot? d qRow kRow
  let m ← block.m[i]?
  let ssum ← block.ssum[i]?
  let acc ← range? block.acc (i * d) ((i + 1) * d)
  let next := Softmax.step exp ⟨m, ssum, acc⟩ (score * scale) vRow
  pure
    { m := block.m.set i next.m
      ssum := block.ssum.set i next.ssum
      acc := splice block.acc (i * d) next.acc }

/-- `dst[t] = a[t] * inv` for a row. -/
def BlockArrays.scaleRow (d : Nat) (block : BlockArrays K) (out : List K) (i : Nat) :
    Option (List K) := do
  let ssum ← block.ssum[i]?
  let inv := if 0 < ssum then 1 / ssum else 0
  (List.range d).foldlM (fun out t => do
    let a ← block.acc[i * d + t]?
    let _ ← out[i * d + t]?
    pure (out.set (i * d + t) (a * inv))) out

/-- A block of `blocked_causal_prefill_f32`. -/
def checkedBlock (exp : K → K) (qH kH vH : List K) (l d : Nat) (scale : K) (q0 len : Nat) :
    Option (List K) := do
  let rows := min (l - q0) attnQueryBlock
  let block ← (List.range (q0 + rows)).foldlM (fun block j => do
    let kRow ← range? kH (j * d) ((j + 1) * d)
    let vRow ← range? vH (j * d) ((j + 1) * d)
    let first := j - q0
    (List.range' first (rows - first)).foldlM (fun block i => do
      let qRow ← range? qH ((q0 + i) * d) ((q0 + i + 1) * d)
      block.update exp d scale qRow kRow vRow i) block)
    (⟨List.replicate attnQueryBlock none, List.replicate attnQueryBlock 0,
      List.replicate (rows * d) 0⟩ : BlockArrays K)
  (List.range rows).foldlM (fun out i => do
    let _ ← range? out (i * d) ((i + 1) * d)
    let _ ← range? block.acc (i * d) ((i + 1) * d)
    block.scaleRow d out i) (List.replicate len 0)

/-- `blocked_causal_prefill_f32`. -/
def checkedPrefill (exp : K → K) (q k v : List K) (hQ hKv l d : Nat) (scale : K) :
    Option (List K) :=
  if hKv = 0 then none
  else
    let groups := hQ / hKv
    parChunks (l * d) (hQ * (l * d)) fun h len =>
      if groups = 0 then none
      else do
        let kvH := h / groups
        let qH ← range? q (h * (l * d)) ((h + 1) * (l * d))
        let kH ← range? k (kvH * (l * d)) ((kvH + 1) * (l * d))
        let vH ← range? v (kvH * (l * d)) ((kvH + 1) * (l * d))
        parChunks (attnQueryBlock * d) len fun blk len =>
          checkedBlock exp qH kH vH l d scale (blk * attnQueryBlock) len

/-- `gqa_decode_f32_interleaved`. -/
def checkedDecode (exp : K → K) (q kv : List K) (hQ hKv d kvLen : Nat) (scale : K) :
    Option (List K) :=
  if hKv = 0 then none
  else
    let rk := hQ / hKv
    let kvHeadStride := 2 * d
    let kvSeqStride := hKv * kvHeadStride
    parChunks (rk * d) (hQ * d) fun kvH len => do
      let headOff := kvH * kvHeadStride
      let block ← (List.range kvLen).foldlM (fun block pos => do
        let base := pos * kvSeqStride + headOff
        let kRow ← range? kv base (base + d)
        let vRow ← range? kv (base + d) (base + 2 * d)
        (List.range rk).foldlM (fun block j => do
          let qRow ← range? q ((kvH * rk + j) * d) ((kvH * rk + j + 1) * d)
          block.update exp d scale qRow kRow vRow j) block)
        (⟨List.replicate rk none, List.replicate rk 0, List.replicate (rk * d) 0⟩ : BlockArrays K)
      (List.range rk).foldlM (block.scaleRow d) (List.replicate len 0)

/-! ## The arrays of a block -/

/-- The arrays hold the states of some rows. -/
structure BlockArrays.Holds (d rows : Nat) (block : BlockArrays K) (state : Nat → Softmax K) :
    Prop where
  m : ∀ i < rows, block.m[i]? = some (state i).m
  ssum : ∀ i < rows, block.ssum[i]? = some (state i).ssum
  acc : block.acc = (List.range rows).flatMap fun i => (state i).acc
  wide : ∀ i < rows, (state i).acc.length = d

namespace BlockArrays

variable {d rows : Nat} {block : BlockArrays K} {state : Nat → Softmax K}

omit [LinearOrder K] in
theorem holds_start (d : Nat) {rows size : Nat} (inside : rows ≤ size) :
    Holds d rows (⟨List.replicate size none, List.replicate size 0, List.replicate (rows * d) 0⟩ :
      BlockArrays K) fun _ => .start d where
  m i within := by
    rw [List.getElem?_replicate, if_pos (within.trans_le inside)]
    rfl
  ssum i within := by
    rw [List.getElem?_replicate, if_pos (within.trans_le inside)]
    rfl
  acc := by
    apply eq_flatMap_range
    · intro i _
      exact List.length_replicate
    · exact List.length_replicate
    · intro i within t small
      have bound : i * d + d ≤ rows * d := part_inside within
      rw [List.getElem?_replicate, if_pos (by omega), Softmax.start, List.getElem?_replicate,
        if_pos small]
  wide i _ := List.length_replicate

omit [Field K] [LinearOrder K] in
theorem Holds.length_acc (holds : Holds d rows block state) : block.acc.length = rows * d := by
  rw [holds.acc]
  exact length_flatMap_range holds.wide

omit [Field K] [LinearOrder K] in
/-- A row of the accumulators. -/
theorem Holds.row (holds : Holds d rows block state) {i : Nat} (within : i < rows) :
    range? block.acc (i * d) ((i + 1) * d) = some (state i).acc := by
  rw [range?_part holds.length_acc within, holds.acc, slice_flatMap_range holds.wide within]

theorem length_step (exp : K → K) {state : Softmax K} {d : Nat} {value : List K}
    (wide : state.acc.length = d) (wideValue : value.length = d) (score : K) :
    (state.step exp score value).acc.length = d := by
  rw [Softmax.step]
  split
  · simp [wide, wideValue]
  · split <;> simp [wide, wideValue]

/-- Write the state of a row into the arrays. -/
def put (d : Nat) (block : BlockArrays K) (i : Nat) (next : Softmax K) : BlockArrays K where
  m := block.m.set i next.m
  ssum := block.ssum.set i next.ssum
  acc := splice block.acc (i * d) next.acc

omit [Field K] [LinearOrder K] in
/-- An array that holds a number for each row holds another one after a write. -/
theorem getElem?_set_update {β : Type} {numbers : List β} {number : Nat → β} {rows i : Nat}
    (held : ∀ p < rows, numbers[p]? = some (number p)) (within : i < rows) (next : β) :
    ∀ p < rows, (numbers.set i next)[p]? = some (Function.update number i next p) := by
  intro p inside
  rw [List.getElem?_set]
  split
  next same =>
    subst same
    rw [if_pos (List.getElem?_eq_some_iff.mp (held i within)).1, Function.update_self]
  next other => rw [Function.update_of_ne (Ne.symm other), held p inside]

/-- The places of two rows are apart. -/
theorem row_apart {d p i t : Nat} (other : p ≠ i) (small : t < d) :
    ¬ (i * d ≤ p * d + t ∧ p * d + t < i * d + d) := by
  rintro ⟨above, below⟩
  apply other
  have low : i < p + 1 := by
    apply Nat.lt_of_mul_lt_mul_right (a := d)
    rw [Nat.succ_mul]
    omega
  have high : p < i + 1 := by
    apply Nat.lt_of_mul_lt_mul_right (a := d)
    rw [Nat.succ_mul]
    omega
  omega

omit [Field K] [LinearOrder K] in
theorem Holds.put (holds : Holds d rows block state) {next : Softmax K}
    (wide : next.acc.length = d) {i : Nat} (within : i < rows) :
    Holds d rows (block.put d i next) (Function.update state i next) := by
  have wideAll : ∀ p < rows, (Function.update state i next p).acc.length = d := by
    intro p inside
    by_cases same : p = i
    · rw [same, Function.update_self, wide]
    · rw [Function.update_of_ne same, holds.wide p inside]
  have bound : i * d + next.acc.length ≤ block.acc.length := by
    rw [wide, holds.length_acc]
    exact part_inside within
  have fields {β : Type} (part : Softmax K → β) (p : Nat) :
      Function.update (fun p => part (state p)) i (part next) p =
        part (Function.update state i next p) :=
    congrFun (Function.comp_update part state i next).symm p
  refine ⟨?_, ?_, ?_, wideAll⟩
  · intro p inside
    rw [← fields Softmax.m]
    exact getElem?_set_update holds.m within next.m p inside
  · intro p inside
    rw [← fields Softmax.ssum]
    exact getElem?_set_update holds.ssum within next.ssum p inside
  · apply eq_flatMap_range wideAll
    · rw [BlockArrays.put, length_splice bound, holds.length_acc]
    · intro p inside t small
      rw [BlockArrays.put, getElem?_splice bound, wide]
      by_cases same : p = i
      · subst same
        rw [if_pos (by omega), Function.update_self, Nat.add_sub_cancel_left]
      · rw [if_neg (row_apart same small), Function.update_of_ne same, holds.acc,
          getElem?_flatMap_range holds.wide inside small]

/-- One row takes a score and a value, and the other rows stay as they are. -/
theorem Holds.update (holds : Holds d rows block state) (exp : K → K) (scale : K)
    {qRow kRow vRow : List K} (wideQ : qRow.length = d) (wideK : kRow.length = d)
    (wideV : vRow.length = d) {i : Nat} (within : i < rows) :
    ∃ next, block.update exp d scale qRow kRow vRow i = some next ∧
      Holds d rows next (Function.update state i
        ((state i).step exp (vecDot qRow kRow * scale) vRow)) := by
  have stepped := length_step exp (holds.wide i within) wideV (vecDot qRow kRow * scale)
  refine ⟨block.put d i ((state i).step exp (vecDot qRow kRow * scale) vRow), ?_,
    holds.put stepped within⟩
  rw [BlockArrays.update, vecDot?, if_pos ⟨wideQ, wideK⟩, holds.m i within, holds.ssum i within,
    holds.row within]
  rfl

omit [Field K] [LinearOrder K] in
theorem Holds.congr (holds : Holds d rows block state) {other : Nat → Softmax K}
    (same : ∀ i < rows, state i = other i) : Holds d rows block other where
  m i within := same i within ▸ holds.m i within
  ssum i within := same i within ▸ holds.ssum i within
  acc := by
    rw [holds.acc]
    exact List.flatMap_congr fun i member => by rw [same i (List.mem_range.mp member)]
  wide i within := same i within ▸ holds.wide i within

/-- A loop over rows lets each of them take its score and the value. -/
theorem Holds.updateRows (holds : Holds d rows block state) (exp : K → K) (scale : K) (first : Nat)
    {qRow : Nat → Option (List K)} {query : Nat → List K} {kRow vRow : List K}
    (found : ∀ i < rows, qRow i = some (query i)) (wideQ : ∀ i < rows, (query i).length = d)
    (wideK : kRow.length = d) (wideV : vRow.length = d) :
    ∃ next, (List.range' first (rows - first)).foldlM (fun block i => do
        let qRow ← qRow i
        BlockArrays.update exp d scale qRow kRow vRow block i) block = some next ∧
      Holds d rows next fun i =>
        if first ≤ i then (state i).step exp (vecDot (query i) kRow * scale) vRow else state i := by
  let upTo (p i : Nat) : Softmax K :=
    if first ≤ i ∧ i < p then (state i).step exp (vecDot (query i) kRow * scale) vRow else state i
  have begin_ : Holds d rows block (upTo first) :=
    holds.congr fun i _ => (if_neg (by omega)).symm
  obtain ⟨next, ran, kept⟩ : ∃ next, (List.range' first (rows - first)).foldlM (fun block i => do
        let qRow ← qRow i
        BlockArrays.update exp d scale qRow kRow vRow block i) block = some next ∧
      Holds d rows next (upTo (first + (rows - first))) := by
    refine foldlM_range' (fun p block => Holds d rows block (upTo p)) _ begin_ ?_
    intro p above below block held
    have within : p < rows := by omega
    obtain ⟨next, stepped, kept⟩ := held.update exp scale (wideQ p within) wideK wideV within
    refine ⟨next, ?_, kept.congr fun i _ => ?_⟩
    · rw [found p within]
      exact stepped
    · by_cases same : i = p
      · subst same
        have before : upTo i i = state i := if_neg (by omega)
        rw [Function.update_self, before]
        exact (if_pos (by omega)).symm
      · rw [Function.update_of_ne same]
        have bounds : (first ≤ i ∧ i < p) ↔ (first ≤ i ∧ i < p + 1) := by omega
        simp only [upTo, bounds]
  refine ⟨next, ran, kept.congr fun i within => ?_⟩
  have bounds : (first ≤ i ∧ i < first + (rows - first)) ↔ first ≤ i := by omega
  simp only [upTo, bounds]

/-! ## The output of a block -/

/-- A row of the output is the mean of the row. -/
theorem Holds.scaleRow (holds : Holds d rows block state) {out : List K}
    (long : out.length = rows * d) {i : Nat} (within : i < rows) :
    ∃ next, block.scaleRow d out i = some next ∧ next.length = rows * d ∧
      ∀ p < rows, ∀ t < d, next[p * d + t]? =
        if p = i then (state i).finish[t]? else out[p * d + t]? := by
  let inv : K := if 0 < (state i).ssum then 1 / (state i).ssum else 0
  have bound : i * d + d ≤ rows * d := part_inside within
  obtain ⟨next, ran, same, written⟩ : ∃ next, (List.range d).foldlM (fun out t => do
        let a ← block.acc[i * d + t]?
        let _ ← out[i * d + t]?
        pure (out.set (i * d + t) (a * inv))) out = some next ∧ next.length = rows * d ∧
      ∀ q, next[q]? = if i * d ≤ q ∧ q < i * d + d then
        (state i).finish[q - i * d]? else out[q]? := by
    refine foldlM_range (fun t now => now.length = rows * d ∧
      ∀ q, now[q]? = if i * d ≤ q ∧ q < i * d + t then
        (state i).finish[q - i * d]? else out[q]?) d ⟨long, fun q => (if_neg (by omega)).symm⟩ ?_
    rintro t small now ⟨length, written⟩
    have inside : i * d + t < now.length := by omega
    have number : block.acc[i * d + t]? = (state i).acc[t]? := by
      rw [holds.acc, getElem?_flatMap_range holds.wide within small]
    have known : t < (state i).acc.length := (holds.wide i within).symm ▸ small
    refine ⟨now.set (i * d + t) ((state i).acc[t] * inv), ?_, ?_, ?_⟩
    · rw [number, List.getElem?_eq_getElem known, List.getElem?_eq_getElem inside]
      rfl
    · rw [List.length_set, length]
    · intro q
      rw [List.getElem?_set]
      by_cases here : i * d + t = q
      · subst here
        have mean : (state i).finish[t]? = some ((state i).acc[t] * inv) := by
          rw [Softmax.finish, List.getElem?_map, List.getElem?_eq_getElem known]
          rfl
        rw [if_pos rfl, if_pos inside, if_pos (by omega), Nat.add_sub_cancel_left, mean]
      · have bounds : (i * d ≤ q ∧ q < i * d + t) ↔ (i * d ≤ q ∧ q < i * d + (t + 1)) := by omega
        rw [if_neg here, written, if_congr bounds rfl rfl]
  refine ⟨next, ?_, same, ?_⟩
  · rw [BlockArrays.scaleRow, holds.ssum i within]
    exact ran
  · intro p inside t small
    rw [written]
    by_cases here : p = i
    · subst here
      rw [if_pos (by omega), if_pos rfl, Nat.add_sub_cancel_left]
    · rw [if_neg (row_apart here small), if_neg here]

/-- A loop over the rows fills the output with their means, whatever else a turn checks. -/
theorem Holds.scaleRows (holds : Holds d rows block state) {turn : List K → Nat → Option (List K)}
    (same : ∀ out : List K, out.length = rows * d → ∀ i < rows,
      turn out i = block.scaleRow d out i) :
    (List.range rows).foldlM turn (List.replicate (rows * d) 0) =
      some ((List.range rows).flatMap fun i => (state i).finish) := by
  have wide : ∀ i < rows, ((state i).finish).length = d := by
    intro i within
    rw [Softmax.finish, List.length_map, holds.wide i within]
  obtain ⟨out, ran, long, written⟩ : ∃ out, (List.range rows).foldlM turn
        (List.replicate (rows * d) 0) = some out ∧ out.length = rows * d ∧
      ∀ p < rows, ∀ t < d, out[p * d + t]? = (state p).finish[t]? := by
    obtain ⟨out, ran, long, written⟩ := foldlM_range (fun i (now : List K) =>
        now.length = rows * d ∧ ∀ p < i, p < rows → ∀ t < d,
          now[p * d + t]? = (state p).finish[t]?) rows
      ⟨List.length_replicate, fun p none_ => absurd none_ (Nat.not_lt_zero p)⟩ (by
        rintro i within now ⟨length, before⟩
        obtain ⟨next, stepped, long, written⟩ := holds.scaleRow length within
        refine ⟨next, (same now length i within).trans stepped, long, ?_⟩
        intro p upTo inside t small
        rw [written p inside t small]
        by_cases here : p = i
        · rw [if_pos here, here]
        · rw [if_neg here, before p (by omega) inside t small])
    exact ⟨out, ran, long, fun p inside => written p inside inside⟩
  rw [ran, eq_flatMap_range wide long written]

end BlockArrays

/-! ## No check fails -/

section Prefill

variable {qH kH vH : List K} {l d : Nat}

theorem checkedBlock_eq (exp : K → K) (scale : K) (longQ : qH.length = l * d)
    (longK : kH.length = l * d) (longV : vH.length = l * d) {q0 : Nat} (inside : q0 < l) :
    checkedBlock exp qH kH vH l d scale q0 (min (l - q0) attnQueryBlock * d) =
      some ((blockRows exp qH kH vH l d scale q0).flatMap Softmax.finish) := by
  rw [blockRows, foldl_mapIdx_replicate, List.flatMap_map, checkedBlock]
  set rows := min (l - q0) attnQueryBlock with rowsEq
  have limit : q0 + rows ≤ l := by omega
  let state (j i : Nat) : Softmax K := (List.range j).foldl (fun state j =>
    if j - q0 ≤ i then
      state.step exp (vecDot (slice qH ((q0 + i) * d) d) (slice kH (j * d) d) * scale)
        (slice vH (j * d) d)
    else state) (.start d)
  have wide (buffer : List K) (long : buffer.length = l * d) (j : Nat) (within : j < l) :
      range? buffer (j * d) ((j + 1) * d) = some (slice buffer (j * d) d) ∧
        (slice buffer (j * d) d).length = d :=
    ⟨range?_part long within, length_slice (long ▸ part_inside within)⟩
  obtain ⟨block, ran, holds⟩ : ∃ block, (List.range (q0 + rows)).foldlM (fun block j => do
        let kRow ← range? kH (j * d) ((j + 1) * d)
        let vRow ← range? vH (j * d) ((j + 1) * d)
        let first := j - q0
        (List.range' first (rows - first)).foldlM (fun block i => do
          let qRow ← range? qH ((q0 + i) * d) ((q0 + i + 1) * d)
          BlockArrays.update exp d scale qRow kRow vRow block i) block)
        (⟨List.replicate attnQueryBlock none, List.replicate attnQueryBlock 0,
          List.replicate (rows * d) 0⟩ : BlockArrays K) = some block ∧
      BlockArrays.Holds d rows block (state (q0 + rows)) := by
    refine foldlM_range (fun j block => BlockArrays.Holds d rows block (state j)) _
      (BlockArrays.holds_start d (Nat.min_le_right _ _)) ?_
    intro j below block held
    obtain ⟨keyFound, keyWide⟩ := wide kH longK j (by omega)
    obtain ⟨valueFound, valueWide⟩ := wide vH longV j (by omega)
    obtain ⟨next, stepped, kept⟩ := held.updateRows exp scale (j - q0)
      (fun i within => (wide qH longQ (q0 + i) (by omega)).1)
      (fun i within => (wide qH longQ (q0 + i) (by omega)).2) keyWide valueWide
    refine ⟨next, ?_, kept.congr fun i _ => ?_⟩
    · rw [keyFound, valueFound]
      exact stepped
    · simp only [state, List.range_succ, List.foldl_append, List.foldl_cons, List.foldl_nil]
  rw [ran]
  refine holds.scaleRows fun out long i within => ?_
  rw [range?_part long within, holds.row within]
  rfl

/-- The chunks of a head are its blocks. -/
theorem count_blocks (l : Nat) {d : Nat} (positive : 0 < d) :
    (l * d + attnQueryBlock * d - 1) / (attnQueryBlock * d) =
      (l + attnQueryBlock - 1) / attnQueryBlock := by
  have rows : l * d + attnQueryBlock * d - 1 = (l + attnQueryBlock - 1) * d + (d - 1) := by
    rw [attnQueryBlock, ← Nat.add_mul, Nat.add_sub_assoc (by decide), Nat.add_mul _ _ d,
      Nat.add_mul _ _ d]
    omega
  rw [rows, Nat.mul_comm attnQueryBlock, ← Nat.div_div_eq_div_mul, div_part (by omega)]

theorem checkedHead_eq (exp : K → K) (scale : K) (positive : 0 < d) (longQ : qH.length = l * d)
    (longK : kH.length = l * d) (longV : vH.length = l * d) :
    parChunks (attnQueryBlock * d) (l * d) (fun blk len =>
        checkedBlock exp qH kH vH l d scale (blk * attnQueryBlock) len) =
      some ((List.range ((l + attnQueryBlock - 1) / attnQueryBlock)).flatMap fun blk =>
        (blockRows exp qH kH vH l d scale (blk * attnQueryBlock)).flatMap Softmax.finish) := by
  rw [← count_blocks l positive]
  refine parChunks_eq (Nat.mul_pos (by decide) positive) ?_
  intro blk within
  rw [count_blocks l positive] at within
  have inside : blk * attnQueryBlock < l := by
    rw [attnQueryBlock] at within ⊢
    omega
  have rows : min (attnQueryBlock * d) (l * d - blk * (attnQueryBlock * d)) =
      min (l - blk * attnQueryBlock) attnQueryBlock * d := by
    rw [← Nat.mul_assoc, ← Nat.sub_mul, Nat.mul_min_mul_right, Nat.min_comm]
  rw [rows]
  exact checkedBlock_eq exp scale longQ longK longV inside

/-- No check of the prefilling kernel fails. -/
theorem checkedPrefill_eq (exp : K → K) (scale : K) {q k v : List K} {hKv groups : Nat}
    (kvHeads : 0 < hKv) (grouped : 0 < groups) (positiveL : 0 < l) (positiveD : 0 < d)
    (longQ : q.length = hKv * groups * (l * d)) (longK : k.length = hKv * (l * d))
    (longV : v.length = hKv * (l * d)) :
    checkedPrefill exp q k v (hKv * groups) hKv l d scale =
      some (blockedCausalPrefill exp q k v (hKv * groups) hKv l d scale) := by
  have share : hKv * groups / hKv = groups := Nat.mul_div_cancel_left groups kvHeads
  rw [checkedPrefill, if_neg kvHeads.ne', blockedCausalPrefill, share]
  refine parChunks_mul (Nat.mul_pos positiveL positiveD) ?_
  intro h inside
  have shared : h / groups < hKv := (Nat.div_lt_iff_lt_mul grouped).mpr inside
  rw [if_neg grouped.ne']
  dsimp only
  rw [range?_part longQ inside, range?_part longK shared, range?_part longV shared]
  exact checkedHead_eq exp scale positiveD (length_slice (longQ ▸ part_inside inside))
    (length_slice (longK ▸ part_inside shared)) (length_slice (longV ▸ part_inside shared))

end Prefill

/-- No check of the decoding kernel fails. -/
theorem checkedDecode_eq (exp : K → K) (scale : K) {q kv : List K} {hKv groups d kvLen : Nat}
    (kvHeads : 0 < hKv) (grouped : 0 < groups) (positiveD : 0 < d)
    (longQ : q.length = hKv * groups * d) (longKv : kv.length = kvLen * (hKv * (2 * d))) :
    checkedDecode exp q kv (hKv * groups) hKv d kvLen scale =
      some (gqaDecode exp q kv (hKv * groups) hKv d kvLen scale) := by
  have share : hKv * groups / hKv = groups := Nat.mul_div_cancel_left groups kvHeads
  rw [checkedDecode, if_neg kvHeads.ne', gqaDecode, share]
  dsimp only
  rw [Nat.mul_assoc]
  refine parChunks_mul (Nat.mul_pos grouped positiveD) ?_
  intro kvH inside
  rw [foldl_mapIdx_replicate, List.flatMap_map]
  let state (pos j : Nat) : Softmax K := (List.range pos).foldl (fun state pos =>
    state.step exp (vecDot (slice q ((kvH * groups + j) * d) d)
        (slice kv (pos * (hKv * (2 * d)) + kvH * (2 * d)) d) * scale)
      (slice kv (pos * (hKv * (2 * d)) + kvH * (2 * d) + d) d)) (.start d)
  obtain ⟨block, ran, holds⟩ : ∃ block, (List.range kvLen).foldlM (fun block pos => do
        let base := pos * (hKv * (2 * d)) + kvH * (2 * d)
        let kRow ← range? kv base (base + d)
        let vRow ← range? kv (base + d) (base + 2 * d)
        (List.range groups).foldlM (fun block j => do
          let qRow ← range? q ((kvH * groups + j) * d) ((kvH * groups + j + 1) * d)
          BlockArrays.update exp d scale qRow kRow vRow block j) block)
        (⟨List.replicate groups none, List.replicate groups 0,
          List.replicate (groups * d) 0⟩ : BlockArrays K) = some block ∧
      BlockArrays.Holds d groups block (state kvLen) := by
    refine foldlM_range (fun pos block => BlockArrays.Holds d groups block (state pos)) _
      (BlockArrays.holds_start d (Nat.le_refl _)) ?_
    intro pos below block held
    -- the two halves of the entry of a head lie within the cache
    have head : kvH * (2 * d) + 2 * d ≤ hKv * (2 * d) := part_inside inside
    have position : pos * (hKv * (2 * d)) + hKv * (2 * d) ≤ kv.length :=
      longKv ▸ part_inside below
    have keyIn : pos * (hKv * (2 * d)) + kvH * (2 * d) + d ≤ kv.length := by omega
    have valueIn : pos * (hKv * (2 * d)) + kvH * (2 * d) + d + d ≤ kv.length := by omega
    have query (j : Nat) (within : j < groups) : kvH * groups + j < hKv * groups := by
      have bound : kvH * groups + groups ≤ hKv * groups := part_inside inside
      omega
    obtain ⟨next, stepped, kept⟩ := held.updateRows exp scale 0
      (fun j within => range?_part longQ (query j within))
      (fun j within => length_slice (longQ ▸ part_inside (query j within)))
      (length_slice keyIn) (length_slice valueIn)
    refine ⟨next, ?_, kept.congr fun j _ => ?_⟩
    · dsimp only
      rw [range?_eq_some keyIn, Nat.two_mul, ← Nat.add_assoc, ← Nat.two_mul]
      rw [range?_eq_some valueIn, List.range_eq_range']
      exact stepped
    · rw [if_pos (Nat.zero_le j)]
      simp only [state, List.range_succ, List.foldl_append, List.foldl_cons, List.foldl_nil]
  rw [ran]
  exact holds.scaleRows fun _ _ _ _ => rfl

/-! ## The output is the mean -/

/-- Attention of a query over the first positions: the mean of their values, weighted by the
exponentials of the scaled products with their keys. -/
def attention (exp : K → K) (d : Nat) (scale : K) (query : List K) (keys values : Nat → List K)
    (count : Nat) : List K :=
  softmaxMean exp d ((List.range count).map fun j => (vecDot query (keys j) * scale, values j))

/-- Row `i` of head `h` in a buffer `[h][l][d]`. -/
def headRow (buffer : List K) (l d h i : Nat) : List K := slice buffer ((h * l + i) * d) d

/-- The key of a head at a position of the interleaved cache. -/
def cacheKey (kv : List K) (hKv d kvH pos : Nat) : List K :=
  slice kv ((pos * hKv + kvH) * (2 * d)) d

/-- The value of a head at a position of the interleaved cache, behind its key. -/
def cacheValue (kv : List K) (hKv d kvH pos : Nat) : List K :=
  slice kv ((pos * hKv + kvH) * (2 * d) + d) d

section Exact

variable [IsStrictOrderedRing K] (E : Exponential K) (scale : K) {d : Nat}

/-- A pass over positions is the mean over them. -/
theorem finish_foldl_range (query : List K) {keys values : Nat → List K} {count : Nat}
    (positive : 0 < count) (wide : ∀ j < count, (values j).length = d) :
    ((List.range count).foldl (fun state j =>
        state.step E.exp (vecDot query (keys j) * scale) (values j)) (Softmax.start d)).finish =
      attention E.exp d scale query keys values count := by
  rw [attention, ← Softmax.finish_run E]
  · rw [Softmax.run, List.foldl_map]
  · simpa using positive.ne'
  · intro entry member
    obtain ⟨j, inside, rfl⟩ := List.mem_map.mp member
    exact wide j (List.mem_range.mp inside)

omit [Field K] [LinearOrder K] [IsStrictOrderedRing K] in
/-- The row of a head is a slice of the slice of the head. -/
theorem slice_headRow (buffer : List K) {l : Nat} (h : Nat) {i : Nat} (within : i < l) :
    slice (slice buffer (h * (l * d)) (l * d)) (i * d) d = headRow buffer l d h i := by
  rw [slice_slice _ _ (part_inside within), headRow, Nat.add_mul, Nat.mul_assoc]

theorem blockedCausalPrefill_means {q k v : List K} {hKv groups l : Nat} (kvHeads : 0 < hKv)
    (grouped : 0 < groups) (longV : v.length = hKv * (l * d)) :
    blockedCausalPrefill E.exp q k v (hKv * groups) hKv l d scale =
      (List.range (hKv * groups)).flatMap fun h => (List.range l).flatMap fun i =>
        attention E.exp d scale (headRow q l d h i) (headRow k l d (h / groups))
          (headRow v l d (h / groups)) (i + 1) := by
  have share : hKv * groups / hKv = groups := Nat.mul_div_cancel_left groups kvHeads
  simp only [blockedCausalPrefill, flatMap_blockRows, share]
  apply List.flatMap_congr
  intro h member
  have shared : h / groups < hKv := (Nat.div_lt_iff_lt_mul grouped).mpr (List.mem_range.mp member)
  apply List.flatMap_congr
  intro i member
  have within := List.mem_range.mp member
  rw [rowState, slice_headRow q h within, ← finish_foldl_range E scale _ (Nat.succ_pos i)]
  · congr 1
    apply List.foldl_ext
    intro state j earlier
    have before : j < l := by
      have upTo := List.mem_range.mp earlier
      omega
    rw [slice_headRow k _ before, slice_headRow v _ before]
  · intro j upTo
    rw [← slice_headRow v _ (show j < l by omega)]
    apply length_slice
    rw [length_slice (longV ▸ part_inside shared)]
    exact part_inside (by omega)

theorem gqaDecode_means {q kv : List K} {hKv groups kvLen : Nat} (kvHeads : 0 < hKv)
    (positive : 0 < kvLen) (longKv : kv.length = kvLen * (hKv * (2 * d))) :
    gqaDecode E.exp q kv (hKv * groups) hKv d kvLen scale =
      (List.range (hKv * groups)).flatMap fun h =>
        attention E.exp d scale (slice q (h * d) d) (cacheKey kv hKv d (h / groups))
          (cacheValue kv hKv d (h / groups)) kvLen := by
  have share : hKv * groups / hKv = groups := Nat.mul_div_cancel_left groups kvHeads
  have place (pos kvH : Nat) : pos * (hKv * (2 * d)) + kvH * (2 * d) =
      (pos * hKv + kvH) * (2 * d) := by
    rw [Nat.add_mul, Nat.mul_assoc]
  simp only [gqaDecode, foldl_mapIdx_replicate, List.flatMap_map, share]
  rw [← flatMap_range_mul]
  apply List.flatMap_congr
  intro kvH member
  have inside := List.mem_range.mp member
  apply List.flatMap_congr
  intro j member
  rw [div_part (List.mem_range.mp member), ← finish_foldl_range E scale _ positive]
  · simp only [cacheKey, cacheValue, place]
  · intro pos below
    apply length_slice
    have head : kvH * (2 * d) + 2 * d ≤ hKv * (2 * d) := part_inside inside
    have position : pos * (hKv * (2 * d)) + hKv * (2 * d) ≤ kv.length :=
      longKv ▸ part_inside below
    rw [← place]
    omega

end Exact

/-- Both kernels end without a failed check, and give for every query head the exact softmax mean:
for each row over the positions up to its own, and over all positions of a cache. -/
theorem attention_kernels_exact {hQ hKv d : Nat} (heads : 0 < hQ) (divides : hKv ∣ hQ)
    (positiveD : 0 < d) (scale : ℝ) :
    (∀ (l : Nat) (q k v : List ℝ), 0 < l → q.length = hQ * (l * d) → k.length = hKv * (l * d) →
      v.length = hKv * (l * d) →
      checkedPrefill Real.exp q k v hQ hKv l d scale =
        some ((List.range hQ).flatMap fun h => (List.range l).flatMap fun i =>
          attention Real.exp d scale (headRow q l d h i) (headRow k l d (h / (hQ / hKv)))
            (headRow v l d (h / (hQ / hKv))) (i + 1))) ∧
      ∀ (kvLen : Nat) (q kv : List ℝ), 0 < kvLen → q.length = hQ * d →
        kv.length = kvLen * (hKv * (2 * d)) →
        checkedDecode Real.exp q kv hQ hKv d kvLen scale =
          some ((List.range hQ).flatMap fun h =>
            attention Real.exp d scale (slice q (h * d) d) (cacheKey kv hKv d (h / (hQ / hKv)))
              (cacheValue kv hKv d (h / (hQ / hKv))) kvLen) := by
  obtain ⟨groups, rfl⟩ := divides
  have kvHeads : 0 < hKv := Nat.pos_of_mul_pos_right heads
  have grouped : 0 < groups := Nat.pos_of_mul_pos_left heads
  have share : hKv * groups / hKv = groups := Nat.mul_div_cancel_left groups kvHeads
  rw [share]
  constructor
  · intro l q k v positiveL longQ longK longV
    rw [checkedPrefill_eq Real.exp scale kvHeads grouped positiveL positiveD longQ longK longV]
    exact congrArg some (blockedCausalPrefill_means realExp scale kvHeads grouped longV)
  · intro kvLen q kv positive longQ longKv
    rw [checkedDecode_eq Real.exp scale kvHeads grouped positiveD longQ longKv]
    exact congrArg some (gqaDecode_means realExp scale kvHeads positive longKv)

/-- Two query heads on one key head, two rows of one number each. -/
theorem attention_kernels_exact_two :
    checkedPrefill Real.exp [1, 2, 3, 4] [5, 6] [7, 8] 2 1 2 1 1 =
      some ((List.range 2).flatMap fun h => (List.range 2).flatMap fun i =>
        attention Real.exp 1 1 (headRow [1, 2, 3, 4] 2 1 h i) (headRow [5, 6] 2 1 (h / (2 / 1)))
          (headRow [7, 8] 2 1 (h / (2 / 1))) (i + 1)) :=
  (attention_kernels_exact (by decide) (by decide) (by decide) 1).1 2 [1, 2, 3, 4] [5, 6] [7, 8]
    (by decide) rfl rfl rfl

end AiCoreStack.Serving.Qwen3
