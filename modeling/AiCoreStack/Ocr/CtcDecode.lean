import AiCoreStack.Foundation.Champion
import AiCoreStack.Foundation.CheckedBuffers
import AiCoreStack.Foundation.Scalar
import AiCoreStack.Ocr.Components

/-!
# CTC decoding

Model of `argmax` and `ctc_greedy_decode` in `postprocess.rs`.  The decoder looks at each frame
once and remembers the class of the frame before; in two stages, runs of one class are collapsed
and then blanks are dropped.  Both read the labels off every alignment.
-/

namespace AiCoreStack.Ocr

open AiCoreStack.Foundation

section Model

variable {α : Type} [Scalar α]

/-- `argmax`: the index and the value of the first largest entry. -/
def argmax (v : List α) : Nat × α :=
  v.zipIdx.foldl
    (fun best entry => if Scalar.lt best.2 entry.1 then (entry.2, entry.1) else best)
    (0, Scalar.negInfinity)

/-- The variables of the decoding loop. -/
structure Decoder (α : Type) where
  text : List Char
  confSum : α
  confN : Nat
  prevClass : Nat

variable (dict : List (List Char))

/-- The loop starts with a class that no frame has. -/
def Decoder.start : Decoder α := ⟨[], Scalar.lit 0, 0, usizeMax⟩

/-- One frame.  A class that the dictionary does not know adds nothing. -/
def Decoder.frame (state : Decoder α) (row : List α) : Decoder α :=
  let top := argmax row
  let added : Decoder α :=
    if top.1 ≠ 0 ∧ top.1 ≠ state.prevClass then
      match dict[top.1 - 1]? with
      | some ch =>
          { state with
            text := state.text ++ ch
            confSum := Scalar.add state.confSum top.2
            confN := state.confN + 1 }
      | none => state
    else state
  { added with prevClass := top.1 }

/-- `ctc_greedy_decode`: the text and its confidence. -/
def ctcGreedyDecode (logits : List α) (t c : Nat) : Option (List Char × α) := do
  let final ← (List.range t).foldlM
    (fun (state : Decoder α) step =>
      (range? logits (step * c) ((step + 1) * c)).map (Decoder.frame dict state))
    Decoder.start
  let conf : α :=
    if 0 < final.confN then Scalar.div final.confSum (Scalar.ofNat final.confN) else Scalar.lit 0
  return (final.text, conf)

end Model

/-! ## Largest entries -/

section Largest

variable {α : Type} [Scalar α]

/-- The first entry that no entry exceeds. -/
def FirstMax (row : List α) (k : Nat) : Prop :=
  ∃ v, row[k]? = some v ∧ (∀ u ∈ row, Scalar.lt v u = false) ∧
    ∀ j < k, ∀ u, row[j]? = some u → Scalar.le v u = false

/-- An entry above all others. -/
def UniqueMax (row : List α) (k : Nat) : Prop :=
  ∃ v, row[k]? = some v ∧ ∀ j u, j ≠ k → row[j]? = some u → Scalar.lt u v = true

variable [LawfulCompare α]

/-- Numbered entries, compared by value. -/
def entries (α : Type) [Scalar α] [LawfulCompare α] : Contest (Nat × α) where
  beats x y := Scalar.lt y.2 x.2
  meets x y := Scalar.le y.2 x.2
  beats_irrefl x := LawfulCompare.lt_irrefl x.2
  meets_of_beats below := LawfulCompare.le_of_lt below
  beats_of_meets_of_beats within below := LawfulCompare.lt_of_lt_of_le below within

def numbered (row : List α) : List (Nat × α) := row.zipIdx.map fun entry => (entry.2, entry.1)

omit [Scalar α] [LawfulCompare α] in
theorem getElem?_numbered (row : List α) (k : Nat) :
    (numbered row)[k]? = row[k]?.map fun v => (k, v) := by
  rw [numbered, List.getElem?_map, List.getElem?_zipIdx, Option.map_map, Nat.zero_add]
  rfl

/-- What the scan finds: the value that it starts with, or the first best entry. -/
theorem argmax_spec (row : List α) :
    (∀ u ∈ row, Scalar.lt (argmax row).2 u = false) ∧
      (argmax row = (0, Scalar.negInfinity) ∨ row[(argmax row).1]? = some (argmax row).2 ∧
        ∀ j < (argmax row).1, ∀ u, row[j]? = some u → Scalar.le (argmax row).2 u = false) := by
  have best : ∃ before after losers, (0, Scalar.negInfinity) :: numbered row =
      before ++ argmax row :: after ∧ (entries α).FirstBest before (argmax row) after losers := by
    have walked := (entries α).foldl_firstBest (0, Scalar.negInfinity) (numbered row)
    rw [numbered, List.foldl_map] at walked
    exact walked
  obtain ⟨before, after, losers, split, best⟩ := best
  constructor
  · intro u member
    obtain ⟨j, atJ⟩ := List.mem_iff_getElem?.mp member
    have inside : (j, u) ∈ numbered row := by
      refine List.mem_of_getElem? (i := j) ?_
      rw [getElem?_numbered, atJ, Option.map_some]
    exact best.unbeaten (j, u) (split ▸ List.mem_cons_of_mem _ inside)
  · cases before with
    | nil =>
        left
        exact (List.cons.inj split).1.symm
    | cons first before =>
        right
        have rest : numbered row = before ++ argmax row :: after := (List.cons.inj split).2
        have place (j : Nat) :
            row[j]?.map (fun v => (j, v)) = (before ++ argmax row :: after)[j]? := by
          rw [← rest, getElem?_numbered]
        have here := place before.length
        rw [List.getElem?_append_right (Nat.le_refl _), Nat.sub_self, List.getElem?_cons_zero,
          Option.map_eq_some_iff] at here
        obtain ⟨v, found, same⟩ := here
        have index : (argmax row).1 = before.length := by rw [← same]
        have value : (argmax row).2 = v := by rw [← same]
        refine ⟨by rw [index, value, found], fun j below u atJ => ?_⟩
        have earlier := place j
        rw [atJ, Option.map_some, List.getElem?_append_left (index ▸ below)] at earlier
        exact best.first (j, u) (List.mem_cons_of_mem _ (List.mem_of_getElem? earlier.symm))

end Largest

section Bottom

variable {α : Type} [Scalar α] [LawfulBottom α]

/-- Whatever a row holds, `argmax` returns the index of a first largest entry. -/
theorem firstMax_argmax {row : List α} (nonempty : row ≠ []) : FirstMax row (argmax row).1 := by
  obtain ⟨unbeaten, untouched | ⟨found, first⟩⟩ := argmax_spec row
  · rw [untouched] at unbeaten ⊢
    have inside : 0 < row.length := List.length_pos_iff.mpr nonempty
    refine ⟨row[0], List.getElem?_eq_getElem inside, fun u member => ?_, fun j below => ?_⟩
    · by_contra below
      rw [Bool.not_eq_false] at below
      have above := LawfulBottom.negInfinity_lt below
      rw [unbeaten u member] at above
      cases above
    · exact absurd below (Nat.not_lt_zero j)
  · exact ⟨_, found, unbeaten, first⟩

theorem UniqueMax.argmax_eq {row : List α} {k : Nat} (unique : UniqueMax row k) :
    (argmax row).1 = k := by
  obtain ⟨v, atK, above⟩ := unique
  obtain ⟨w, atTop, unbeaten, -⟩ :=
    firstMax_argmax (List.ne_nil_of_mem (List.mem_of_getElem? atK))
  by_contra other
  have below := above _ w other atTop
  rw [unbeaten v (List.mem_of_getElem? atK)] at below
  cases below

end Bottom

/-! ## Alignments -/

/-- The frame paths of a label sequence: every label stands for one frame or more, with blanks
around them, and at least one blank between equal neighbours. -/
inductive Alignment : List Nat → List Nat → Prop where
  | blanks (count : Nat) : Alignment [] (List.replicate count 0)
  | label (before more l : Nat) {labels path : List Nat} (rest : Alignment labels path)
      (apart : labels.head? = some l → path.head? = some 0) :
      Alignment (l :: labels)
        (List.replicate before 0 ++ List.replicate (more + 1) l ++ path)

/-- The classes that a pass over a path emits which remembers the class before. -/
def emitted : Nat → List Nat → List Nat
  | _, [] => []
  | prev, k :: path =>
      if k ≠ 0 ∧ k ≠ prev then k :: emitted k path else emitted k path

/-- The two-stage reading of a path: runs of one class collapse, then blanks are dropped. -/
def collapse (path : List Nat) : List Nat := (path.destutter (· ≠ ·)).filter (· ≠ 0)

/-- The text of some classes. -/
def spell (dict : List (List Char)) (classes : List Nat) : List Char :=
  classes.flatMap fun k => dict[k - 1]?.getD []

theorem destutter'_eq_cons (k : Nat) (path : List Nat) :
    path.destutter' (· ≠ ·) k = k :: (path.destutter' (· ≠ ·) k).tail := by
  induction path with
  | nil => rfl
  | cons next rest ih =>
      by_cases same : k = next
      · rw [List.destutter'_cons_neg _ (not_not.mpr same), ih]
        rfl
      · rw [List.destutter'_cons_pos _ same]
        rfl

theorem emitted_eq (prev : Nat) (path : List Nat) :
    emitted prev path = ((path.destutter' (· ≠ ·) prev).tail).filter (· ≠ 0) := by
  induction path generalizing prev with
  | nil => rfl
  | cons k rest ih =>
      rw [emitted]
      by_cases same : prev = k
      · rw [if_neg fun both => both.2 same.symm, ih,
          List.destutter'_cons_neg _ (not_not.mpr same), same]
      · rw [List.destutter'_cons_pos _ same, List.tail_cons, destutter'_eq_cons, ih]
        by_cases blank : k = 0
        · rw [if_neg fun both => both.1 blank, List.filter_cons_of_neg (by simpa using blank)]
        · rw [if_pos ⟨blank, Ne.symm same⟩, List.filter_cons_of_pos (by simpa using blank)]

/-- One pass emits what the two stages leave. -/
theorem emitted_eq_collapse {prev : Nat} {path : List Nat} (fresh : path.head? ≠ some prev) :
    emitted prev path = collapse path := by
  cases path with
  | nil => rfl
  | cons k rest =>
      have other : prev ≠ k := fun same => fresh (by rw [same, List.head?_cons])
      rw [emitted_eq, List.destutter'_cons_pos _ other, List.tail_cons, collapse,
        List.destutter_cons']

theorem emitted_blanks (count : Nat) (prev : Nat) (path : List Nat) :
    emitted prev (List.replicate count 0 ++ path) =
      emitted (if count = 0 then prev else 0) path := by
  induction count generalizing prev with
  | zero => rfl
  | succ count ih =>
      rw [List.replicate_succ, List.cons_append, emitted, if_neg fun both => both.1 rfl, ih]
      simp

theorem emitted_repeats (count l : Nat) (path : List Nat) :
    emitted l (List.replicate count l ++ path) = emitted l path := by
  induction count with
  | zero => rfl
  | succ count ih =>
      rw [List.replicate_succ, List.cons_append, emitted, if_neg fun both => both.2 rfl, ih]

/-- A pass reads the labels off an alignment, unless it takes the first one for a repetition. -/
theorem Alignment.emitted_eq {labels path : List Nat} (aligned : Alignment labels path)
    (solid : ∀ l ∈ labels, l ≠ 0) {prev : Nat}
    (apart : labels.head? = some prev → path.head? = some 0) : emitted prev path = labels := by
  induction aligned generalizing prev with
  | blanks count =>
      rw [← List.append_nil (List.replicate count 0), emitted_blanks]
      rfl
  | label before more l rest apart' ih =>
      obtain ⟨nonzero, others⟩ := List.forall_mem_cons.mp solid
      have changed : l ≠ if before = 0 then prev else 0 := by
        split
        · next none =>
            rintro rfl
            have starts := apart rfl
            rw [none, List.replicate_succ, List.replicate_zero, List.nil_append,
              List.cons_append, List.head?_cons, Option.some_inj] at starts
            exact nonzero starts
        · exact nonzero
      rw [List.append_assoc, emitted_blanks, List.replicate_succ, List.cons_append, emitted,
        if_pos ⟨nonzero, changed⟩, emitted_repeats, ih others apart']

theorem Alignment.subset {labels path : List Nat} (aligned : Alignment labels path) :
    labels ⊆ path := by
  induction aligned with
  | blanks count => exact List.nil_subset _
  | label before more l rest apart ih =>
      refine List.cons_subset.mpr ⟨?_, fun k member => ?_⟩
      · exact List.mem_append_left _ (List.mem_append_right _ (by simp))
      · exact List.mem_append_right _ (ih member)

/-! ## The text -/

section Text

variable {α : Type} [Scalar α] {dict : List (List Char)}

/-- The rows of a buffer of logits. -/
def logitRows (logits : List α) (t c : Nat) : List (List α) :=
  (List.range t).map fun step => slice logits (step * c) c

/-- The classes of some frames. -/
def bestClasses (rows : List (List α)) : List Nat := rows.map fun row => (argmax row).1

theorem Decoder.text_frame (state : Decoder α) (row : List α) :
    (state.frame dict row).text =
      state.text ++ spell dict (emitted state.prevClass [(argmax row).1]) := by
  rw [Decoder.frame, emitted]
  simp only
  split
  · rw [spell, emitted, List.flatMap_singleton]
    cases dict[(argmax row).1 - 1]? with
    | none => rw [Option.getD_none, List.append_nil]
    | some ch => rfl
  · rw [spell, emitted, List.flatMap_nil, List.append_nil]

theorem emitted_cons (prev k : Nat) (path : List Nat) :
    emitted prev (k :: path) = emitted prev [k] ++ emitted k path := by
  rw [emitted, emitted]
  split <;> rfl

theorem Decoder.text_foldl (rows : List (List α)) (state : Decoder α) :
    (rows.foldl (Decoder.frame dict) state).text =
      state.text ++ spell dict (emitted state.prevClass (bestClasses rows)) := by
  induction rows generalizing state with
  | nil => exact (List.append_nil _).symm
  | cons row rest ih =>
      have previous : (state.frame dict row).prevClass = (argmax row).1 := rfl
      have classes : bestClasses (row :: rest) = (argmax row).1 :: bestClasses rest := rfl
      rw [List.foldl_cons, ih, Decoder.text_frame, previous, List.append_assoc, classes,
        emitted_cons _ _ (bestClasses rest), spell, spell, spell, List.flatMap_append]

variable (dict) in
/-- The slices are those of the rows. -/
theorem ctcGreedyDecode_eq {logits : List α} {t c : Nat} (long : t * c ≤ logits.length) :
    ∃ conf, ctcGreedyDecode dict logits t c =
      some (spell dict (emitted usizeMax (bestClasses (logitRows logits t c))), conf) := by
  let rows (n : Nat) : List (List α) := (List.range n).map fun step => slice logits (step * c) c
  have turn (j : Nat) (below : j < t) :
      (range? logits (j * c) ((j + 1) * c)).map
          (Decoder.frame dict ((rows j).foldl (Decoder.frame dict) Decoder.start)) =
        some ((rows (j + 1)).foldl (Decoder.frame dict) Decoder.start) := by
    have part := range?_eq_some ((part_inside below).trans long)
    rw [← Nat.succ_mul] at part
    simp only [rows]
    rw [part, List.range_succ, List.map_append, List.foldl_append]
    rfl
  have looped : (List.range t).foldlM (fun (state : Decoder α) step =>
      (range? logits (step * c) ((step + 1) * c)).map (Decoder.frame dict state))
      Decoder.start = some ((rows t).foldl (Decoder.frame dict) Decoder.start) :=
    foldlM_range_eq (fun n => (rows n).foldl (Decoder.frame dict) Decoder.start) t rfl turn
  rw [ctcGreedyDecode, looped]
  refine ⟨_, congrArg some (Prod.ext ?_ rfl)⟩
  exact Decoder.text_foldl (logitRows logits t c) Decoder.start

end Text

section Labels

variable {α : Type} [Scalar α] [LawfulBottom α] {dict : List (List Char)} {logits : List α}
variable {t c : Nat}

omit [Scalar α] [LawfulBottom α] in
theorem logitRows_ne_nil (long : t * c ≤ logits.length) (columns : 0 < c) {row : List α}
    (member : row ∈ logitRows logits t c) : row ≠ [] := by
  obtain ⟨step, inside, rfl⟩ := List.mem_map.mp member
  have width := length_slice ((part_inside (List.mem_range.mp inside)).trans long)
  intro empty
  rw [empty] at width
  exact columns.ne width

/-- No frame has the class that the loop starts with. -/
theorem argmax_lt (long : t * c ≤ logits.length) (usize : c < 2 ^ 64) {row : List α}
    (member : row ∈ logitRows logits t c) : (argmax row).1 < usizeMax := by
  obtain ⟨step, inside, rfl⟩ := List.mem_map.mp member
  have width := length_slice ((part_inside (List.mem_range.mp inside)).trans long)
  obtain ⟨-, untouched | ⟨found, -⟩⟩ := argmax_spec (slice logits (step * c) c)
  · rw [untouched, usizeMax]
    omega
  · have below := (List.getElem?_eq_some_iff.mp found).1
    rw [usizeMax]
    omega

/-- The text is that of the first largest entries of the rows, with runs of one class collapsed
and blanks dropped.  Logits of which the unique largest entries follow an alignment of some labels
spell these labels. -/
theorem ctcGreedyDecode_labels (long : t * c ≤ logits.length) (usize : c < 2 ^ 64)
    (dict : List (List Char)) :
    ∃ conf text, ctcGreedyDecode dict logits t c = some (text, conf) ∧
      text = spell dict (collapse (bestClasses (logitRows logits t c))) ∧
      (0 < c → ∀ row ∈ logitRows logits t c, FirstMax row (argmax row).1) ∧
      ∀ (labels : List (Fin dict.length)) (path : List Nat),
        Alignment (labels.map fun l => l.val + 1) path →
        List.Forall₂ UniqueMax (logitRows logits t c) path → text = labels.flatMap dict.get := by
  obtain ⟨conf, decoded⟩ := ctcGreedyDecode_eq dict long
  have fresh : (bestClasses (logitRows logits t c)).head? ≠ some usizeMax := by
    intro first
    obtain ⟨row, member, same⟩ := List.mem_map.mp (List.mem_of_mem_head? first)
    exact (argmax_lt long usize member).ne same
  have collapsed := emitted_eq_collapse fresh
  refine ⟨conf, _, decoded, by rw [collapsed], fun columns row member => ?_, ?_⟩
  · exact firstMax_argmax (logitRows_ne_nil long columns member)
  · intro labels path aligned follows
    have classes : bestClasses (logitRows logits t c) = path := by
      rw [bestClasses, ← List.forall₂_eq_eq_eq, List.forall₂_map_left_iff]
      exact follows.imp fun _ _ unique => unique.argmax_eq
    have solid : ∀ l ∈ labels.map fun l => l.val + 1, l ≠ 0 := by
      intro l member
      obtain ⟨k, -, rfl⟩ := List.mem_map.mp member
      exact Nat.succ_ne_zero k
    have read : emitted usizeMax path = labels.map fun l => l.val + 1 := by
      refine aligned.emitted_eq solid fun starts => ?_
      have inPath := aligned.subset (List.mem_of_mem_head? starts)
      rw [← classes] at inPath
      obtain ⟨row, member, same⟩ := List.mem_map.mp inPath
      exact absurd same (argmax_lt long usize member).ne
    rw [classes, read, spell, List.flatMap_map]
    refine List.flatMap_congr fun l _ => ?_
    rw [Nat.add_sub_cancel, List.getElem?_eq_getElem l.isLt]
    rfl

/-- Four frames with the classes 1, 1, 0 and 2. -/
def fourFrames : List Exact :=
  [.fin 0, .fin 9, .fin 1, .fin 0, .fin 8, .fin 1, .fin 9, .fin 0, .fin 1, .fin 0, .fin 1, .fin 9]

theorem ctcGreedyDecode_labels_fourFrames :
    ∃ conf text, ctcGreedyDecode [['a'], ['b']] fourFrames 4 3 = some (text, conf) ∧
      text = spell [['a'], ['b']] (collapse (bestClasses (logitRows fourFrames 4 3))) ∧
      (0 < 3 → ∀ row ∈ logitRows fourFrames 4 3, FirstMax row (argmax row).1) ∧
      ∀ (labels : List (Fin 2)) (path : List Nat),
        Alignment (labels.map fun l => l.val + 1) path →
        List.Forall₂ UniqueMax (logitRows fourFrames 4 3) path →
        text = labels.flatMap [['a'], ['b']].get :=
  ctcGreedyDecode_labels (by decide) (by decide) [['a'], ['b']]

end Labels

end AiCoreStack.Ocr
