import AiCoreStack.Foundation.Patch
import AiCoreStack.Pii.Separate

/-!
# What masking touches

The output of the masking loop is a patch of the source: the edits are the applied
spans, and everything between them is copied.
-/

namespace AiCoreStack.Pii

open AiCoreStack.Foundation
open String (utf8Len)

section

variable [Hmac] {F : Type} {text : List Char} {policies : PolicySet}

/-- The bytes a finding covers. -/
def Finding.place (finding : Finding F) : Nat × Nat :=
  (finding.source.byte.start.toNat, finding.source.byte.stop.toNat)

/-- Every edit shows what rendering makes of it, the restore table being handed on
from one to the next. -/
inductive Rendered (policies : PolicySet) :
    Option RestoreMap → List (Finding F) → List (Edit Char) → Option RestoreMap → Prop where
  | nil (restore : Option RestoreMap) : Rendered policies restore [] [] restore
  | cons {before middle after : Option RestoreMap} {finding : Finding F}
      {findings : List (Finding F)} {edit : Edit Char} {edits : List (Edit Char)}
      (shown : render (policies.policyFor finding.entity) edit.old finding.entity before =
        some (edit.new, middle))
      (rest : Rendered policies middle findings edits after) :
      Rendered policies before (finding :: findings) (edit :: edits) after

/-- The restore table that masking starts with. -/
def firstTable (text : List Char) (policies : PolicySet) : Option RestoreMap :=
  if policies.usesTokenize then RestoreMap.forText text else none

/-- A finding that cannot be applied next to some applied ones. -/
def Unusable (text : List Char) (applied : List (Finding F)) (finding : Finding F) : Prop :=
  finding.source.byte.stop < finding.source.byte.start ∨
    utf8Len text < finding.source.byte.stop.toNat ∨
      ∃ earlier ∈ applied, finding.source.byte.start < earlier.source.byte.stop

/-- Masking replaces the applied spans in place and copies the rest. -/
structure Frames (text : List Char) (policies : PolicySet) (findings : List (Finding F))
    (out : MaskOutput F) (patch : Patch Char) : Prop where
  source : patch.source = text
  target : patch.target = out.text
  places : Patch.places utf8Len 0 patch.edits = out.applied.map Finding.place
  rendered : Rendered policies (firstTable text policies) out.applied patch.edits out.restore
  sorted : out.applied.Pairwise Finding.before
  disjoint : out.applied.Pairwise fun left right =>
    left.source.byte.stop ≤ right.source.byte.start
  accounts : (out.applied ++ out.skipped).Perm findings
  skipped : ∀ finding ∈ out.skipped, Unusable text out.applied finding

/-! ## The loop -/

omit [Hmac] in
theorem applied_skipped_perm (cursor : Nat) (findings : List (Finding F)) :
    (appliedFrom text cursor findings ++ skippedFrom text cursor findings).Perm findings := by
  induction findings generalizing cursor with
  | nil => exact .nil
  | cons finding findings ih =>
      rw [appliedFrom, skippedFrom]
      split
      · exact List.perm_middle.trans ((ih cursor).cons finding)
      · exact (ih _).cons finding

omit [Hmac] in
/-- What is passed over is malformed or starts before the cursor or before the end
of something applied. -/
theorem skippedFrom_unusable {cursor : Nat} {findings : List (Finding F)} :
    ∀ finding ∈ skippedFrom text cursor findings,
      finding.source.byte.start.toNat < cursor ∨
        Unusable text (appliedFrom text cursor findings) finding := by
  induction findings generalizing cursor with
  | nil => simp [skippedFrom]
  | cons head findings ih =>
      intro finding member
      rw [skippedFrom] at member
      rw [appliedFrom]
      split at member
      next place =>
        rw [if_pos place]
        rcases List.mem_cons.mp member with rfl | later
        · simp only [misplaced, Bool.or_eq_true, decide_eq_true_eq] at place
          rcases place with (early | long) | reversed
          · exact .inl early
          · exact .inr (.inr (.inl long))
          · exact .inr (.inl reversed)
        · exact ih finding later
      next place =>
        rw [if_neg place]
        right
        rcases ih finding member with early | reversed | long | ⟨earlier, applied, early⟩
        · exact .inr (.inr ⟨head, List.mem_cons_self, UInt32.lt_iff_toNat_lt.mpr early⟩)
        · exact .inl reversed
        · exact .inr (.inl long)
        · exact .inr (.inr ⟨earlier, List.mem_cons_of_mem _ applied, early⟩)

/-- The loop patches the text from the cursor on. -/
theorem maskFrom_patch {findings : List (Finding F)} {state : MaskState F} {out : MaskOutput F}
    (ran : maskFrom text policies state findings = some out) :
    ∃ patch : Patch Char,
      sliceBytes text state.cursor (utf8Len text) = some patch.source ∧
      out.text = state.output.text ++ patch.target ∧
      Patch.places utf8Len state.cursor patch.edits =
        (appliedFrom text state.cursor findings).map Finding.place ∧
      Rendered policies state.output.restore (appliedFrom text state.cursor findings) patch.edits
        out.restore := by
  induction findings generalizing state with
  | nil =>
      simp only [maskFrom, List.foldlM_nil, Option.pure_def, Option.bind_some,
        Option.map_eq_some_iff] at ran
      obtain ⟨rest, tail, rfl⟩ := ran
      exact ⟨⟨[], rest⟩, tail, rfl, rfl, .nil _⟩
  | cons finding findings ih =>
      rw [maskFrom_cons] at ran
      obtain ⟨next, step, ran⟩ := Option.bind_eq_some_iff.mp ran
      obtain ⟨patch, sourceEq, textEq, placesEq, rendered⟩ := ih ran
      rw [maskStep] at step
      split at step
      next misplaced =>
        obtain rfl := Option.some.inj step
        rw [appliedFrom, if_pos misplaced]
        exact ⟨patch, sourceEq, textEq, placesEq, rendered⟩
      next placed =>
        obtain ⟨gap, gapEq, step⟩ := Option.bind_eq_some_iff.mp step
        obtain ⟨original, originalEq, step⟩ := Option.bind_eq_some_iff.mp step
        obtain ⟨shown, shownEq, rfl⟩ := Option.map_eq_some_iff.mp step
        rw [appliedFrom, if_neg placed]
        have gapWidth : state.cursor + utf8Len gap = finding.source.byte.start.toNat := by
          obtain ⟨before, after, -, -, width⟩ := sliceBytes_eq_some.mp gapEq
          exact width
        have originalWidth : finding.source.byte.start.toNat + utf8Len original =
            finding.source.byte.stop.toNat := by
          obtain ⟨before, after, -, -, width⟩ := sliceBytes_eq_some.mp originalEq
          exact width
        refine ⟨patch.cons ⟨gap, original, shown.1⟩, ?_, ?_, ?_, .cons shownEq rendered⟩
        · rw [Patch.source_cons]
          exact sliceBytes_join (sliceBytes_join gapEq originalEq) sourceEq
        · simpa using textEq
        · simp only [Patch.cons, Patch.places, gapWidth, originalWidth, placesEq, List.map_cons,
            Finding.place]

/-- Every output of masking is framed by a patch. -/
theorem maskFindings_frames {findings : List (Finding F)} {out : MaskOutput F}
    (ran : maskFindings text findings policies = some out) :
    ∃ patch, Frames text policies findings out patch := by
  obtain ⟨restore, table, ran⟩ := Option.bind_eq_some_iff.mp ran
  have restoreEq : restore = firstTable text policies := by
    rw [firstTable]
    split at table
    next uses =>
      obtain ⟨map, mapEq, rfl⟩ := Option.map_eq_some_iff.mp table
      rw [if_pos uses, mapEq]
    next unused => rw [if_neg unused, ← Option.some.inj table]
  obtain ⟨patch, sourceEq, textEq, placesEq, rendered⟩ := maskFrom_patch ran
  obtain ⟨appliedEq, skippedEq⟩ := maskFrom_parts ran
  rw [List.nil_append] at appliedEq skippedEq
  rw [← appliedEq] at placesEq rendered
  have places := @Patch.places_pairwise _ utf8Len 0 patch.edits
  rw [placesEq, List.pairwise_map] at places
  have perm : (out.applied ++ out.skipped).Perm (ordered findings) := by
    rw [appliedEq, skippedEq]
    exact applied_skipped_perm 0 _
  refine ⟨patch, ?_, textEq.symm, placesEq, restoreEq ▸ rendered, ?_, ?_, ?_, ?_⟩
  · rw [sliceBytes_whole] at sourceEq
    exact (Option.some.inj sourceEq).symm
  · rw [appliedEq]
    exact (ordered_pairwise findings).sublist (appliedFrom_sublist 0 _)
  · apply places.imp
    intro left right before
    exact UInt32.le_iff_toNat_le.mpr before
  · exact perm.trans (ordered_perm findings)
  · intro finding member
    rw [skippedEq] at member
    rcases skippedFrom_unusable finding member with early | unusable
    · exact absurd early (Nat.not_lt_zero _)
    · exact appliedEq ▸ unusable

omit [Hmac] in
/-- With spans that differ, the order of the list does not matter. -/
theorem ordered_eq_of_perm {findings other : List (Finding F)} (perm : other.Perm findings)
    (distinct : findings.Pairwise fun left right => left.place ≠ right.place) :
    ordered other = ordered findings := by
  have perm' : (ordered other).Perm (ordered findings) :=
    (ordered_perm other).trans (perm.trans (ordered_perm findings).symm)
  apply perm'.eq_of_pairwise _ (ordered_pairwise other) (ordered_pairwise findings)
  intro left right inOther inFindings before after
  have samePlace : left.place = right.place := by
    simp only [Finding.before, Span.before, UInt32.lt_iff_toNat_lt, UInt32.le_iff_toNat_le,
      ← UInt32.toNat_inj] at before after
    simp only [Finding.place, Prod.mk.injEq]
    omega
  by_contra differ
  have member : left ∈ findings := perm.mem_iff.mp ((ordered_perm other).mem_iff.mp inOther)
  have member' : right ∈ findings := (ordered_perm findings).mem_iff.mp inFindings
  have : Std.Symm fun left right : Finding F => left.place ≠ right.place :=
    ⟨fun _ _ apart => apart.symm⟩
  exact distinct.forall member member' differ samePlace

/-- Masking touches nothing outside the applied spans: every output is framed by a
patch, there is an output whenever the policies have placeholders and a token prefix
is free, and findings at different places may come in any order. -/
theorem maskFindings_frame (text : List Char) (policies : PolicySet) (findings : List (Finding F))
    (aligned : ∀ finding ∈ findings, OnBoundaries text finding.source) :
    (∀ out, maskFindings text findings policies = some out →
      ∃ patch, Frames text policies findings out patch) ∧
    ((policies.usesTokenize = true → ∃ tokenPrefix, FirstFree text tokenPrefix) →
      AllRender text policies findings → ∃ out, maskFindings text findings policies = some out) ∧
    ((findings.Pairwise fun left right => left.place ≠ right.place) →
      ∀ other : List (Finding F), other.Perm findings →
        maskFindings text other policies = maskFindings text findings policies) := by
  refine ⟨?_, ?_, ?_⟩
  · intro out ran
    exact maskFindings_frames ran
  · intro free renders
    exact maskFindings_isSome free renders aligned
  · intro distinct other perm
    rw [maskFindings, maskFindings, ordered_eq_of_perm perm distinct]

end

/-- Everything becomes a hash of eight digits, addresses a token. -/
def hashesBeside : PolicySet := ⟨.hash [0x6b] 8, [(.email, .tokenize)]⟩

open Sample in
theorem maskFindings_frame_overlapping :
    (∀ finding ∈ [findingAt .email 1 5, findingAt .phone 1 4, findingAt .phone 9 2],
      OnBoundaries "a한bc".toList finding.source) ∧
    ∃ out patch, maskFindings "a한bc".toList
        [findingAt .email 1 5, findingAt .phone 1 4, findingAt .phone 9 2] hashesBeside =
          some out ∧
      out.text = "a[PHONE:5292b34b]bc".toList ∧
      Frames "a한bc".toList hashesBeside
        [findingAt .email 1 5, findingAt .phone 1 4, findingAt .phone 9 2] out patch := by
  have aligned : ∀ finding ∈ [findingAt .email 1 5, findingAt .phone 1 4, findingAt .phone 9 2],
      OnBoundaries "a한bc".toList finding.source := by decide
  obtain ⟨frames, returns, -⟩ := maskFindings_frame _ hashesBeside _ aligned
  obtain ⟨out, ran⟩ := returns (fun _ => ⟨_, firstFree_base (by decide)⟩) (by
    intro finding _ original _
    cases finding.entity <;> simp [hashesBeside, PolicySet.policyFor, Policy.Renders])
  obtain ⟨patch, framed⟩ := frames out ran
  have shown : (maskFindings "a한bc".toList [findingAt .email 1 5, findingAt .phone 1 4,
      findingAt .phone 9 2] hashesBeside).map MaskOutput.text =
        some "a[PHONE:5292b34b]bc".toList := by decide +kernel
  rw [ran] at shown
  exact ⟨aligned, out, patch, ran, Option.some.inj shown, framed⟩

/-! ## Partial disclosure -/

/-- Whether a character of an original of some length is to stay readable. -/
def staysReadable (length keepPrefix keepSuffix position : Nat) : Bool :=
  keepPrefix + keepSuffix < length ∧ (position < keepPrefix ∨ length ≤ position + keepSuffix)

/-- The original with the characters covered that are not to stay readable. -/
def covered (original : List Char) (keepPrefix keepSuffix : Nat) (fill : Char) : List Char :=
  original.mapIdx fun position c =>
    if staysReadable original.length keepPrefix keepSuffix position then c else fill

/-- Partial disclosure returns, and shows what it is to show. -/
def Discloses (original : List Char) (keepPrefix keepSuffix : UInt64) (fill : Char) : Prop :=
  partialReveal original keepPrefix keepSuffix fill =
    some (covered original keepPrefix.toNat keepSuffix.toNat fill)

theorem covered_of_short {original : List Char} {keepPrefix keepSuffix : Nat} {fill : Char}
    (short : original.length ≤ keepPrefix + keepSuffix) :
    covered original keepPrefix keepSuffix fill = List.replicate original.length fill := by
  apply List.ext_getElem?
  intro position
  have hidden : staysReadable original.length keepPrefix keepSuffix position = false := by
    simp only [staysReadable, decide_eq_false_iff_not]
    omega
  rw [covered, List.getElem?_mapIdx, hidden, List.getElem?_replicate]
  by_cases inside : position < original.length
  · simp [inside]
  · simp [inside]

theorem covered_of_long {original : List Char} {keepPrefix keepSuffix : Nat} {fill : Char}
    (long : keepPrefix + keepSuffix < original.length) :
    covered original keepPrefix keepSuffix fill =
      original.take keepPrefix ++
        List.replicate (original.length - keepPrefix - keepSuffix) fill ++
        original.drop (original.length - keepSuffix) := by
  apply List.ext_getElem?
  intro position
  rw [covered, List.getElem?_mapIdx]
  simp only [staysReadable, long, true_and]
  by_cases front : position < keepPrefix
  · rw [List.append_assoc, List.getElem?_append_left (by rw [List.length_take]; omega),
      List.getElem?_take_of_lt front]
    simp [front]
  · by_cases back : original.length ≤ position + keepSuffix
    · rw [List.getElem?_append_right (by simp; omega), List.getElem?_drop]
      have index : original.length - keepSuffix + (position - (original.take keepPrefix ++
          List.replicate (original.length - keepPrefix - keepSuffix) fill).length) = position := by
        simp
        omega
      rw [index]
      simp [back]
    · rw [List.getElem?_append_left (by simp; omega),
        List.getElem?_append_right (by simp; omega), List.getElem?_replicate,
        if_pos (by simp; omega), List.getElem?_eq_getElem (by omega)]
      simp [front, back]

/-- Partial disclosure works on a string exactly when the two lengths do not overflow to
less than the characters it has.  No allocation has `2 ^ 63` bytes. -/
theorem discloses_iff {original : List Char} (allocated : utf8Len original < 2 ^ 63)
    (keepPrefix keepSuffix : UInt64) (fill : Char) :
    Discloses original keepPrefix keepSuffix fill ↔
      keepPrefix.toNat + keepSuffix.toNat < 2 ^ 64 ∨
        original.length + 2 ^ 64 ≤ keepPrefix.toNat + keepSuffix.toNat := by
  have bound : original.length < 2 ^ 63 := (length_le_utf8Len original).trans_lt allocated
  have prefixBound := keepPrefix.toNat_lt
  have suffixBound := keepSuffix.toNat_lt
  have returns : (partialReveal original keepPrefix keepSuffix fill).isSome ↔
      keepPrefix.toNat + keepSuffix.toNat < 2 ^ 64 ∨
        original.length ≤ (keepPrefix.toNat + keepSuffix.toNat) % 2 ^ 64 :=
    partialReveal_isSome bound
  constructor
  · intro discloses
    have some : (partialReveal original keepPrefix keepSuffix fill).isSome := by
      rw [discloses]
      rfl
    have range := returns.mp some
    omega
  · intro range
    have total : (UInt64.ofNat original.length).toNat = original.length :=
      UInt64.toNat_ofNat_of_lt' (Nat.lt_trans bound (by decide))
    obtain ⟨shown, shownEq⟩ := Option.isSome_iff_exists.mp (returns.mpr (by omega))
    rw [Discloses]
    simp only [partialReveal, UInt64.le_iff_toNat_le, UInt64.toNat_add, UInt64.toNat_sub, total]
      at shownEq ⊢
    split
    next short => rw [covered_of_short (by omega)]
    next long =>
      rw [if_neg long] at shownEq
      split
      next inside =>
        have suffix_ : (2 ^ 64 - keepSuffix.toNat + original.length) % 2 ^ 64 =
            original.length - keepSuffix.toNat := by omega
        have middle : (2 ^ 64 - keepSuffix.toNat +
            (2 ^ 64 - keepPrefix.toNat + original.length) % 2 ^ 64) % 2 ^ 64 =
              original.length - keepPrefix.toNat - keepSuffix.toNat := by omega
        rw [covered_of_long (by omega), suffix_, middle]
      next outside =>
        rw [if_neg outside] at shownEq
        cases shownEq

theorem discloses_iff_ends :
    utf8Len ['가', '나', '다'] < 2 ^ 63 ∧
      Discloses ['가', '나', '다'] 1 1 '*' ∧ covered ['가', '나', '다'] 1 1 '*' = ['가', '*', '다'] := by
  have allocated : utf8Len ['가', '나', '다'] < 2 ^ 63 := by decide
  exact ⟨allocated, (discloses_iff allocated 1 1 '*').mpr (.inl (by decide)), rfl⟩

/-- The sum of the two lengths wraps to zero, and the slice is out of range. -/
theorem not_discloses_wrapped :
    partialReveal ['0', '1', '0'] (2 ^ 64 - 1) 1 '*' = none ∧
      ¬ Discloses ['0', '1', '0'] (2 ^ 64 - 1) 1 '*' := by
  have panics : partialReveal ['0', '1', '0'] (2 ^ 64 - 1) 1 '*' = none := by decide +kernel
  refine ⟨panics, ?_⟩
  rw [Discloses, panics]
  simp

end AiCoreStack.Pii
