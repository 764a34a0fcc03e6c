import AiCoreStack.Pii.ScannerOverlap

/-!
# Findings that do not overlap

Detection throws out findings that lie in wider ones.  The rest is pairwise
separate, so that masking applies all of it, exactly when no two findings overlap
in part.
-/

namespace AiCoreStack.Pii

open AiCoreStack.Foundation
open String (utf8Len)

/-! ## Masking separate findings -/

section

variable {F : Type}

/-- Position order of findings. -/
def Finding.before (left right : Finding F) : Prop := left.source.before right.source

instance : DecidableRel (Finding.before (F := F)) := fun left right =>
  inferInstanceAs (Decidable (left.source.before right.source))

instance : Std.Total (Finding.before (F := F)) where
  total left right := by
    simp only [Finding.before, Span.before, UInt32.lt_iff_toNat_lt, UInt32.le_iff_toNat_le,
      ← UInt32.toNat_inj]
    omega

instance : IsTrans (Finding F) Finding.before where
  trans left middle right := by
    simp only [Finding.before, Span.before, UInt32.lt_iff_toNat_lt, UInt32.le_iff_toNat_le,
      ← UInt32.toNat_inj]
    omega

theorem ordered_pairwise (findings : List (Finding F)) :
    (ordered findings).Pairwise Finding.before :=
  List.pairwise_insertionSort Finding.before findings

theorem ordered_ordered (findings : List (Finding F)) :
    ordered (ordered findings) = ordered findings :=
  List.Pairwise.insertionSort_eq (ordered_pairwise findings)

theorem ordered_perm (findings : List (Finding F)) : (ordered findings).Perm findings :=
  List.perm_insertionSort _ findings

variable [Hmac] {text : List Char} {policies : PolicySet}

/-- What the loop applies and passes over does not depend on the policies. -/
theorem maskFrom_parts {findings : List (Finding F)} {state : MaskState F} {out : MaskOutput F}
    (ran : maskFrom text policies state findings = some out) :
    out.applied = state.output.applied ++ appliedFrom text state.cursor findings ∧
      out.skipped = state.output.skipped ++ skippedFrom text state.cursor findings := by
  induction findings generalizing state with
  | nil =>
      simp only [maskFrom, List.foldlM_nil, Option.pure_def, Option.bind_some,
        Option.map_eq_some_iff] at ran
      obtain ⟨rest, -, rfl⟩ := ran
      simp [appliedFrom, skippedFrom]
  | cons finding findings ih =>
      rw [maskFrom_cons] at ran
      obtain ⟨next, step, ran⟩ := Option.bind_eq_some_iff.mp ran
      obtain ⟨applied, skipped⟩ := ih ran
      rw [maskStep] at step
      split at step
      next misplaced =>
        obtain rfl := Option.some.inj step
        rw [appliedFrom, skippedFrom, if_pos misplaced, if_pos misplaced]
        exact ⟨applied, by simpa using skipped⟩
      next placed =>
        obtain ⟨gap, -, step⟩ := Option.bind_eq_some_iff.mp step
        obtain ⟨original, -, step⟩ := Option.bind_eq_some_iff.mp step
        obtain ⟨rendered, -, rfl⟩ := Option.map_eq_some_iff.mp step
        rw [appliedFrom, skippedFrom, if_neg placed, if_neg placed]
        exact ⟨by simpa using applied, skipped⟩

theorem render_isSome {policy : Policy} {original : List Char} (entity : EntityKind)
    (restore : Option RestoreMap) (bound : original.length < 2 ^ 32)
    (renders : policy.Renders original.length) :
    (render policy original entity restore).isSome := by
  have shown := (placeholder_isSome entity bound).mpr renders
  cases policy with
  | tokenize =>
      cases restore with
      | none => rfl
      | some map => rfl
  | redact redaction => simpa [render] using shown
  | partialReveal keepPrefix keepSuffix fill => simpa [render] using shown
  | hash key len => simpa [render] using shown

/-- Every finding has a policy with a placeholder for what it covers. -/
def AllRender (text : List Char) (policies : PolicySet) (findings : List (Finding F)) : Prop :=
  ∀ finding ∈ findings, ∀ original, finding.source.slice text = some original →
    (policies.policyFor finding.entity).Renders original.length

/-- Masking succeeds when every policy has a placeholder for its original. -/
theorem maskFrom_isSome {findings : List (Finding F)} (renders : AllRender text policies findings)
    (state : MaskState F) (boundary : IsBoundary text state.cursor)
    (aligned : ∀ finding ∈ findings, OnBoundaries text finding.source) :
    (maskFrom text policies state findings).isSome := by
  induction findings generalizing state with
  | nil =>
      have whole : IsBoundary text (utf8Len text) := ⟨text, [], by simp, rfl⟩
      have tail := sliceBytes_isSome boundary.le_utf8Len boundary whole
      simpa [maskFrom] using tail
  | cons finding findings ih =>
      rw [AllRender, List.forall_mem_cons] at renders
      rw [List.forall_mem_cons] at aligned
      rw [maskFrom_cons, maskStep]
      split
      next => exact ih renders.2 _ boundary aligned.2
      next place =>
        obtain ⟨low, forward, inside⟩ := misplaced_eq_false (by simpa using place)
        obtain ⟨start, stop⟩ := aligned.1 forward inside
        obtain ⟨gap, gapEq⟩ := Option.isSome_iff_exists.mp (sliceBytes_isSome low boundary start)
        obtain ⟨original, originalEq⟩ := Option.isSome_iff_exists.mp
          (sliceBytes_isSome (UInt32.le_iff_toNat_le.mp forward) start stop)
        change finding.source.slice text = some original at originalEq
        obtain ⟨rendered, renderedEq⟩ := Option.isSome_iff_exists.mp
          (render_isSome finding.entity state.output.restore (slice_length originalEq)
            (renders.1 original originalEq))
        simp only [gapEq, originalEq, renderedEq, Option.bind_some, Option.map_some]
        exact ih renders.2 _ stop aligned.2

omit [Hmac] in
/-- Separate findings in position order are all applied. -/
theorem appliedFrom_separate {findings : List (Finding F)} {cursor : Nat}
    (inRange : ∀ finding ∈ findings, finding.source.byte.start.toNat < finding.source.byte.stop.toNat ∧
      finding.source.byte.stop.toNat ≤ utf8Len text)
    (from' : ∀ finding ∈ findings, cursor ≤ finding.source.byte.start.toNat)
    (separate : findings.Pairwise fun left right =>
      left.source.byte.stop.toNat ≤ right.source.byte.start.toNat) :
    appliedFrom text cursor findings = findings ∧ skippedFrom text cursor findings = [] := by
  induction findings generalizing cursor with
  | nil => exact ⟨rfl, rfl⟩
  | cons finding findings ih =>
      rw [List.forall_mem_cons] at inRange from'
      rw [List.pairwise_cons] at separate
      have placed : misplaced text cursor finding.source = false := by
        simp only [misplaced, Bool.or_eq_false_iff, decide_eq_false_iff_not,
          UInt32.lt_iff_toNat_lt]
        omega
      obtain ⟨applied, skipped⟩ := ih inRange.2 separate.1 separate.2
      simp [appliedFrom, skippedFrom, placed, applied, skipped]

omit [Hmac] in
/-- Separate findings in position order end before the next one starts. -/
theorem separate_of_apart {findings : List (Finding F)}
    (apart : (findings.map Finding.source).Pairwise spanPlace.Apart)
    (sorted : findings.Pairwise Finding.before)
    (positive : ∀ finding ∈ findings,
      finding.source.byte.start.toNat < finding.source.byte.stop.toNat) :
    findings.Pairwise fun left right =>
      left.source.byte.stop.toNat ≤ right.source.byte.start.toNat := by
  rw [List.pairwise_map] at apart
  apply (apart.and sorted).imp_of_mem
  rintro left right - member ⟨order | order, before⟩
  · exact order
  · have width := positive right member
    simp only [Finding.before, Span.before, UInt32.lt_iff_toNat_lt, ← UInt32.toNat_inj] at before
    simp only [spanPlace] at order
    omega

theorem maskFindings_isSome {findings : List (Finding F)}
    (free : policies.usesTokenize = true → ∃ tokenPrefix, FirstFree text tokenPrefix)
    (renders : AllRender text policies findings)
    (aligned : ∀ finding ∈ findings, OnBoundaries text finding.source) :
    ∃ out, maskFindings text findings policies = some out := by
  have start : IsBoundary text 0 := ⟨[], text, rfl, rfl⟩
  have rendersOrdered : AllRender text policies (ordered findings) := by
    intro finding member
    exact renders finding ((ordered_perm findings).mem_iff.mp member)
  have ran (restore : Option RestoreMap) := Option.isSome_iff_exists.mp
    (maskFrom_isSome rendersOrdered ⟨⟨[], [], [], restore⟩, 0⟩ start (aligned_ordered aligned))
  rw [maskFindings]
  split
  next uses =>
    obtain ⟨tokenPrefix, first⟩ := free uses
    have searched : RestoreMap.forText text = some ⟨tokenPrefix, []⟩ :=
      forText_eq_some.mpr ⟨first, rfl⟩
    rw [searched]
    exact ran _
  next => exact ran none

/-- Masking applies separate findings in position order, and passes over none. -/
theorem maskFindings_separate {findings : List (Finding F)} {out : MaskOutput F}
    (sorted : ordered findings = findings)
    (inRange : ∀ finding ∈ findings,
      finding.source.byte.start.toNat < finding.source.byte.stop.toNat ∧
        finding.source.byte.stop.toNat ≤ utf8Len text)
    (apart : (findings.map Finding.source).Pairwise spanPlace.Apart)
    (ran : maskFindings text findings policies = some out) :
    out.skipped = [] ∧ out.applied = findings := by
  have separate := separate_of_apart apart (sorted ▸ ordered_pairwise findings)
    (fun finding member => (inRange finding member).1)
  obtain ⟨restore, -, ran⟩ := Option.bind_eq_some_iff.mp ran
  obtain ⟨applied, skipped⟩ := maskFrom_parts ran
  obtain ⟨appliedAll, skippedNone⟩ := appliedFrom_separate inRange
    (fun finding _ => Nat.zero_le _) separate
  rw [sorted] at applied skipped
  exact ⟨skipped.trans skippedNone, applied.trans appliedAll⟩

end

/-! ## The findings of a text -/

theorem swallowed_iff {spans : List Span} {mine : Span}
    (forward : ∀ span ∈ spans, span.byte.start ≤ span.byte.stop)
    (mineForward : mine.byte.start ≤ mine.byte.stop) :
    swallowed spans mine = true ↔ spanPlace.Covered spans mine := by
  simp only [swallowed, List.any_eq_true, Bool.and_eq_true, decide_eq_true_eq, Placement.Covered,
    Placement.Within, spanPlace, and_assoc]
  apply exists_congr
  intro other
  apply and_congr_right
  intro member
  have otherForward := forward other member
  rw [UInt32.lt_iff_toNat_lt, UInt32.toNat_sub_of_le _ _ mineForward,
    UInt32.toNat_sub_of_le _ _ otherForward]
  simp only [UInt32.le_iff_toNat_le] at mineForward otherForward ⊢
  omega

section

variable {F : Type} [Scalar F] {cfg : Config F} {text : List Char} {normalized : Normalized}
variable {tiles : List Tile}

/-- What is left after the contained findings are thrown out is separate exactly
when nothing collides. -/
theorem dropContained_separate_iff (tiled : Tiled text normalized tiles) :
    ((dropContained (foundIn cfg normalized)).1.map Finding.source).Pairwise spanPlace.Apart ↔
      ¬ Collides cfg normalized := by
  obtain ⟨addresses, passports, runs, scanned⟩ := exists_scanned normalized.text
  have sources := foundIn_sources cfg scanned tiled.fitsTarget
  generalize piecesEq : acceptedPieces cfg normalized addresses passports runs = pieces at sources
  have forward : ∀ span ∈ (foundIn cfg normalized).map Finding.source,
      span.byte.start ≤ span.byte.stop := by
    intro span member
    obtain ⟨finding, inside, rfl⟩ := List.mem_map.mp member
    exact UInt32.le_iff_toNat_le.mpr (foundIn_range cfg tiled finding inside).1.le
  have clean : ∀ piece ∈ pieces, piece.CleanIn normalized.text := by
    intro piece member
    exact acceptedPieces_clean scanned (piecesEq ▸ member)
  have keptEq : (dropContained (foundIn cfg normalized)).1.map Finding.source =
      ((foundIn cfg normalized).map Finding.source).filter
        fun span => !swallowed ((foundIn cfg normalized).map Finding.source) span := by
    rw [List.filter_map]
    rfl
  rw [keptEq]
  generalize spansEq : (foundIn cfg normalized).map Finding.source = spans at sources forward
  have memKept {span : Span} : span ∈ spans.filter (fun span => !swallowed spans span) ↔
      span ∈ spans ∧ ¬ spanPlace.Covered spans span := by
    rw [List.mem_filter]
    apply and_congr_right
    intro member
    rw [← swallowed_iff forward (forward span member)]
    simp
  rw [← crosses_iff_collides scanned tiled.fitsTarget, piecesEq]
  constructor
  · rintro apart ⟨piece, member, other, member', crosses⟩
    have inSpans {piece : Piece} (member : piece ∈ pieces) :
        (normalized.map.toSource piece.span).span ∈ spans := by
      rw [sources]
      exact List.mem_map_of_mem member
    have sourceCrosses := (tiled.crosses_iff (clean piece member) (clean other member')).mpr crosses
    obtain ⟨left, inLeft, right, inRight, differ, uncovered, uncovered', overlap⟩ :=
      Placement.exists_overlap_of_crosses (inSpans member) (inSpans member') sourceCrosses (by
        rintro whole inWhole ⟨within, within'⟩
        rw [sources] at inWhole
        obtain ⟨around, inside, rfl⟩ := List.mem_map.mp inWhole
        exact crossing_alone scanned (piecesEq ▸ member) (piecesEq ▸ member') (piecesEq ▸ inside)
          crosses ⟨(tiled.place (clean piece member) (clean around inside)).2.mp within,
            (tiled.place (clean other member') (clean around inside)).2.mp within'⟩)
    exact overlap (apart.forall (memKept.mpr ⟨inLeft, uncovered⟩)
      (memKept.mpr ⟨inRight, uncovered'⟩) differ)
  · intro separate
    apply Placement.pairwise_apart_of_not_crosses List.filter_sublist
    · intro span member
      exact (memKept.mp member).2
    · rw [sources, List.pairwise_map, ← piecesEq]
      apply (acceptedPieces_distinct scanned tiled.fitsTarget).imp_of_mem
      rintro piece other member member' differ ⟨within, within'⟩
      have cleanPiece := clean piece (piecesEq ▸ member)
      have cleanOther := clean other (piecesEq ▸ member')
      exact differ ⟨(tiled.place cleanPiece cleanOther).2.mp within,
        (tiled.place cleanOther cleanPiece).2.mp within'⟩
    · rintro left inLeft right inRight crosses
      rw [sources] at inLeft inRight
      obtain ⟨piece, member, rfl⟩ := List.mem_map.mp inLeft
      obtain ⟨other, member', rfl⟩ := List.mem_map.mp inRight
      exact separate ⟨piece, member, other, member',
        (tiled.crosses_iff (clean piece member) (clean other member')).mp crosses⟩

/-- Detection reports separate findings, and masking applies every one of them. -/
def NeverOverlaps (text : List Char) (cfg : Config F) : Prop :=
  ∃ report, detect text cfg = .ok report ∧
    (report.findings.map Finding.source).Pairwise spanPlace.Apart ∧
    ∀ [Hmac], (∀ policies out, mask text cfg policies = .ok out →
      out.skipped = [] ∧ out.applied = report.findings) ∧
    ∀ policies : PolicySet, (∀ entity length, (policies.policyFor entity).Renders length) →
      ∃ out, mask text cfg policies = .ok out

theorem neverOverlaps_iff_not_collides (normal : normalize text cfg.normalize = .ok normalized)
    (tiled : Tiled text normalized tiles) : NeverOverlaps text cfg ↔ ¬ Collides cfg normalized := by
  obtain ⟨report, detected, findingsEq⟩ := detect_ok cfg normal tiled.fitsTarget
  have perm : (report.findings.map Finding.source).Perm
      ((dropContained (foundIn cfg normalized)).1.map Finding.source) := by
    rw [findingsEq]
    exact (ordered_perm _).map _
  have known : ∀ finding ∈ report.findings, finding ∈ foundIn cfg normalized := by
    intro finding member
    rw [findingsEq] at member
    exact (List.mem_filter.mp ((ordered_perm _).mem_iff.mp member)).1
  have sorted : ordered report.findings = report.findings := by
    rw [findingsEq, ordered_ordered]
  have masked [Hmac] (policies : PolicySet) : mask text cfg policies =
      orPanic (maskFindings text report.findings policies) := by
    rw [mask, detected]
    rfl
  rw [← dropContained_separate_iff tiled, ← perm.pairwise_iff Placement.Apart.symm]
  constructor
  · rintro ⟨report', detected', apart, -⟩
    rw [detected] at detected'
    rwa [Except.ok.inj detected']
  · intro apart
    refine ⟨report, detected, apart, fun [Hmac] => ⟨?_, ?_⟩⟩
    · intro policies out ran
      rw [masked] at ran
      cases found : maskFindings text report.findings policies with
      | none =>
          rw [found] at ran
          exact absurd ran (by simp [orPanic])
      | some result =>
          rw [found] at ran
          obtain rfl : result = out := Except.ok.inj ran
          exact maskFindings_separate sorted
            (fun finding member => foundIn_range cfg tiled finding (known finding member)) apart
            found
    · intro policies renders
      obtain ⟨out, ran⟩ := maskFindings_isSome (fun _ => exists_firstFree tiled.fitsSource)
        (fun finding _ original _ => renders finding.entity original.length)
        (fun finding member => foundIn_onBoundaries cfg tiled finding (known finding member))
      exact ⟨out, by rw [masked, ran]; rfl⟩

/-- Findings never overlap exactly when nothing collides in the normalised text. -/
theorem neverOverlaps_iff (text : List Char) (cfg : Config F)
    (fits : ∀ seam ∈ pipelineTexts (passes cfg.normalize) text, Fits seam) :
    NeverOverlaps text cfg ↔
      ∀ normalized, normalize text cfg.normalize = .ok normalized → ¬ Collides cfg normalized := by
  obtain ⟨normalized, tiles, normal, tiled⟩ := normalize_tiled fits
  rw [neverOverlaps_iff_not_collides normal tiled]
  constructor
  · intro separate other normal'
    rw [normal] at normal'
    rwa [← Except.ok.inj normal']
  · intro separate
    exact separate normalized normal

end

/-- No pass at all, the other settings as usual. -/
def unnormalized : Config Exact :=
  { Config.standard with normalize :=
      { nfc := false, fold := false, hangul := false, lookalike := false, separator := false } }

theorem normalize_unnormalized (text : List Char) :
    normalize text unnormalized.normalize = .ok ⟨text, SpanMap.identity text⟩ := rfl

theorem neverOverlaps_iff_phone_and_passport :
    (∀ seam ∈ pipelineTexts (passes unnormalized.normalize)
      "여권 M12345678, 01012345678".toList, Fits seam) ∧
      NeverOverlaps "여권 M12345678, 01012345678".toList unnormalized := by
  have fits : ∀ seam ∈ pipelineTexts (passes unnormalized.normalize)
      "여권 M12345678, 01012345678".toList, Fits seam := by decide
  refine ⟨fits, (neverOverlaps_iff _ _ fits).mpr ?_⟩
  intro normalized normal
  rw [normalize_unnormalized, Except.ok.injEq] at normal
  subst normal
  rintro (⟨front, middle, back, whole, -⟩ | ⟨run, -, -, ⟨chars, slice, star⟩, -⟩)
  · dsimp only at whole
    have atSign : '@' ∈ "여권 M12345678, 01012345678".toList := by
      rw [whole]
      simp
    exact absurd atSign (by decide)
  · exact absurd ((sliceBytes_occurs slice).subset star) (by decide)

/-- The second of two joined addresses starts in the domain of the first. -/
theorem not_neverOverlaps_joined :
    (∀ seam ∈ pipelineTexts (passes unnormalized.normalize) "a@b.com@c.org".toList, Fits seam) ∧
      ¬ NeverOverlaps "a@b.com@c.org".toList unnormalized := by
  have fits : ∀ seam ∈ pipelineTexts (passes unnormalized.normalize) "a@b.com@c.org".toList,
      Fits seam := by decide
  refine ⟨fits, ?_⟩
  obtain ⟨normalized, tiles, normal, tiled⟩ := normalize_tiled fits
  rw [neverOverlaps_iff_not_collides normal tiled, not_not]
  rw [normalize_unnormalized, Except.ok.injEq] at normal
  subst normal
  have chars : "b.com".toList.all Scanner.isLocalPart = true := by decide
  exact .inl ⟨"a".toList, "b.com".toList, "c.org".toList, rfl, List.all_eq_true.mp chars, by decide,
    by decide⟩

end AiCoreStack.Pii
