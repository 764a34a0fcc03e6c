import AiCoreStack.Pii.DetectReport
import AiCoreStack.Pii.NormalizeLimits

/-!
# Tokenised texts come back

When every policy tokenises, the stretches between the tokens are parts of the
text, which does not contain the opener of the chosen prefix.  So unmasking gives
the text back, whatever the findings are, as long as they lie on boundaries.
-/

namespace AiCoreStack.Pii

open AiCoreStack.Foundation
open String (utf8Len utf8Len_append)

/-- Every entity is tokenised. -/
def PolicySet.AllTokenize (policies : PolicySet) : Prop :=
  policies.default = .tokenize ∧ ∀ entry ∈ policies.overrides, entry.2 = .tokenize

namespace PolicySet.AllTokenize

variable {policies : PolicySet}

theorem policyFor (all : policies.AllTokenize) (entity : EntityKind) :
    policies.policyFor entity = .tokenize := by
  unfold PolicySet.policyFor
  split
  next found => exact all.2 _ (List.mem_of_find?_eq_some found)
  next => exact all.1

theorem usesTokenize (all : policies.AllTokenize) : policies.usesTokenize = true := by
  simp [PolicySet.usesTokenize, all.1]

end PolicySet.AllTokenize

section

variable [Hmac] {F : Type} {text : List Char} {policies : PolicySet}

theorem templateFrom_stretches (all : policies.AllTokenize) {cursor index : Nat}
    {findings : List (Finding F)} {template : Template Char}
    (built : templateFrom policies text cursor index findings = some template) :
    ∀ stretch ∈ template.stretches, stretch <:+: text := by
  induction findings generalizing cursor index template with
  | nil =>
      obtain ⟨rest, slice, rfl⟩ := Option.map_eq_some_iff.mp built
      simpa [Template.stretches] using sliceBytes_occurs slice
  | cons finding findings ih =>
      obtain ⟨gap, original, gapEq, -, tokenized | other⟩ := templateFrom_cons built
      · obtain ⟨-, next, nextEq, rfl⟩ := tokenized
        have rest := ih nextEq
        simp only [Template.stretches, List.map_cons, List.forall_mem_cons] at rest ⊢
        exact ⟨sliceBytes_occurs gapEq, rest⟩
      · exact absurd (all.policyFor finding.entity) other.1

theorem restoredFrom_tokenize (all : policies.AllTokenize) {cursor : Nat}
    {findings : List (Finding F)} {restored : List Char}
    (ran : restoredFrom policies text cursor findings = some restored) :
    sliceBytes text cursor (utf8Len text) = some restored := by
  induction findings generalizing cursor restored with
  | nil => exact ran
  | cons finding findings ih =>
      rw [restoredFrom] at ran
      obtain ⟨gap, gapEq, ran⟩ := Option.bind_eq_some_iff.mp ran
      obtain ⟨original, originalEq, ran⟩ := Option.bind_eq_some_iff.mp ran
      rw [if_pos (all.policyFor finding.entity), Option.bind_some] at ran
      obtain ⟨rest, restEq, rfl⟩ := Option.map_eq_some_iff.mp ran
      exact sliceBytes_join (sliceBytes_join gapEq originalEq) (ih restEq)

/-- Masking succeeds, and unmasking its output gives the text. -/
def Reversible (text : List Char) (findings : List (Finding F)) (policies : PolicySet) : Prop :=
  ∃ out map, maskFindings text findings policies = some out ∧ out.restore = some map ∧
    unmask out.text map = .ok text

theorem reversible_of_tokenize (all : policies.AllTokenize) (fits : Fits text)
    {findings : List (Finding F)}
    (aligned : ∀ finding ∈ findings, OnBoundaries text finding.source)
    (bounded : findings.length < 2 ^ 64) : Reversible text findings policies := by
  obtain ⟨tokenPrefix, free⟩ := exists_firstFree fits
  have restorable : Restorable text findings policies tokenPrefix := by
    refine ⟨free, ?_, ?_⟩
    · intro finding _ original _
      rw [all.policyFor finding.entity]
      trivial
    · intro template built stretch member occurs
      obtain ⟨-, -, -, absent, -⟩ := free
      exact absent (occurs.trans (templateFrom_stretches all built stretch member))
  obtain ⟨out, map, expected, masked, table, expectedEq, restored⟩ :=
    restores_of_restorable all.usesTokenize aligned bounded restorable
  have whole := restoredFrom_tokenize all expectedEq
  rw [sliceBytes_whole, Option.some.injEq] at whole
  exact ⟨out, map, masked, table, whole ▸ restored⟩

/-- Detecting and masking succeed, and unmasking the output gives the text. -/
def MaskReversible [Scalar F] (text : List Char) (cfg : Config F) (policies : PolicySet) : Prop :=
  ∃ out map, mask text cfg policies = .ok out ∧ out.restore = some map ∧
    unmask out.text map = .ok text

/-- Tokenising is undone exactly: for any findings on character boundaries of a
representable text, and for what detection finds when the texts of its pipeline
are representable. -/
theorem tokenize_reversible [Scalar F] (text : List Char) (policies : PolicySet)
    (all : policies.AllTokenize) :
    (∀ findings : List (Finding F), Fits text →
      (∀ finding ∈ findings, OnBoundaries text finding.source) → findings.length < 2 ^ 64 →
        Reversible text findings policies) ∧
      ∀ cfg : Config F, (∀ seam ∈ pipelineTexts (passes cfg.normalize) text, Fits seam) →
        MaskReversible text cfg policies := by
  constructor
  · intro findings fits aligned bounded
    exact reversible_of_tokenize all fits aligned bounded
  · intro cfg fits
    obtain ⟨normalized, tiles, normal, tiled⟩ := normalize_tiled fits
    obtain ⟨report, detected, findingsEq⟩ := detect_ok cfg normal tiled.fitsTarget
    have known : ∀ finding ∈ report.findings, finding ∈ foundIn cfg normalized := by
      intro finding member
      rw [findingsEq] at member
      exact (List.mem_filter.mp ((List.perm_insertionSort _ _).mem_iff.mp member)).1
    have aligned : ∀ finding ∈ report.findings, OnBoundaries text finding.source :=
      fun finding member => foundIn_onBoundaries cfg tiled finding (known finding member)
    have bounded : report.findings.length < 2 ^ 64 := by
      rw [findingsEq, ordered, (List.perm_insertionSort _ _).length_eq]
      exact Nat.lt_of_le_of_lt (List.length_filter_le _ _) (foundIn_length cfg tiled.fitsTarget)
    obtain ⟨out, map, masked, table, restored⟩ :=
      reversible_of_tokenize all tiled.fitsSource aligned bounded
    refine ⟨out, map, ?_, table, restored⟩
    rw [mask, detected, ok_bind, maskReport, masked]
    rfl

end

open Sample in
theorem tokenize_reversible_bracketed :
    (⟨.tokenize, []⟩ : PolicySet).AllTokenize ∧
      Reversible "a[[PII:0]][".toList
        [findingAt .phone 11 3, findingAt .email 10 11, findingAt .phone 0 11,
          findingAt .phone 0 1] ⟨.tokenize, []⟩ ∧
      MaskReversible (F := Exact) "[[PII:１]]a@b.co".toList
        { Config.standard with normalize := { hangul := false, separator := false } }
        ⟨.tokenize, []⟩ :=
  ⟨⟨rfl, by simp⟩,
    (tokenize_reversible _ ⟨.tokenize, []⟩ ⟨rfl, by simp⟩).1 _ (by decide) (by decide) (by decide),
    (tokenize_reversible _ ⟨.tokenize, []⟩ ⟨rfl, by simp⟩).2 _ (by decide)⟩

/-! ## A text that outgrows the offsets -/

theorem Scanner.digitRunsFrom_of_all {before run rest : List Char}
    (chars : ∀ c ∈ rest, isRunChar c = true) :
    digitRunsFrom before run rest = closeRun before (run ++ rest) := by
  induction rest generalizing run with
  | nil => rw [digitRunsFrom, List.append_nil]
  | cons c rest ih =>
      rw [List.forall_mem_cons] at chars
      rw [digitRunsFrom, if_pos chars.1, ih chars.2, List.append_assoc, List.singleton_append]

theorem lengthened_digits (count ones : Nat) :
    ∀ c ∈ (List.replicate count "1000000001".toList).flatten ++ List.replicate ones '1',
      isAsciiDigit c = true := by
  intro c member
  rcases List.mem_append.mp member with inside | inside
  · obtain ⟨piece, isPiece, inPiece⟩ := List.mem_flatten.mp inside
    obtain rfl := List.eq_of_mem_replicate isPiece
    have digits : ∀ d ∈ "1000000001".toList, isAsciiDigit d = true := by
      simp [isAsciiDigit]
    exact digits c inPiece
  · rw [List.eq_of_mem_replicate inside]
    rfl

theorem Scanner.passports_of_no_capital {text : List Char}
    (plain : ∀ c ∈ text, isAsciiUppercase c = false) : passports text = [] := by
  suffices walk : ∀ fuel before, passportsFrom fuel before text = [] from walk _ _
  intro fuel
  induction fuel generalizing text with
  | zero => intro before; rfl
  | succ fuel ih =>
      intro before
      cases text with
      | nil => rfl
      | cons c rest =>
          rw [List.forall_mem_cons] at plain
          have none : passportLetters (c :: rest) = [] := by
            simp [passportLetters, plain.1]
          rw [passportsFrom, if_pos (.inr none)]
          exact ih plain.2 _

/-- The lengthened text is a letter and one digit run. -/
theorem scans_lengthened : ∃ run, lengthened 429496729 5 = 'a' :: run ∧
    Scanner.passports (lengthened 429496729 5) = [] ∧
      Scanner.digitRuns (lengthened 429496729 5) = [spanAt ['a'] run] := by
  have digits := lengthened_digits 429496729 5
  have long : 2 ≤ ((List.replicate 429496729 "1000000001".toList).flatten ++
      List.replicate 5 '1').length := by
    rw [List.length_append, List.length_replicate]
    omega
  rw [lengthened]
  generalize (List.replicate 429496729 "1000000001".toList).flatten ++ List.replicate 5 '1' =
    run at digits long
  have chars : ∀ c ∈ run, Scanner.isRunChar c = true := by
    intro c member
    simp [Scanner.isRunChar, digits c member]
  have candidate : Scanner.runIsCandidate run = true := by
    simpa [Scanner.runIsCandidate, List.countP_eq_length.mpr digits] using long
  refine ⟨run, rfl, ?_, ?_⟩
  · apply Scanner.passports_of_no_capital
    rw [List.forall_mem_cons]
    refine ⟨rfl, ?_⟩
    intro c member
    exact Scanner.not_uppercase_of_digit (digits c member)
  · rw [Scanner.digitRuns, Scanner.digitRunsFrom, if_neg (by decide),
      Scanner.digitRunsFrom_of_all chars]
    simp [Scanner.closeRun, candidate]
    decide

section

variable {F : Type} [Scalar F]

/-- A digit run that ends at byte `2 ^ 32` cannot be sliced. -/
theorem weighRun_wrapped (cfg : Config F) {normalized : Normalized} {run : List Char}
    (width : utf8Len normalized.text = 2 ^ 32) (text : normalized.text = 'a' :: run) :
    weighRun cfg normalized (spanAt ['a'] run) = .error .panic := by
  have start : (spanAt ['a'] run).byte.start.toNat = 1 := rfl
  have stop : (spanAt ['a'] run).byte.stop.toNat = 0 := by
    change (UInt32.ofNat (utf8Len ('a' :: run))).toNat = 0
    rw [← text, width]
    rfl
  have slice : (spanAt ['a'] run).slice normalized.text = none := by
    rw [Span.slice, start, stop, sliceBytes, if_neg (by decide)]
  rw [weighRun, slice]
  rfl

/-- A text of 3006477109 bytes whose normal form has `2 ^ 32` bytes makes detection
panic. -/
theorem detect_lengthening (cfg : Config F) :
    detect (lengthening 429496729 5) { cfg with normalize := numeralOnly } = .error .panic := by
  have fits : Fits (lengthening 429496729 5) := by
    rw [Fits, utf8Len_lengthening]
    decide
  obtain ⟨normalized, normal⟩ := normalize_numeralOnly_isOk fits
  have textEq := normalize_numeralOnly_text normal
  rw [hangul_apply_lengthening (by decide)] at textEq
  have width := utf8Len_lengthened 429496729 5
  rw [← textEq] at width
  obtain ⟨run, split, passports, runs⟩ := scans_lengthened
  rw [← textEq] at split passports runs
  have panics := weighRun_wrapped { cfg with normalize := numeralOnly } width split
  have ran : (Scanner.digitRuns normalized.text).mapM
      (weighRun { cfg with normalize := numeralOnly } normalized) = .error .panic := by
    rw [runs, List.mapM_cons, panics]
    rfl
  have mapped : (normalize (lengthening 429496729 5) numeralOnly).mapError Failure.error =
      .ok normalized := by
    rw [normal]
    rfl
  simp only [detect, mapped, ok_bind, passports, List.mapM_nil, pure_bind, ran]
  rfl

end

open Sample in
theorem not_maskReversible_lengthening :
    utf8Len (lengthening 429496729 5) < 2 ^ 32 ∧ (⟨.tokenize, []⟩ : PolicySet).AllTokenize ∧
      ¬ MaskReversible (F := Exact) (lengthening 429496729 5)
        { Config.standard with normalize := numeralOnly } ⟨.tokenize, []⟩ := by
  refine ⟨by rw [utf8Len_lengthening]; decide, ⟨rfl, by simp⟩, ?_⟩
  rintro ⟨out, map, ran, -, -⟩
  rw [mask, detect_lengthening] at ran
  exact absurd ran (by simp [bind, Except.bind])

end AiCoreStack.Pii
