import AiCoreStack.Foundation.Champion
import AiCoreStack.Pii.Offsets

/-!
# The account of a report

Every candidate that the scanners come up with ends as a finding or as a rejection.
Of the candidates of one digit run at most one is found: the first with the best
score among those that nothing speaks against.  The others are rejected, each with
the reason that applies to it.
-/

namespace AiCoreStack.Pii

open AiCoreStack.Foundation

section

variable {F : Type} [Scalar F]

/-! ## One candidate -/

/-- A candidate that needs context and has too little of it. -/
def lacksContext (candidate : Candidate F) (contextTotal : F) (cfg : Config F) : Bool :=
  candidate.needsContext && Scalar.lt contextTotal cfg.minContext

/-- What the finding of a weighed candidate says, and why it is not reported. -/
structure Weighing (cfg : Config F) (normalized : Normalized) (span : Span) (veto : F)
    (candidate : Candidate F) (weighed : Weighed F) : Prop where
  place : weighed.finding.From normalized span
  entity : weighed.finding.entity = candidate.entity
  hits : Context.find normalized.text span cfg.contextWindow candidate.cues =
    some weighed.finding.evidence.contextHits
  score : weighed.finding.score = (evaluate candidate
    (Context.total weighed.finding.evidence.contextHits)
      (normalized.map.toSource span).cost cfg.weights).score
  reason : weighed.reason =
    if vetoed candidate (Context.total weighed.finding.evidence.contextHits) veto cfg then
      some .businessContext
    else if lacksContext candidate (Context.total weighed.finding.evidence.contextHits) cfg then
      some .noContext
    else if Scalar.lt weighed.finding.score cfg.minScore then
      some (if candidate.checksum.isFailed then .checksumFailed else .belowThreshold)
    else none

theorem weigh_weighing {cfg : Config F} {normalized : Normalized} {span : Span} {veto : F}
    {candidate : Candidate F} {weighed : Weighed F}
    (ran : weigh cfg normalized span veto candidate = .ok weighed) :
    Weighing cfg normalized span veto candidate weighed := by
  have place := weigh_from ran
  obtain ⟨hits, found, rest⟩ := bind_eq_ok ran
  obtain rfl := Except.ok.inj rest
  refine ⟨place, rfl, ?_, rfl, rfl⟩
  cases sliced : Context.find normalized.text span cfg.contextWindow candidate.cues with
  | none => simp [sliced, orPanic] at found
  | some other =>
      rw [sliced] at found
      rw [Except.ok.inj found]

/-- A weighed candidate that nothing speaks against. -/
def Weighed.stands (weighed : Weighed F) : Bool := weighed.reason.isNone

/-! ## The candidates of a run -/

/-- The rejections of the candidates that something speaks against. -/
def objections (weighed : List (Weighed F)) : List (Rejection F) :=
  weighed.filterMap fun one => one.reason.map one.finding.reject

/-- The race between candidates: the score decides. -/
def race [LawfulCompare F] : Contest (Weighed F) where
  beats x y := Scalar.lt y.finding.score x.finding.score
  meets x y := Scalar.le y.finding.score x.finding.score
  beats_irrefl x := LawfulCompare.lt_irrefl x.finding.score
  meets_of_beats := LawfulCompare.le_of_lt
  beats_of_meets_of_beats meets beats := LawfulCompare.lt_of_lt_of_le beats meets

/-- The loop over the candidates of a run is the race of those that stand. -/
theorem foldl_compete [LawfulCompare F] (weighed : List (Weighed F)) :
    (weighed.foldl compete ⟨none, []⟩).finding =
        (race.run (weighed.filter Weighed.stands)).1.map Weighed.finding ∧
      (weighed.foldl compete ⟨none, []⟩).rejections.Perm
        (objections weighed ++ (race.run (weighed.filter Weighed.stands)).2.map
          fun loser => loser.finding.reject .outranked) := by
  induction weighed using List.reverseRecOn with
  | nil => exact ⟨rfl, .nil⟩
  | append_singleton weighed one ih =>
      obtain ⟨finding, rejections⟩ := ih
      rw [List.foldl_append, List.foldl_cons, List.foldl_nil, List.filter_append]
      have objected : objections (weighed ++ [one]) =
          objections weighed ++ (one.reason.map one.finding.reject).toList := by
        rw [objections, List.filterMap_append, ← objections]
        cases reason : one.reason <;> simp [reason]
      generalize weighed.foldl compete ⟨none, []⟩ = state at finding rejections ⊢
      cases reason : one.reason with
      | some reason' =>
          have out : [one].filter Weighed.stands = [] := by
            simp [Weighed.stands, reason]
          rw [objected, out, List.append_nil, reason]
          simp only [compete, reason, Option.map_some, Option.toList_some]
          refine ⟨finding, (rejections.append_right _).trans ?_⟩
          rw [List.append_assoc, List.append_assoc]
          exact List.perm_append_comm.append_left _
      | none =>
          have inside : [one].filter Weighed.stands = [one] := by
            simp [Weighed.stands, reason]
          rw [objected, inside, race.run_concat, reason, Option.map_none, Option.toList_none,
            List.append_nil]
          generalize race.run (weighed.filter Weighed.stands) = result at finding rejections ⊢
          obtain ⟨champion, losers⟩ := result
          simp only [compete, reason]
          cases champion with
          | none =>
              simp only [Option.map_none] at finding
              simp only [finding, Contest.challenge, Option.map_some]
              exact ⟨trivial, rejections⟩
          | some champion =>
              simp only [Option.map_some] at finding
              simp only [finding, Contest.challenge]
              have verdict : race.beats one champion =
                  Scalar.lt champion.finding.score one.finding.score := rfl
              cases beaten : Scalar.lt champion.finding.score one.finding.score with
              | true =>
                  simp only [verdict, beaten, if_true, Option.map_some, List.map_append,
                    List.map_cons, List.map_nil, ← List.append_assoc]
                  exact ⟨trivial, rejections.append_right _⟩
              | false =>
                  simp only [verdict, beaten, Bool.false_eq_true, if_false, Option.map_some,
                    List.map_append, List.map_cons, List.map_nil, ← List.append_assoc]
                  exact ⟨trivial, rejections.append_right _⟩

/-- The candidates of a span: the readings of its digits. -/
def readings (text : List Char) (span : Span) : List (Candidate F) :=
  match (span.slice text).bind Checksum.toDigits with
  | some digits => Entity.candidates digits
  | none => []

/-- What becomes of the candidates of one digit run. -/
structure RunAccount (cfg : Config F) (normalized : Normalized) (span : Span)
    (weighed : List (Weighed F)) (contribution : Contribution F) : Prop where
  /-- Every candidate is weighed, against the same contrary context. -/
  weighings : ∃ veto : F, ((readings normalized.text span : List (Candidate F)) ≠ [] →
      vetoTotal normalized.text span cfg = .ok veto) ∧
    List.Forall₂ (Weighing cfg normalized span veto) (readings normalized.text span) weighed
  /-- Without a candidate that stands, all are rejected with their own reasons. -/
  silent : weighed.filter Weighed.stands = [] →
    contribution.finding = none ∧ contribution.rejections.Perm (objections weighed)
  /-- Otherwise the first best is found, and the others that stand are outranked. -/
  found : weighed.filter Weighed.stands ≠ [] →
    ∃ before champion after, weighed.filter Weighed.stands = before ++ champion :: after ∧
      contribution.finding = some champion.finding ∧
      (∀ one ∈ weighed.filter Weighed.stands,
        Scalar.lt champion.finding.score one.finding.score = false) ∧
      (∀ one ∈ before, Scalar.le champion.finding.score one.finding.score = false) ∧
      contribution.rejections.Perm (objections weighed ++
        (before ++ after).map fun one => one.finding.reject .outranked)

variable {cfg : Config F} {normalized : Normalized} {span : Span}

theorem foldl_compete_account [LawfulCompare F] (veto : F) {weighed : List (Weighed F)}
    (context : (readings normalized.text span : List (Candidate F)) ≠ [] →
      vetoTotal normalized.text span cfg = .ok veto)
    (weighings : List.Forall₂ (Weighing cfg normalized span veto)
      (readings normalized.text span) weighed) :
    RunAccount cfg normalized span weighed (weighed.foldl compete ⟨none, []⟩) := by
  obtain ⟨finding, rejections⟩ := foldl_compete weighed
  refine ⟨⟨veto, context, weighings⟩, ?_, ?_⟩
  · intro none
    rw [none] at finding rejections
    exact ⟨finding, by simpa [Contest.run] using rejections⟩
  · intro some
    obtain ⟨before, champion, after, losers, split, ran, best⟩ := race.run_firstBest some
    rw [ran] at finding rejections
    refine ⟨before, champion, after, split, finding, ?_, best.first, ?_⟩
    · rw [split]
      exact best.unbeaten
    · exact rejections.trans ((best.accounted.map _).append_left _)

theorem weighRun_account [LawfulCompare F] {contribution : Contribution F}
    (ran : weighRun cfg normalized span = .ok contribution) :
    ∃ weighed, RunAccount cfg normalized span weighed contribution := by
  obtain ⟨text, sliced, rest⟩ := bind_eq_ok ran
  have slice : span.slice normalized.text = some text := by
    cases found : span.slice normalized.text with
    | none => simp [found, orPanic] at sliced
    | some other =>
        rw [found] at sliced
        rw [Except.ok.inj sliced]
  split at rest
  next unread =>
    obtain rfl := Except.ok.inj rest
    have none : (readings normalized.text span : List (Candidate F)) = [] := by
      simp [readings, slice, unread]
    refine ⟨[], foldl_compete_account Scalar.nan ?_ ?_⟩
    · rw [none]
      exact fun absent => absurd rfl absent
    · rw [none]
      exact .nil
  next digits read =>
    obtain ⟨veto, vetoEq, rest⟩ := bind_eq_ok rest
    obtain ⟨weighed, mapped, rest⟩ := bind_eq_ok rest
    obtain rfl := Except.ok.inj rest
    have candidates : readings normalized.text span = Entity.candidates (F := F) digits := by
      simp [readings, slice, read]
    refine ⟨weighed, foldl_compete_account veto (fun _ => vetoEq) ?_⟩
    rw [candidates]
    exact (forall₂_of_mapM mapped).imp fun _ _ weighing => weigh_weighing weighing

omit [Scalar F] in
theorem objections_length (weighed : List (Weighed F)) :
    (objections weighed).length + (weighed.filter Weighed.stands).length = weighed.length := by
  induction weighed with
  | nil => rfl
  | cons one weighed ih =>
      rw [objections, List.filterMap_cons, List.filter_cons, ← objections]
      cases reason : one.reason with
      | none =>
          have stands : one.stands = true := by simp [Weighed.stands, reason]
          simp only [Option.map_none, stands, if_true, List.length_cons]
          omega
      | some other =>
          have falls : one.stands = false := by simp [Weighed.stands, reason]
          simp only [Option.map_some, falls, Bool.false_eq_true, if_false, List.length_cons]
          omega

/-- How many findings and rejections a contribution holds. -/
def Contribution.size (contribution : Contribution F) : Nat :=
  contribution.finding.toList.length + contribution.rejections.length

theorem RunAccount.size {weighed : List (Weighed F)} {contribution : Contribution F}
    (account : RunAccount cfg normalized span weighed contribution) :
    contribution.size = (readings normalized.text span : List (Candidate F)).length := by
  obtain ⟨veto, -, weighings⟩ := account.weighings
  have total := objections_length weighed
  rw [weighings.length_eq, Contribution.size]
  by_cases none : weighed.filter Weighed.stands = []
  · obtain ⟨finding, rejections⟩ := account.silent none
    rw [none] at total
    rw [finding, rejections.length_eq]
    simpa using total
  · obtain ⟨before, champion, after, split, finding, -, -, rejections⟩ := account.found none
    rw [split] at total
    rw [finding, rejections.length_eq]
    simp only [Option.toList_some, List.length_cons, List.length_nil, List.length_append,
      List.length_map] at total ⊢
    omega

/-- What becomes of a passport number. -/
def PassportAccount (cfg : Config F) (normalized : Normalized) (span : Span)
    (contribution : Contribution F) : Prop :=
  ∃ veto weighed, vetoTotal normalized.text span cfg = .ok veto ∧
    Weighing cfg normalized span veto Entity.passportCandidate weighed ∧
    contribution = match weighed.reason with
      | some reason => ⟨none, [weighed.finding.reject reason]⟩
      | none => ⟨some weighed.finding, []⟩

theorem weighPassport_account {contribution : Contribution F}
    (ran : weighPassport cfg normalized span = .ok contribution) :
    PassportAccount cfg normalized span contribution := by
  obtain ⟨veto, vetoEq, rest⟩ := bind_eq_ok ran
  obtain ⟨weighed, weighing, rest⟩ := bind_eq_ok rest
  refine ⟨veto, weighed, vetoEq, weigh_weighing weighing, ?_⟩
  cases known : weighed.reason with
  | some reason =>
      rw [known] at rest
      exact (Except.ok.inj rest).symm
  | none =>
      rw [known] at rest
      exact (Except.ok.inj rest).symm

theorem PassportAccount.size {contribution : Contribution F}
    (account : PassportAccount cfg normalized span contribution) : contribution.size = 1 := by
  obtain ⟨veto, weighed, -, -, rfl⟩ := account
  cases weighed.reason <;> rfl

/-! ## The report -/

omit [Scalar F] in
theorem contributions_size (contributions : List (Contribution F)) :
    (contributions.filterMap Contribution.finding).length +
        (contributions.flatMap Contribution.rejections).length =
      (contributions.map Contribution.size).sum := by
  induction contributions with
  | nil => rfl
  | cons one rest ih =>
      rw [List.flatMap_cons, List.length_append, List.map_cons, List.sum_cons, ← ih,
        Contribution.size]
      cases finding : one.finding with
      | none =>
          simp only [List.filterMap_cons, finding, Option.toList_none, List.length_nil]
          omega
      | some found =>
          simp only [List.filterMap_cons, finding, Option.toList_some, List.length_cons,
            List.length_nil]
          omega

theorem map_eq_of_forall₂ {α β : Type} {relation : α → β → Prop} (size : β → Nat)
    (count : α → Nat) {xs : List α} {ys : List β} (related : List.Forall₂ relation xs ys)
    (same : ∀ x y, relation x y → size y = count x) : ys.map size = xs.map count := by
  induction related with
  | nil => rfl
  | cons head _ ih => rw [List.map_cons, List.map_cons, same _ _ head, ih]

omit [Scalar F] in
theorem dropContained_length (found : List (Finding F)) :
    (dropContained found).1.length + (dropContained found).2.length = found.length := by
  have total := List.length_eq_length_filter_add (l := found)
    (fun finding => swallowed (found.map Finding.source) finding.source)
  simp only [dropContained, List.length_map]
  omega

/-- What is found before swallowed findings are thrown out. -/
def gathered (normalized : Normalized) (contributions : List (Contribution F)) :
    List (Finding F) :=
  (Scanner.emails normalized.text).map (emailFinding normalized) ++
    contributions.filterMap Contribution.finding

/-- Every candidate is accounted for: what the scanners contribute, and that the report
is a rearrangement of it in which swallowed findings are rejected as outranked. -/
def Accounted (text : List Char) (cfg : Config F) (report : Report F) : Prop :=
  ∃ normalized passports runs, normalize text cfg.normalize = .ok normalized ∧
    List.Forall₂ (PassportAccount cfg normalized) (Scanner.passports normalized.text)
      passports ∧
    List.Forall₂ (fun span contribution =>
        ∃ weighed, RunAccount cfg normalized span weighed contribution)
      (Scanner.digitRuns normalized.text) runs ∧
    report.findings.Perm (dropContained (gathered normalized (passports ++ runs))).1 ∧
    report.rejections.Perm ((passports ++ runs).flatMap Contribution.rejections ++
      (dropContained (gathered normalized (passports ++ runs))).2) ∧
    report.findings.length + report.rejections.length =
      (Scanner.emails normalized.text).length + (Scanner.passports normalized.text).length +
        ((Scanner.digitRuns normalized.text).map fun span =>
          (readings normalized.text span : List (Candidate F)).length).sum

theorem accounted_of_detect [LawfulCompare F] {text : List Char} {report : Report F}
    (detected : detect text cfg = .ok report) : Accounted text cfg report := by
  obtain ⟨normalized, passports, runs, normal, passportsRan, runsRan, findings, rejections, -⟩ :=
    detect_parts detected
  change report.findings.Perm (dropContained (gathered normalized (passports ++ runs))).1
    at findings
  change report.rejections.Perm ((passports ++ runs).flatMap Contribution.rejections ++
    (dropContained (gathered normalized (passports ++ runs))).2) at rejections
  have passportAccounts : List.Forall₂ (PassportAccount cfg normalized)
      (Scanner.passports normalized.text) passports :=
    (forall₂_of_mapM passportsRan).imp fun _ _ ran => weighPassport_account ran
  have runAccounts : List.Forall₂ (fun span contribution =>
      ∃ weighed, RunAccount cfg normalized span weighed contribution)
      (Scanner.digitRuns normalized.text) runs :=
    (forall₂_of_mapM runsRan).imp fun _ _ ran => weighRun_account ran
  refine ⟨normalized, passports, runs, normal, passportAccounts, runAccounts,
    findings, rejections, ?_⟩
  have passportSizes := map_eq_of_forall₂ Contribution.size (fun _ => 1) passportAccounts
    fun _ _ account => account.size
  have runSizes := map_eq_of_forall₂ Contribution.size
    (fun span => (readings normalized.text span : List (Candidate F)).length) runAccounts (by
      rintro _ _ ⟨weighed, account⟩
      exact account.size)
  have contributed := contributions_size (passports ++ runs)
  rw [List.map_append, List.sum_append, passportSizes, runSizes] at contributed
  have kept := dropContained_length (gathered (F := F) normalized (passports ++ runs))
  have total : (gathered (F := F) normalized (passports ++ runs)).length =
      (Scanner.emails normalized.text).length +
        ((passports ++ runs).filterMap Contribution.finding).length := by
    rw [gathered, List.length_append, List.length_map]
  rw [findings.length_eq, rejections.length_eq, List.length_append]
  simp only [List.map_const', List.sum_replicate, smul_eq_mul, Nat.mul_one] at contributed
  omega

/-- Every report accounts for every candidate, and there is a report whenever the texts
of the pipeline fit. -/
theorem detect_accounts [LawfulCompare F] (text : List Char) (cfg : Config F) :
    (∀ report, detect text cfg = .ok report → Accounted text cfg report) ∧
      ((∀ seam ∈ pipelineTexts (passes cfg.normalize) text, Fits seam) →
        ∃ report, detect text cfg = .ok report) := by
  refine ⟨fun _ => accounted_of_detect, ?_⟩
  intro fits
  obtain ⟨normalized, tiles, normal, tiled⟩ := normalize_tiled fits
  obtain ⟨report, detected, -⟩ := detect_ok cfg normal tiled.fitsTarget
  exact ⟨report, detected⟩

end

theorem detect_accounts_phone :
    ∃ report, detect "전화 ０１０-1234-5678".toList
        { (Config.standard : Config Exact) with
          normalize := { hangul := false, separator := false } } = .ok report ∧
      Accounted "전화 ０１０-1234-5678".toList
        { (Config.standard : Config Exact) with
          normalize := { hangul := false, separator := false } } report := by
  obtain ⟨accounts, total⟩ := detect_accounts "전화 ０１０-1234-5678".toList
    { (Config.standard : Config Exact) with
      normalize := { hangul := false, separator := false } }
  obtain ⟨report, detected⟩ := total (by decide)
  exact ⟨report, detected, accounts report detected⟩

end AiCoreStack.Pii
