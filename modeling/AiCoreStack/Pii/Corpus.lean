import AiCoreStack.Foundation.Outcome
import AiCoreStack.Pii.CheckDigit
import AiCoreStack.Pii.ScannerSpans
import AiCoreStack.Pii.SynthRoundTrip

/-!
# The corpus is what it says

Whatever the seed, the generator never runs a second round, every value is one that the
detector's own rules read as its kind, and the span of a sample cuts out the value as it is
written.
-/

namespace AiCoreStack.Pii.Synth

open AiCoreStack.Foundation
open AiCoreStack.Pii.Checksum (Known)
open String (utf8Len utf8Len_append)

/-! ## Draws -/

theorem Rng.below_ends {n : UInt64} (positive : 0 < n.toNat) :
    Ends (Rng.below n) (· < n.toNat) := by
  intro rng
  refine ⟨_, _, rfl, ?_⟩
  have same : max n 1 = n := by
    change (if n ≤ 1 then 1 else n) = n
    split
    next small =>
      rw [UInt64.le_iff_toNat_le] at small
      exact UInt64.toNat_inj.mp (Nat.le_antisymm positive small)
    next => rfl
  rw [same, UInt64.toNat_mod]
  exact Nat.mod_lt _ positive

theorem Rng.digit_ends : Ends Rng.digit (· < 10) := Rng.below_ends (by decide)

theorem Rng.pick_ends {α : Type} {items : List α} (nonempty : items ≠ [])
    (small : items.length < 2 ^ 64) : Ends (Rng.pick items) (· ∈ items) := by
  have length : (UInt64.ofNat items.length).toNat = items.length := by
    rw [UInt64.toNat_ofNat']
    exact Nat.mod_eq_of_lt small
  have positive := List.length_pos_of_ne_nil nonempty
  refine (Rng.below_ends (by rwa [length])).bind fun index below => ?_
  rw [length] at below
  exact .lift (List.getElem?_eq_getElem below) (List.getElem_mem below)

theorem drawDigits_ends (n : Nat) :
    Ends (drawDigits n) fun digits => digits.length = n ∧ Known digits := by
  induction n with
  | zero => exact .pure ⟨rfl, by simp [Known]⟩
  | succ n ih =>
      refine Rng.digit_ends.bind fun digit below => ih.bind fun rest drawn => .pure ⟨?_, ?_⟩
      · rw [List.length_cons, drawn.1]
      · exact List.forall_mem_cons.mpr ⟨below, drawn.2⟩

/-- A loop whose first round returns ends with it, however many rounds it may take. -/
theorem untilReturned_eq {α : Type} {round : Draw (Option α)}
    (returns : Ends round fun returned => returned.isSome) (fuel : Nat) :
    untilReturned round (fuel + 1) = untilReturned round 1 := by
  funext rng
  obtain ⟨returned, rng', ran, isSome⟩ := returns rng
  obtain ⟨value, rfl⟩ := Option.isSome_iff_exists.mp isSome
  have first (fuel : Nat) : (untilReturned round (fuel + 1)).run rng = some (value, rng') := by
    rw [untilReturned, StateT.run_bind, ran]
    rfl
  exact (first fuel).trans (first 0).symm

theorem untilReturned_ends {α : Type} {round : Draw (Option α)} {post : α → Prop}
    (returns : Ends round fun returned => ∃ value, returned = some value ∧ post value) :
    Ends (untilReturned round 1) post := by
  rw [untilReturned]
  refine returns.bind fun returned holds => ?_
  obtain ⟨value, rfl, satisfied⟩ := holds
  exact .pure satisfied

/-! ## Digits as text -/

theorem isAsciiDigit_digit : ∀ d < 10, isAsciiDigit (Char.ofNat ('0'.toNat + d)) = true := by
  decide

theorem toDigits_toText {digits : List Nat} (known : Known digits) :
    Checksum.toDigits (toText digits) = some digits := by
  have read : ∀ d < 10, (if Checksum.isMaskChar (Char.ofNat ('0'.toNat + d)) then
      some Checksum.masked else if isAsciiDigit (Char.ofNat ('0'.toNat + d)) then
        some ((Char.ofNat ('0'.toNat + d)).toNat - '0'.toNat) else none) = some d := by
    decide
  induction digits with
  | nil => rfl
  | cons d digits ih =>
      obtain ⟨below, known⟩ := List.forall_mem_cons.mp known
      have rest := ih known
      rw [Checksum.toDigits] at rest
      rw [Checksum.toDigits, toText, List.map_cons, List.mapM_cons, read d below]
      rw [toText] at rest
      rw [rest]
      rfl

theorem asText_eq_toText {digits : List Nat} (known : Known digits) :
    Entity.asText digits = toText digits := by
  apply List.map_congr_left
  intro d member
  have below := known d member
  rw [if_neg (by rw [Checksum.masked]; omega)]

theorem isAsciiDigit_of_mem_toText {digits : List Nat} (known : Known digits) :
    ∀ c ∈ toText digits, isAsciiDigit c = true := by
  rw [toText, List.forall_mem_map]
  exact fun d member => isAsciiDigit_digit d (known d member)

@[simp] theorem length_toText (digits : List Nat) : (toText digits).length = digits.length :=
  List.length_map _

theorem toText_append (left right : List Nat) :
    toText (left ++ right) = toText left ++ toText right := List.map_append

/-- A text of digits is one run. -/
theorem digitRuns_digits {value : List Char} (digits : ∀ c ∈ value, isAsciiDigit c = true)
    (long : 2 ≤ value.length) : Scanner.digitRuns value = [spanAt [] value] := by
  have runs (run rest : List Char) (inside : ∀ c ∈ rest, isAsciiDigit c = true) :
      Scanner.digitRunsFrom [] run rest = Scanner.closeRun [] (run ++ rest) := by
    induction rest generalizing run with
    | nil => rw [Scanner.digitRunsFrom, List.append_nil]
    | cons c rest ih =>
        rw [List.forall_mem_cons] at inside
        have isRun : Scanner.isRunChar c = true := by
          simp [Scanner.isRunChar, inside.1]
        rw [Scanner.digitRunsFrom, if_pos isRun, ih _ inside.2, List.append_assoc]
        rfl
  have counted : value.countP isAsciiDigit = value.length := List.countP_eq_length.mpr digits
  rw [Scanner.digitRuns, runs [] value digits, List.nil_append, Scanner.closeRun,
    Scanner.runIsCandidate, counted, if_pos (by simpa using long)]

/-! ## Numbers with a check digit -/

/-- A check that one last digit passes completes a prefix to a number that passes it. -/
theorem completed_of_existsUnique {start : List Nat} {passes : List Nat → Bool}
    (unique : ∃! digit, digit < 10 ∧ passes (start ++ [digit]) = true) :
    ∃ digit < 10, completed start passes = some (toText (start ++ [digit])) ∧
      passes (start ++ [digit]) = true := by
  obtain ⟨digit, ⟨below, passing⟩, only⟩ := unique
  have found : complete start passes = (start ++ [digit], true) := by
    apply Checksum.completeWith_of_unique (List.mem_range.mpr below) passing
    exact fun other member passing' => only other ⟨List.mem_range.mp member, passing'⟩
  exact ⟨digit, below, by rw [completed, found]; rfl, passing⟩

theorem isPassed_iff {result : ChecksumResult} : result.isPassed = true ↔ result = .passed := by
  cases result <;> simp [ChecksumResult.isPassed]

theorem cardRound_ends : Ends cardRound fun returned => ∃ value, returned = some value ∧
    ∃ digits, value = toText digits ∧ Known digits ∧ digits.length = 16 ∧
      Checksum.luhn digits = .passed := by
  refine (drawDigits_ends 14).bind fun drawn ⟨length, known⟩ => ?_
  have known' : Known (4 :: drawn) := List.forall_mem_cons.mpr ⟨by decide, known⟩
  have length' : (4 :: drawn).length = 15 := by rw [List.length_cons, length]
  have unique := Checksum.existsUnique_luhn known' (by omega) (by omega)
  simp only [← isPassed_iff] at unique
  obtain ⟨digit, below, found, passes⟩ :
      ∃ digit < 10, completed (4 :: drawn) cardAccepts = some (toText (4 :: drawn ++ [digit])) ∧
        cardAccepts (4 :: drawn ++ [digit]) = true := completed_of_existsUnique unique
  refine .pure ⟨_, found, _, rfl, known'.snoc below, ?_, isPassed_iff.mp passes⟩
  rw [List.length_append, length', List.length_singleton]

theorem businessRound_ends : Ends businessRound fun returned => ∃ value, returned = some value ∧
    ∃ digits, value = toText digits ∧ Known digits ∧ digits.length = 10 ∧
      Checksum.businessRegistration digits = .passed := by
  refine (drawDigits_ends 9).bind fun drawn ⟨length, known⟩ => ?_
  have unique := Checksum.existsUnique_businessRegistration known length
  simp only [← isPassed_iff] at unique
  obtain ⟨digit, below, found, passes⟩ :
      ∃ digit < 10, completed drawn businessAccepts = some (toText (drawn ++ [digit])) ∧
        businessAccepts (drawn ++ [digit]) = true := completed_of_existsUnique unique
  refine .pure ⟨_, found, _, rfl, known.snoc below, ?_, isPassed_iff.mp passes⟩
  rw [List.length_append, length, List.length_singleton]

/-- Digits that the registration rule accepts, native or foreign. -/
def Registered (foreigner : Bool) (digits : List Nat) : Prop :=
  digits.length = 13 ∧ ∃ analysis, Checksum.analyzeResident digits = some analysis ∧
    analysis.gender.foreigner = foreigner ∧ analysis.birth.isSome ∧ analysis.checksum = .passed

theorem isValidDate_early (year : Nat) {month day : Nat} (first : 1 ≤ month) (last : month ≤ 12)
    (opening : 1 ≤ day) (closing : day ≤ 28) : Checksum.isValidDate year month day = true := by
  have days : 28 ≤ Checksum.daysInMonth year month := by
    interval_cases month <;> simp only [Checksum.daysInMonth] <;> (try split) <;> decide
  rw [Checksum.isValidDate, decide_eq_true_eq]
  exact ⟨⟨first, last⟩, opening, closing.trans days⟩

/-- Six digits of a date in front of a known code are a birth date. -/
theorem residentBirth_isSome {yy mm dd code : Nat} (gender : Checksum.GenderCode)
    (rest : List Nat) (century : yy < 100) (first : 1 ≤ mm) (last : mm ≤ 12) (opening : 1 ≤ dd)
    (closing : dd ≤ 28) (plain : code < 10) :
    (Checksum.residentBirth ([yy / 10, yy % 10, mm / 10, mm % 10, dd / 10, dd % 10, code] ++ rest)
      gender).isSome = true := by
  have tens : Known [yy / 10, yy % 10, mm / 10, mm % 10, dd / 10, dd % 10] := by
    simp only [Known, List.forall_mem_cons]
    refine ⟨?_, ?_, ?_, ?_, ?_, ?_, by simp⟩ <;> omega
  have front : ([yy / 10, yy % 10, mm / 10, mm % 10, dd / 10, dd % 10, code] ++ rest).take 6 =
      [yy / 10, yy % 10, mm / 10, mm % 10, dd / 10, dd % 10] := rfl
  have year : yy / 10 * 10 + yy % 10 = yy := by omega
  have month : mm / 10 * 10 + mm % 10 = mm := by omega
  have day : dd / 10 * 10 + dd % 10 = dd := by omega
  have dated := isValidDate_early (gender.century + yy) first last opening closing
  have unmasked : code ≠ Checksum.masked := by
    rw [Checksum.masked]
    omega
  rw [Checksum.residentBirth, front, tens.not_masked, if_neg (by simp)]
  simp only [List.cons_append, List.getD_cons_zero, List.getD_cons_succ, year, month, day,
    if_neg unmasked, dated, if_true, Option.isSome_some]

theorem genderCode_foreigner : ∀ code < 4, ∀ foreigner, ∃ gender,
    Checksum.residentGender ((if foreigner then 5 else 1) + code) = some gender ∧
      gender.foreigner = foreigner := by
  decide

theorem residentRound_ends (foreigner : Bool) :
    Ends (residentRound foreigner) fun returned => ∃ value, returned = some value ∧
      ∃ digits, value = toText digits ∧ Known digits ∧ Registered foreigner digits := by
  have dates : Ends birthSix fun birth => ∃ yy mm dd, yy < 100 ∧ (1 ≤ mm ∧ mm ≤ 12) ∧
      (1 ≤ dd ∧ dd ≤ 28) ∧ birth = [yy / 10, yy % 10, mm / 10, mm % 10, dd / 10, dd % 10] := by
    refine (Rng.below_ends (by decide)).bind fun yy century =>
      (Rng.below_ends (by decide)).bind fun month within =>
        (Rng.below_ends (by decide)).bind fun day inside => .pure ?_
    change yy < 100 at century
    change month < 12 at within
    change day < 28 at inside
    exact ⟨yy, 1 + month, 1 + day, century, ⟨by omega, by omega⟩, ⟨by omega, by omega⟩, rfl⟩
  refine dates.bind fun birth dated => (Rng.below_ends (by decide)).bind fun code below =>
    (drawDigits_ends 5).bind fun serial ⟨length, known⟩ => ?_
  obtain ⟨yy, mm, dd, century, ⟨first, last⟩, ⟨opening, closing⟩, rfl⟩ := dated
  change code < 4 at below
  obtain ⟨head, headEq⟩ : ∃ head, head = (if foreigner then 5 else 1) + code := ⟨_, rfl⟩
  have plain : head < 10 := by
    rw [headEq]
    split <;> omega
  obtain ⟨gender, coded, kind⟩ := genderCode_foreigner code below foreigner
  rw [← headEq] at coded
  rw [← headEq]
  obtain ⟨start, startEq⟩ : ∃ start, start =
      [yy / 10, yy % 10, mm / 10, mm % 10, dd / 10, dd % 10] ++ [head] ++ serial := ⟨_, rfl⟩
  have known' : Known start := by
    intro digit member
    rw [startEq, List.mem_append] at member
    rcases member with front | back
    · simp only [List.cons_append, List.nil_append, List.mem_cons, List.not_mem_nil,
        or_false] at front
      omega
    · exact known digit back
  have length' : start.length = 12 := by
    rw [startEq]
    simp [length]
  have analyzed (digit : Nat) : ∃ analysis,
      Checksum.analyzeResident (start ++ [digit]) = some analysis ∧
        analysis.gender.foreigner = foreigner ∧ analysis.birth.isSome = true := by
    have born := residentBirth_isSome gender (serial ++ [digit]) century first last opening
      closing plain
    have whole : start ++ [digit] =
        [yy / 10, yy % 10, mm / 10, mm % 10, dd / 10, dd % 10, head] ++ (serial ++ [digit]) := by
      rw [startEq]
      simp
    have sixth : (start ++ [digit]).getD 6 0 = head := by
      rw [whole]
      rfl
    rw [Checksum.analyzeResident, if_neg (by simp [length']), sixth, coded, Option.map_some]
    refine ⟨_, rfl, ?_, ?_⟩ <;> split
    · exact kind
    · exact kind
    · rwa [whole]
    · rwa [whole]
  have same (digit : Nat) :
      residentAccepts (start ++ [digit]) = Checksum.residentPasses (start ++ [digit]) := by
    obtain ⟨analysis, found, -, born⟩ := analyzed digit
    rw [residentAccepts, Checksum.residentPasses, found]
    simp [born]
  have unique := Checksum.existsUnique_resident known' length'
  simp only [← same] at unique
  obtain ⟨digit, below', found, passes⟩ := completed_of_existsUnique unique
  rw [startEq] at found
  refine .pure ⟨_, found, _, rfl, startEq ▸ known'.snoc below', ?_⟩
  obtain ⟨analysis, analysisEq, kind', born⟩ := analyzed digit
  rw [residentAccepts, analysisEq, Option.any_some, Bool.and_eq_true] at passes
  rw [← startEq]
  refine ⟨by simp [length'], analysis, analysisEq, kind', born, isPassed_iff.mp passes.1⟩

/-! ## What is drawn -/

/-- The shape of the values that are drawn for a kind. -/
def Drawn (entity : EntityKind) (value : List Char) : Prop :=
  match entity with
  | .resident => ∃ digits, value = toText digits ∧ Known digits ∧ Registered false digits
  | .foreignerRegistration =>
      ∃ digits, value = toText digits ∧ Known digits ∧ Registered true digits
  | .businessRegistration => ∃ digits, value = toText digits ∧ Known digits ∧
      digits.length = 10 ∧ Checksum.businessRegistration digits = .passed
  | .creditCard => ∃ digits, value = toText digits ∧ Known digits ∧ digits.length = 16 ∧
      Checksum.luhn digits = .passed
  | .phone => ∃ digits, value = toText ([0, 1, 0] ++ digits) ∧ Known digits ∧ digits.length = 8
  | .email => ∃ name ∈ names, ∃ host ∈ hosts, value = name.toList ++ '@' :: host.toList
  | .bankAccount => ∃ digits, value = toText digits ∧ Known digits ∧
      11 ≤ digits.length ∧ digits.length ≤ 14
  | .driverLicense => ∃ region ∈ regions, ∃ digits, value = region.toList ++ toText digits ∧
      Known digits ∧ digits.length = 10
  | .birthDate => ∃ year month day, value = padded 4 year ++ padded 2 month ++ padded 2 day ∧
      (1940 ≤ year ∧ year < 2010) ∧ (1 ≤ month ∧ month ≤ 12) ∧ 1 ≤ day ∧ day ≤ 28
  | .passport => ∃ head ∈ heads, ∃ digits, value = head.toList ++ toText digits ∧
      Known digits ∧ digits.length = 8

theorem valueFor_ends (entity : EntityKind) : Ends (valueFor 1 entity) (Drawn entity) := by
  cases entity with
  | resident => exact untilReturned_ends (residentRound_ends false)
  | foreignerRegistration => exact untilReturned_ends (residentRound_ends true)
  | businessRegistration => exact untilReturned_ends businessRound_ends
  | creditCard => exact untilReturned_ends cardRound_ends
  | phone =>
      exact (drawDigits_ends 8).bind fun digits drawn => .pure ⟨digits, rfl, drawn.2, drawn.1⟩
  | email =>
      exact (Rng.pick_ends (by decide) (by decide)).bind fun name named =>
        (Rng.pick_ends (by decide) (by decide)).bind fun host hosted =>
          .pure ⟨name, named, host, hosted, rfl⟩
  | bankAccount =>
      refine (Rng.below_ends (by decide)).bind fun longer below =>
        (drawDigits_ends (11 + longer)).bind fun digits drawn =>
          .pure ⟨digits, rfl, drawn.2, ?_⟩
      change longer < 4 at below
      rw [drawn.1]
      omega
  | driverLicense =>
      exact (Rng.pick_ends (by decide) (by decide)).bind fun region regional =>
        (drawDigits_ends 10).bind fun digits drawn =>
          .pure ⟨region, regional, digits, rfl, drawn.2, drawn.1⟩
  | birthDate =>
      refine (Rng.below_ends (by decide)).bind fun year era =>
        (Rng.below_ends (by decide)).bind fun month within =>
          (Rng.below_ends (by decide)).bind fun day inside =>
            .pure ⟨1940 + year, 1 + month, 1 + day, rfl, ?_⟩
      change year < 70 at era
      change month < 12 at within
      change day < 28 at inside
      omega
  | passport =>
      exact (Rng.pick_ends (by decide) (by decide)).bind fun head capital =>
        (drawDigits_ends 8).bind fun digits drawn =>
          .pure ⟨head, capital, digits, rfl, drawn.2, drawn.1⟩

/-- The loops end in their first round. -/
theorem valueFor_eq (fuel : Nat) (entity : EntityKind) :
    valueFor (fuel + 1) entity = valueFor 1 entity := by
  have returns {round : Draw (Option (List Char))} {post : List Char → Prop}
      (ends : Ends round fun returned => ∃ value, returned = some value ∧ post value) :
      untilReturned round (fuel + 1) = untilReturned round 1 :=
    untilReturned_eq (ends.mono fun returned holds => by
      obtain ⟨value, rfl, -⟩ := holds
      rfl) fuel
  cases entity with
  | resident => exact returns (residentRound_ends false)
  | foreignerRegistration => exact returns (residentRound_ends true)
  | businessRegistration => exact returns businessRound_ends
  | creditCard => exact returns cardRound_ends
  | _ => rfl

/-! ## The readings of a number -/

section

variable {F : Type} [Scalar F]

/-- A registration number whose date is known. -/
def registeredCandidate (foreigner masked : Bool) (checksum : ChecksumResult) : Candidate F :=
  { entity := if foreigner then .foreignerRegistration else .resident
    rule := if foreigner then "resident.foreigner_13" else "resident.korean_13"
    checksum
    ceiling := if masked then .probable else .certain
    cues := if foreigner then Context.foreigner else Context.resident
    base := Scalar.lit 0.6
    needsContext := false }

def businessCandidate (checksum : ChecksumResult) : Candidate F :=
  { entity := .businessRegistration, rule := "business.10", checksum, ceiling := .certain
    cues := Context.business, base := Scalar.lit 0.4, needsContext := false }

def cardCandidate (checksum : ChecksumResult) : Candidate F :=
  { entity := .creditCard, rule := "card.luhn", checksum, ceiling := .certain
    cues := Context.card, base := Scalar.lit 0.4, needsContext := false }

def phoneCandidate (rule : String) : Candidate F :=
  { entity := .phone, rule, checksum := .notApplicable "전화번호에는 검증식이 없다"
    ceiling := .probable, cues := Context.phone, base := Scalar.lit 0.6, needsContext := false }

def licenseCandidate : Candidate F :=
  { entity := .driverLicense, rule := "license.12"
    checksum := .notApplicable "검증 자릿수는 존재하나 계산식이 공개돼 있지 않다"
    ceiling := .probable, cues := Context.driverLicense, base := Scalar.lit 0.2
    needsContext := true }

def accountCandidate : Candidate F :=
  { entity := .bankAccount, rule := "account.length"
    checksum := .notApplicable "은행별 체계가 달라 공통 검증식이 없다"
    ceiling := .probable, cues := Context.account, base := Scalar.lit 0.1, needsContext := true }

def birthDateCandidate (rule : String) : Candidate F :=
  { entity := .birthDate, rule, checksum := .notApplicable "생년월일에는 검증식이 없다"
    ceiling := .probable, cues := Context.birthDate, base := Scalar.lit 0.1, needsContext := true }

/-- The readings of a number by its length. -/
theorem candidates_eq (digits : List Nat) : Entity.candidates (F := F) digits =
    Entity.residentCandidates digits ++
      (if digits.length = 10 then [businessCandidate (Checksum.businessRegistration digits)]
        else []) ++
      (if 13 ≤ digits.length ∧ digits.length ≤ 19 then [cardCandidate (Checksum.luhn digits)]
        else []) ++
      ((Entity.phoneRule (Entity.asText digits)).map phoneCandidate).toList ++
      (if digits.length = 12 ∧
          Entity.startsWithCode Entity.licenseRegions (Entity.asText digits) then
        [licenseCandidate] else []) ++
      (if 10 ≤ digits.length ∧ digits.length ≤ 14 then [accountCandidate] else []) ++
      ((Entity.birthDateRule digits).map birthDateCandidate).toList := by
  rw [Entity.candidates]
  congr 1
  · congr 1
    congr 1
    congr 1
    cases Entity.phoneRule (Entity.asText digits) <;> rfl
  · cases Entity.birthDateRule digits <;> rfl

theorem phoneRule_eq_none {digits : List Nat} (long : 11 < digits.length) :
    Entity.phoneRule (Entity.asText digits) = none := by
  have length : (Entity.asText digits).length = digits.length := List.length_map _
  rw [Entity.phoneRule, length, if_neg, if_neg, if_neg, if_neg, if_neg] <;> omega

theorem birthDateRule_eq_none {digits : List Nat} (six : digits.length ≠ 6)
    (eight : digits.length ≠ 8) : Entity.birthDateRule digits = none := by
  rw [Entity.birthDateRule, if_neg six, if_neg eight]
  exact ite_self _

theorem residentCandidates_eq_nil {digits : List Nat} (length : digits.length ≠ 13) :
    Entity.residentCandidates (F := F) digits = [] := by
  rw [Entity.residentCandidates, Checksum.analyzeResident, if_pos length]

theorem residentCandidates_of_birth {digits : List Nat} {analysis : Checksum.ResidentAnalysis}
    (found : Checksum.analyzeResident digits = some analysis) (born : analysis.birth.isSome) :
    Entity.residentCandidates (F := F) digits =
      [registeredCandidate analysis.gender.foreigner (Checksum.hasMasked digits)
        analysis.checksum] := by
  rw [Entity.residentCandidates, found]
  exact if_pos born

theorem candidates_thirteen {digits : List Nat} (length : digits.length = 13) :
    Entity.candidates (F := F) digits = Entity.residentCandidates digits ++
      [cardCandidate (Checksum.luhn digits), accountCandidate] := by
  simp [candidates_eq, length, phoneRule_eq_none, birthDateRule_eq_none]

theorem candidates_sixteen {digits : List Nat} (length : digits.length = 16) :
    Entity.candidates (F := F) digits = [cardCandidate (Checksum.luhn digits)] := by
  simp [candidates_eq, length, phoneRule_eq_none, birthDateRule_eq_none,
    residentCandidates_eq_nil]

theorem candidates_twelve {digits : List Nat} (length : digits.length = 12)
    (region : Entity.startsWithCode Entity.licenseRegions (Entity.asText digits) = true) :
    Entity.candidates (F := F) digits = [licenseCandidate, accountCandidate] := by
  simp [candidates_eq, length, region, phoneRule_eq_none, birthDateRule_eq_none,
    residentCandidates_eq_nil]

theorem candidates_ten {digits : List Nat} (length : digits.length = 10) :
    Entity.candidates (F := F) digits =
      businessCandidate (Checksum.businessRegistration digits) ::
        ((Entity.phoneRule (Entity.asText digits)).map phoneCandidate).toList ++
          [accountCandidate] := by
  simp [candidates_eq, length, birthDateRule_eq_none, residentCandidates_eq_nil]

theorem candidates_eleven {digits : List Nat} (length : digits.length = 11) :
    Entity.candidates (F := F) digits =
      ((Entity.phoneRule (Entity.asText digits)).map phoneCandidate).toList ++
        [accountCandidate] := by
  simp [candidates_eq, length, birthDateRule_eq_none, residentCandidates_eq_nil]

theorem candidates_eight {digits : List Nat} (length : digits.length = 8) :
    Entity.candidates (F := F) digits =
      ((Entity.phoneRule (Entity.asText digits)).map phoneCandidate).toList ++
        ((Entity.birthDateRule digits).map birthDateCandidate).toList := by
  simp [candidates_eq, length, residentCandidates_eq_nil]

end

/-! ## What the rules read -/

/-- Whether a kind has a published check digit. -/
def hasCheckDigit : EntityKind → Bool
  | .resident | .foreignerRegistration | .businessRegistration | .creditCard => true
  | _ => false

/-- The whole value is one number to the scanner, and one of its readings is of the kind,
with the check digit passed where the kind has one. -/
def ReadsNumber (F : Type) [Scalar F] (entity : EntityKind) (value : List Char) : Prop :=
  Scanner.digitRuns value = [spanAt [] value] ∧ ∃ digits, Checksum.toDigits value = some digits ∧
    ∃ candidate ∈ (Entity.candidates digits : List (Candidate F)), candidate.entity = entity ∧
      candidate.checksum.isPassed = hasCheckDigit entity

/-- The scanner of the kind cuts out the whole value, and the rules read it as the kind. -/
def Reads (F : Type) [Scalar F] (entity : EntityKind) (value : List Char) : Prop :=
  match entity with
  | .email => Scanner.emails value = [spanAt [] value]
  | .passport => Scanner.passports value = [spanAt [] value]
  | entity => ReadsNumber F entity value

section

variable {F : Type} [Scalar F]

theorem readsNumber_of_digits {entity : EntityKind} {digits : List Nat} (known : Known digits)
    (long : 2 ≤ digits.length)
    (read : ∃ candidate ∈ (Entity.candidates digits : List (Candidate F)),
      candidate.entity = entity ∧ candidate.checksum.isPassed = hasCheckDigit entity) :
    ReadsNumber F entity (toText digits) :=
  ⟨digitRuns_digits (isAsciiDigit_of_mem_toText known) (by rwa [length_toText]), digits,
    toDigits_toText known, read⟩

theorem reads_registered {foreigner : Bool} {digits : List Nat} (known : Known digits)
    (registered : Registered foreigner digits) :
    ReadsNumber F (if foreigner then .foreignerRegistration else .resident) (toText digits) := by
  obtain ⟨length, analysis, found, rfl, born, passed⟩ := registered
  refine readsNumber_of_digits known (by omega) ⟨registeredCandidate analysis.gender.foreigner
    (Checksum.hasMasked digits) analysis.checksum, ?_, rfl, ?_⟩
  · rw [candidates_thirteen length, residentCandidates_of_birth found born]
    exact List.mem_cons_self
  · rw [registeredCandidate, passed]
    cases analysis.gender.foreigner <;> rfl

/-- A number of a region in front of ten digits. -/
theorem region_digits : ∀ region ∈ regions, ∃ code, region.toList = toText code ∧ Known code ∧
    code.length = 2 ∧ Entity.startsWithCode Entity.licenseRegions (toText code) = true := by
  simp only [regions, List.forall_mem_cons]
  refine ⟨⟨[1, 1], rfl, ?_⟩, ⟨[1, 2], rfl, ?_⟩, ⟨[1, 3], rfl, ?_⟩, ⟨[2, 1], rfl, ?_⟩,
    ⟨[2, 6], rfl, ?_⟩, ⟨[2, 8], rfl, ?_⟩, by simp⟩ <;> exact ⟨by simp [Known], rfl, by decide⟩

theorem startsWithCode_append {codes : List String} {text : List Char}
    (starts : Entity.startsWithCode codes text = true) (rest : List Char) :
    Entity.startsWithCode codes (text ++ rest) = true := by
  rw [Entity.startsWithCode, List.any_eq_true] at starts ⊢
  obtain ⟨code, member, leads⟩ := starts
  rw [List.isPrefixOf_iff_prefix] at leads
  exact ⟨code, member, List.isPrefixOf_iff_prefix.mpr (leads.trans (List.prefix_append _ _))⟩

theorem known_mobile {digits : List Nat} (known : Known digits) : Known ([0, 1, 0] ++ digits) := by
  simpa [Known, or_imp, forall_and] using known

theorem phoneRule_mobile {digits : List Nat} (known : Known digits) (length : digits.length = 8) :
    Entity.phoneRule (Entity.asText ([0, 1, 0] ++ digits)) = some "phone.mobile_11" := by
  rw [asText_eq_toText (known_mobile known), toText_append, Entity.phoneRule, if_pos]
  refine ⟨by simp [length], startsWithCode_append ?_ _⟩
  decide

theorem padded_two : ∀ n < 100, padded 2 n = toText [n / 10, n % 10] := by decide

theorem padded_four : ∀ n < 70, padded 4 (1940 + n) = toText [(1940 + n) / 1000,
    (1940 + n) / 100 % 10, (1940 + n) / 10 % 10, (1940 + n) % 10] := by decide

/-- The eight digits of a date. -/
theorem birthDate_digits {year month day : Nat} (era : 1940 ≤ year ∧ year < 2010)
    (within : 1 ≤ month ∧ month ≤ 12) (inside : 1 ≤ day ∧ day ≤ 28) :
    ∃ digits, padded 4 year ++ padded 2 month ++ padded 2 day = toText digits ∧ Known digits ∧
      digits.length = 8 ∧ Entity.birthDateRule digits = some "birth.yyyymmdd" := by
  obtain ⟨n, rfl⟩ := Nat.exists_eq_add_of_le era.1
  have years : (1940 + n) / 1000 * 1000 + (1940 + n) / 100 % 10 * 100 +
      (1940 + n) / 10 % 10 * 10 + (1940 + n) % 10 = 1940 + n := by omega
  have months : month / 10 * 10 + month % 10 = month := by omega
  have days : day / 10 * 10 + day % 10 = day := by omega
  have valid := isValidDate_early (1940 + n) within.1 within.2 inside.1 inside.2
  have known : Known [(1940 + n) / 1000, (1940 + n) / 100 % 10, (1940 + n) / 10 % 10,
      (1940 + n) % 10, month / 10, month % 10, day / 10, day % 10] := by
    simp only [Known, List.forall_mem_cons]
    refine ⟨?_, ?_, ?_, ?_, ?_, ?_, ?_, ?_, by simp⟩ <;> omega
  refine ⟨_, ?_, known, rfl, ?_⟩
  · rw [padded_four n (by omega), padded_two month (by omega), padded_two day (by omega)]
    rfl
  · rw [Entity.birthDateRule, known.not_masked]
    simp only [Bool.false_eq_true, if_false, List.length_cons, List.length_nil,
      List.getD_cons_zero, List.getD_cons_succ, years, months, days, valid]
    rw [if_neg (by decide), if_pos trivial, if_pos ⟨by omega, trivial⟩]

theorem emails_address : ∀ name ∈ names, ∀ host ∈ hosts,
    Scanner.emails (name.toList ++ '@' :: host.toList) =
      [spanAt [] (name.toList ++ '@' :: host.toList)] := by
  decide +kernel

theorem passports_digits {digits : List Char} (inside : ∀ c ∈ digits, isAsciiDigit c = true)
    (length : digits.length = 8) {head : Char} (capital : Scanner.isAsciiUppercase head = true) :
    Scanner.passports (head :: digits) = [spanAt [] (head :: digits)] := by
  obtain ⟨c, rest, rfl⟩ := List.exists_cons_of_ne_nil (List.ne_nil_of_length_eq_add_one length)
  have small : Scanner.isAsciiUppercase c = false :=
    Scanner.not_uppercase_of_digit (inside c List.mem_cons_self)
  have letters : Scanner.passportLetters (head :: c :: rest) = [head] := by
    simp [Scanner.passportLetters, capital, small]
  have numbers : Scanner.passportDigits (head :: c :: rest) = c :: rest := by
    rw [Scanner.passportDigits, letters]
    exact List.takeWhile_eq_self_iff.mpr inside
  rw [Scanner.passports, List.length_cons, Scanner.passportsFrom, letters, numbers, if_neg (by simp)]
  have shaped : Scanner.isShaped [head] (c :: rest) = true := by
    simp [Scanner.isShaped, length]
  have ended : (head :: c :: rest).drop ([head] ++ c :: rest).length = [] := by simp
  simp only [shaped, ended]
  rw [if_pos (by simp), List.length_cons, Scanner.passportsFrom]
  rfl

theorem reads_of_drawn {entity : EntityKind} {value : List Char} (drawn : Drawn entity value) :
    Reads F entity value := by
  cases entity with
  | resident =>
      obtain ⟨digits, rfl, known, registered⟩ := drawn
      exact reads_registered known registered
  | foreignerRegistration =>
      obtain ⟨digits, rfl, known, registered⟩ := drawn
      exact reads_registered known registered
  | businessRegistration =>
      obtain ⟨digits, rfl, known, length, passed⟩ := drawn
      refine readsNumber_of_digits known (by omega)
        ⟨businessCandidate _, ?_, rfl, isPassed_iff.mpr passed⟩
      rw [candidates_ten length]
      exact List.mem_append_left _ List.mem_cons_self
  | creditCard =>
      obtain ⟨digits, rfl, known, length, passed⟩ := drawn
      refine readsNumber_of_digits known (by omega)
        ⟨cardCandidate _, ?_, rfl, isPassed_iff.mpr passed⟩
      rw [candidates_sixteen length]
      exact List.mem_singleton_self _
  | phone =>
      obtain ⟨digits, rfl, known, length⟩ := drawn
      refine readsNumber_of_digits (known_mobile known) (by simp)
        ⟨phoneCandidate "phone.mobile_11", ?_, rfl, rfl⟩
      rw [candidates_eleven (by simp [length]), phoneRule_mobile known length]
      exact List.mem_cons_self
  | email =>
      obtain ⟨name, named, host, hosted, rfl⟩ := drawn
      exact emails_address name named host hosted
  | bankAccount =>
      obtain ⟨digits, rfl, known, low, high⟩ := drawn
      refine readsNumber_of_digits known (by omega) ⟨accountCandidate, ?_, rfl, rfl⟩
      have within : 10 ≤ digits.length ∧ digits.length ≤ 14 := ⟨by omega, high⟩
      rw [candidates_eq, if_pos within]
      exact List.mem_append_left _ (List.mem_append_right _ (List.mem_singleton_self _))
  | driverLicense =>
      obtain ⟨region, regional, digits, rfl, known, length⟩ := drawn
      obtain ⟨code, codeEq, coded, two, starts⟩ := region_digits region regional
      have known' : Known (code ++ digits) := List.forall_mem_append.mpr ⟨coded, known⟩
      rw [codeEq, ← toText_append]
      refine readsNumber_of_digits known' (by simp [length]) ⟨licenseCandidate, ?_, rfl, rfl⟩
      rw [candidates_twelve (by simp [length, two]) ?_]
      · exact List.mem_cons_self
      · rw [asText_eq_toText known', toText_append]
        exact startsWithCode_append starts _
  | birthDate =>
      obtain ⟨year, month, day, rfl, era, within, inside⟩ := drawn
      obtain ⟨digits, same, known, length, rule⟩ := birthDate_digits era within inside
      rw [same]
      refine readsNumber_of_digits known (by omega) ⟨birthDateCandidate "birth.yyyymmdd", ?_,
        rfl, rfl⟩
      rw [candidates_eight length, rule]
      exact List.mem_append_right _ (List.mem_singleton_self _)
  | passport =>
      obtain ⟨head, capital, digits, rfl, known, length⟩ := drawn
      have letter : ∀ head ∈ heads, ∃ c, head.toList = [c] ∧ Scanner.isAsciiUppercase c = true := by
        simp only [heads, List.forall_mem_cons]
        exact ⟨⟨'M', by decide⟩, ⟨'S', by decide⟩, ⟨'R', by decide⟩, by simp⟩
      obtain ⟨c, headEq, upper⟩ := letter head capital
      rw [headEq]
      exact passports_digits (isAsciiDigit_of_mem_toText known) (by rwa [length_toText]) upper

end

/-! ## Writing a value -/

/-- A value can be put into a sentence: it is short and has no blanks. -/
structure Compact (value : List Char) : Prop where
  nonempty : value ≠ []
  short : value.length ≤ 28
  solid : ∀ c ∈ value, c ≠ ' '

theorem ne_blank_of_mem_toText {digits : List Nat} (known : Known digits) :
    ∀ c ∈ toText digits, c ≠ ' ' := by
  rintro c member rfl
  exact absurd (isAsciiDigit_of_mem_toText known ' ' member) (by decide)

theorem compact_toText {digits : List Nat} (known : Known digits) (nonempty : 0 < digits.length)
    (short : digits.length ≤ 28) : Compact (toText digits) where
  nonempty := by
    rw [← List.length_pos_iff, length_toText]
    exact nonempty
  short := by rwa [length_toText]
  solid := ne_blank_of_mem_toText known

theorem Compact.append {left right : List Char} (compact : Compact left)
    (solid : ∀ c ∈ right, c ≠ ' ') (short : left.length + right.length ≤ 28) :
    Compact (left ++ right) where
  nonempty := by simp [compact.nonempty]
  short := by rwa [List.length_append]
  solid := List.forall_mem_append.mpr ⟨compact.solid, solid⟩

theorem compact_of_drawn {entity : EntityKind} {value : List Char} (drawn : Drawn entity value) :
    Compact value := by
  have mixed : ∀ head ∈ regions ++ heads, Compact head.toList ∧ head.toList.length ≤ 2 := by
    simp only [regions, heads, List.cons_append, List.nil_append, List.forall_mem_cons]
    refine ⟨?_, ?_, ?_, ?_, ?_, ?_, ?_, ?_, ?_, by simp⟩ <;>
      exact ⟨⟨by simp, by simp, by simp⟩, by simp⟩
  cases entity with
  | resident =>
      obtain ⟨digits, rfl, known, length, -⟩ := drawn
      exact compact_toText known (by omega) (by omega)
  | foreignerRegistration =>
      obtain ⟨digits, rfl, known, length, -⟩ := drawn
      exact compact_toText known (by omega) (by omega)
  | businessRegistration =>
      obtain ⟨digits, rfl, known, length, -⟩ := drawn
      exact compact_toText known (by omega) (by omega)
  | creditCard =>
      obtain ⟨digits, rfl, known, length, -⟩ := drawn
      exact compact_toText known (by omega) (by omega)
  | phone =>
      obtain ⟨digits, rfl, known, length⟩ := drawn
      exact compact_toText (known_mobile known) (by simp) (by simp [length])
  | email =>
      obtain ⟨name, named, host, hosted, rfl⟩ := drawn
      have front : ∀ name ∈ names, name.toList.length ≤ 9 ∧ ∀ c ∈ name.toList, c ≠ ' ' := by
        simp [names]
      have back : ∀ host ∈ hosts, host.toList.length ≤ 18 ∧ ∀ c ∈ host.toList, c ≠ ' ' := by
        simp [hosts]
      obtain ⟨low, local'⟩ := front name named
      obtain ⟨low', domain⟩ := back host hosted
      refine ⟨by simp, ?_, ?_⟩
      · rw [List.length_append, List.length_cons]
        omega
      · rw [List.forall_mem_append, List.forall_mem_cons]
        exact ⟨local', by decide, domain⟩
  | bankAccount =>
      obtain ⟨digits, rfl, known, low, high⟩ := drawn
      exact compact_toText known (by omega) (by omega)
  | driverLicense =>
      obtain ⟨region, regional, digits, rfl, known, length⟩ := drawn
      obtain ⟨compact, short⟩ := mixed region (List.mem_append_left _ regional)
      exact compact.append (ne_blank_of_mem_toText known) (by rw [length_toText]; omega)
  | birthDate =>
      obtain ⟨year, month, day, rfl, era, within, inside⟩ := drawn
      obtain ⟨digits, same, known, length, -⟩ := birthDate_digits era within inside
      rw [same]
      exact compact_toText known (by omega) (by omega)
  | passport =>
      obtain ⟨head, capital, digits, rfl, known, length⟩ := drawn
      obtain ⟨compact, short⟩ := mixed head (List.mem_append_right _ capital)
      exact compact.append (ne_blank_of_mem_toText known) (by rw [length_toText]; omega)

theorem fullwidthOf_ne_blank {c : Char} (solid : c ≠ ' ') : fullwidthOf c ≠ ' ' := by
  by_cases digit : isAsciiDigit c = true
  · obtain ⟨d, small, rfl⟩ := exists_of_digit digit
    interval_cases d <;> decide +kernel
  · rwa [fullwidthOf, if_neg digit]

theorem syllableOf_ne_blank {c : Char} (solid : c ≠ ' ') : syllableOf c ≠ ' ' := by
  by_cases digit : isAsciiDigit c = true
  · obtain ⟨d, small, rfl⟩ := exists_of_digit digit
    interval_cases d <;> decide
  · rwa [syllableOf, if_neg digit]

theorem toHangulDigits_ne_blank {value : List Char} (solid : ∀ c ∈ value, c ≠ ' ')
    (count : Nat) : ∀ c ∈ toHangulDigits value count, c ≠ ' ' := by
  rw [toHangulDigits, List.forall_mem_append, List.forall_mem_map]
  exact ⟨fun c member => syllableOf_ne_blank (solid c (List.mem_of_mem_take member)),
    fun c member => solid c (List.mem_of_mem_drop member)⟩

/-- Only blanks as separators are blanks. -/
theorem render_ne_blank {entity : EntityKind} {value : List Char} {variant : Variant}
    (solid : ∀ c ∈ value, c ≠ ' ') (compact : variant ≠ .space) :
    ∀ c ∈ render entity value variant, c ≠ ' ' := by
  cases variant with
  | space => exact absurd rfl compact
  | plain => exact solid
  | literal => exact solid
  | hyphen =>
      intro c member
      rcases mem_insertSeparatorFrom c member with inside | rfl
      · exact solid c inside
      · decide
  | fullwidth =>
      rw [render, toFullwidth, List.forall_mem_map]
      exact fun c member => fullwidthOf_ne_blank (solid c member)
  | lookalike =>
      intro c member
      rcases mem_toLookalikeFrom c member with inside | rfl | rfl
      · exact solid c inside
      · decide
      · decide
  | masked =>
      intro c member
      rcases List.mem_append.mp member with kept | covered
      · exact solid c (List.mem_of_mem_take kept)
      · rw [List.eq_of_mem_replicate covered]
        decide
  | sentenceEnding =>
      rw [render, List.forall_mem_append]
      exact ⟨toHangulDigits_ne_blank solid _, by simp⟩
  | hangulDigits =>
      have hangul := toHangulDigits_ne_blank solid 6
      rw [render, List.forall_mem_append, List.forall_mem_cons]
      exact ⟨fun c member => hangul c (List.mem_of_mem_take member), by decide,
        fun c member => hangul c (List.mem_of_mem_drop member)⟩

/-- The first and the last character of a text are no blanks. -/
def Trimmed (text : List Char) : Prop :=
  text ≠ [] ∧ text.head? ≠ some ' ' ∧ text.getLast? ≠ some ' '

theorem trimmed_of_ne_blank {text : List Char} (nonempty : text ≠ [])
    (solid : ∀ c ∈ text, c ≠ ' ') : Trimmed text :=
  ⟨nonempty, fun first => solid ' ' (List.mem_of_mem_head? first) rfl,
    fun last => solid ' ' (List.mem_of_getLast? last) rfl⟩

theorem insertSeparatorFrom_ne_nil {positions : List Nat} {sep : Char} {index : Nat}
    {value : List Char} (nonempty : value ≠ []) :
    insertSeparatorFrom positions sep index value ≠ [] := by
  have longer := length_insertSeparatorFrom positions sep index value
  have positive := List.length_pos_of_ne_nil nonempty
  exact List.ne_nil_of_length_pos (by omega)

/-- Separators stand between two characters of the value. -/
theorem getLast?_insertSeparatorFrom (positions : List Nat) (sep : Char) (index : Nat)
    (value : List Char) :
    (insertSeparatorFrom positions sep index value).getLast? = value.getLast? := by
  induction value generalizing index with
  | nil => rfl
  | cons c value ih =>
      rw [insertSeparatorFrom, List.getLast?_append_cons]
      cases value with
      | nil => rfl
      | cons d value =>
          have nonempty : insertSeparatorFrom positions sep (index + 1) (d :: value) ≠ [] :=
            insertSeparatorFrom_ne_nil (List.cons_ne_nil d value)
          rw [List.getLast?_cons_of_ne_nil nonempty, ih, List.getLast?_cons_cons]

theorem render_trimmed (entity : EntityKind) {value : List Char} (variant : Variant)
    (compact : Compact value) : Trimmed (render entity value variant) := by
  obtain ⟨c, rest, valueEq⟩ := List.exists_cons_of_ne_nil compact.nonempty
  by_cases spaced : variant = .space
  · have value' : Trimmed value := trimmed_of_ne_blank compact.nonempty compact.solid
    rw [spaced, render, insertSeparator]
    refine ⟨insertSeparatorFrom_ne_nil compact.nonempty, ?_, ?_⟩
    · rw [valueEq, insertSeparatorFrom, if_neg (by simp)]
      rw [valueEq] at value'
      exact value'.2.1
    · rw [getLast?_insertSeparatorFrom]
      exact value'.2.2
  · refine trimmed_of_ne_blank ?_ (render_ne_blank compact.solid spaced)
    cases variant with
    | space => exact absurd rfl spaced
    | plain | literal => exact compact.nonempty
    | hyphen => exact insertSeparatorFrom_ne_nil compact.nonempty
    | fullwidth => simpa [render, toFullwidth] using compact.nonempty
    | lookalike =>
        rw [render, toLookalike, ← List.length_pos_iff, length_toLookalikeFrom]
        exact List.length_pos_iff.mpr compact.nonempty
    | masked =>
        have positive := List.length_pos_iff.mpr compact.nonempty
        rw [render, toMasked, ← List.length_pos_iff, List.length_append, List.length_take]
        omega
    | sentenceEnding => simp [render]
    | hangulDigits => simp [render]

theorem length_insertSeparatorFrom_le (positions : List Nat) (sep : Char) (index : Nat)
    (value : List Char) :
    (insertSeparatorFrom positions sep index value).length ≤ 2 * value.length := by
  induction value generalizing index with
  | nil => exact Nat.le_refl _
  | cons c value ih =>
      have bound := ih (index + 1)
      rw [insertSeparatorFrom, List.length_append, List.length_cons, List.length_cons]
      split <;> simp <;> omega

theorem length_render_le (entity : EntityKind) (value : List Char) (variant : Variant) :
    (render entity value variant).length ≤ 2 * value.length + 3 := by
  have hangul (count : Nat) : (toHangulDigits value count).length = value.length := by
    rw [toHangulDigits, List.length_append, List.length_map, ← List.length_append,
      List.take_append_drop]
  cases variant with
  | plain | literal => simp only [render]; omega
  | hyphen | space =>
      have bound := length_insertSeparatorFrom_le
      simp only [render, insertSeparator]
      exact (bound _ _ _ _).trans (Nat.le_add_right _ _)
  | fullwidth =>
      rw [render, toFullwidth, List.length_map]
      omega
  | lookalike =>
      rw [render, toLookalike, length_toLookalikeFrom]
      omega
  | masked =>
      simp only [render, toMasked, List.length_append, List.length_take, List.length_replicate]
      omega
  | sentenceEnding =>
      simp only [render, List.length_append, hangul, List.length_cons, List.length_nil]
      omega
  | hangulDigits =>
      simp only [render, List.length_append, List.length_take, List.length_cons,
        List.length_drop, hangul]
      omega

theorem utf8Len_le_length (text : List Char) : utf8Len text ≤ 4 * text.length := by
  induction text with
  | nil => exact Nat.le_refl _
  | cons c text ih =>
      have width := c.utf8Size_le_four
      rw [String.utf8Len_cons, List.length_cons]
      omega

/-! ## Sentences -/

/-- The sentence that a value of the kind is put into. -/
def template (entity : EntityKind) (withContext : Bool) : String :=
  if withContext then withCue entity else withoutCue

/-- What stands before and after the value. -/
def halves (entity : EntityKind) (withContext : Bool) : String × String :=
  if withContext then
    match entity with
    | .resident => ("주민등록번호 ", " 입니다")
    | .foreignerRegistration => ("외국인등록번호 ", " 확인했습니다")
    | .businessRegistration => ("사업자등록번호 ", " 로 세금계산서 발행 부탁드립니다")
    | .creditCard => ("카드번호 ", " 로 결제했습니다")
    | .bankAccount => ("입금 계좌번호 ", " 로 송금 바랍니다")
    | .phone => ("연락처는 ", " 입니다")
    | .email => ("메일은 ", " 로 보내주세요")
    | .driverLicense => ("운전면허번호 ", " 확인 부탁드립니다")
    | .birthDate => ("생년월일 ", " 로 등록해 주세요")
    | .passport => ("여권번호 ", " 로 예약했습니다")
  else ("첨부 자료 확인 부탁드립니다. ", " 참고하시면 됩니다.")

theorem splitOnce_template (entity : EntityKind) (withContext : Bool) :
    splitOnce ['{', '}'] (template entity withContext).toList =
      some ((halves entity withContext).1.toList, (halves entity withContext).2.toList) := by
  cases entity <;> cases withContext <;> decide +kernel

theorem length_halves (entity : EntityKind) (withContext : Bool) :
    (halves entity withContext).1.toList.length ≤ 17 := by
  cases entity <;> cases withContext <;> decide

/-- The sample that holds a value. -/
def sampleOf (entity : EntityKind) (variant : Variant) (withContext : Bool)
    (value : List Char) : Sample where
  text := (halves entity withContext).1.toList ++ render entity value variant ++
    (halves entity withContext).2.toList
  expected := some entity
  span := (spanAt (halves entity withContext).1.toList (render entity value variant)).byte
  variant := variant
  withContext := withContext
  trap := none

theorem positive_ends (entity : EntityKind) (variant : Variant) (withContext : Bool) :
    Ends (positive 1 entity variant withContext) fun sample =>
      ∃ value, Drawn entity value ∧ sample = sampleOf entity variant withContext value := by
  refine (valueFor_ends entity).bind fun value drawn => ?_
  have assembled : assemble (template entity withContext) (render entity value variant) =
      some ((sampleOf entity variant withContext value).text,
        (sampleOf entity variant withContext value).span) := by
    rw [assemble, splitOnce_template]
    have stop (front body : List Char) : (spanAt front body).byte =
        ⟨UInt32.ofNat (utf8Len front),
          UInt32.ofNat (utf8Len front) + UInt32.ofNat (utf8Len body)⟩ := by
      rw [spanAt, mark, mark, utf8Len_append, UInt32.ofNat_add]
    rw [sampleOf, stop]
    rfl
  have lifted : Ends (StateT.lift (assemble (template entity withContext)
      (render entity value variant)) : Draw (List Char × Range32)) (· =
        ((sampleOf entity variant withContext value).text,
          (sampleOf entity variant withContext value).span)) := .lift assembled rfl
  refine lifted.bind fun cut same => ?_
  subst same
  exact .pure ⟨value, drawn, rfl⟩

/-- A sentence without personal information. -/
structure Trap (sample : Sample) : Prop where
  expected : sample.expected = none
  trap : sample.trap.isSome
  start : sample.span.start = 0
  stop : sample.span.stop.toNat = utf8Len sample.text

theorem around_ends (front : String) (n : Nat) (back : String) : Ends (around front n back)
    fun text => text.length = front.toList.length + n + back.toList.length := by
  refine (drawDigits_ends n).bind fun digits drawn => .pure ?_
  simp only [List.length_append, length_toText, drawn.1]

theorem trapFor_ends (choice : Nat) : Ends (trapFor choice) fun cut => cut.1.length ≤ 64 := by
  have plain (front : String) (n : Nat) (back trap : String)
      (short : front.toList.length + n + back.toList.length ≤ 64) :
      Ends (do return (← around front n back, trap) : Draw (List Char × String))
        fun cut => cut.1.length ≤ 64 :=
    (around_ends front n back).bind fun text length => .pure (by rwa [← length] at short)
  have pair (first second : Nat) (compose : List Nat → List Nat → List Char × String)
      (short : ∀ left right, left.length = first → right.length = second →
        (compose left right).1.length ≤ 64) :
      Ends (do return compose (← drawDigits first) (← drawDigits second) :
        Draw (List Char × String)) fun cut => cut.1.length ≤ 64 :=
    (drawDigits_ends first).bind fun left drawn => (drawDigits_ends second).bind fun right drawn' =>
      .pure (short left right drawn.1 drawn'.1)
  match choice with
  | 0 =>
      refine (Rng.below_ends (by decide)).bind fun head below =>
        (drawDigits_ends 10).bind fun digits drawn => .pure ?_
      change head < 8 at below
      have one : (Nat.toDigits 10 (2 + head)).length = 1 := by
        interval_cases head <;> rfl
      simp [one, drawn.1]
  | 1 => exact plain _ _ _ _ (by decide)
  | 2 => exact plain _ _ _ _ (by decide)
  | 3 => exact pair 4 4 _ fun left right first second => by simp [first, second]
  | 4 => exact plain _ _ _ _ (by decide)
  | 5 => exact .pure (by decide)
  | 6 => exact plain _ _ _ _ (by decide)
  | 7 => exact pair 2 4 _ fun left right first second => by simp [first, second]
  | 8 => exact plain _ _ _ _ (by decide)
  | _ + 9 => exact plain _ _ _ _ (by decide)

theorem negative_ends : Ends negative Trap := by
  refine (Rng.below_ends (by decide)).bind fun choice _ =>
    (trapFor_ends choice).bind fun cut short => .pure ⟨rfl, rfl, rfl, ?_⟩
  have width := utf8Len_le_length cut.1
  rw [UInt32.toNat_ofNat']
  exact Nat.mod_eq_of_lt (by omega)

/-! ## The corpus -/

/-- What is written into a sentence: the kind, the notation, and whether a cue stands
with it; nothing in a sentence without personal information. -/
abbrev Slot := Option (EntityKind × Variant × Bool)

/-- The sentences of a kind. -/
def slotsFor (entity : EntityKind) : List Slot :=
  ((variantsFor entity).map fun variant => some (entity, variant, true)) ++
    if worksWithoutContext entity then
      ((variantsFor entity).filter variantWorksWithoutContext).map fun variant =>
        some (entity, variant, false)
    else []

/-- The sentences of a round. -/
def roundSlots : List Slot := entities.flatMap slotsFor ++ List.replicate 12 none

/-- What is drawn for a slot. -/
def Fills : Slot → Sample → Prop
  | some (entity, variant, withContext), sample =>
      ∃ value, Drawn entity value ∧ sample = sampleOf entity variant withContext value
  | none, sample => Trap sample

theorem forall₂_flatten {α β γ : Type} {related : γ → β → Prop} {slots : α → List γ}
    {xs : List α} {parts : List (List β)}
    (each : List.Forall₂ (fun x part => List.Forall₂ related (slots x) part) xs parts) :
    List.Forall₂ related (xs.flatMap slots) parts.flatten := by
  induction each with
  | nil => exact .nil
  | cons head _ ih => exact List.rel_append head ih

theorem positives_end (entity : EntityKind) :
    Ends (positives 1 entity) (List.Forall₂ Fills (slotsFor entity)) := by
  have written (withContext : Bool) (variants : List Variant) :
      Ends (variants.mapM fun variant => positive 1 entity variant withContext)
        (List.Forall₂ Fills (variants.map fun variant => some (entity, variant, withContext))) := by
    refine (Ends.mapM fun variant _ => positive_ends entity variant withContext).mono
      fun samples each => ?_
    rw [List.forall₂_map_left_iff]
    exact each
  refine (written true (variantsFor entity)).bind fun cued filled => ?_
  rw [slotsFor]
  split
  · exact (written false _).bind fun bare filled' => .pure (List.rel_append filled filled')
  · exact .pure (List.rel_append filled .nil)

theorem corpusRound_ends : Ends (corpusRound 1) (List.Forall₂ Fills roundSlots) := by
  refine (Ends.mapM fun entity _ => positives_end entity).bind fun found each =>
    (Ends.mapM fun _ _ => negative_ends).bind fun traps trapped => .pure ?_
  refine List.rel_append (forall₂_flatten each) ?_
  have none' : List.replicate 12 none = (List.range 12).map fun _ => (none : Slot) := rfl
  rw [none', List.forall₂_map_left_iff]
  exact trapped

theorem corpusRound_eq (fuel : Nat) : corpusRound (fuel + 1) = corpusRound 1 := by
  have one : positive (fuel + 1) = positive 1 := by
    funext entity variant withContext
    rw [positive, positive, valueFor_eq]
  have kind : positives (fuel + 1) = positives 1 := by
    funext entity
    rw [positives, positives, one]
  rw [corpusRound, corpusRound, kind]

/-- The corpus fills its slots, and never runs a second round of a loop. -/
theorem corpus_fills (seed : UInt64) (rounds : Nat) :
    ∃ samples, (∀ fuel, corpus (fuel + 1) seed rounds = some samples) ∧
      List.Forall₂ Fills (List.replicate rounds roundSlots).flatten samples := by
  obtain ⟨parts, rng, ran, each⟩ :=
    (Ends.mapM fun (_ : Nat) (_ : _ ∈ List.range rounds) => corpusRound_ends) (Rng.new seed)
  refine ⟨parts.flatten, fun fuel => ?_, ?_⟩
  · rw [corpus, corpusRound_eq]
    exact congrArg (Option.map List.flatten) (congrArg (Option.map Prod.fst) ran)
  · have filled := forall₂_flatten each
    have repeated : (List.range rounds).flatMap (fun _ => roundSlots) =
        (List.replicate rounds roundSlots).flatten := by
      rw [List.flatMap_def, List.map_const', List.length_range]
    rwa [repeated] at filled

/-- A sample whose span cuts out a value of its kind, as it is written. -/
structure Gold (F : Type) [Scalar F] (entity : EntityKind) (variant : Variant)
    (withContext : Bool) (sample : Sample) : Prop where
  expected : sample.expected = some entity
  written : sample.variant = variant
  cued : sample.withContext = withContext
  trap : sample.trap = none
  cut : ∃ front value back, Reads F entity value ∧
    (template entity withContext).toList = front ++ ['{', '}'] ++ back ∧
    sample.text = front ++ render entity value variant ++ back ∧
    sample.span.start.toNat = utf8Len front ∧
    sample.span.stop.toNat = utf8Len (front ++ render entity value variant) ∧
    Trimmed (render entity value variant)

/-- A sample is as its slot says. -/
def Fulfils (F : Type) [Scalar F] : Slot → Sample → Prop
  | some (entity, variant, withContext), sample => Gold F entity variant withContext sample
  | none, sample => Trap sample

theorem fulfils_of_fills {F : Type} [Scalar F] {slot : Slot} {sample : Sample}
    (fills : Fills slot sample) : Fulfils F slot sample := by
  match slot, fills with
  | none, trap => exact trap
  | some (entity, variant, withContext), ⟨value, drawn, same⟩ =>
      subst same
      have compact := compact_of_drawn drawn
      have width := utf8Len_le_length
        ((halves entity withContext).1.toList ++ render entity value variant)
      have front := length_halves entity withContext
      have body := length_render_le entity value variant
      have short := compact.short
      rw [List.length_append] at width
      have start : (spanAt (halves entity withContext).1.toList
          (render entity value variant)).byte.start.toNat =
            utf8Len (halves entity withContext).1.toList := by
        rw [utf8Len_append] at width
        exact UInt32.toNat_ofNat_of_lt' (Nat.lt_of_le_of_lt (by omega) (by decide : 320 < 2 ^ 32))
      have stop : (spanAt (halves entity withContext).1.toList
          (render entity value variant)).byte.stop.toNat =
            utf8Len ((halves entity withContext).1.toList ++ render entity value variant) :=
        UInt32.toNat_ofNat_of_lt' (Nat.lt_of_le_of_lt (by omega) (by decide : 320 < 2 ^ 32))
      exact ⟨rfl, rfl, rfl, rfl, _, value, _, reads_of_drawn drawn,
        splitOnce_append (splitOnce_template entity withContext), rfl, start, stop,
        render_trimmed entity variant compact⟩

/-- Whatever the seed, the generator needs one round of each loop and fills its slots in
order: a positive sample cuts out, by its span, the notation of a value that the detector's
rules read as its kind, with a check digit that passes, and every other sample is marked as a
trap. -/
theorem corpus_fulfils (F : Type) [Scalar F] (seed : UInt64) (rounds : Nat) :
    ∃ samples, (∀ fuel, corpus (fuel + 1) seed rounds = some samples) ∧
      List.Forall₂ (Fulfils F) (List.replicate rounds roundSlots).flatten samples := by
  obtain ⟨samples, ran, filled⟩ := corpus_fills seed rounds
  exact ⟨samples, ran, filled.imp fun _ _ => fulfils_of_fills⟩

end AiCoreStack.Pii.Synth
