import AiCoreStack.Foundation.CheckSum
import AiCoreStack.Pii.Synth

/-!
# What the check digits notice

The card and the business number have check sums modulo ten in which every place tells the
digits apart.  A single wrong digit is therefore noticed anywhere, and the last digit is
determined by the others.
-/

namespace AiCoreStack.Pii.Checksum

open AiCoreStack.Foundation AiCoreStack.Foundation.CheckSum

/-- Digits that are all known. -/
def Known (digits : List Nat) : Prop := ∀ digit ∈ digits, digit < 10

theorem Known.not_masked {digits : List Nat} (known : Known digits) : hasMasked digits = false := by
  rw [hasMasked, List.contains_eq_mem, decide_eq_false_iff_not]
  intro blotted
  exact absurd (known masked blotted) (by decide)

theorem Known.set {digits : List Nat} (known : Known digits) {digit : Nat} (below : digit < 10)
    (place : Nat) : Known (digits.set place digit) := by
  intro other member
  rcases List.mem_or_eq_of_mem_set member with old | rfl
  · exact known other old
  · exact below

theorem Known.snoc {digits : List Nat} (known : Known digits) {digit : Nat} (below : digit < 10) :
    Known (digits ++ [digit]) := by
  intro other member
  rcases List.mem_append.mp member with old | last
  · exact known other old
  · rwa [List.mem_singleton.mp last]

/-- Replacing any one digit by another makes the check fail. -/
def CatchesSingleErrors (check : List Nat → ChecksumResult) (digits : List Nat) : Prop :=
  ∀ (place : Nat) (inside : place < digits.length), ∀ digit < 10, digit ≠ digits[place] →
    check (digits.set place digit) = .failed

/-! ## Cards -/

theorem luhn_eq {digits : List Nat} (known : Known digits) (short : 13 ≤ digits.length)
    (long : digits.length ≤ 19) :
    luhn digits =
      if placed (fun place digit => luhnTerm digit place) digits.reverse % 10 = 0 then .passed
      else .failed := by
  rw [luhn, if_neg (not_not.mpr ⟨short, long⟩), known.not_masked, if_neg (by simp), placed,
    List.mapIdx_eq_zipIdx_map]

theorem tellsApart_luhnTerm (place : Nat) : TellsApart 10 fun digit => luhnTerm digit place := by
  intro a b belowA belowB same
  simp only [luhnTerm, Nat.ModEq] at same
  split at same <;> (try split at same) <;> (try split at same) <;> omega

theorem luhn_passed_iff {digits : List Nat} (known : Known digits) (short : 13 ≤ digits.length)
    (long : digits.length ≤ 19) :
    luhn digits = .passed ↔
      placed (fun place digit => luhnTerm digit place) digits.reverse % 10 = 0 := by
  rw [luhn_eq known short long]
  split <;> simp_all

theorem luhn_catchesSingleErrors {digits : List Nat} (known : Known digits)
    (short : 13 ≤ digits.length) (long : digits.length ≤ 19) (passes : luhn digits = .passed) :
    CatchesSingleErrors luhn digits := by
  intro place inside digit below changed
  have mirrored : digits.length - 1 - place < digits.reverse.length := by
    rw [List.length_reverse]
    omega
  have there : digits.reverse[digits.length - 1 - place] = digits[place] := by
    rw [List.getElem_reverse]
    congr 1
    omega
  rw [luhn_passed_iff known short long] at passes
  rw [luhn_eq (known.set below place) (by rwa [List.length_set]) (by rwa [List.length_set])]
  apply if_neg
  intro passes'
  have reversed : (digits.set place digit).reverse =
      digits.reverse.set (digits.length - 1 - place) digit := by
    apply List.ext_getElem
    · simp
    · intro index left right
      simp only [List.length_reverse, List.length_set] at left
      simp only [List.getElem_reverse, List.getElem_set, List.length_set]
      split <;> split <;> (try rfl) <;> omega
  rw [reversed] at passes'
  exact placed_set_ne (tellsApart_luhnTerm _) mirrored (there ▸ known _ (List.getElem_mem inside))
    below (there ▸ changed) (passes'.trans passes.symm)

theorem existsUnique_luhn {start : List Nat} (known : Known start) (short : 12 ≤ start.length)
    (long : start.length ≤ 18) : ∃! digit, digit < 10 ∧ luhn (start ++ [digit]) = .passed := by
  have positive : 0 < 10 := by decide
  have completing := existsUnique_completing positive (tellsApart_luhnTerm 0)
    (placed (fun place digit => luhnTerm digit (place + 1)) start.reverse)
  have same (digit : Nat) : digit < 10 ∧ luhn (start ++ [digit]) = .passed ↔
      digit < 10 ∧ (placed (fun place digit => luhnTerm digit (place + 1)) start.reverse +
        luhnTerm digit 0) % 10 = 0 := by
    apply and_congr_right
    intro below
    rw [luhn_passed_iff (known.snoc below) (by simp; omega) (by simp; omega), List.reverse_append,
      List.reverse_singleton, placed_append, Nat.add_comm]
    rfl
  simpa only [same] using completing

/-! ## Business numbers -/

/-- What a digit of a business number contributes: its weight, the tens of the ninth
product once more, and the check digit itself. -/
def businessTerm (place digit : Nat) : Nat :=
  if place = 9 then digit
  else if place = 8 then digit * 5 + digit * 5 / 10
  else digit * businessWeights.getD place 0

theorem tellsApart_businessTerm {place : Nat} (inside : place < 10) :
    TellsApart 10 (businessTerm place) := by
  have table : ∀ place < 10, ∀ a < 10, ∀ b < 10,
      businessTerm place a % 10 = businessTerm place b % 10 → a = b := by decide
  intro a b belowA belowB same
  exact table place inside a belowA b belowB same

theorem businessRegistration_eq {digits : List Nat} (known : Known digits)
    (length : digits.length = 10) :
    businessRegistration digits =
      if placed businessTerm digits % 10 = 0 then .passed else .failed := by
  match digits, length with
  | [a, b, c, d, e, f, g, h, i, j], _ =>
      have last : j < 10 := known j (by simp)
      have checks : (10 - (weightedSum [a, b, c, d, e, f, g, h, i] businessWeights +
          i * 5 / 10) % 10) % 10 = j ↔
            placed businessTerm [a, b, c, d, e, f, g, h, i, j] % 10 = 0 := by
        simp only [placed, businessTerm, weightedSum, businessWeights, List.zipWith_cons_cons,
          List.mapIdx_cons, List.sum_cons, List.getD_cons_succ, List.getD_cons_zero]
        simp
        omega
      rw [businessRegistration, if_neg (by simp), known.not_masked, if_neg (by simp)]
      exact if_congr checks rfl rfl

theorem businessRegistration_passed_iff {digits : List Nat} (known : Known digits)
    (length : digits.length = 10) :
    businessRegistration digits = .passed ↔ placed businessTerm digits % 10 = 0 := by
  rw [businessRegistration_eq known length]
  split <;> simp_all

theorem businessRegistration_catchesSingleErrors {digits : List Nat} (known : Known digits)
    (length : digits.length = 10) (passes : businessRegistration digits = .passed) :
    CatchesSingleErrors businessRegistration digits := by
  intro place inside digit below changed
  rw [businessRegistration_passed_iff known length] at passes
  rw [businessRegistration_eq (known.set below place) (by rwa [List.length_set])]
  apply if_neg
  intro passes'
  exact placed_set_ne (tellsApart_businessTerm (by omega)) inside
    (known _ (List.getElem_mem inside)) below changed (passes'.trans passes.symm)

theorem existsUnique_businessRegistration {start : List Nat} (known : Known start)
    (length : start.length = 9) :
    ∃! digit, digit < 10 ∧ businessRegistration (start ++ [digit]) = .passed := by
  have positive : 0 < 10 := by decide
  have completing := existsUnique_completing positive
    (tellsApart_businessTerm (by decide : 9 < 10)) (placed businessTerm start)
  have same (digit : Nat) : digit < 10 ∧ businessRegistration (start ++ [digit]) = .passed ↔
      digit < 10 ∧ (placed businessTerm start + businessTerm 9 digit) % 10 = 0 := by
    apply and_congr_right
    intro below
    rw [businessRegistration_passed_iff (known.snoc below) (by simp [length]), placed_snoc, length]
  simpa only [same] using completing

/-! ## Registration numbers -/

/-- The check of a registration number, without its date. -/
def residentPasses (digits : List Nat) : Bool :=
  (analyzeResident digits).any fun analysis => analysis.checksum.isPassed

theorem exists_genderCode : ∀ digit < 10, (genderCode digit).isSome := by decide

theorem existsUnique_resident {start : List Nat} (known : Known start) (length : start.length = 12) :
    ∃! digit, digit < 10 ∧ residentPasses (start ++ [digit]) = true := by
  have inside : 6 < start.length := by omega
  obtain ⟨gender, genderEq⟩ := Option.isSome_iff_exists.mp
    (exists_genderCode start[6] (known _ (List.getElem_mem inside)))
  let base := (11 - weightedSum start residentWeights % 11) % 10
  let expected := if gender.foreigner then (base + 2) % 10 else base
  have passes (digit : Nat) (below : digit < 10) :
      residentPasses (start ++ [digit]) = true ↔ digit = expected := by
    have code : residentGender ((start ++ [digit]).getD 6 0) = some gender := by
      rw [List.getD_append _ _ _ _ inside, List.getD_eq_getElem _ _ inside, residentGender, genderEq]
    have front : (start ++ [digit]).take 12 = start := by
      rw [← length, List.take_left]
    have last : (start ++ [digit]).getD 12 0 = digit := by
      rw [← length, List.getD_append_right _ _ _ _ le_rfl]
      simp
    rw [residentPasses, analyzeResident, if_neg (by simp [length]), code, Option.map_some,
      (known.snoc below).not_masked, if_neg (by simp), front, last]
    change (if digit = expected then ChecksumResult.passed else .failed).isPassed = true ↔ _
    split
    next hit => simp [hit, ChecksumResult.isPassed]
    next miss => simp [miss, ChecksumResult.isPassed]
  have small : expected < 10 := by
    change (if gender.foreigner then (base + 2) % 10 else base) < 10
    split <;> exact Nat.mod_lt _ (by decide)
  refine ⟨expected, ⟨small, (passes expected small).mpr rfl⟩, ?_⟩
  rintro digit ⟨below, completes⟩
  exact (passes digit below).mp completes

/-! ## Completing a number -/

open Synth

/-- The search stops at the first digit that passes. -/
theorem completeWith_of_unique {passes : List Nat → Bool} {start : List Nat} {digit : Nat}
    {candidates : List Nat} (member : digit ∈ candidates)
    (passing : passes (start ++ [digit]) = true)
    (unique : ∀ other ∈ candidates, passes (start ++ [other]) = true → other = digit) :
    completeWith passes start candidates = (start ++ [digit], true) := by
  induction candidates with
  | nil => cases member
  | cons candidate candidates ih =>
      rw [List.forall_mem_cons] at unique
      rw [completeWith]
      split
      next hit => rw [unique.1 hit]
      next miss =>
        rcases List.mem_cons.mp member with rfl | later
        · exact absurd passing miss
        · exact ih later unique.2

/-- A check that one last digit passes completes every prefix. -/
theorem complete_of_existsUnique {passes : List Nat → Bool} {start : List Nat}
    (unique : ∃! digit, digit < 10 ∧ passes (start ++ [digit]) = true) :
    ∃! digit, digit < 10 ∧ complete start passes = (start ++ [digit], true) := by
  obtain ⟨digit, ⟨below, passing⟩, only⟩ := unique
  have found : complete start passes = (start ++ [digit], true) := by
    apply completeWith_of_unique (List.mem_range.mpr below) passing
    intro other member passing'
    exact only other ⟨List.mem_range.mp member, passing'⟩
  refine ⟨digit, ⟨below, found⟩, ?_⟩
  rintro other ⟨_, found'⟩
  have same := (Prod.mk.inj (found'.symm.trans found)).1
  simpa using same

/-- The check digits catch every single wrong digit, and each prefix of the right length
is completed by exactly one last digit, which the search for one finds. -/
theorem checkDigits_complete :
    (∀ digits, Known digits → 13 ≤ digits.length → digits.length ≤ 19 → luhn digits = .passed →
      CatchesSingleErrors luhn digits) ∧
    (∀ digits, Known digits → digits.length = 10 → businessRegistration digits = .passed →
      CatchesSingleErrors businessRegistration digits) ∧
    ∀ start, Known start →
      (12 ≤ start.length → start.length ≤ 18 →
        (∃! digit, digit < 10 ∧ (luhn (start ++ [digit])).isPassed = true) ∧
        ∃! digit, digit < 10 ∧
          complete start (fun digits => (luhn digits).isPassed) = (start ++ [digit], true)) ∧
      (start.length = 9 →
        (∃! digit, digit < 10 ∧ (businessRegistration (start ++ [digit])).isPassed = true) ∧
        ∃! digit, digit < 10 ∧
          complete start (fun digits => (businessRegistration digits).isPassed) =
            (start ++ [digit], true)) ∧
      (start.length = 12 → ∃! digit, digit < 10 ∧ residentPasses (start ++ [digit]) = true) := by
  have isPassed (result : ChecksumResult) : result.isPassed = true ↔ result = .passed := by
    cases result <;> simp [ChecksumResult.isPassed]
  refine ⟨?_, ?_, ?_⟩
  · intro digits known short long passes
    exact luhn_catchesSingleErrors known short long passes
  · intro digits known length passes
    exact businessRegistration_catchesSingleErrors known length passes
  · intro start known
    refine ⟨?_, ?_, ?_⟩
    · intro short long
      have unique := existsUnique_luhn known short long
      simp only [← isPassed] at unique
      exact ⟨unique, complete_of_existsUnique unique⟩
    · intro length
      have unique := existsUnique_businessRegistration known length
      simp only [← isPassed] at unique
      exact ⟨unique, complete_of_existsUnique unique⟩
    · intro length
      exact existsUnique_resident known length

theorem checkDigits_complete_card :
    Known [4, 1, 1, 1, 1, 1, 1, 1, 1, 1, 1, 1, 1, 1, 1, 1] ∧
      luhn [4, 1, 1, 1, 1, 1, 1, 1, 1, 1, 1, 1, 1, 1, 1, 1] = .passed ∧
      CatchesSingleErrors luhn [4, 1, 1, 1, 1, 1, 1, 1, 1, 1, 1, 1, 1, 1, 1, 1] := by
  have known : Known [4, 1, 1, 1, 1, 1, 1, 1, 1, 1, 1, 1, 1, 1, 1, 1] := by
    simp [Known]
  have passes : luhn [4, 1, 1, 1, 1, 1, 1, 1, 1, 1, 1, 1, 1, 1, 1, 1] = .passed := by decide
  exact ⟨known, passes, checkDigits_complete.1 _ known (by decide) (by decide) passes⟩

end AiCoreStack.Pii.Checksum
