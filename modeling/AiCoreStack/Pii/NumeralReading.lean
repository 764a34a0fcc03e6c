import AiCoreStack.Pii.Normalize

/-!
# What a numeral reading is worth

The unit reading of the numeral pass works in checked 64-bit arithmetic.  It agrees
with the reading in unbounded arithmetic wherever that stays below the limit, and the
Sino-Korean reading of a number is worth that number.
-/

namespace AiCoreStack.Pii.Hangul

/-! ## Unbounded arithmetic -/

/-- A missing coefficient counts as one. -/
def coefficient (n : Nat) : Nat := if n = 0 then 1 else n

theorem le_coefficient (n : Nat) : n ≤ coefficient n := by
  rw [coefficient]
  split <;> omega

/-- Value of the tokens from an accumulated total, section and digit, without any
limit on the numbers. -/
def valueFrom (total section_ current : Nat) : List Token → Option Nat
  | [] => some (total + section_ + current)
  | .digit d :: tokens => if current ≠ 0 then none else valueFrom total section_ d tokens
  | .unit u :: tokens =>
      if 10000 ≤ u then valueFrom (total + coefficient (section_ + current) * u) 0 0 tokens
      else valueFrom total (section_ + coefficient current * u) 0 tokens

/-- Value of a token list, without any limit on the numbers. -/
def unitValue (tokens : List Token) : Option Nat := valueFrom 0 0 0 tokens

/-- What has been accumulated is never lost again. -/
theorem le_valueFrom {tokens : List Token} {total section_ current n : Nat}
    (valued : valueFrom total section_ current tokens = some n) : total + section_ ≤ n := by
  induction tokens generalizing total section_ current with
  | nil =>
      have worth : total + section_ + current = n := Option.some.inj valued
      omega
  | cons token tokens ih =>
      cases token with
      | digit d =>
          rw [valueFrom] at valued
          split at valued
          · exact absurd valued (by simp)
          · exact ih valued
      | unit u =>
          rw [valueFrom] at valued
          split at valued
          next large =>
            have grown := ih valued
            have kept := Nat.le_mul_of_pos_right (coefficient (section_ + current))
              (Nat.lt_of_lt_of_le (by decide) large)
            have whole := le_coefficient (section_ + current)
            omega
          next =>
            have grown := ih valued
            omega

/-- A number within the 64-bit type. -/
def fitsWord (n : Nat) : Bool := n < 2 ^ 64

theorem checkedAdd_eq (left right : Nat) :
    checkedAdd left right = if fitsWord (left + right) then some (left + right) else none := by
  simp only [checkedAdd, fitsWord, decide_eq_true_eq]

theorem checkedMul_eq (left right : Nat) :
    checkedMul left right = if fitsWord (left * right) then some (left * right) else none := by
  simp only [checkedMul, fitsWord, decide_eq_true_eq]

/-- Nothing in range is left once the accumulated value has passed the limit. -/
theorem valueFrom_filter_eq_none {tokens : List Token} {total section_ current : Nat}
    (beyond : 2 ^ 64 ≤ total + section_) :
    (valueFrom total section_ current tokens).filter fitsWord = none := by
  rw [Option.filter_eq_none_iff]
  intro n valued
  have grown := le_valueFrom valued
  simp only [fitsWord, decide_eq_true_eq]
  omega

/-- A unit, with the multiplicand named. -/
theorem evalUnitFrom_unit (total section_ current u : Nat) (tokens : List Token) :
    evalUnitFrom total section_ current (.unit u :: tokens) =
      if 10000 ≤ u then
        (checkedAdd section_ current).bind fun sum =>
        (checkedMul (coefficient sum) u).bind fun product =>
        (checkedAdd total product).bind fun total => evalUnitFrom total 0 0 tokens
      else
        (checkedMul (coefficient current) u).bind fun product =>
        (checkedAdd section_ product).bind fun section_ => evalUnitFrom total section_ 0 tokens :=
  rfl

theorem evalUnitFrom_large {total section_ current u : Nat} (large : 10000 ≤ u)
    {tokens : List Token} :
    evalUnitFrom total section_ current (.unit u :: tokens) =
      if fitsWord (total + coefficient (section_ + current) * u) then
        evalUnitFrom (total + coefficient (section_ + current) * u) 0 0 tokens
      else none := by
  have whole := le_coefficient (section_ + current)
  have kept := Nat.le_mul_of_pos_right (coefficient (section_ + current))
    (Nat.lt_of_lt_of_le (by decide) large)
  rw [evalUnitFrom_unit, if_pos large, checkedAdd_eq]
  by_cases sum : fitsWord (section_ + current)
  · by_cases product : fitsWord (coefficient (section_ + current) * u)
    · rw [if_pos sum, Option.bind_some, checkedMul_eq, if_pos product, Option.bind_some,
        checkedAdd_eq]
      split <;> rfl
    · have beyond : ¬ fitsWord (total + coefficient (section_ + current) * u) := by
        simp only [fitsWord, decide_eq_true_eq] at product ⊢
        omega
      simp [sum, product, beyond, checkedMul_eq]
  · have beyond : ¬ fitsWord (total + coefficient (section_ + current) * u) := by
      simp only [fitsWord, decide_eq_true_eq] at sum ⊢
      omega
    simp [sum, beyond]

theorem evalUnitFrom_small {total section_ current u : Nat} (small : ¬ 10000 ≤ u)
    {tokens : List Token} :
    evalUnitFrom total section_ current (.unit u :: tokens) =
      if fitsWord (section_ + coefficient current * u) then
        evalUnitFrom total (section_ + coefficient current * u) 0 tokens
      else none := by
  rw [evalUnitFrom_unit, if_neg small, checkedMul_eq]
  by_cases product : fitsWord (coefficient current * u)
  · rw [if_pos product, Option.bind_some, checkedAdd_eq]
    split <;> rfl
  · have beyond : ¬ fitsWord (section_ + coefficient current * u) := by
      simp only [fitsWord, decide_eq_true_eq] at product ⊢
      omega
    simp [product, beyond]

/-- The checked reading is the unbounded one where that is in range, and none
elsewhere. -/
theorem evalUnitFrom_eq (tokens : List Token) (total section_ current : Nat) :
    evalUnitFrom total section_ current tokens =
      (valueFrom total section_ current tokens).filter fitsWord := by
  induction tokens generalizing total section_ current with
  | nil =>
      simp only [evalUnitFrom, valueFrom, checkedAdd_eq, fitsWord, Option.filter_some,
        decide_eq_true_eq]
      split
      · simp
      · rw [if_neg (by omega)]
        simp
  | cons token tokens ih =>
      cases token with
      | digit d =>
          rw [evalUnitFrom, valueFrom]
          split
          · rfl
          · exact ih _ _ _
      | unit u =>
          by_cases large : 10000 ≤ u
          · rw [evalUnitFrom_large large, valueFrom, if_pos large]
            split
            next => exact ih _ _ _
            next beyond =>
              rw [valueFrom_filter_eq_none]
              simpa [fitsWord] using beyond
          · rw [evalUnitFrom_small large, valueFrom, if_neg large]
            split
            next => exact ih _ _ _
            next beyond =>
              rw [valueFrom_filter_eq_none]
              simp only [fitsWord, decide_eq_true_eq] at beyond
              omega

/-! ## The Sino-Korean reading -/

/-- Which of the optional ones a group spells out. -/
structure Spelling where
  thousand : Bool
  hundred : Bool
  ten : Bool
  deriving DecidableEq

/-- Reading of one digit at a place. -/
def placeReading (size digit : Nat) (spelled : Bool) : List Token :=
  if digit = 0 then []
  else if digit = 1 ∧ spelled = false then [.unit size]
  else [.digit digit, .unit size]

/-- Reading of the last digit of a group. -/
def onesReading (digit : Nat) : List Token := if digit = 0 then [] else [.digit digit]

/-- Reading of a group of four digits. -/
def groupReading (spelling : Spelling) (group : Nat) : List Token :=
  placeReading 1000 (group / 1000 % 10) spelling.thousand ++
    (placeReading 100 (group / 100 % 10) spelling.hundred ++
      (placeReading 10 (group / 10 % 10) spelling.ten ++ onesReading (group % 10)))

/-- Reading of a group that counts ten thousands or hundred millions. -/
def sectionReading (size : Nat) (spelling : Spelling) (spelled : Bool) (group : Nat) :
    List Token :=
  if group = 0 then []
  else if group = 1 ∧ spelled = false then [.unit size]
  else groupReading spelling group ++ [.unit size]

/-- How a number below a trillion is spelled out. -/
structure Style where
  eok : Spelling
  man : Spelling
  unit : Spelling
  /-- Whether a lone one is spelled out before the two section words. -/
  spelledEok : Bool
  spelledMan : Bool
  deriving DecidableEq

/-- Standard reading of a number below a trillion. -/
def sinoKorean (style : Style) (n : Nat) : List Token :=
  sectionReading 100000000 style.eok style.spelledEok (n / 100000000) ++
    (sectionReading 10000 style.man style.spelledMan (n / 10000 % 10000) ++
      groupReading style.unit (n % 10000))

theorem valueFrom_place {size : Nat} (small : size < 10000) (digit : Nat) (spelled : Bool)
    (total section_ : Nat) (rest : List Token) :
    valueFrom total section_ 0 (placeReading size digit spelled ++ rest) =
      valueFrom total (section_ + digit * size) 0 rest := by
  have unit : ¬ 10000 ≤ size := by omega
  rw [placeReading]
  split
  next zero => simp [zero]
  next nonzero =>
    split
    next omitted => simp [valueFrom, unit, coefficient, omitted.1]
    next => simp [valueFrom, unit, coefficient, nonzero]

theorem valueFrom_ones (digit total section_ : Nat) (rest : List Token) :
    valueFrom total section_ 0 (onesReading digit ++ rest) =
      valueFrom total section_ digit rest := by
  rw [onesReading]
  split
  next zero => rw [zero, List.nil_append]
  next => simp [valueFrom]

/-- A group is held as the tens and above in the section and the last digit behind. -/
theorem valueFrom_group (spelling : Spelling) {group : Nat} (bound : group < 10000) (total : Nat)
    (rest : List Token) :
    valueFrom total 0 0 (groupReading spelling group ++ rest) =
      valueFrom total (group / 10 * 10) (group % 10) rest := by
  have places : 0 + group / 1000 % 10 * 1000 + group / 100 % 10 * 100 + group / 10 % 10 * 10 =
      group / 10 * 10 := by omega
  rw [groupReading, List.append_assoc, List.append_assoc, List.append_assoc,
    valueFrom_place (by decide), valueFrom_place (by decide), valueFrom_place (by decide),
    valueFrom_ones, places]

theorem valueFrom_section {size : Nat} (large : 10000 ≤ size) (spelling : Spelling)
    (spelled : Bool) {group : Nat} (bound : group < 10000) (total : Nat) (rest : List Token) :
    valueFrom total 0 0 (sectionReading size spelling spelled group ++ rest) =
      valueFrom (total + group * size) 0 0 rest := by
  rw [sectionReading]
  split
  next zero => simp [zero]
  next nonzero =>
    split
    next omitted => simp [valueFrom, large, coefficient, omitted.1]
    next =>
      have whole : group / 10 * 10 + group % 10 = group := by omega
      rw [List.append_assoc, valueFrom_group spelling bound, List.singleton_append, valueFrom,
        if_pos large, whole, coefficient, if_neg nonzero]

theorem unitValue_sinoKorean (style : Style) {n : Nat} (bound : n < 10 ^ 12) :
    unitValue (sinoKorean style n) = some n := by
  have eok : n / 100000000 < 10000 := by omega
  have man : n / 10000 % 10000 < 10000 := Nat.mod_lt _ (by decide)
  have unit : n % 10000 < 10000 := Nat.mod_lt _ (by decide)
  rw [unitValue, sinoKorean, valueFrom_section (by decide) _ _ eok, valueFrom_section (by decide) _ _ man,
    ← List.append_nil (groupReading _ _), valueFrom_group _ unit, valueFrom, Option.some.injEq]
  omega

/-- The reading of a number is evaluated to the number, and a token list whose value
does not fit into 64 bits has no value. -/
theorem evalUnitReading_correct :
    (∀ (style : Style) (n : Nat), 1 ≤ n → n < 10 ^ 12 →
      evalUnitReading (sinoKorean style n) = some n) ∧
    ∀ tokens : List Token, evalUnitReading tokens = (unitValue tokens).filter fitsWord := by
  constructor
  · intro style n _ bound
    rw [evalUnitReading, evalUnitFrom_eq, ← unitValue, unitValue_sinoKorean style bound]
    simp only [Option.filter_some, fitsWord, ite_eq_left_iff, decide_eq_true_eq]
    omega
  · intro tokens
    exact evalUnitFrom_eq tokens 0 0 0

theorem evalUnitReading_correct_eok :
    1 ≤ 310010091 ∧ 310010091 < 10 ^ 12 ∧
      evalUnitReading [.digit 3, .unit 100000000, .unit 1000, .digit 1, .unit 10000, .digit 9,
        .unit 10, .digit 1] = some 310010091 :=
  ⟨by decide, by decide, evalUnitReading_correct.1
    ⟨⟨false, false, false⟩, ⟨false, false, false⟩, ⟨false, false, false⟩, true, true⟩ 310010091
    (by decide) (by decide)⟩

end AiCoreStack.Pii.Hangul
