import AiCoreStack.Foundation.Scalar
import AiCoreStack.Foundation.Search
import AiCoreStack.Pii.Normalize

/-!
# Entities, check digits, and context cues

Model of `detect/checksum.rs`, `detect/context.rs` and `detect/entity.rs`: what a
run of digits can be, which published check it passes, and which words near it
speak for or against it.  Scores are `f32` in the source and a `Scalar` here.
-/

namespace AiCoreStack.Pii

open AiCoreStack.Foundation

/-! ## Check digits -/

/-- Outcome of a check digit. -/
inductive ChecksumResult where
  | passed
  | failed
  | notApplicable (reason : String)
  deriving DecidableEq, Repr

namespace ChecksumResult

/-- `passed()` of the source. -/
def isPassed : ChecksumResult → Bool
  | passed => true
  | _ => false

/-- `failed()` of the source. -/
def isFailed : ChecksumResult → Bool
  | failed => true
  | _ => false

end ChecksumResult

namespace Checksum

/-- Value of a digit that is blotted out. -/
def masked : Nat := 10

def hasMasked (digits : List Nat) : Bool := digits.contains masked

def maskedReason : String := "가려진 자리가 있어 검증식을 적용할 수 없다"

structure GenderCode where
  century : Nat
  foreigner : Bool
  deriving DecidableEq, Repr

def genderCode : Nat → Option GenderCode
  | 1 | 2 => some ⟨1900, false⟩
  | 3 | 4 => some ⟨2000, false⟩
  | 5 | 6 => some ⟨1900, true⟩
  | 7 | 8 => some ⟨2000, true⟩
  | 9 | 0 => some ⟨1800, false⟩
  | _ => none

def daysInMonth (year month : Nat) : Nat :=
  match month with
  | 1 | 3 | 5 | 7 | 8 | 10 | 12 => 31
  | 4 | 6 | 9 | 11 => 30
  | 2 => if (year % 4 = 0 ∧ year % 100 ≠ 0) ∨ year % 400 = 0 then 29 else 28
  | _ => 0

def isValidDate (year month day : Nat) : Bool :=
  (1 ≤ month ∧ month ≤ 12) ∧ 1 ≤ day ∧ day ≤ daysInMonth year month

structure ResidentAnalysis where
  gender : GenderCode
  birth : Option (Nat × Nat × Nat)
  checksum : ChecksumResult
  deriving DecidableEq, Repr

def residentWeights : List Nat := [2, 3, 4, 5, 6, 7, 8, 9, 2, 3, 4, 5]

def businessWeights : List Nat := [1, 3, 7, 1, 3, 7, 1, 3, 5]

/-- Digits weighted place by place. -/
def weightedSum (digits weights : List Nat) : Nat := (List.zipWith (· * ·) digits weights).sum

/-- Gender code of a registration number.  A masked code is read as a native of
the 1900s. -/
def residentGender (digit : Nat) : Option GenderCode :=
  match genderCode digit with
  | some gender => some gender
  | none => if digit = masked then some ⟨1900, false⟩ else none

/-- Birth date of a registration number, if the leading digits are a date.  With
a masked gender code either century will do. -/
def residentBirth (digits : List Nat) (gender : GenderCode) : Option (Nat × Nat × Nat) :=
  if hasMasked (digits.take 6) then none
  else
    let yy := digits.getD 0 0 * 10 + digits.getD 1 0
    let mm := digits.getD 2 0 * 10 + digits.getD 3 0
    let dd := digits.getD 4 0 * 10 + digits.getD 5 0
    if digits.getD 6 0 = masked then
      (([1900, 2000].map (· + yy)).find? fun year => isValidDate year mm dd).map
        fun year => (year, mm, dd)
    else if isValidDate (gender.century + yy) mm dd then some (gender.century + yy, mm, dd)
    else none

/-- Read thirteen digits as a resident or foreigner registration number. -/
def analyzeResident (digits : List Nat) : Option ResidentAnalysis :=
  if digits.length ≠ 13 then none
  else
    (residentGender (digits.getD 6 0)).map fun gender =>
      let birth := residentBirth digits gender
      if hasMasked digits then ⟨gender, birth, .notApplicable maskedReason⟩
      else
        let base := (11 - weightedSum (digits.take 12) residentWeights % 11) % 10
        let expected := if gender.foreigner then (base + 2) % 10 else base
        ⟨gender, birth, if digits.getD 12 0 = expected then .passed else .failed⟩

/-- Check digit of a business registration number. -/
def businessRegistration (digits : List Nat) : ChecksumResult :=
  if digits.length ≠ 10 then .notApplicable "사업자등록번호는 10자리다"
  else if hasMasked digits then .notApplicable maskedReason
  else
    let sum := weightedSum (digits.take 9) businessWeights + digits.getD 8 0 * 5 / 10
    if (10 - sum % 10) % 10 = digits.getD 9 0 then .passed else .failed

/-- Contribution of the digit at a distance from the right end. -/
def luhnTerm (digit index : Nat) : Nat :=
  if index % 2 = 1 then if 9 < digit * 2 then digit * 2 - 9 else digit * 2 else digit

/-- Luhn check of a card number. -/
def luhn (digits : List Nat) : ChecksumResult :=
  if ¬ (13 ≤ digits.length ∧ digits.length ≤ 19) then
    .notApplicable "카드번호는 13자리에서 19자리다"
  else if hasMasked digits then .notApplicable maskedReason
  else
    let sum := (digits.reverse.zipIdx.map fun entry => luhnTerm entry.1 entry.2).sum
    if sum % 10 = 0 then .passed else .failed

def isMaskChar (c : Char) : Bool := c == '*' || c == 'X' || c == 'x'

/-- Digit values of a text; `none` when a character is neither digit nor mask.
The source goes byte by byte; a byte of a longer character is neither. -/
def toDigits (text : List Char) : Option (List Nat) :=
  text.mapM fun c =>
    if isMaskChar c then some masked
    else if isAsciiDigit c then some (c.toNat - '0'.toNat) else none

end Checksum

/-! ## Context cues -/

/-- A word and what it weighs next to a candidate. -/
structure Cue (F : Type) where
  word : String
  weight : F

/-- A cue that was found. -/
structure ContextHit (F : Type) where
  cue : String
  distance : Nat
  weight : F

namespace Context

variable {F : Type} [Scalar F]

/-- A table of words and weights. -/
def cues (table : List (String × ℚ)) : List (Cue F) :=
  table.map fun entry => ⟨entry.1, Scalar.lit entry.2⟩

def resident : List (Cue F) :=
  cues [("주민등록번호", 1), ("주민번호", 1), ("주민등록", 0.8), ("본인확인", 0.4),
    ("실명확인", 0.4)]

def foreigner : List (Cue F) :=
  cues [("외국인등록번호", 1), ("외국인등록", 0.8), ("외국인", 0.5), ("체류", 0.4)]

def business : List (Cue F) :=
  cues [("사업자등록번호", 1), ("사업자번호", 1), ("사업자", 0.6), ("세금계산서", 0.5),
    ("법인", 0.3), ("상호", 0.3)]

def card : List (Cue F) :=
  cues [("카드번호", 1), ("신용카드", 1), ("체크카드", 1), ("유효기간", 0.5), ("카드", 0.6),
    ("결제", 0.4), ("승인", 0.3)]

def account : List (Cue F) :=
  cues [("계좌번호", 1), ("예금주", 0.9), ("계좌", 0.8), ("입금", 0.7), ("이체", 0.7),
    ("송금", 0.7), ("은행", 0.6), ("환불", 0.4)]

def phone : List (Cue F) :=
  cues [("전화번호", 1), ("휴대전화", 1), ("휴대폰", 1), ("핸드폰", 1), ("연락처", 1),
    ("전화", 0.6), ("문자", 0.4), ("통화", 0.3)]

def driverLicense : List (Cue F) :=
  cues [("운전면허번호", 1), ("운전면허", 1), ("면허번호", 0.9), ("면허증", 0.8)]

def passport : List (Cue F) := cues [("여권번호", 1), ("여권", 0.8)]

def birthDate : List (Cue F) :=
  cues [("생년월일", 1), ("출생일", 1), ("생일", 0.8), ("출생", 0.6), ("년생", 0.6)]

/-- Words that say a number is not a person's. -/
def exclude : List (Cue F) :=
  cues [("증권번호", 1), ("계약번호", 1), ("접수번호", 1), ("주문번호", 1), ("송장번호", 1),
    ("운송장", 0.8), ("관리번호", 0.9), ("문서번호", 0.9), ("일련번호", 0.9),
    ("발급번호", 0.8), ("전표번호", 0.8), ("상품코드", 1), ("제품코드", 1), ("모델번호", 1),
    ("모델명", 0.8), ("품번", 0.8), ("바코드", 0.8), ("콜센터", 1), ("고객센터", 1),
    ("대표번호", 1), ("상담센터", 0.9), ("ARS", 0.8), ("우편번호", 1), ("별표", 0.6),
    ("고시", 0.5)]

/-- The characters in front of a byte offset, at most `chars` of them.  The walk
tests its limit after a step, so it takes one character even for zero. -/
def windowBefore (text : List Char) (byteAt chars : Nat) : Option (List Char) :=
  (splitAtByte text byteAt).map fun cut => cut.1.rtake (max chars 1)

/-- The characters from a byte offset on, at most `chars` of them. -/
def windowAfter (text : List Char) (byteAt chars : Nat) : Option (List Char) :=
  (splitAtByte text byteAt).map fun cut => cut.2.take chars

def decay (distance : Nat) : F :=
  Scalar.div (Scalar.lit 1)
    (Scalar.add (Scalar.lit 1) (Scalar.div (Scalar.ofNat distance) (Scalar.lit 8)))

/-- Characters between the last occurrence of a word and the end of a text. -/
def distanceBefore (word before : List Char) : Option Nat :=
  (splitOnce word.reverse before.reverse).map fun cut => cut.1.length

/-- Characters in front of the first occurrence of a word. -/
def distanceAfter (word after : List Char) : Option Nat :=
  (splitOnce word after).map fun cut => cut.1.length

/-- Distance of the nearer occurrence. -/
def nearest : Option Nat → Option Nat → Option Nat
  | some before, some after => some (min before after)
  | some before, none => some before
  | none, after => after

/-- Descending weight, then the word. -/
def hitOrder (left right : ContextHit F) : Prop :=
  (Scalar.cmpOrEq right.weight left.weight).then (compare left.cue right.cue) ≠ .gt

instance : DecidableRel (hitOrder (F := F)) := fun _ _ => inferInstanceAs (Decidable (_ ≠ _))

/-- Find the cues in the window around a span; `none` is the slicing panic. -/
def find (text : List Char) (span : Span) (window : Nat) (table : List (Cue F)) :
    Option (List (ContextHit F)) := do
  let before ← windowBefore text span.byte.start.toNat window
  let after ← windowAfter text span.byte.stop.toNat window
  let hits := table.filterMap fun cue =>
    (nearest (distanceBefore cue.word.toList before) (distanceAfter cue.word.toList after)).map
      fun distance => ⟨cue.word, distance, Scalar.mul cue.weight (decay distance)⟩
  some (hits.insertionSort hitOrder)

/-- Sum of the weights, capped. -/
def total (hits : List (ContextHit F)) : F :=
  Scalar.min (Scalar.sum (hits.map ContextHit.weight)) (Scalar.lit 1.5)

end Context

/-! ## Entities -/

/-- Kinds of personal information. -/
inductive EntityKind where
  | resident
  | foreignerRegistration
  | businessRegistration
  | creditCard
  | bankAccount
  | phone
  | email
  | driverLicense
  | birthDate
  | passport
  deriving DecidableEq, Repr

namespace EntityKind

def label : EntityKind → String
  | resident => "주민등록번호"
  | foreignerRegistration => "외국인등록번호"
  | businessRegistration => "사업자등록번호"
  | creditCard => "카드번호"
  | bankAccount => "계좌번호"
  | phone => "전화번호"
  | email => "이메일"
  | driverLicense => "운전면허번호"
  | birthDate => "생년월일"
  | passport => "여권번호"

def codeUpper : EntityKind → String
  | resident => "RESIDENT"
  | foreignerRegistration => "FOREIGNER_REGISTRATION"
  | businessRegistration => "BUSINESS_REGISTRATION"
  | creditCard => "CREDIT_CARD"
  | bankAccount => "BANK_ACCOUNT"
  | phone => "PHONE"
  | email => "EMAIL"
  | driverLicense => "DRIVER_LICENSE"
  | birthDate => "BIRTH_DATE"
  | passport => "PASSPORT"

end EntityKind

/-- Grade of a finding, weakest first. -/
inductive Certainty where
  | possible
  | probable
  | certain
  deriving DecidableEq, Repr

namespace Certainty

def rank : Certainty → Nat
  | possible => 0
  | probable => 1
  | certain => 2

/-- `Ord::min`. -/
def min (left right : Certainty) : Certainty := if left.rank ≤ right.rank then left else right

end Certainty

/-- What a span might be, before it is weighed. -/
structure Candidate (F : Type) where
  entity : EntityKind
  rule : String
  checksum : ChecksumResult
  ceiling : Certainty
  cues : List (Cue F)
  base : F
  needsContext : Bool

namespace Entity

def areaCodes : List String :=
  ["031", "032", "033", "041", "042", "043", "044", "051", "052", "053", "054", "055", "061",
    "062", "063", "064", "070"]

def mobilePrefixes : List String := ["010", "011", "016", "017", "018", "019"]

def representativePrefixes : List String := ["15", "16", "18"]

def licenseRegions : List String :=
  ["11", "12", "13", "14", "15", "16", "17", "18", "19", "20", "21", "22", "23", "24", "25",
    "26", "28"]

/-- Whether the text starts with one of the codes, which all have its length. -/
def startsWithCode (codes : List String) (text : List Char) : Bool :=
  codes.any fun code => code.toList.isPrefixOf text

/-- Digits as text; a masked place is a star. -/
def asText (digits : List Nat) : List Char :=
  digits.map fun d => if d = Checksum.masked then '*' else Char.ofNat ('0'.toNat + d)

def phoneRule (text : List Char) : Option String :=
  let len := text.length
  if len = 11 ∧ startsWithCode mobilePrefixes text then some "phone.mobile_11"
  else if len = 10 ∧ startsWithCode mobilePrefixes.tail text then some "phone.mobile_10"
  else if (9 ≤ len ∧ len ≤ 10) ∧ startsWithCode ["02"] text then some "phone.seoul"
  else if (10 ≤ len ∧ len ≤ 11) ∧ startsWithCode areaCodes text then some "phone.landline"
  else if len = 8 ∧ startsWithCode representativePrefixes text then
    some "phone.representative"
  else none

def birthDateRule (digits : List Nat) : Option String :=
  let d := fun i => digits.getD i 0
  if Checksum.hasMasked digits then none
  else if digits.length = 6 then
    let yy := d 0 * 10 + d 1
    let month := d 2 * 10 + d 3
    let day := d 4 * 10 + d 5
    if Checksum.isValidDate (1900 + yy) month day || Checksum.isValidDate (2000 + yy) month day
    then some "birth.yymmdd" else none
  else if digits.length = 8 then
    let year := d 0 * 1000 + d 1 * 100 + d 2 * 10 + d 3
    if (1800 ≤ year ∧ year ≤ 2200) ∧
        Checksum.isValidDate year (d 4 * 10 + d 5) (d 6 * 10 + d 7) then
      some "birth.yyyymmdd"
    else none
  else none

variable {F : Type} [Scalar F]

/-- Candidates of thirteen digits that read as a registration number.  When the
date is masked the candidate stays, with context required and a lower base. -/
def residentCandidates (digits : List Nat) : List (Candidate F) :=
  match Checksum.analyzeResident digits with
  | none => []
  | some analysis =>
      let masked := Checksum.hasMasked digits
      if analysis.birth.isSome then
        [{ entity := if analysis.gender.foreigner then .foreignerRegistration else .resident
           rule := if analysis.gender.foreigner then "resident.foreigner_13"
             else "resident.korean_13"
           checksum := analysis.checksum
           ceiling := if masked then .probable else .certain
           cues := if analysis.gender.foreigner then Context.foreigner else Context.resident
           base := Scalar.lit 0.6
           needsContext := false }]
      else if masked then
        [{ entity := if analysis.gender.foreigner then .foreignerRegistration else .resident
           rule := if analysis.gender.foreigner then "resident.foreigner_masked"
             else "resident.korean_masked"
           checksum := analysis.checksum
           ceiling := .probable
           cues := if analysis.gender.foreigner then Context.foreigner else Context.resident
           base := Scalar.lit 0.2
           needsContext := true }]
      else []

/-- Every reading of a run of digits, in the order the source tries them. -/
def candidates (digits : List Nat) : List (Candidate F) :=
  let len := digits.length
  residentCandidates digits ++
  (if len = 10 then
    [{ entity := .businessRegistration, rule := "business.10"
       checksum := Checksum.businessRegistration digits, ceiling := .certain
       cues := Context.business, base := Scalar.lit 0.4, needsContext := false }]
  else []) ++
  (if 13 ≤ len ∧ len ≤ 19 then
    [{ entity := .creditCard, rule := "card.luhn", checksum := Checksum.luhn digits
       ceiling := .certain, cues := Context.card, base := Scalar.lit 0.4
       needsContext := false }]
  else []) ++
  (match phoneRule (asText digits) with
  | some rule =>
      [{ entity := .phone, rule, checksum := .notApplicable "전화번호에는 검증식이 없다"
         ceiling := .probable, cues := Context.phone, base := Scalar.lit 0.6
         needsContext := false }]
  | none => []) ++
  (if len = 12 ∧ startsWithCode licenseRegions (asText digits) then
    [{ entity := .driverLicense, rule := "license.12"
       checksum := .notApplicable "검증 자릿수는 존재하나 계산식이 공개돼 있지 않다"
       ceiling := .probable, cues := Context.driverLicense, base := Scalar.lit 0.2
       needsContext := true }]
  else []) ++
  (if 10 ≤ len ∧ len ≤ 14 then
    [{ entity := .bankAccount, rule := "account.length"
       checksum := .notApplicable "은행별 체계가 달라 공통 검증식이 없다"
       ceiling := .probable, cues := Context.account, base := Scalar.lit 0.1
       needsContext := true }]
  else []) ++
  (match birthDateRule digits with
  | some rule =>
      [{ entity := .birthDate, rule, checksum := .notApplicable "생년월일에는 검증식이 없다"
         ceiling := .probable, cues := Context.birthDate, base := Scalar.lit 0.1
         needsContext := true }]
  | none => [])

def passportCandidate : Candidate F :=
  { entity := .passport, rule := "passport.shape"
    checksum := .notApplicable "여권번호에는 공개된 검증식이 없다"
    ceiling := .probable, cues := Context.passport, base := Scalar.lit 0.1
    needsContext := true }

end Entity

end AiCoreStack.Pii
