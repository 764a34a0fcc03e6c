import AiCoreStack.Pii.Entity

/-!
# The synthetic corpus

Model of `synth/mod.rs`: how the corpus draws a number, completes it by its check digit,
writes it in a notation, and puts it into a sentence.  A loop over `chars().enumerate()` is
a recursion that carries the index.  A drawing is `none` when it panics or when a `loop`
runs out of the rounds that it was given.
-/

namespace AiCoreStack.Pii.Synth

open AiCoreStack.Foundation (splitOnce)

/-- Try last digits until the digits pass. -/
def completeWith (passes : List Nat → Bool) (start : List Nat) :
    List Nat → List Nat × Bool
  | [] => (start, false)
  | candidate :: rest =>
      if passes (start ++ [candidate]) then (start ++ [candidate], true)
      else completeWith passes start rest

/-- Complete a prefix by a last digit that passes the check.  Returns what is left in the
buffer and whether a digit was found. -/
def complete (start : List Nat) (passes : List Nat → Bool) : List Nat × Bool :=
  completeWith passes start (List.range 10)

/-- Ways to write a value. -/
inductive Variant where
  | plain
  | hyphen
  | space
  | fullwidth
  | hangulDigits
  | lookalike
  | masked
  | sentenceEnding
  | literal
  deriving DecidableEq, Repr

/-- Positions of the separators, in characters from the start. -/
def groupPositions (entity : EntityKind) (length : Nat) : List Nat :=
  match entity with
  | .resident | .foreignerRegistration => [6]
  | .businessRegistration => [3, 5]
  | .creditCard => [4, 8, 12]
  | .phone => [3, 7]
  | .driverLicense => [2, 4, 10]
  | .birthDate => [4, 6]
  | .bankAccount => if 12 ≤ length then [3, 9] else [3, 8]
  | .email | .passport => []

def insertSeparatorFrom (positions : List Nat) (sep : Char) (index : Nat) :
    List Char → List Char
  | [] => []
  | c :: rest =>
      (if positions.contains index ∧ 0 < index then [sep] else []) ++
        c :: insertSeparatorFrom positions sep (index + 1) rest

def insertSeparator (value : List Char) (positions : List Nat) (sep : Char) : List Char :=
  insertSeparatorFrom positions sep 0 value

/-- The full-width form of a digit; another character stays. -/
def fullwidthOf (c : Char) : Char :=
  if isAsciiDigit c then (charFromU32 (0xFF10 + (c.toNat - '0'.toNat))).getD c else c

def toFullwidth (value : List Char) : List Char := value.map fullwidthOf

def syllables : List Char := ['공', '일', '이', '삼', '사', '오', '육', '칠', '팔', '구']

/-- The syllable that reads a digit; another character stays. -/
def syllableOf (c : Char) : Char :=
  if isAsciiDigit c then syllables.getD (c.toNat - '0'.toNat) c else c

/-- Write the first `count` digits in syllables. -/
def toHangulDigits (value : List Char) (count : Nat) : List Char :=
  (value.take count).map syllableOf ++ value.drop count

/-- The letter that looks like a digit. -/
def lookalikeOf (c : Char) : Option Char :=
  if c = '0' then some 'O' else if c = '1' then some 'l' else none

/-- The replacing walk: the index, the number of replacements so far, and whether the
previous character was replaced. -/
def toLookalikeFrom (limit total index changed : Nat) (previous : Bool) :
    List Char → List Char
  | [] => []
  | c :: rest =>
      let interior := 0 < index ∧ index + 1 < total
      match (lookalikeOf c).filter
          (fun _ => interior ∧ previous = false ∧ changed < limit) with
      | some letter =>
          letter :: toLookalikeFrom limit total (index + 1) (changed + 1) true rest
      | none => c :: toLookalikeFrom limit total (index + 1) changed false rest

/-- Replace some inner digits by letters that look like them, never two in a row. -/
def toLookalike (value : List Char) (limit : Nat) : List Char :=
  toLookalikeFrom limit value.length 0 0 false value

/-- Cover the last `count` characters, but never the first. -/
def toMasked (value : List Char) (count : Nat) : List Char :=
  let keep := max (value.length - count) 1
  value.take keep ++ List.replicate (value.length - keep) '*'

/-- How many characters are covered. -/
def maskedTail : EntityKind → Nat
  | .creditCard => 8
  | .resident | .foreignerRegistration => 6
  | _ => 4

/-- Write a value in a notation. -/
def render (entity : EntityKind) (value : List Char) (variant : Variant) : List Char :=
  let positions := groupPositions entity value.length
  match variant with
  | .plain | .literal => value
  | .hyphen => insertSeparator value positions '-'
  | .space => insertSeparator value positions ' '
  | .fullwidth => toFullwidth value
  | .lookalike => toLookalike value 2
  | .masked => toMasked value (maskedTail entity)
  | .sentenceEnding => toHangulDigits value value.length ++ ['이', '래', '요']
  | .hangulDigits =>
      let hangul := toHangulDigits value 6
      hangul.take 6 ++ '-' :: hangul.drop 6

/-! ## Drawing -/

/-- The linear congruential generator. -/
structure Rng where
  state : UInt64
  deriving DecidableEq, Repr

/-- A computation that draws numbers. -/
abbrev Draw := StateT Rng Option

namespace Rng

def new (seed : UInt64) : Rng := ⟨seed ^^^ 0x9E3779B97F4A7C15⟩

def next : Draw UInt64 := do
  let rng ← get
  let state := rng.state * 6364136223846793005 + 1442695040888963407
  set (Rng.mk state)
  return state >>> 33

/-- A number below `n`. -/
def below (n : UInt64) : Draw Nat := do
  let drawn ← next
  return (drawn % max n 1).toNat

def digit : Draw Nat := below 10

def pick {α : Type} (items : List α) : Draw α := do
  let index ← below (UInt64.ofNat items.length)
  StateT.lift items[index]?

end Rng

/-- A `loop` whose rounds may return, at most `fuel` of them. -/
def untilReturned {α : Type} (round : Draw (Option α)) : Nat → Draw α
  | 0 => failure
  | fuel + 1 => do
      match ← round with
      | some value => return value
      | none => untilReturned round fuel

/-- Digits, one draw each. -/
def drawDigits : Nat → Draw (List Nat)
  | 0 => return []
  | n + 1 => do
      let digit ← Rng.digit
      let rest ← drawDigits n
      return digit :: rest

def toText (digits : List Nat) : List Char := digits.map fun d => Char.ofNat ('0'.toNat + d)

/-! ## Values -/

/-- The six digits of a date. -/
def birthSix : Draw (List Nat) := do
  let yy ← Rng.below 100
  let month ← Rng.below 12
  let day ← Rng.below 28
  let mm := 1 + month
  let dd := 1 + day
  return [yy / 10, yy % 10, mm / 10, mm % 10, dd / 10, dd % 10]

/-- The check of a resident number: the check digit and the date. -/
def residentAccepts (digits : List Nat) : Bool :=
  (Checksum.analyzeResident digits).any fun analysis =>
    analysis.checksum.isPassed && analysis.birth.isSome

def businessAccepts (digits : List Nat) : Bool := (Checksum.businessRegistration digits).isPassed

def cardAccepts (digits : List Nat) : Bool := (Checksum.luhn digits).isPassed

/-- The number that a prefix is completed to, if it is. -/
def completed (start : List Nat) (passes : List Nat → Bool) : Option (List Char) :=
  let (digits, found) := complete start passes
  if found then some (toText digits) else none

def residentRound (foreigner : Bool) : Draw (Option (List Char)) := do
  let birth ← birthSix
  let code ← Rng.below 4
  let serial ← drawDigits 5
  return completed (birth ++ [(if foreigner then 5 else 1) + code] ++ serial) residentAccepts

/-- A resident or foreigner number that passes its check. -/
def resident (fuel : Nat) (foreigner : Bool) : Draw (List Char) :=
  untilReturned (residentRound foreigner) fuel

def businessRound : Draw (Option (List Char)) := do
  let digits ← drawDigits 9
  return completed digits businessAccepts

/-- A business number that passes its check. -/
def business (fuel : Nat) : Draw (List Char) := untilReturned businessRound fuel

def cardRound : Draw (Option (List Char)) := do
  let digits ← drawDigits 14
  return completed (4 :: digits) cardAccepts

/-- A card number that passes the Luhn check. -/
def card (fuel : Nat) : Draw (List Char) := untilReturned cardRound fuel

def phone : Draw (List Char) := do
  let digits ← drawDigits 8
  return toText ([0, 1, 0] ++ digits)

def account : Draw (List Char) := do
  let longer ← Rng.below 4
  let digits ← drawDigits (11 + longer)
  return toText digits

def regions : List String := ["11", "12", "13", "21", "26", "28"]

def license : Draw (List Char) := do
  let region ← Rng.pick regions
  let digits ← drawDigits 10
  return region.toList ++ toText digits

/-- A number with at least `width` digits. -/
def padded (width n : Nat) : List Char := (Nat.toDigits 10 n).leftpad width '0'

def birthEight : Draw (List Char) := do
  let year ← Rng.below 70
  let month ← Rng.below 12
  let day ← Rng.below 28
  return padded 4 (1940 + year) ++ padded 2 (1 + month) ++ padded 2 (1 + day)

def heads : List String := ["M", "S", "R"]

def passport : Draw (List Char) := do
  let head ← Rng.pick heads
  let digits ← drawDigits 8
  return head.toList ++ toText digits

def names : List String := ["minsu.kim", "jiwon", "hyeon_lee", "sara.park", "dohoon", "yuna99"]

def hosts : List String :=
  ["example.com", "mail.example.net", "corp.example.co.kr", "test.example.org"]

def email : Draw (List Char) := do
  let name ← Rng.pick names
  let host ← Rng.pick hosts
  return name.toList ++ '@' :: host.toList

def valueFor (fuel : Nat) : EntityKind → Draw (List Char)
  | .resident => resident fuel false
  | .foreignerRegistration => resident fuel true
  | .businessRegistration => business fuel
  | .creditCard => card fuel
  | .phone => phone
  | .email => email
  | .bankAccount => account
  | .driverLicense => license
  | .birthDate => birthEight
  | .passport => passport

/-! ## Sentences -/

/-- One sample of the corpus.  The span is the place of the value in bytes. -/
structure Sample where
  text : List Char
  expected : Option EntityKind
  span : Range32
  variant : Variant
  withContext : Bool
  trap : Option String
  deriving DecidableEq, Repr

/-- A sentence with a cue for the kind, and a place for the value. -/
def withCue : EntityKind → String
  | .resident => "주민등록번호 \x7b\x7d 입니다"
  | .foreignerRegistration => "외국인등록번호 \x7b\x7d 확인했습니다"
  | .businessRegistration => "사업자등록번호 \x7b\x7d 로 세금계산서 발행 부탁드립니다"
  | .creditCard => "카드번호 \x7b\x7d 로 결제했습니다"
  | .bankAccount => "입금 계좌번호 \x7b\x7d 로 송금 바랍니다"
  | .phone => "연락처는 \x7b\x7d 입니다"
  | .email => "메일은 \x7b\x7d 로 보내주세요"
  | .driverLicense => "운전면허번호 \x7b\x7d 확인 부탁드립니다"
  | .birthDate => "생년월일 \x7b\x7d 로 등록해 주세요"
  | .passport => "여권번호 \x7b\x7d 로 예약했습니다"

/-- A sentence without a cue. -/
def withoutCue : String := "첨부 자료 확인 부탁드립니다. \x7b\x7d 참고하시면 됩니다."

/-- Put a value into a sentence; `none` is the panic of a sentence without a place. -/
def assemble (template : String) (rendered : List Char) : Option (List Char × Range32) :=
  (splitOnce ['{', '}'] template.toList).map fun cut =>
    let start := UInt32.ofNat (String.utf8Len cut.1)
    (cut.1 ++ rendered ++ cut.2, ⟨start, start + UInt32.ofNat (String.utf8Len rendered)⟩)

def worksWithoutContext : EntityKind → Bool
  | .bankAccount | .driverLicense | .birthDate | .passport => false
  | _ => true

/-- The notations a kind is written in. -/
def variantsFor : EntityKind → List Variant
  | .resident | .foreignerRegistration =>
      [.plain, .hyphen, .space, .fullwidth, .hangulDigits, .lookalike, .masked, .sentenceEnding]
  | .creditCard => [.plain, .hyphen, .space, .fullwidth, .lookalike, .masked]
  | .businessRegistration => [.plain, .hyphen, .fullwidth, .lookalike, .masked]
  | .phone => [.plain, .hyphen, .fullwidth, .lookalike, .masked, .sentenceEnding]
  | .bankAccount | .driverLicense | .birthDate => [.plain, .hyphen]
  | .email | .passport => [.literal]

def variantWorksWithoutContext : Variant → Bool
  | .masked | .sentenceEnding => false
  | _ => true

def entities : List EntityKind :=
  [.resident, .foreignerRegistration, .businessRegistration, .creditCard, .phone, .email,
    .bankAccount, .driverLicense, .birthDate, .passport]

/-- A sentence that holds a value of the kind. -/
def positive (fuel : Nat) (entity : EntityKind) (variant : Variant) (withContext : Bool) :
    Draw Sample := do
  let value ← valueFor fuel entity
  let rendered := render entity value variant
  let template := if withContext then withCue entity else withoutCue
  let (text, span) ← StateT.lift (assemble template rendered)
  return ⟨text, some entity, span, variant, withContext, none⟩

/-- A sentence with digits in it. -/
def around (front : String) (n : Nat) (back : String) : Draw (List Char) := do
  let digits ← drawDigits n
  return front.toList ++ toText digits ++ back.toList

/-- The text of a sentence that only looks like it, and its trap. -/
def trapFor : Nat → Draw (List Char × String)
  | 0 => do
      let head ← Rng.below 8
      let digits ← drawDigits 10
      return ("주문번호 ".toList ++ Nat.toDigits 10 (2 + head) ++ toText digits ++
        " 로 접수되었습니다".toList, "11자리 주문번호")
  | 1 => return (← around "송장번호 " 12 " 입니다", "12자리 송장번호")
  | 2 => return (← around "운송장번호 " 13 " 조회 결과입니다", "13자리 운송장번호 (Luhn 우연 통과 가능)")
  | 3 => do
      let code ← drawDigits 4
      let amount ← drawDigits 4
      return ("제품 코드 ".toList ++ toText code ++ " 수량 ".toList ++ toText amount ++
        " 개".toList, "짧은 숫자 두 개")
  | 4 => return (← around "총 금액은 " 7 " 원입니다", "금액")
  | 5 => return ("이사 갑니다. 사구 팔구 방식으로 진행하고 구이 정식을 주문했습니다.".toList,
      "수사 음절로 이루어진 일상어")
  | 6 => return (← around "증권번호 " 12 " 로 조회하세요", "12자리 증권번호 (부정 문맥)")
  | 7 => do
      let exchange ← drawDigits 2
      let line ← drawDigits 4
      return ("고객센터 15".toList ++ toText exchange ++ '-' :: toText line ++
        " 로 문의 바랍니다".toList, "대표번호 (개인의 전화번호가 아니다)")
  | 8 => return (← around "계약번호 " 10 " 확인 부탁드립니다",
      "10자리 계약번호 (사업자등록번호와 같은 폭)")
  | _ => return (← around "회원번호 " 9 " 등급 조회 결과", "9자리 회원번호")

/-- A sentence without personal information. -/
def negative : Draw Sample := do
  let choice ← Rng.below 10
  let (text, trap) ← trapFor choice
  return ⟨text, none, ⟨0, UInt32.ofNat (String.utf8Len text)⟩, .plain, false, some trap⟩

/-! ## The corpus -/

/-- The samples of one kind. -/
def positives (fuel : Nat) (entity : EntityKind) : Draw (List Sample) := do
  let cued ← (variantsFor entity).mapM fun variant => positive fuel entity variant true
  let bare ←
    if worksWithoutContext entity then
      ((variantsFor entity).filter variantWorksWithoutContext).mapM fun variant =>
        positive fuel entity variant false
    else pure []
  return cued ++ bare

/-- The samples of one round. -/
def corpusRound (fuel : Nat) : Draw (List Sample) := do
  let found ← entities.mapM (positives fuel)
  let traps ← (List.range 12).mapM fun _ => negative
  return found.flatten ++ traps

def corpus (fuel : Nat) (seed : UInt64) (rounds : Nat) : Option (List Sample) :=
  (((List.range rounds).mapM fun _ => corpusRound fuel).run' (Rng.new seed)).map List.flatten

end AiCoreStack.Pii.Synth
