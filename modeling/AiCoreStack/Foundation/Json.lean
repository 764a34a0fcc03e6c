import Mathlib

/-!
# JSON texts

The grammar of RFC 8259 as derivations of texts, each with the value it writes, and a parser.  The
parser finds the value of every text that has one, so that no text writes two values.  A number
keeps its spelling, and an object the order of its members.
-/

namespace AiCoreStack.Foundation

inductive Json where
  | null
  | bool (value : Bool)
  | number (spelling : List Char)
  | string (text : List Char)
  | array (items : List Json)
  | object (members : List (List Char × Json))

namespace Json

/-! ## Blanks -/

def isBlank (c : Char) : Bool := c = ' ' || c = '\t' || c = '\n' || c = '\r'

def Blanks (text : List Char) : Prop := ∀ c ∈ text, isBlank c = true

theorem blanks_nil : Blanks [] := by simp [Blanks]

def skip (text : List Char) : List Char := text.dropWhile isBlank

theorem skip_append {blanks text : List Char} (blank : Blanks blanks) :
    skip (blanks ++ text) = skip text := by
  induction blanks with
  | nil => rfl
  | cons c rest ih =>
      obtain ⟨first, later⟩ := List.forall_mem_cons.mp blank
      rw [List.cons_append, skip, List.dropWhile_cons_of_pos first]
      exact ih later

@[simp] theorem skip_cons {c : Char} (ink : isBlank c = false) (text : List Char) :
    skip (c :: text) = c :: text := by
  rw [skip, List.dropWhile_cons_of_neg (by simp [ink])]

/-! ## Strings -/

/-- What a string literal is made of: characters, and units of UTF-16 in hexadecimal. -/
inductive Piece where
  | char (c : Char)
  | unit (code : Nat)

def hexValue (c : Char) : Option Nat :=
  if c.isDigit then some (c.toNat - 48)
  else if 'a' ≤ c ∧ c ≤ 'f' then some (c.toNat - 87)
  else if 'A' ≤ c ∧ c ≤ 'F' then some (c.toNat - 55)
  else none

/-- Four hexadecimal digits. -/
def hexCode : List Char → Option Nat
  | [a, b, c, d] =>
      (hexValue a).bind fun a => (hexValue b).bind fun b => (hexValue c).bind fun c =>
        (hexValue d).map fun d => 4096 * a + 256 * b + 16 * c + d
  | _ => none

/-- The character that a letter after a backslash stands for. -/
def shortEscape (letter : Char) : Option Char :=
  ([('"', '"'), ('\\', '\\'), ('/', '/'), ('b', '\x08'), ('f', '\x0c'), ('n', '\n'), ('r', '\r'),
    ('t', '\t')].find? fun entry => entry.1 == letter).map Prod.snd

/-- How a piece is spelled. -/
inductive Piece.Spelled : Piece → List Char → Prop
  | plain {c : Char} (printed : 0x20 ≤ c.toNat) (noQuote : c ≠ '"') (noEscape : c ≠ '\\') :
      Spelled (.char c) [c]
  | escape {letter c : Char} (known : shortEscape letter = some c) :
      Spelled (.char c) ['\\', letter]
  | unit {digits : List Char} {code : Nat} (known : hexCode digits = some code) :
      Spelled (.unit code) ('\\' :: 'u' :: digits)

inductive Spelled : List Piece → List Char → Prop
  | nil : Spelled [] []
  | cons {piece : Piece} {pieces : List Piece} {text rest : List Char} (first : piece.Spelled text)
      (later : Spelled pieces rest) : Spelled (piece :: pieces) (text ++ rest)

/-- The characters of a literal.  A surrogate counts only in a pair. -/
def decode : List Piece → Option (List Char)
  | [] => some []
  | .char c :: rest => (decode rest).map (c :: ·)
  | .unit high :: .unit low :: rest =>
      if 0xD800 ≤ high ∧ high < 0xDC00 then
        if 0xDC00 ≤ low ∧ low < 0xE000 then
          (decode rest).map
            (Char.ofNat (0x10000 + (high - 0xD800) * 0x400 + (low - 0xDC00)) :: ·)
        else none
      else if 0xDC00 ≤ high ∧ high < 0xE000 then none
      else (decode (.unit low :: rest)).map (Char.ofNat high :: ·)
  | .unit code :: rest =>
      if 0xD800 ≤ code ∧ code < 0xE000 then none else (decode rest).map (Char.ofNat code :: ·)

/-- A string literal and the text it stands for. -/
inductive Literal : List Char → List Char → Prop
  | quoted {pieces : List Piece} {body text : List Char} (spelled : Spelled pieces body)
      (decoded : decode pieces = some text) : Literal text ('"' :: (body ++ ['"']))

/-! ## Numbers -/

def IsDigits (text : List Char) : Prop := text ≠ [] ∧ ∀ c ∈ text, c.isDigit = true

/-- Zero, or digits of which the first is not zero. -/
def IsInt (text : List Char) : Prop := text = ['0'] ∨ IsDigits text ∧ text.head? ≠ some '0'

def IsFrac (text : List Char) : Prop := text = [] ∨ ∃ digits, IsDigits digits ∧ text = '.' :: digits

def IsExp (text : List Char) : Prop :=
  text = [] ∨ ∃ e sign digits, (e = 'e' ∨ e = 'E') ∧ (sign = [] ∨ sign = ['+'] ∨ sign = ['-']) ∧
    IsDigits digits ∧ text = e :: (sign ++ digits)

inductive IsNumber : List Char → Prop
  | parts {sign int frac exp : List Char} (isSign : sign = [] ∨ sign = ['-']) (isInt : IsInt int)
      (isFrac : IsFrac frac) (isExp : IsExp exp) : IsNumber (sign ++ int ++ frac ++ exp)

/-! ## Values -/

mutual

/-- A value and a text that writes it. -/
inductive Value : Json → List Char → Prop
  | null : Value .null ['n', 'u', 'l', 'l']
  | true : Value (.bool true) ['t', 'r', 'u', 'e']
  | false : Value (.bool false) ['f', 'a', 'l', 's', 'e']
  | number {text : List Char} (isNumber : IsNumber text) : Value (.number text) text
  | string {text literal : List Char} (quoted : Literal text literal) : Value (.string text) literal
  | emptyArray {blanks : List Char} (blank : Blanks blanks) :
      Value (.array []) ('[' :: (blanks ++ [']']))
  | array {items : List Json} {text : List Char} (elements : Elements items text) :
      Value (.array items) ('[' :: (text ++ [']']))
  | emptyObject {blanks : List Char} (blank : Blanks blanks) :
      Value (.object []) ('{' :: (blanks ++ ['}']))
  | object {members : List (List Char × Json)} {text : List Char} (fields : Members members text) :
      Value (.object members) ('{' :: (text ++ ['}']))

/-- Values between commas. -/
inductive Elements : List Json → List Char → Prop
  | last {item : Json} {before text after : List Char} (blankBefore : Blanks before)
      (value : Value item text) (blankAfter : Blanks after) :
      Elements [item] (before ++ (text ++ after))
  | cons {item : Json} {items : List Json} {before text after rest : List Char}
      (blankBefore : Blanks before) (value : Value item text) (blankAfter : Blanks after)
      (later : Elements items rest) :
      Elements (item :: items) (before ++ (text ++ (after ++ ',' :: rest)))

/-- Named values between commas. -/
inductive Members : List (List Char × Json) → List Char → Prop
  | last {name : List Char} {item : Json} {before literal between inner text after : List Char}
      (blankBefore : Blanks before) (quoted : Literal name literal)
      (blankBetween : Blanks between) (blankInner : Blanks inner) (value : Value item text)
      (blankAfter : Blanks after) :
      Members [(name, item)]
        (before ++ (literal ++ (between ++ ':' :: (inner ++ (text ++ after)))))
  | cons {name : List Char} {item : Json} {members : List (List Char × Json)}
      {before literal between inner text after rest : List Char}
      (blankBefore : Blanks before) (quoted : Literal name literal)
      (blankBetween : Blanks between) (blankInner : Blanks inner) (value : Value item text)
      (blankAfter : Blanks after) (later : Members members rest) :
      Members ((name, item) :: members)
        (before ++ (literal ++ (between ++ ':' :: (inner ++ (text ++ (after ++ ',' :: rest))))))

end

/-- A JSON text: a value between blanks. -/
inductive Document : Json → List Char → Prop
  | padded {value : Json} {before text after : List Char} (blankBefore : Blanks before)
      (written : Value value text) (blankAfter : Blanks after) :
      Document value (before ++ (text ++ after))

/-! ## Reading strings -/

def readEscape : List Char → Option (Piece × List Char)
  | [] => none
  | letter :: rest =>
      if letter = 'u' then (hexCode (rest.take 4)).map fun code => (.unit code, rest.drop 4)
      else (shortEscape letter).map fun c => (.char c, rest)

def readPiece : List Char → Option (Piece × List Char)
  | [] => none
  | c :: rest =>
      if c = '\\' then readEscape rest
      else if c = '"' ∨ c.toNat < 0x20 then none
      else some (.char c, rest)

/-- The pieces up to the closing quote. -/
def readPieces : Nat → List Char → Option (List Piece × List Char)
  | 0, _ => none
  | fuel + 1, text =>
      if text.head? = some '"' then some ([], text.tail)
      else
        (readPiece text).bind fun (piece, rest) =>
          (readPieces fuel rest).map fun (pieces, rest) => (piece :: pieces, rest)

/-- The rest of a string literal after its opening quote. -/
def readString (text : List Char) : Option (List Char × List Char) :=
  (readPieces (text.length + 1) text).bind fun (pieces, rest) =>
    (decode pieces).map fun text => (text, rest)

theorem length_of_hexCode {digits : List Char} {code : Nat} (known : hexCode digits = some code) :
    digits.length = 4 := by
  unfold hexCode at known
  split at known
  · rfl
  · cases known

theorem shortEscape_u : shortEscape 'u' = none := by decide

theorem readPiece_append {piece : Piece} {text : List Char} (spelled : piece.Spelled text)
    (rest : List Char) : readPiece (text ++ rest) = some (piece, rest) := by
  cases spelled with
  | plain printed noQuote noEscape =>
      rw [List.singleton_append, readPiece, if_neg noEscape, if_neg]
      simp only [noQuote, false_or, not_lt]
      exact printed
  | @escape letter c known =>
      have other : letter ≠ 'u' := by
        rintro rfl
        rw [shortEscape_u] at known
        cases known
      rw [List.cons_append, readPiece, if_pos rfl, List.singleton_append, readEscape,
        if_neg other, known]
      rfl
  | unit known =>
      have four := length_of_hexCode known
      rw [List.cons_append, readPiece, if_pos rfl, List.cons_append, readEscape, if_pos rfl,
        List.take_left' four, List.drop_left' four, known]
      rfl

theorem Piece.Spelled.head {piece : Piece} {text : List Char} (spelled : piece.Spelled text) :
    ∃ c rest, text = c :: rest ∧ c ≠ '"' := by
  cases spelled with
  | plain _ noQuote _ => exact ⟨_, _, rfl, noQuote⟩
  | escape _ => exact ⟨_, _, rfl, by decide⟩
  | unit _ => exact ⟨_, _, rfl, by decide⟩

theorem readPieces_append {pieces : List Piece} {body : List Char} (spelled : Spelled pieces body)
    (rest : List Char) {fuel : Nat} (enough : body.length < fuel) :
    readPieces fuel (body ++ '"' :: rest) = some (pieces, rest) := by
  induction spelled generalizing fuel with
  | nil =>
      cases fuel with
      | zero => cases enough
      | succ fuel => rfl
  | @cons piece pieces text body first later ih =>
      cases fuel with
      | zero => cases enough
      | succ fuel =>
          obtain ⟨c, others, shape, noQuote⟩ := first.head
          have shorter : body.length < fuel := by
            rw [shape, List.length_append, List.length_cons] at enough
            omega
          have open' : (text ++ (body ++ '"' :: rest)).head? ≠ some '"' := by
            rw [shape, List.cons_append, List.head?_cons]
            exact fun same => noQuote (Option.some.inj same)
          rw [List.append_assoc, readPieces, if_neg open', readPiece_append first]
          dsimp only [Option.bind]
          rw [ih shorter]
          rfl

theorem Literal.read {text literal : List Char} (quoted : Literal text literal) :
    ∃ body, literal = '"' :: body ∧ ∀ rest, readString (body ++ rest) = some (text, rest) := by
  cases quoted with
  | quoted spelled decoded =>
      refine ⟨_, rfl, ?_⟩
      intro rest
      rw [readString, List.append_assoc, List.singleton_append,
        readPieces_append spelled rest (by rw [List.length_append]; omega)]
      dsimp only [Option.bind]
      rw [decoded]
      rfl

/-! ## Reading numbers -/

def skipSign (signs text : List Char) : List Char :=
  match text with
  | c :: rest => if c ∈ signs then rest else c :: rest
  | [] => []

def readsExp : List Char → Bool
  | [] => true
  | e :: rest =>
      (e = 'e' || e = 'E') && !(skipSign ['+', '-'] rest).isEmpty &&
        (skipSign ['+', '-'] rest).all Char.isDigit

def readsFrac : List Char → Bool
  | [] => true
  | c :: rest =>
      if c = '.' then
        !(rest.takeWhile Char.isDigit).isEmpty && readsExp (rest.dropWhile Char.isDigit)
      else readsExp (c :: rest)

def readsInt (text : List Char) : Bool :=
  (text.takeWhile Char.isDigit = ['0'] ||
    !(text.takeWhile Char.isDigit).isEmpty && (text.takeWhile Char.isDigit).head? ≠ some '0') &&
      readsFrac (text.dropWhile Char.isDigit)

def readsNumber (text : List Char) : Bool := readsInt (skipSign ['-'] text)

/-- The characters of numbers. -/
def isNumberChar (c : Char) : Bool := c.isDigit || c ∈ ['-', '+', '.', 'e', 'E']

section Numbers

variable {digits rest : List Char}

/-- A text that does not go on with a digit. -/
def Stops (rest : List Char) : Prop := ∀ c ∈ rest.head?, c.isDigit = false

theorem takeWhile_digits (all : ∀ c ∈ digits, c.isDigit = true) (stops : Stops rest) :
    (digits ++ rest).takeWhile Char.isDigit = digits ∧
      (digits ++ rest).dropWhile Char.isDigit = rest := by
  rw [List.takeWhile_append_of_pos all, List.dropWhile_append_of_pos all]
  cases rest with
  | nil => simp
  | cons c rest =>
      have stop : ¬ c.isDigit = true := by simp [stops c rfl]
      rw [List.takeWhile_cons_of_neg stop, List.dropWhile_cons_of_neg stop]
      simp

theorem IsExp.reads {exp : List Char} (isExp : IsExp exp) : readsExp exp = true ∧ Stops exp := by
  obtain rfl | ⟨e, sign, digits, isE, isSign, ⟨some, all⟩, rfl⟩ := isExp
  · exact ⟨rfl, by simp [Stops]⟩
  · obtain ⟨digit, digits, rfl⟩ := List.exists_cons_of_ne_nil some
    have first : digit ∉ ['+', '-'] := by
      have digital := all digit List.mem_cons_self
      rintro sign
      rcases List.mem_pair.mp sign with rfl | rfl <;> simp at digital
    have skipped : skipSign ['+', '-'] (sign ++ digit :: digits) = digit :: digits := by
      rcases isSign with rfl | rfl | rfl
      · rw [List.nil_append, skipSign, if_neg first]
      · rfl
      · rfl
    constructor
    · rw [readsExp, skipped]
      have letter : (decide (e = 'e') || decide (e = 'E')) = true := by simpa using isE
      rw [letter, List.all_eq_true.mpr all]
      rfl
    · rcases isE with rfl | rfl <;> simp [Stops]

theorem IsFrac.reads {frac exp : List Char} (isFrac : IsFrac frac) (isExp : IsExp exp) :
    readsFrac (frac ++ exp) = true ∧ Stops (frac ++ exp) := by
  obtain ⟨read, stops⟩ := isExp.reads
  obtain rfl | ⟨digits, ⟨some, all⟩, rfl⟩ := isFrac
  · rw [List.nil_append]
    refine ⟨?_, stops⟩
    cases exp with
    | nil => rfl
    | cons e exp =>
        have noPoint : e ≠ '.' := by
          rintro rfl
          simp [readsExp] at read
        rw [readsFrac, if_neg noPoint]
        exact read
  · obtain ⟨taken, dropped⟩ := takeWhile_digits all stops
    rw [List.cons_append]
    refine ⟨?_, by simp [Stops]⟩
    rw [readsFrac, if_pos rfl, taken, dropped, read, Bool.and_true, List.isEmpty_eq_false_iff.mpr some]
    rfl

theorem IsInt.isDigits {int : List Char} (isInt : IsInt int) : IsDigits int := by
  obtain rfl | ⟨digits, -⟩ := isInt
  · simp [IsDigits]
  · exact digits

theorem IsInt.reads {int frac exp : List Char} (isInt : IsInt int) (isFrac : IsFrac frac)
    (isExp : IsExp exp) : readsInt (int ++ (frac ++ exp)) = true := by
  obtain ⟨read, stops⟩ := isFrac.reads isExp
  obtain ⟨taken, dropped⟩ := takeWhile_digits isInt.isDigits.2 stops
  rw [readsInt, taken, dropped, read, Bool.and_true]
  obtain rfl | ⟨⟨some, -⟩, noZero⟩ := isInt
  · rfl
  · simp [some, noZero]

theorem IsNumber.reads {text : List Char} (number : IsNumber text) : readsNumber text = true := by
  cases number with
  | @parts sign int frac exp isSign isInt isFrac isExp =>
      obtain ⟨digit, rest, rfl⟩ := List.exists_cons_of_ne_nil isInt.isDigits.1
      have first : digit ∉ ['-'] := by
        have digital := isInt.isDigits.2 digit List.mem_cons_self
        intro sign
        rw [List.mem_singleton.mp sign] at digital
        simp at digital
      have skipped : skipSign ['-'] (sign ++ digit :: rest ++ frac ++ exp) =
          digit :: rest ++ (frac ++ exp) := by
        rw [List.append_assoc, List.append_assoc]
        rcases isSign with rfl | rfl
        · rw [List.nil_append, List.cons_append, skipSign, if_neg first]
        · rfl
      rw [readsNumber, skipped]
      exact isInt.reads isFrac isExp

end Numbers

theorem isNumberChar_of_isDigit {c : Char} (digit : c.isDigit = true) : isNumberChar c = true := by
  rw [isNumberChar, digit, Bool.true_or]

/-- A number consists of its characters and begins with a digit or a sign. -/
theorem IsNumber.chars {text : List Char} (number : IsNumber text) :
    (∀ c ∈ text, isNumberChar c = true) ∧ text ≠ [] := by
  cases number with
  | @parts sign int frac exp isSign isInt isFrac isExp =>
      have signChars : ∀ c ∈ sign, isNumberChar c = true := by
        rcases isSign with rfl | rfl <;> simp [isNumberChar]
      have intChars : ∀ c ∈ int, isNumberChar c = true := fun c member =>
        isNumberChar_of_isDigit (isInt.isDigits.2 c member)
      have fracChars : ∀ c ∈ frac, isNumberChar c = true := by
        obtain rfl | ⟨digits, ⟨-, all⟩, rfl⟩ := isFrac
        · simp
        · exact List.forall_mem_cons.mpr ⟨by decide, fun c member =>
            isNumberChar_of_isDigit (all c member)⟩
      have expChars : ∀ c ∈ exp, isNumberChar c = true := by
        obtain rfl | ⟨e, sign, digits, isE, isSign, ⟨-, all⟩, rfl⟩ := isExp
        · simp
        · refine List.forall_mem_cons.mpr ⟨?_, List.forall_mem_append.mpr ⟨?_, ?_⟩⟩
          · rcases isE with rfl | rfl <;> decide
          · rcases isSign with rfl | rfl | rfl <;> simp [isNumberChar]
          · exact fun c member => isNumberChar_of_isDigit (all c member)
      constructor
      · simp only [List.forall_mem_append]
        exact ⟨⟨⟨signChars, intChars⟩, fracChars⟩, expChars⟩
      · simp [isInt.isDigits.1]

/-! ## Reading values -/

mutual

def readValue : Nat → List Char → Option (Json × List Char)
  | 0, _ => none
  | fuel + 1, text =>
      if text.head? = some '"' then
        (readString text.tail).map fun (content, rest) => (.string content, rest)
      else if text.head? = some '[' then
        if (skip text.tail).head? = some ']' then some (.array [], (skip text.tail).tail)
        else (readElements fuel text.tail).map fun (items, rest) => (.array items, rest)
      else if text.head? = some '{' then
        if (skip text.tail).head? = some '}' then some (.object [], (skip text.tail).tail)
        else (readMembers fuel text.tail).map fun (members, rest) => (.object members, rest)
      else if text.take 4 = ['n', 'u', 'l', 'l'] then some (.null, text.drop 4)
      else if text.take 4 = ['t', 'r', 'u', 'e'] then some (.bool true, text.drop 4)
      else if text.take 5 = ['f', 'a', 'l', 's', 'e'] then some (.bool false, text.drop 5)
      else if readsNumber (text.takeWhile isNumberChar) then
        some (.number (text.takeWhile isNumberChar), text.dropWhile isNumberChar)
      else none

/-- The items up to the closing bracket. -/
def readElements : Nat → List Char → Option (List Json × List Char)
  | 0, _ => none
  | fuel + 1, text =>
      (readValue fuel (skip text)).bind fun (item, rest) =>
        if (skip rest).head? = some ',' then
          (readElements fuel (skip rest).tail).map fun (items, rest) => (item :: items, rest)
        else if (skip rest).head? = some ']' then some ([item], (skip rest).tail)
        else none

/-- The members up to the closing brace. -/
def readMembers : Nat → List Char → Option (List (List Char × Json) × List Char)
  | 0, _ => none
  | fuel + 1, text =>
      if (skip text).head? = some '"' then
        (readString (skip text).tail).bind fun (name, rest) =>
          if (skip rest).head? = some ':' then
            (readValue fuel (skip (skip rest).tail)).bind fun (item, rest) =>
              if (skip rest).head? = some ',' then
                (readMembers fuel (skip rest).tail).map fun (members, rest) =>
                  ((name, item) :: members, rest)
              else if (skip rest).head? = some '}' then some ([(name, item)], (skip rest).tail)
              else none
          else none
      else none

end

/-- The value of a text. -/
def parse (text : List Char) : Option Json :=
  (readValue text.length (skip text)).bind fun (value, rest) =>
    if skip rest = [] then some value else none

/-! ## Every derivation is found -/

/-- What may follow a value. -/
def Follows (rest : List Char) : Prop := ∀ c ∈ rest.head?, isNumberChar c = false

theorem follows_append {blanks rest : List Char} (blank : Blanks blanks) (follows : Follows rest) :
    Follows (blanks ++ rest) := by
  cases blanks with
  | nil => exact follows
  | cons c blanks =>
      have first := blank c List.mem_cons_self
      rintro d same
      cases same
      simp only [isBlank, Bool.or_eq_true, decide_eq_true_eq] at first
      rcases first with ((rfl | rfl) | rfl) | rfl <;> decide

/-- A text that does not begin with a blank, and neither closes a list nor an object. -/
def Opens (text : List Char) : Prop :=
  ∃ c rest, text = c :: rest ∧ isBlank c = false ∧ c ≠ ']' ∧ c ≠ '}'

theorem skip_opens {text : List Char} (opens : Opens text) (rest : List Char) :
    skip (text ++ rest) = text ++ rest := by
  obtain ⟨c, others, rfl, ink, -⟩ := opens
  exact skip_cons ink _

theorem Literal.opens {text literal : List Char} (quoted : Literal text literal) :
    Opens literal := by
  obtain ⟨body, rfl, -⟩ := quoted.read
  exact ⟨_, _, rfl, by decide, by decide, by decide⟩

/-- The first character of a number, and the ones that it is not. -/
theorem opens_of_isNumberChar {c : Char} (number : isNumberChar c = true) :
    (isBlank c = false ∧ c ≠ ']' ∧ c ≠ '}') ∧ c ≠ '"' ∧ c ≠ '[' ∧ c ≠ '{' ∧ c ≠ 'n' ∧ c ≠ 't' ∧
      c ≠ 'f' := by
  have other (d : Char) (no : isNumberChar d = false) : c ≠ d := by
    rintro rfl
    rw [no] at number
    cases number
  refine ⟨⟨?_, other _ (by decide), other _ (by decide)⟩, other _ (by decide), other _ (by decide),
    other _ (by decide), other _ (by decide), other _ (by decide), other _ (by decide)⟩
  simp [isBlank, other ' ' (by decide), other '\t' (by decide), other '\n' (by decide),
    other '\r' (by decide)]

theorem Value.opens {value : Json} {text : List Char} (written : Value value text) :
    Opens text := by
  cases written with
  | number isNumber =>
      obtain ⟨chars, some⟩ := isNumber.chars
      obtain ⟨c, rest, rfl⟩ := List.exists_cons_of_ne_nil some
      exact ⟨c, rest, rfl, (opens_of_isNumberChar (chars c List.mem_cons_self)).1⟩
  | string quoted => exact quoted.opens
  | null => exact ⟨_, _, rfl, by decide, by decide, by decide⟩
  | true => exact ⟨_, _, rfl, by decide, by decide, by decide⟩
  | false => exact ⟨_, _, rfl, by decide, by decide, by decide⟩
  | emptyArray => exact ⟨_, _, rfl, by decide, by decide, by decide⟩
  | array => exact ⟨_, _, rfl, by decide, by decide, by decide⟩
  | emptyObject => exact ⟨_, _, rfl, by decide, by decide, by decide⟩
  | object => exact ⟨_, _, rfl, by decide, by decide, by decide⟩

theorem readValue_number {text rest : List Char} (isNumber : IsNumber text)
    (follows : Follows rest) (fuel : Nat) :
    readValue (fuel + 1) (text ++ rest) = some (.number text, rest) := by
  obtain ⟨chars, some⟩ := isNumber.chars
  have taken : (text ++ rest).takeWhile isNumberChar = text ∧
      (text ++ rest).dropWhile isNumberChar = rest := by
    rw [List.takeWhile_append_of_pos chars, List.dropWhile_append_of_pos chars]
    cases rest with
    | nil => simp
    | cons c rest =>
        have stop : ¬ isNumberChar c = true := by simp [follows c rfl]
        rw [List.takeWhile_cons_of_neg stop, List.dropWhile_cons_of_neg stop]
        simp
  obtain ⟨c, others, shape⟩ := List.exists_cons_of_ne_nil some
  obtain ⟨-, quote, bracket, brace, n, t, f⟩ := opens_of_isNumberChar
    (chars c (shape ▸ List.mem_cons_self))
  rw [readValue, taken.1, taken.2, isNumber.reads]
  simp [shape, quote, bracket, brace, n, t, f]

/-- A mark between values: neither a blank nor part of a number. -/
def IsMark (c : Char) : Prop := isBlank c = false ∧ isNumberChar c = false

theorem follows_mark {after : List Char} (blank : Blanks after) {mark : Char} (isMark : IsMark mark)
    (rest : List Char) : Follows (after ++ mark :: rest) := by
  apply follows_append blank
  rintro c same
  cases same
  exact isMark.2

theorem skip_mark {after : List Char} (blank : Blanks after) {mark : Char} (isMark : IsMark mark)
    (rest : List Char) : skip (after ++ mark :: rest) = mark :: rest := by
  rw [skip_append blank, skip_cons isMark.1]

theorem Elements.opens {items : List Json} {text : List Char} (elements : Elements items text)
    (rest : List Char) : (skip (text ++ rest)).head? ≠ some ']' := by
  cases elements with
  | last blankBefore value _ | cons blankBefore value _ _ =>
      obtain ⟨c, others, shape, -, noBracket, -⟩ := value.opens
      rw [List.append_assoc, List.append_assoc, skip_append blankBefore, skip_opens value.opens,
        shape, List.cons_append, List.head?_cons]
      exact fun same => noBracket (Option.some.inj same)

theorem Members.opens {members : List (List Char × Json)} {text : List Char}
    (fields : Members members text) (rest : List Char) :
    (skip (text ++ rest)).head? = some '"' := by
  cases fields with
  | last blankBefore quoted _ _ _ _ | cons blankBefore quoted _ _ _ _ _ =>
      rw [List.append_assoc, List.append_assoc, skip_append blankBefore, skip_opens quoted.opens]
      obtain ⟨body, rfl, -⟩ := quoted.read
      rfl

theorem skip_quote (text : List Char) : skip ('"' :: text) = '"' :: text :=
  skip_cons (by decide) text

theorem mark_comma : IsMark ',' := ⟨by decide, by decide⟩

theorem mark_colon : IsMark ':' := ⟨by decide, by decide⟩

theorem mark_bracket : IsMark ']' := ⟨by decide, by decide⟩

theorem mark_brace : IsMark '}' := ⟨by decide, by decide⟩

mutual

/-- The induction is on the derivation; the fuel covers the characters that are left. -/
theorem Value.read {value : Json} {text : List Char} (written : Value value text) {fuel : Nat}
    (enough : text.length ≤ fuel) {rest : List Char} (follows : Follows rest) :
    readValue fuel (text ++ rest) = some (value, rest) := by
  cases fuel with
  | zero =>
      obtain ⟨c, others, rfl, -⟩ := written.opens
      simp at enough
  | succ fuel =>
      cases written with
      | null => rfl
      | true => rfl
      | false => rfl
      | number isNumber => exact readValue_number isNumber follows fuel
      | string quoted =>
          obtain ⟨body, rfl, found⟩ := quoted.read
          rw [List.cons_append, readValue, List.head?_cons, if_pos rfl, List.tail_cons, found]
          rfl
      | emptyArray blank =>
          simp only [List.cons_append, List.append_assoc, readValue, List.head?_cons,
            List.tail_cons, skip_mark blank mark_bracket]
          rfl
      | @array items inside elements =>
          have shorter : inside.length < fuel := by simpa using enough
          simp only [List.cons_append, List.append_assoc, readValue, List.head?_cons,
            List.tail_cons, elements.opens, elements.read shorter]
          rfl
      | emptyObject blank =>
          simp only [List.cons_append, List.append_assoc, readValue, List.head?_cons,
            List.tail_cons, skip_mark blank mark_brace]
          rfl
      | @object members inside fields =>
          have shorter : inside.length < fuel := by simpa using enough
          have noBrace : (skip (inside ++ '}' :: rest)).head? ≠ some '}' := by
            rw [fields.opens]
            decide
          simp only [List.cons_append, List.append_assoc, List.nil_append, readValue,
            List.head?_cons, List.tail_cons, noBrace, fields.read shorter]
          rfl

theorem Elements.read {items : List Json} {text : List Char} (elements : Elements items text)
    {fuel : Nat} (enough : text.length < fuel) {rest : List Char} :
    readElements fuel (text ++ ']' :: rest) = some (items, rest) := by
  cases fuel with
  | zero => cases enough
  | succ fuel =>
      cases elements with
      | @last item before inside after blankBefore value blankAfter =>
          simp only [List.length_append] at enough
          have found : readValue fuel _ = _ := value.read (by omega)
            (follows_mark blankAfter mark_bracket rest)
          simp only [List.append_assoc, readElements, skip_append blankBefore,
            skip_opens value.opens, found, Option.bind, skip_mark blankAfter mark_bracket,
            List.head?_cons, List.tail_cons]
          rfl
      | @cons item items before inside after others blankBefore value blankAfter later =>
          simp only [List.length_append, List.length_cons] at enough
          have found : readValue fuel _ = _ := value.read (by omega)
            (follows_mark blankAfter mark_comma (others ++ ']' :: rest))
          have foundLater : readElements fuel _ = some (_, rest) := later.read (by omega)
          simp only [List.append_assoc, List.cons_append, readElements, skip_append blankBefore,
            skip_opens value.opens, found, Option.bind, skip_mark blankAfter mark_comma,
            List.head?_cons, List.tail_cons, foundLater]
          rfl

theorem Members.read {members : List (List Char × Json)} {text : List Char}
    (fields : Members members text) {fuel : Nat} (enough : text.length < fuel) {rest : List Char} :
    readMembers fuel (text ++ '}' :: rest) = some (members, rest) := by
  cases fuel with
  | zero => cases enough
  | succ fuel =>
      cases fields with
      | @last name item before literal between inner inside after blankBefore quoted blankBetween
          blankInner value blankAfter =>
          obtain ⟨body, rfl, named⟩ := quoted.read
          simp only [List.length_append, List.length_cons] at enough
          have found : readValue fuel _ = _ := value.read (by omega)
            (follows_mark blankAfter mark_brace rest)
          simp only [List.append_assoc, List.cons_append, readMembers, skip_append blankBefore,
            skip_quote, named, Option.bind, skip_mark blankBetween mark_colon,
            List.head?_cons, List.tail_cons, skip_append blankInner, skip_opens value.opens, found,
            skip_mark blankAfter mark_brace]
          rfl
      | @cons name item members before literal between inner inside after others blankBefore quoted
          blankBetween blankInner value blankAfter later =>
          obtain ⟨body, rfl, named⟩ := quoted.read
          simp only [List.length_append, List.length_cons] at enough
          have found : readValue fuel _ = _ := value.read (by omega)
            (follows_mark blankAfter mark_comma (others ++ '}' :: rest))
          have foundLater : readMembers fuel _ = some (_, rest) := later.read (by omega)
          simp only [List.append_assoc, List.cons_append, readMembers, skip_append blankBefore,
            skip_quote, named, Option.bind, skip_mark blankBetween mark_colon,
            List.head?_cons, List.tail_cons, skip_append blankInner, skip_opens value.opens, found,
            skip_mark blankAfter mark_comma, foundLater]
          rfl

end

theorem skip_eq_nil {blanks : List Char} (blank : Blanks blanks) : skip blanks = [] := by
  rw [← List.append_nil blanks, skip_append blank]
  rfl

/-- The parser finds the value of a JSON text. -/
theorem Document.parse_eq {value : Json} {text : List Char} (document : Document value text) :
    parse text = some value := by
  cases document with
  | @padded before inside after blankBefore written blankAfter =>
      have follows : Follows after := by
        have blank : Follows (after ++ []) := follows_append blankAfter (by simp [Follows])
        rwa [List.append_nil] at blank
      have found : readValue (before ++ (inside ++ after)).length (inside ++ after) = _ :=
        written.read (by simp only [List.length_append]; omega) follows
      rw [parse, skip_append blankBefore, skip_opens written.opens, found]
      dsimp only [Option.bind]
      rw [skip_eq_nil blankAfter, if_pos rfl]

/-- A text writes one value. -/
theorem Document.unique {value other : Json} {text : List Char} (document : Document value text)
    (again : Document other text) : other = value :=
  Option.some.inj (again.parse_eq.symm.trans document.parse_eq)

/-! ## Writing without blanks -/

theorem Value.document {value : Json} {text : List Char} (written : Value value text) :
    Document value text := by
  have padded := Document.padded blanks_nil written blanks_nil
  rwa [List.append_nil] at padded

/-- A member without blanks. -/
inductive Field : List Char × Json → List Char → Prop
  | pair {name literal text : List Char} {item : Json} (quoted : Literal name literal)
      (value : Value item text) : Field (name, item) (literal ++ ':' :: text)

/-- Texts with commas between them. -/
def commas (texts : List (List Char)) : List Char := [','].intercalate texts

@[simp] theorem commas_singleton (text : List Char) : commas [text] = text :=
  List.intercalate_singleton

theorem commas_cons_cons (first second : List Char) (rest : List (List Char)) :
    commas (first :: second :: rest) = first ++ ',' :: commas (second :: rest) := by
  rw [commas, List.intercalate_cons_cons, List.append_assoc]
  rfl

theorem Elements.of_values {item : Json} {items : List Json} {text : List Char}
    {texts : List (List Char)} (first : Value item text) (later : List.Forall₂ Value items texts) :
    Elements (item :: items) (commas (text :: texts)) := by
  induction later generalizing item text with
  | nil =>
      have one := Elements.last blanks_nil first blanks_nil
      simpa [commas] using one
  | cons second later ih =>
      rw [commas_cons_cons]
      exact Elements.cons blanks_nil first blanks_nil (ih second)

theorem Value.of_values {items : List Json} {texts : List (List Char)}
    (written : List.Forall₂ Value items texts) :
    Value (.array items) ('[' :: (commas texts ++ [']'])) := by
  cases written with
  | nil => exact .emptyArray blanks_nil
  | cons first later => exact .array (Elements.of_values first later)

theorem Members.of_fields {item : List Char × Json} {members : List (List Char × Json)}
    {text : List Char} {texts : List (List Char)} (first : Field item text)
    (later : List.Forall₂ Field members texts) :
    Members (item :: members) (commas (text :: texts)) := by
  induction later generalizing item text with
  | nil =>
      cases first with
      | pair quoted value =>
          have one := Members.last blanks_nil quoted blanks_nil blanks_nil value blanks_nil
          simpa [commas] using one
  | cons second later ih =>
      cases first with
      | pair quoted value =>
          rw [commas_cons_cons, List.append_assoc]
          exact Members.cons blanks_nil quoted blanks_nil blanks_nil value blanks_nil (ih second)

theorem Value.of_fields {members : List (List Char × Json)} {texts : List (List Char)}
    (written : List.Forall₂ Field members texts) :
    Value (.object members) ('{' :: (commas texts ++ ['}'])) := by
  cases written with
  | nil => exact .emptyObject blanks_nil
  | cons first later => exact .object (Members.of_fields first later)

/-! ## Natural numbers -/

theorem isDigits_toDigits (n : Nat) : IsDigits (Nat.toDigits 10 n) :=
  ⟨Nat.toDigits_ne_nil, fun _ member => Nat.isDigit_of_mem_toDigits (by decide) (by decide) member⟩

theorem head_toDigits (n : Nat) (positive : 0 < n) : (Nat.toDigits 10 n).head? ≠ some '0' := by
  induction n using Nat.strongRecOn with
  | _ n ih =>
      by_cases small : n < 10
      · rw [Nat.toDigits_of_lt_base small]
        interval_cases n <;> decide
      · rw [Nat.toDigits_of_base_le (by decide) (by omega), List.head?_append_of_ne_nil _
          Nat.toDigits_ne_nil]
        exact ih (n / 10) (by omega) (by omega)

theorem isInt_toDigits (n : Nat) : IsInt (Nat.toDigits 10 n) := by
  rcases Nat.eq_zero_or_pos n with rfl | positive
  · exact .inl (Nat.toDigits_zero 10)
  · exact .inr ⟨isDigits_toDigits n, head_toDigits n positive⟩

theorem number_toDigits (n : Nat) :
    Value (.number (Nat.toDigits 10 n)) (Nat.toDigits 10 n) := by
  have parts := IsNumber.parts (.inl rfl) (isInt_toDigits n) (.inl rfl) (.inl rfl)
  rw [List.nil_append, List.append_nil, List.append_nil] at parts
  exact .number parts

end Json

end AiCoreStack.Foundation
