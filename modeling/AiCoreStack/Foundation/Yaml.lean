import Mathlib

/-!
# YAML scalars on one line

The scalars of YAML 1.2 that fit on a line of a block mapping: double-quoted, single-quoted and
plain, with the types that the core schema gives to plain ones.  A number keeps its spelling.
-/

namespace AiCoreStack.Foundation.Yaml

inductive Scalar where
  | null
  | bool (value : Bool)
  | int (text : List Char)
  | float (text : List Char)
  | str (text : List Char)
  deriving DecidableEq, Repr

/-! ## Characters -/

/-- `s-white` -/
def isWhite (c : Char) : Bool := c = ' ' ∨ c = '\t'

/-- `nb-json`: what a quoted scalar may hold on one line. -/
def isQuotable (c : Char) : Bool := c = '\t' ∨ 0x20 ≤ c.toNat

/-- `c-printable` without line breaks and the byte order mark. -/
def isPrintable (c : Char) : Bool :=
  let n := c.toNat
  n = 0x09 ∨ (0x20 ≤ n ∧ n ≤ 0x7E) ∨ n = 0x85 ∨ (0xA0 ≤ n ∧ n ≤ 0xD7FF) ∨
    (0xE000 ≤ n ∧ n ≤ 0xFFFD ∧ n ≠ 0xFEFF) ∨ 0x10000 ≤ n

/-- `ns-char` -/
def isSolid (c : Char) : Bool := isPrintable c ∧ isWhite c = false

/-- `c-indicator` -/
def indicators : List Char := "-?:,[]\x7b\x7d#&*!|>'\"%@`".toList

/-! ## Quoted scalars -/

/-- The character of an escape of one letter. -/
def simpleEscape : Char → Option Char
  | '0' => some '\x00'
  | 'a' => some '\x07'
  | 'b' => some '\x08'
  | 't' => some '\t'
  | '\t' => some '\t'
  | 'n' => some '\n'
  | 'v' => some '\x0b'
  | 'f' => some '\x0c'
  | 'r' => some '\r'
  | 'e' => some '\x1b'
  | ' ' => some ' '
  | '"' => some '"'
  | '/' => some '/'
  | '\\' => some '\\'
  | 'N' => some '\u0085'
  | '_' => some '\u00a0'
  | 'L' => some '\u2028'
  | 'P' => some '\u2029'
  | _ => none

/-- The number of digits of an escaped code point. -/
def hexEscape : Char → Option Nat
  | 'x' => some 2
  | 'u' => some 4
  | 'U' => some 8
  | _ => none

def hexDigit (c : Char) : Option Nat :=
  if '0' ≤ c ∧ c ≤ '9' then some (c.toNat - '0'.toNat)
  else if 'a' ≤ c ∧ c ≤ 'f' then some (c.toNat - 'a'.toNat + 10)
  else if 'A' ≤ c ∧ c ≤ 'F' then some (c.toNat - 'A'.toNat + 10)
  else none

/-- Where the reader of a double-quoted scalar stands: between characters, behind a backslash,
or in front of `left + 1` digits of a code point. -/
inductive Escaping where
  | done
  | backslash
  | digits (left value : Nat)

/-- A double-quoted scalar behind its first quote, and what follows it. -/
def readDouble : Escaping → List Char → Option (List Char × List Char)
  | _, [] => none
  | .done, c :: rest =>
      if c = '"' then some ([], rest)
      else if c = '\\' then readDouble .backslash rest
      else if isQuotable c then (readDouble .done rest).map fun read => (c :: read.1, read.2)
      else none
  | .backslash, c :: rest =>
      match simpleEscape c, hexEscape c with
      | some d, _ => (readDouble .done rest).map fun read => (d :: read.1, read.2)
      | none, some digits => readDouble (.digits (digits - 1) 0) rest
      | none, none => none
  | .digits left value, c :: rest => do
      let digit ← hexDigit c
      let value := value * 16 + digit
      if left = 0 then
        if value.isValidChar then
          (readDouble .done rest).map fun read => (Char.ofNat value :: read.1, read.2)
        else none
      else readDouble (.digits (left - 1) value) rest

/-- A single-quoted scalar behind its first quote, and what follows it.  Two quotes write one;
`quote` says that a quote has been read. -/
def readSingle : Bool → List Char → Option (List Char × List Char)
  | false, [] => none
  | true, [] => some ([], [])
  | false, c :: rest =>
      if c = '\'' then readSingle true rest
      else if isQuotable c then (readSingle false rest).map fun read => (c :: read.1, read.2)
      else none
  | true, c :: rest =>
      if c = '\'' then (readSingle false rest).map fun read => (c :: read.1, read.2)
      else some ([], c :: rest)

/-- Only blanks and a comment may follow a quoted scalar. -/
def endsScalar (rest : List Char) : Bool :=
  match rest.dropWhile isWhite with
  | [] => true
  | c :: _ => c = '#' ∧ rest.head?.any isWhite

/-! ## Plain scalars -/

/-- Drop a comment; `blank` says that a blank stands in front. -/
def dropComment (blank : Bool) : List Char → List Char
  | [] => []
  | c :: rest => if c = '#' ∧ blank then [] else c :: dropComment (isWhite c) rest

/-- The characters of a plain scalar.  A colon must not stand in front of a blank. -/
def isPlainText : List Char → Bool
  | [] => true
  | c :: rest =>
      (isWhite c ∨ isSolid c) ∧ (c = ':' → rest.head?.any isSolid = true) ∧ isPlainText rest

def isPlain : List Char → Bool
  | [] => false
  | c :: rest =>
      (c ∉ indicators ∨ c ∈ "?:-".toList ∧ rest.head?.any isSolid = true) ∧
        isPlainText (c :: rest)

def isDigits (text : List Char) : Bool := text ≠ [] ∧ text.all Char.isDigit

def dropSign : List Char → List Char
  | [] => []
  | c :: rest => if c = '+' ∨ c = '-' then rest else c :: rest

/-- `[-+]? [0-9]+`, `0o [0-7]+` or `0x [0-9a-fA-F]+` -/
def isInt (text : List Char) : Bool :=
  isDigits (dropSign text) ∨
    (text.take 2 = "0o".toList ∧ text.drop 2 ≠ [] ∧
      (text.drop 2).all fun c => '0' ≤ c ∧ c ≤ '7') ∨
    (text.take 2 = "0x".toList ∧ text.drop 2 ≠ [] ∧ (text.drop 2).all fun c => (hexDigit c).isSome)

/-- `( [eE] [-+]? [0-9]+ )?` -/
def isExponent : List Char → Bool
  | [] => true
  | c :: rest => (c = 'e' ∨ c = 'E') ∧ isDigits (dropSign rest)

/-- `( \. [0-9]+ | [0-9]+ ( \. [0-9]* )? ) ( [eE] [-+]? [0-9]+ )?` -/
def isDecimal (text : List Char) : Bool :=
  let whole := text.takeWhile Char.isDigit
  match text.dropWhile Char.isDigit with
  | '.' :: rest =>
      (whole ≠ [] ∨ rest.head?.any Char.isDigit = true) ∧
        isExponent (rest.dropWhile Char.isDigit)
  | rest => whole ≠ [] ∧ isExponent rest

def isFloat (text : List Char) : Bool :=
  isDecimal (dropSign text) ∨ dropSign text ∈ [".inf", ".Inf", ".INF"].map String.toList ∨
    text ∈ [".nan", ".NaN", ".NAN"].map String.toList

def nullWords : List (List Char) := ["null", "Null", "NULL", "~"].map String.toList

def trueWords : List (List Char) := ["true", "True", "TRUE"].map String.toList

def falseWords : List (List Char) := ["false", "False", "FALSE"].map String.toList

/-- The type of a plain scalar. -/
def resolve (text : List Char) : Scalar :=
  if text ∈ nullWords then .null
  else if text ∈ trueWords then .bool true
  else if text ∈ falseWords then .bool false
  else if isInt text then .int text
  else if isFloat text then .float text
  else .str text

/-- Whether a plain scalar is not a string. -/
def isTyped (text : List Char) : Bool :=
  text ∈ nullWords ∨ text ∈ trueWords ∨ text ∈ falseWords ∨ isInt text ∨ isFloat text

theorem resolve_eq_str_iff (text other : List Char) :
    resolve text = .str other ↔ isTyped text = false ∧ text = other := by
  simp only [resolve, isTyped, decide_eq_false_iff_not, not_or]
  grind

/-! ## Scalars -/

def readPlain (text : List Char) : Option Scalar :=
  match (dropComment true text).rdropWhile isWhite with
  | [] => some .null
  | plain => if isPlain plain then some (resolve plain) else none

/-- The scalar that is the rest of a line. -/
def readScalar (text : List Char) : Option Scalar :=
  match text.dropWhile isWhite with
  | [] => some .null
  | c :: rest =>
      if c = '"' then
        (readDouble .done rest).bind fun read =>
          if endsScalar read.2 then some (.str read.1) else none
      else if c = '\'' then
        (readSingle false rest).bind fun read =>
          if endsScalar read.2 then some (.str read.1) else none
      else readPlain (c :: rest)

/-- A line of a block mapping: a key, a colon, a blank and a scalar. -/
def readField (line : List Char) : Option (List Char × Scalar) :=
  match line.dropWhile (· != ':') with
  | ':' :: ' ' :: value => (readScalar value).map fun scalar => (line.takeWhile (· != ':'), scalar)
  | _ => none

example : readField "title: \"a \\\"b\\\"\" # c".toList =
    some ("title".toList, .str "a \"b\"".toList) := by
  decide

example : readField "title: 1.5e3".toList = some ("title".toList, .float "1.5e3".toList) := by decide

/-! ## Quoting -/

/-- The text of a string between double quotes. -/
def escapeDouble (text : List Char) : List Char :=
  text.flatMap fun c => if c = '"' ∨ c = '\\' then ['\\', c] else [c]

theorem readDouble_escaped {c : Char} (escapes : c = '"' ∨ c = '\\') (rest : List Char) :
    readDouble .done ('\\' :: c :: rest) =
      (readDouble .done rest).map fun read => (c :: read.1, read.2) := by
  rcases escapes with rfl | rfl
  · rfl
  · rfl

theorem readDouble_cons {c : Char} (plain : ¬ (c = '"' ∨ c = '\\')) (rest : List Char) :
    readDouble .done (c :: rest) =
      if isQuotable c then (readDouble .done rest).map fun read => (c :: read.1, read.2)
      else none := by
  rw [not_or] at plain
  rw [readDouble, if_neg plain.1, if_neg plain.2]

theorem escapeDouble_cons (c : Char) (text : List Char) :
    escapeDouble (c :: text) =
      (if c = '"' ∨ c = '\\' then ['\\', c] else [c]) ++ escapeDouble text :=
  List.flatMap_cons

/-- An escaped string is read back. -/
theorem readDouble_escapeDouble {text : List Char} (quotable : text.all isQuotable = true)
    (rest : List Char) :
    readDouble .done (escapeDouble text ++ '"' :: rest) = some (text, rest) := by
  induction text with
  | nil => rfl
  | cons c text ih =>
      rw [List.all_cons, Bool.and_eq_true] at quotable
      rw [escapeDouble_cons]
      split
      next escapes =>
        simp only [List.cons_append, List.nil_append, readDouble_escaped escapes, ih quotable.2,
          Option.map_some]
      next plain =>
        simp only [List.cons_append, List.nil_append, readDouble_cons plain, quotable.1, if_true,
          ih quotable.2, Option.map_some]

/-- What cannot be quoted on a line ends the reading, also where the line ends in front of it. -/
theorem readDouble_unquotable {text : List Char} (bad : text.all isQuotable = false)
    (rest : List Char) :
    readDouble .done ((escapeDouble text ++ rest).takeWhile (· != '\n')) = none := by
  induction text with
  | nil => exact absurd bad (by simp)
  | cons c text ih =>
      rw [List.all_cons, Bool.and_eq_false_iff] at bad
      rw [escapeDouble_cons]
      split
      next escapes =>
        have quotable : isQuotable c = true ∧ c ≠ '\n' := by
          rcases escapes with rfl | rfl
          · exact ⟨rfl, by decide⟩
          · exact ⟨rfl, by decide⟩
        have later : text.all isQuotable = false := bad.resolve_left (by simp [quotable.1])
        simp only [List.cons_append, List.nil_append]
        rw [List.takeWhile_cons_of_pos (by decide),
          List.takeWhile_cons_of_pos (by simp [quotable.2]),
          readDouble_escaped escapes, ih later, Option.map_none]
      next plain =>
        simp only [List.cons_append, List.nil_append]
        by_cases feed : c = '\n'
        · rw [feed, List.takeWhile_cons_of_neg (by decide)]
          rfl
        · rw [List.takeWhile_cons_of_pos (by simpa using feed), readDouble_cons plain]
          split
          next quotable => rw [ih (bad.resolve_left (by simp [quotable])), Option.map_none]
          next => rfl

/-! ## Plain scalars that are strings -/

theorem length_of_map_cons {read : Option (List Char × List Char)} {c : Char} {count : Nat}
    (short : ∀ value ∈ read, value.1.length ≤ count) :
    ∀ value ∈ read.map fun read => (c :: read.1, read.2), value.1.length ≤ count + 1 := by
  intro value member
  obtain ⟨inner, found, rfl⟩ := Option.map_eq_some_iff.mp member
  exact Nat.succ_le_succ (short inner found)

theorem readSingle_length (text : List Char) (quote : Bool) :
    ∀ value ∈ readSingle quote text, value.1.length ≤ text.length := by
  induction text generalizing quote with
  | nil =>
      cases quote with
      | false => simp [readSingle]
      | true => simp [readSingle]
  | cons c text ih =>
      cases quote with
      | false =>
          rw [readSingle, List.length_cons]
          split
          · exact fun value member => (ih true value member).trans (Nat.le_succ _)
          · split
            · exact length_of_map_cons (ih false)
            · simp
      | true =>
          rw [readSingle, List.length_cons]
          split
          · exact length_of_map_cons (ih false)
          · simp

theorem length_dropComment (text : List Char) (blank : Bool) :
    (dropComment blank text).length ≤ text.length := by
  induction text generalizing blank with
  | nil => exact le_rfl
  | cons c text ih =>
      rw [dropComment]
      split
      · exact Nat.zero_le _
      · exact Nat.succ_le_succ (ih _)

theorem length_of_readPlain {text value : List Char} (read : readPlain text = some (.str value)) :
    value.length ≤ text.length := by
  have kept : ((dropComment true text).rdropWhile isWhite).length ≤ text.length :=
    (List.rdropWhile_prefix _ _).length_le.trans (length_dropComment text true)
  rw [readPlain] at read
  split at read
  · exact absurd (Option.some.inj read) (by simp)
  next plain _ =>
    split at read
    · rw [((resolve_eq_str_iff _ _).mp (Option.some.inj read)).2] at kept
      exact kept
    · exact absurd read (by simp)

/-- Behind a character that is not a blank or a quote, a string is not longer than its text. -/
theorem length_of_readScalar {c : Char} {rest value : List Char} (solid : isWhite c = false)
    (quote : c ≠ '"') (read : readScalar (c :: rest) = some (.str value)) :
    value.length ≤ (c :: rest).length := by
  rw [readScalar, List.dropWhile_cons_of_neg (by simp [solid])] at read
  simp only [quote, if_false] at read
  split at read
  · obtain ⟨single, found, ends⟩ := Option.bind_eq_some_iff.mp read
    split at ends
    · obtain rfl := Scalar.str.inj (Option.some.inj ends)
      exact (readSingle_length rest false single found).trans (Nat.le_succ _)
    · exact absurd ends (by simp)
  · exact length_of_readPlain read

theorem dropComment_of_notMem {text : List Char} (absent : '#' ∉ text) (blank : Bool) :
    dropComment blank text = text := by
  induction text generalizing blank with
  | nil => rfl
  | cons c text ih =>
      rw [List.mem_cons, not_or] at absent
      rw [dropComment, if_neg fun comment => absent.1 comment.1.symm, ih absent.2]

/-- A string is longer than what is read where it starts with a single quote. -/
theorem readScalar_single_ne (rest : List Char) :
    readScalar ('\'' :: rest) ≠ some (.str ('\'' :: rest)) := by
  intro read
  change ((readSingle false rest).bind fun read =>
    if endsScalar read.2 then some (Scalar.str read.1) else none) = _ at read
  obtain ⟨single, found, ends⟩ := Option.bind_eq_some_iff.mp read
  split at ends
  · have short := readSingle_length rest false single found
    rw [Scalar.str.inj (Option.some.inj ends), List.length_cons] at short
    omega
  · exact absurd ends (by simp)

theorem isPrintable_iff (c : Char) :
    isPrintable c = true ↔ isWhite c = true ∨ isSolid c = true := by
  rw [isSolid]
  cases white : isWhite c with
  | true =>
      simp only [isWhite, decide_eq_true_eq] at white
      rcases white with rfl | rfl
      · simp [isPrintable]
      · simp [isPrintable]
  | false => simp

theorem isPlainText_iff {text : List Char} (colon : ':' ∉ text) :
    isPlainText text = true ↔ text.all isPrintable = true := by
  induction text with
  | nil => exact Iff.rfl
  | cons c text ih =>
      rw [List.mem_cons, not_or] at colon
      simp only [isPlainText, List.all_cons, Bool.and_eq_true, isPrintable_iff c, ih colon.2,
        decide_eq_true_eq, Ne.symm colon.1, false_imp_iff, true_and]

/-- A text without comments and blanks at its ends is read as a plain scalar. -/
theorem readScalar_plain {c : Char} {rest : List Char} (white : isWhite c = false)
    (double : c ≠ '"') (single : c ≠ '\'') (comment : '#' ∉ c :: rest)
    (last : ∀ d ∈ (c :: rest).getLast?, isWhite d = false) :
    readScalar (c :: rest) = if isPlain (c :: rest) then some (resolve (c :: rest)) else none := by
  have kept : (c :: rest).rdropWhile isWhite = c :: rest := by
    rw [List.rdropWhile_eq_self_iff]
    intro nonempty
    simpa using last _ (List.getLast?_eq_some_getLast nonempty)
  rw [readScalar, List.dropWhile_cons_of_neg (by simp [white])]
  simp only [double, single, if_false]
  rw [readPlain, dropComment_of_notMem comment, kept]

theorem mem_escapeDouble {c : Char} {text : List Char} (member : c ∈ escapeDouble text) :
    c = '\\' ∨ c ∈ text := by
  obtain ⟨d, here, written⟩ := List.mem_flatMap.mp member
  split at written
  · simp only [List.mem_cons, List.not_mem_nil, or_false] at written
    rcases written with backslash | rfl
    · exact .inl backslash
    · exact .inr here
  · obtain rfl := List.mem_singleton.mp written
    exact .inr here

/-- A colon inside a text without blanks does not end a plain scalar. -/
theorem isPlainText_of_solid {text : List Char} (solid : ∀ c ∈ text, isSolid c = true)
    (last : text.getLast? ≠ some ':') : isPlainText text = true := by
  induction text with
  | nil => rfl
  | cons c text ih =>
      obtain ⟨here, later⟩ := List.forall_mem_cons.mp solid
      cases text with
      | nil =>
          have other : c ≠ ':' := fun same => last (by rw [same]; rfl)
          simp [isPlainText, here, other]
      | cons d text =>
          have next : isSolid d = true := later d List.mem_cons_self
          have rest := ih later (by rwa [List.getLast?_cons_cons] at last)
          rw [isPlainText, rest]
          simp [here, next]

/-! ## Numbers -/

section Marked

variable {text : List Char}

theorem notMem_of_isDigits (digits : isDigits text = true) : 'T' ∉ text := by
  intro member
  have all : text.all Char.isDigit = true := (of_decide_eq_true digits).2
  exact absurd (List.all_eq_true.mp all _ member) (by decide)

theorem notMem_of_dropSign (absent : 'T' ∉ dropSign text) : 'T' ∉ text := by
  cases text with
  | nil => exact List.not_mem_nil
  | cons c rest =>
      rw [dropSign] at absent
      split at absent
      next sign =>
        rintro (_ | ⟨_, later⟩)
        · exact absurd sign (by decide)
        · exact absent later
      · exact absent

theorem notMem_of_isExponent (exponent : isExponent text = true) : 'T' ∉ text := by
  cases text with
  | nil => exact List.not_mem_nil
  | cons c rest =>
      obtain ⟨letter, digits⟩ := of_decide_eq_true exponent
      rintro (_ | ⟨_, later⟩)
      · exact absurd letter (by decide)
      · exact notMem_of_dropSign (notMem_of_isDigits digits) later

theorem notMem_of_dropWhile (absent : 'T' ∉ text.dropWhile Char.isDigit) : 'T' ∉ text := by
  intro member
  rw [← List.takeWhile_append_dropWhile (p := Char.isDigit) (l := text)] at member
  rcases List.mem_append.mp member with front | behind
  · exact absurd (List.mem_takeWhile_imp front) (by decide)
  · exact absent behind

theorem notMem_of_isDecimal (decimal : isDecimal text = true) : 'T' ∉ text := by
  apply notMem_of_dropWhile
  rw [isDecimal] at decimal
  split at decimal
  next rest point =>
    rw [point]
    rintro (_ | ⟨_, later⟩)
    exact notMem_of_dropWhile (notMem_of_isExponent (of_decide_eq_true decimal).2) later
  · exact notMem_of_isExponent (of_decide_eq_true decimal).2

/-- No number holds a `T`. -/
theorem notMem_of_isInt (number : isInt text = true) : 'T' ∉ text := by
  have parts : text.take 2 ++ text.drop 2 = text := List.take_append_drop 2 text
  rcases of_decide_eq_true number with digits | ⟨front, -, all⟩ | ⟨front, -, all⟩
  · exact notMem_of_dropSign (notMem_of_isDigits digits)
  · rw [← parts, front, List.mem_append, not_or]
    exact ⟨by decide, fun member => absurd (List.all_eq_true.mp all _ member) (by decide)⟩
  · rw [← parts, front, List.mem_append, not_or]
    exact ⟨by decide, fun member => absurd (List.all_eq_true.mp all _ member) (by decide)⟩

theorem notMem_of_isFloat (number : isFloat text = true) : 'T' ∉ text := by
  have plain (words : List (List Char)) (free : words.all (fun word => 'T' ∉ word) = true)
      {word : List Char} (member : word ∈ words) : 'T' ∉ word := by
    simpa using List.all_eq_true.mp free word member
  rcases of_decide_eq_true number with decimal | infinite | undefined
  · exact notMem_of_dropSign (notMem_of_isDecimal decimal)
  · exact notMem_of_dropSign (plain _ (by decide) infinite)
  · exact plain _ (by decide) undefined

end Marked

theorem isSolid_of_isDigit {c : Char} (digit : c.isDigit = true) : isSolid c = true := by
  have white : isWhite c = false := by
    rw [isWhite, decide_eq_false_iff_not]
    rintro (rfl | rfl)
    · exact absurd digit (by decide)
    · exact absurd digit (by decide)
  obtain ⟨low, high⟩ := Char.isDigit_iff_toNat.mp digit
  have zero : '0'.toNat = 48 := rfl
  have nine : '9'.toNat = 57 := rfl
  simp only [isSolid, isPrintable, white, decide_eq_true_eq, and_true]
  omega

theorem notMem_indicators_of_isDigit {c : Char} (digit : c.isDigit = true) : c ∉ indicators := by
  have letters : indicators.all (fun c => !c.isDigit) = true := by decide
  intro member
  simpa [digit] using List.all_eq_true.mp letters c member

theorem isInt_of_isDigits {text : List Char} (digits : isDigits text = true) :
    isInt text = true := by
  obtain ⟨nonempty, all⟩ := of_decide_eq_true digits
  have unsigned : dropSign text = text := by
    cases text with
    | nil => rfl
    | cons c rest =>
        have digit := List.all_eq_true.mp all c List.mem_cons_self
        rw [dropSign, if_neg]
        rintro (rfl | rfl)
        · exact absurd digit (by decide)
        · exact absurd digit (by decide)
  rw [isInt, unsigned, digits]
  exact decide_eq_true (.inl rfl)

/-- Digits are read as a number. -/
theorem readScalar_digits {text : List Char} (digits : isDigits text = true) :
    readScalar text = some (.int text) := by
  have number := isInt_of_isDigits digits
  obtain ⟨nonempty, all⟩ := of_decide_eq_true digits
  have digit {c : Char} (member : c ∈ text) : c.isDigit = true := List.all_eq_true.mp all c member
  have white {c : Char} (member : c ∈ text) : isWhite c = false :=
    (of_decide_eq_true (isSolid_of_isDigit (digit member))).2
  have absent {c : Char} (other : c.isDigit = false) : c ∉ text := by
    intro member
    simpa [other] using digit member
  have word (words : List (List Char))
      (foreign : words.all (fun word => word.head?.all fun c => !c.isDigit) = true)
      (named : [] ∉ words) : text ∉ words := by
    intro member
    have start := List.all_eq_true.mp foreign text member
    cases text with
    | nil => exact named member
    | cons c rest =>
        have other : c.isDigit = false := by simpa using start
        exact absurd (digit List.mem_cons_self) (by simp [other])
  have typed : resolve text = .int text := by
    rw [resolve, if_neg (word _ (by decide) (by decide)), if_neg (word _ (by decide) (by decide)),
      if_neg (word _ (by decide) (by decide)), if_pos number]
  cases text with
  | nil => exact absurd rfl nonempty
  | cons c rest =>
      have front := digit List.mem_cons_self
      have plain : isPlain (c :: rest) = true := by
        rw [isPlain, isPlainText_of_solid fun d member => isSolid_of_isDigit (digit member)]
        · simp [notMem_indicators_of_isDigit front]
        · exact fun colon => absent (by decide) (List.mem_of_getLast? colon)
      have other {d : Char} (letter : d.isDigit = false) : c ≠ d := by
        rintro rfl
        exact absent letter List.mem_cons_self
      have double : c ≠ '"' := other (by decide)
      have single : c ≠ '\'' := other (by decide)
      rw [readScalar_plain (white List.mem_cons_self) double single (absent (by decide))
        fun d final => white (List.mem_of_getLast? final), if_pos plain, typed]

end AiCoreStack.Foundation.Yaml
