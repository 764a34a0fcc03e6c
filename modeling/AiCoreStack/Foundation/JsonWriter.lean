import AiCoreStack.Foundation.Json

/-!
# Writing JSON

A writer without blanks, for values whose numbers are spelled as numbers.  Quotes, backslashes and
control characters are escaped, everything else stands for itself.  The text of a value is parsed
back to it.
-/

namespace AiCoreStack.Foundation.Json

/-! ## Strings -/

/-- How a writer spells a character: as itself, or a control character by its number. -/
def Writes (c : Char) (text : List Char) : Prop :=
  (Piece.char c).Spelled text ∨ c.toNat < 0x20 ∧ (Piece.unit c.toNat).Spelled text

theorem decode_control {c : Char} (control : c.toNat < 0x20) (pieces : List Piece) :
    decode (.unit c.toNat :: pieces) = (decode pieces).map (c :: ·) := by
  -- a control character is no surrogate
  have low : ¬ (0xD800 ≤ c.toNat ∧ c.toNat < 0xE000) := by omega
  have high : ¬ (0xD800 ≤ c.toNat ∧ c.toNat < 0xDC00) := by omega
  have trail : ¬ (0xDC00 ≤ c.toNat ∧ c.toNat < 0xE000) := by omega
  cases pieces with
  | nil => simp [decode, low]
  | cons piece rest =>
      cases piece with
      | char d => simp [decode, low]
      | unit code => rw [decode, if_neg high, if_neg trail, Char.ofNat_toNat]

/-- Texts are literals of themselves in every writer that spells each character right. -/
theorem Literal.of_writes {escape : Char → List Char} (writes : ∀ c, Writes c (escape c))
    (text : List Char) : Literal text ('"' :: (text.flatMap escape ++ ['"'])) := by
  have pieces : ∃ pieces, Spelled pieces (text.flatMap escape) ∧ decode pieces = some text := by
    induction text with
    | nil => exact ⟨[], .nil, rfl⟩
    | cons c rest ih =>
        obtain ⟨pieces, spelled, decoded⟩ := ih
        rw [List.flatMap_cons]
        rcases writes c with plain | ⟨control, coded⟩
        · exact ⟨_, .cons plain spelled, by rw [decode, decoded]; rfl⟩
        · exact ⟨_, .cons coded spelled, by rw [decode_control control, decoded]; rfl⟩
  obtain ⟨pieces, spelled, decoded⟩ := pieces
  exact .quoted spelled decoded

def hexDigit (n : Nat) : Char := Nat.digitChar (n % 16)

def escape (c : Char) : List Char :=
  if c = '"' then ['\\', '"']
  else if c = '\\' then ['\\', '\\']
  else if c = '\x08' then ['\\', 'b']
  else if c = '\x0c' then ['\\', 'f']
  else if c = '\n' then ['\\', 'n']
  else if c = '\r' then ['\\', 'r']
  else if c = '\t' then ['\\', 't']
  else if c.toNat < 0x20 then ['\\', 'u', '0', '0', hexDigit (c.toNat / 16), hexDigit c.toNat]
  else [c]

def quote (text : List Char) : List Char := '"' :: (text.flatMap escape ++ ['"'])

theorem hexCode_control : ∀ n < 0x20,
    hexCode ['0', '0', hexDigit (n / 16), hexDigit n] = some n := by decide

theorem writes_escape (c : Char) : Writes c (escape c) := by
  rw [escape]
  split_ifs with quote backslash backspace feed newline carriage tab control
  iterate 7
    · subst c
      exact .inl (.escape (by decide))
  · exact .inr ⟨control, .unit (hexCode_control c.toNat control)⟩
  · exact .inl (.plain (not_lt.mp control) quote backslash)

theorem literal_quote (text : List Char) : Literal text (quote text) :=
  Literal.of_writes writes_escape text

/-! ## Values -/

mutual

def compact : Json → List Char
  | .null => ['n', 'u', 'l', 'l']
  | .bool true => ['t', 'r', 'u', 'e']
  | .bool false => ['f', 'a', 'l', 's', 'e']
  | .number spelling => spelling
  | .string text => quote text
  | .array items => '[' :: (commas (compactItems items) ++ [']'])
  | .object members => '{' :: (commas (compactMembers members) ++ ['}'])

def compactItems : List Json → List (List Char)
  | [] => []
  | item :: items => compact item :: compactItems items

def compactMembers : List (List Char × Json) → List (List Char)
  | [] => []
  | (name, item) :: members => (quote name ++ ':' :: compact item) :: compactMembers members

end

mutual

/-- All numbers are spelled as numbers. -/
def Sound : Json → Prop
  | .number spelling => IsNumber spelling
  | .array items => SoundItems items
  | .object members => SoundMembers members
  | .null | .bool _ | .string _ => True

def SoundItems : List Json → Prop
  | [] => True
  | item :: items => Sound item ∧ SoundItems items

def SoundMembers : List (List Char × Json) → Prop
  | [] => True
  | (_, item) :: members => Sound item ∧ SoundMembers members

end

mutual

theorem Sound.compact : ∀ {value : Json}, value.Sound → Value value value.compact
  | .null, _ => .null
  | .bool true, _ => .true
  | .bool false, _ => .false
  | .number _, sound => .number (by rwa [Sound] at sound)
  | .string text, _ => .string (literal_quote text)
  | .array _, sound => by
      rw [Sound] at sound
      rw [Json.compact]
      exact Value.of_values (compactItems_values sound)
  | .object _, sound => by
      rw [Sound] at sound
      rw [Json.compact]
      exact Value.of_fields (compactMembers_fields sound)

theorem compactItems_values : ∀ {items : List Json}, SoundItems items →
    List.Forall₂ Value items (compactItems items)
  | [], _ => by
      rw [compactItems]
      exact .nil
  | _ :: _, sound => by
      rw [SoundItems] at sound
      rw [compactItems]
      exact .cons sound.1.compact (compactItems_values sound.2)

theorem compactMembers_fields : ∀ {members : List (List Char × Json)}, SoundMembers members →
    List.Forall₂ Field members (compactMembers members)
  | [], _ => by
      rw [compactMembers]
      exact .nil
  | (name, _) :: _, sound => by
      rw [SoundMembers] at sound
      rw [compactMembers]
      exact .cons (.pair (literal_quote name) sound.1.compact) (compactMembers_fields sound.2)

end

/-- The text of a value is parsed back to it. -/
theorem parse_compact {value : Json} (sound : value.Sound) : parse value.compact = some value :=
  sound.compact.document.parse_eq

end AiCoreStack.Foundation.Json
