import Mathlib

/-!
# Delimited fields

Fields between separators, where an escape character in front of a separator protects it.
The reader cuts at the separators that stand behind an even number of escape characters.
The writer leaves the escape characters of a field alone, so a field stays whole exactly
when none of its separators stands behind an odd number of them.
-/

namespace AiCoreStack.Foundation

/-- A separator and the character that protects it. -/
structure Delimiter (α : Type) where
  separator : α
  escape : α
  distinct : separator ≠ escape

namespace Delimiter

variable {α : Type} [DecidableEq α] (self : Delimiter α)

/-- Whether the character behind a text is escaped: the text ends with an odd number of
escape characters. -/
def Escapes (front : List α) : Prop := Odd (front.rtakeWhile (· = self.escape)).length

instance (front : List α) : Decidable (self.Escapes front) :=
  inferInstanceAs (Decidable (Odd _))

/-- Cut a text that stands behind `front` at every separator that is not escaped. -/
def splitFrom (front : List α) : List α → List (List α)
  | [] => [[]]
  | c :: rest =>
      if c = self.separator ∧ ¬ self.Escapes front then [] :: splitFrom (front ++ [c]) rest
      else (splitFrom (front ++ [c]) rest).modifyHead (c :: ·)

def split (text : List α) : List (List α) := self.splitFrom [] text

/-- The pieces between the outer separators of a line. -/
def fields (line : List α) : List (List α) := ((self.split line).drop 1).dropLast

/-- Escape every separator. -/
def protect (text : List α) : List α :=
  text.flatMap fun c => if c = self.separator then [self.escape, self.separator] else [c]

/-- Drop the escape character in front of every separator. -/
def unprotect : List α → List α
  | [] => []
  | [c] => [c]
  | c :: d :: rest =>
      if c = self.escape ∧ d = self.separator then d :: unprotect rest
      else c :: unprotect (d :: rest)

/-- No separator of a text is escaped already. -/
def Clean (text : List α) : Prop :=
  ∀ front rest, text = front ++ self.separator :: rest → ¬ self.Escapes front

/-! ## Counting escape characters -/

@[simp] theorem not_escapes_nil : ¬ self.Escapes [] := by
  simp [Escapes]

@[simp] theorem escapes_snoc (front : List α) (c : α) :
    self.Escapes (front ++ [c]) ↔ c = self.escape ∧ ¬ self.Escapes front := by
  by_cases escaping : c = self.escape
  · rw [Escapes, List.rtakeWhile_concat_pos _ _ _ (by simpa using escaping)]
    simp [escaping, Escapes, Nat.odd_add_one]
  · rw [Escapes, List.rtakeWhile_concat_neg _ _ _ (by simpa using escaping)]
    simp [escaping]

/-- What stands in front of a text matters only for its first character. -/
theorem splitFrom_congr {front other : List α}
    (same : self.Escapes front ↔ self.Escapes other) (text : List α) :
    self.splitFrom front text = self.splitFrom other text := by
  induction text generalizing front other with
  | nil => rfl
  | cons c rest ih =>
      have next : self.Escapes (front ++ [c]) ↔ self.Escapes (other ++ [c]) := by
        simp only [escapes_snoc, same]
      simp only [splitFrom, same, ih next]

theorem splitFrom_ne_nil (front text : List α) : self.splitFrom front text ≠ [] := by
  induction text generalizing front with
  | nil => exact List.cons_ne_nil _ _
  | cons c rest ih =>
      rw [splitFrom]
      split
      · exact List.cons_ne_nil _ _
      · simpa using ih (front ++ [c])

theorem splitFrom_length_pos (front text : List α) : 0 < (self.splitFrom front text).length :=
  List.length_pos_iff.mpr (self.splitFrom_ne_nil front text)

/-- A text that is not cut is its only piece. -/
theorem splitFrom_of_length_one {front text : List α}
    (whole : (self.splitFrom front text).length = 1) : self.splitFrom front text = [text] := by
  induction text generalizing front with
  | nil => rfl
  | cons c rest ih =>
      rw [splitFrom] at whole ⊢
      have behind := self.splitFrom_length_pos (front ++ [c]) rest
      split at whole
      · rw [List.length_cons] at whole
        omega
      next stays =>
        rw [List.length_modifyHead] at whole
        rw [if_neg stays, ih whole]
        rfl

/-- A character that is neither separator nor escape lets the separator behind it cut. -/
theorem splitFrom_append_separator {c : α} (other : c ≠ self.separator)
    (plain : c ≠ self.escape) (front left rest : List α) :
    self.splitFrom front (left ++ c :: self.separator :: rest) =
      self.splitFrom front (left ++ [c]) ++ self.split rest := by
  induction left generalizing front with
  | nil =>
      have cuts : ¬ self.Escapes (front ++ [c]) := by simp [plain]
      have behind : self.splitFrom (front ++ [c] ++ [self.separator]) rest = self.split rest := by
        apply splitFrom_congr
        simp only [escapes_snoc, self.distinct, false_and, not_escapes_nil]
      simp only [List.nil_append, splitFrom, other, false_and, if_false, cuts, not_false_eq_true,
        and_self, if_true, behind]
      rfl
  | cons first left ih =>
      simp only [List.cons_append, splitFrom, ih]
      split
      · rfl
      · obtain ⟨piece, pieces, split⟩ :=
          List.exists_cons_of_ne_nil (self.splitFrom_ne_nil (front ++ [first]) (left ++ [c]))
        rw [split]
        rfl

/-! ## Escaping -/

theorem unprotect_cons_of_ne {c : α} (plain : c ≠ self.escape) (rest : List α) :
    self.unprotect (c :: rest) = c :: self.unprotect rest := by
  cases rest with
  | nil => rfl
  | cons d rest => rw [unprotect, if_neg fun shields => plain shields.1]

@[simp] theorem protect_nil : self.protect [] = [] := rfl

theorem protect_cons (c : α) (text : List α) :
    self.protect (c :: text) =
      (if c = self.separator then [self.escape, self.separator] else [c]) ++ self.protect text :=
  List.flatMap_cons

theorem protect_append (left right : List α) :
    self.protect (left ++ right) = self.protect left ++ self.protect right :=
  List.flatMap_append

theorem protect_singleton {c : α} (other : c ≠ self.separator) : self.protect [c] = [c] := by
  simp [protect, other]

/-- An escape character stays in front of whatever is protected behind it. -/
theorem unprotect_escape_protect (text : List α) :
    self.unprotect (self.escape :: self.protect text) =
      self.escape :: self.unprotect (self.protect text) := by
  cases text with
  | nil => rfl
  | cons c text =>
      rw [protect_cons]
      split
      · exact if_neg fun shields => self.distinct shields.2.symm
      next other => exact if_neg fun shields => other shields.2

theorem unprotect_protect (text : List α) : self.unprotect (self.protect text) = text := by
  induction text with
  | nil => rfl
  | cons c text ih =>
      rw [protect_cons]
      split
      next separates =>
        rw [separates, List.cons_append, List.singleton_append, unprotect, if_pos ⟨rfl, rfl⟩, ih]
      · rw [List.singleton_append]
        by_cases escaping : c = self.escape
        · rw [escaping, unprotect_escape_protect, ih]
        · rw [unprotect_cons_of_ne self escaping, ih]

/-! ## Texts that stay whole -/

/-- `Clean` for a text that stands behind `front`. -/
def CleanFrom (front text : List α) : Prop :=
  ∀ left rest, text = left ++ self.separator :: rest → ¬ self.Escapes (front ++ left)

theorem cleanFrom_cons (front : List α) (c : α) (text : List α) :
    self.CleanFrom front (c :: text) ↔
      (c = self.separator → ¬ self.Escapes front) ∧ self.CleanFrom (front ++ [c]) text := by
  constructor
  · intro clean
    constructor
    · intro separates
      simpa using clean [] text (by rw [separates, List.nil_append])
    · intro left rest text
      simpa using clean (c :: left) rest (by rw [text, List.cons_append])
  · rintro ⟨first, later⟩ left rest text
    cases left with
    | nil =>
        rw [List.append_nil]
        exact first (List.cons.inj text).1
    | cons d left =>
        obtain ⟨rfl, behind⟩ := List.cons.inj text
        simpa using later left rest behind

theorem clean_iff_cleanFrom (text : List α) : self.Clean text ↔ self.CleanFrom [] text :=
  Iff.rfl

/-- A protected text is cut exactly at the separators that were escaped in the text. -/
theorem length_splitFrom_protect {front written : List α}
    (same : self.Escapes written ↔ self.Escapes front) (text : List α) :
    (self.splitFrom written (self.protect text)).length = 1 ↔ self.CleanFrom front text := by
  induction text generalizing front written with
  | nil => simp [splitFrom, CleanFrom]
  | cons c text ih =>
      rw [protect_cons, cleanFrom_cons]
      split
      next separates =>
        subst separates
        have behind : self.Escapes (written ++ [self.escape] ++ [self.separator]) ↔
            self.Escapes (front ++ [self.separator]) := by
          simp only [escapes_snoc, self.distinct, false_and]
        have cut : self.Escapes (written ++ [self.escape]) ↔ ¬ self.Escapes front := by
          simp only [escapes_snoc, true_and, same]
        have pieces := self.splitFrom_length_pos (written ++ [self.escape] ++ [self.separator])
          (self.protect text)
        simp only [List.cons_append, List.nil_append, splitFrom, self.distinct.symm, false_and,
          if_false, List.length_modifyHead, true_and, cut, not_not]
        by_cases escaped : self.Escapes front
        · simp only [escaped, if_true, List.length_cons, not_true_eq_false, imp_false, false_and,
            iff_false]
          omega
        · simp only [escaped, if_false, List.length_modifyHead, ih behind, not_false_eq_true,
            implies_true, true_and]
      next other =>
        have next : self.Escapes (written ++ [c]) ↔ self.Escapes (front ++ [c]) := by
          simp only [escapes_snoc, same]
        simp only [List.cons_append, List.nil_append, splitFrom, other, false_and, if_false,
          List.length_modifyHead, ih next, false_imp_iff, true_and]

instance (text : List α) : Decidable (self.Clean text) :=
  decidable_of_iff ((self.split (self.protect text)).length = 1)
    (self.length_splitFrom_protect Iff.rfl text)

theorem cleanFrom_congr {front other : List α} (same : self.Escapes front ↔ self.Escapes other)
    (text : List α) : self.CleanFrom front text ↔ self.CleanFrom other text := by
  rw [← length_splitFrom_protect self Iff.rfl, ← length_splitFrom_protect self Iff.rfl,
    splitFrom_congr self same]

/-- A character that is neither separator nor escape parts a text. -/
theorem clean_append_cons {c : α} (other : c ≠ self.separator) (plain : c ≠ self.escape)
    (left right : List α) :
    self.Clean (left ++ c :: right) ↔ self.Clean left ∧ self.Clean right := by
  have parts (front : List α) : self.CleanFrom front (left ++ c :: right) ↔
      self.CleanFrom front left ∧ self.Clean right := by
    induction left generalizing front with
    | nil =>
        have forgets : self.Escapes (front ++ [c]) ↔ self.Escapes [] := by simp [plain]
        have forgets := self.cleanFrom_congr forgets right
        rw [List.nil_append, cleanFrom_cons, forgets]
        simp [other, CleanFrom, Clean]
    | cons first left ih =>
        rw [List.cons_append, cleanFrom_cons, cleanFrom_cons, ih, and_assoc]
  exact parts []

@[simp] theorem clean_nil : self.Clean [] := by
  intro front rest text
  simp at text

/-! ## Lines of fields -/

variable {blank : α}

/-- A protected field between blanks. -/
def pad (blank : α) (field : List α) : List α := blank :: self.protect field ++ [blank]

/-- A line of fields with a separator at either end. -/
def line (blank : α) (items : List (List α)) : List α :=
  self.separator :: items.flatMap fun field => self.pad blank field ++ [self.separator]

theorem mem_protect {c : α} {text : List α} (member : c ∈ self.protect text) :
    c = self.escape ∨ c ∈ text := by
  obtain ⟨d, here, written⟩ := List.mem_flatMap.mp member
  split at written
  next separates =>
    simp only [← separates, List.mem_cons, List.not_mem_nil, or_false] at written
    rcases written with escapes | rfl
    · exact .inl escapes
    · exact .inr here
  · obtain rfl := List.mem_singleton.mp written
    exact .inr here

/-- A line is made of its items, blanks and the two characters of the delimiter. -/
theorem mem_line {c : α} {items : List (List α)} (member : c ∈ self.line blank items) :
    c = self.separator ∨ c = self.escape ∨ c = blank ∨ ∃ field ∈ items, c ∈ field := by
  rcases List.mem_cons.mp member with first | later
  · exact .inl first
  obtain ⟨field, here, written⟩ := List.mem_flatMap.mp later
  simp only [pad, List.mem_append, List.mem_cons, List.not_mem_nil, or_false] at written
  rcases written with ((front | inside) | back) | last
  · exact .inr (.inr (.inl front))
  · rcases self.mem_protect inside with escapes | within
    · exact .inr (.inl escapes)
    · exact .inr (.inr (.inr ⟨field, here, within⟩))
  · exact .inr (.inr (.inl back))
  · exact .inl last

theorem getLast?_line (items : List (List α)) :
    (self.line blank items).getLast? = some self.separator := by
  rcases List.eq_nil_or_concat items with rfl | ⟨front, field, rfl⟩
  · rfl
  · rw [line, List.concat_eq_append, List.flatMap_append, List.flatMap_singleton,
      ← List.append_assoc, ← List.cons_append, List.getLast?_concat]

theorem clean_pad (other : blank ≠ self.separator) (plain : blank ≠ self.escape)
    (field : List α) : self.Clean (blank :: field ++ [blank]) ↔ self.Clean field := by
  have front := self.clean_append_cons other plain [] (field ++ [blank])
  have back := self.clean_append_cons other plain field []
  rw [List.nil_append] at front
  rw [List.cons_append, front, back]
  simp

theorem length_split_pad (other : blank ≠ self.separator) (plain : blank ≠ self.escape)
    (field : List α) : (self.split (self.pad blank field)).length = 1 ↔ self.Clean field := by
  have written : self.pad blank field = self.protect (blank :: field ++ [blank]) := by
    rw [List.cons_append, protect_cons, if_neg other, protect_append,
      self.protect_singleton other]
    rfl
  rw [written, split, length_splitFrom_protect self Iff.rfl, ← clean_iff_cleanFrom,
    self.clean_pad other plain]

theorem split_line (other : blank ≠ self.separator) (plain : blank ≠ self.escape)
    (items : List (List α)) :
    self.split (self.line blank items) =
      [] :: (items.flatMap fun field => self.split (self.pad blank field)) ++ [[]] := by
  have behind (rest : List α) :
      self.split (self.separator :: rest) = [] :: self.split rest := by
    rw [split, splitFrom, if_pos ⟨rfl, self.not_escapes_nil⟩]
    congr 1
    apply splitFrom_congr
    rw [escapes_snoc]
    simp [self.distinct]
  rw [line, behind, List.cons_append]
  congr 1
  induction items with
  | nil => rfl
  | cons field items ih =>
      have joined (rest : List α) : self.pad blank field ++ [self.separator] ++ rest =
          (blank :: self.protect field) ++ blank :: self.separator :: rest := by
        simp [pad]
      rw [List.flatMap_cons, joined, split, splitFrom_append_separator self other plain, ih,
        List.flatMap_cons, List.append_assoc]
      rfl

theorem fields_line (other : blank ≠ self.separator) (plain : blank ≠ self.escape)
    (items : List (List α)) :
    self.fields (self.line blank items) =
      items.flatMap fun field => self.split (self.pad blank field) := by
  rw [fields, split_line self other plain, List.cons_append, List.drop_one, List.tail_cons,
    List.dropLast_concat]

/-- A line has as many fields as items exactly when no item is cut. -/
theorem length_fields_line (other : blank ≠ self.separator) (plain : blank ≠ self.escape)
    (items : List (List α)) :
    (self.fields (self.line blank items)).length = items.length ↔
      ∀ field ∈ items, self.Clean field := by
  have most (items : List (List α)) :
      items.length ≤ (self.fields (self.line blank items)).length := by
    rw [fields_line self other plain]
    induction items with
    | nil => exact Nat.zero_le _
    | cons field items ih =>
        have present := self.splitFrom_length_pos [] (self.pad blank field)
        rw [List.flatMap_cons, List.length_append, List.length_cons, split]
        omega
  induction items with
  | nil => simp [fields_line self other plain]
  | cons field items ih =>
      have rest := most items
      have present := self.splitFrom_length_pos [] (self.pad blank field)
      have parts : (self.fields (self.line blank (field :: items))).length =
          (self.split (self.pad blank field)).length +
            (self.fields (self.line blank items)).length := by
        simp only [fields_line self other plain, List.flatMap_cons, List.length_append]
      rw [List.forall_mem_cons, parts, List.length_cons]
      have later : (∀ field ∈ items, self.Clean field) ↔ _ := ih.symm
      rw [later, ← self.length_split_pad other plain field, split]
      omega

/-- A line of clean items is read back. -/
theorem fields_line_of_clean (other : blank ≠ self.separator) (plain : blank ≠ self.escape)
    {items : List (List α)} (clean : ∀ field ∈ items, self.Clean field) :
    self.fields (self.line blank items) = items.map (self.pad blank) := by
  rw [fields_line self other plain]
  induction items with
  | nil => rfl
  | cons field items ih =>
      obtain ⟨first, later⟩ := List.forall_mem_cons.mp clean
      have whole := self.splitFrom_of_length_one ((self.length_split_pad other plain field).mpr first)
      rw [List.flatMap_cons, ih later, split, whole]
      rfl

end Delimiter
end AiCoreStack.Foundation
