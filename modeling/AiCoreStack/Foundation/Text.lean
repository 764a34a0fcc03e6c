import Mathlib

/-!
# Text and its blanks

The string operations of the standard library that cut at blanks or drop them, and what
they keep: the *ink* of a text is the bag of its characters that are not blank.  No
operation of this module that only moves blanks changes the ink.
-/

namespace AiCoreStack.Foundation

section Ink

variable {α : Type} (blank : α → Bool)

/-- The characters of a text that are not blank, each as often as it occurs. -/
def ink (text : List α) : Multiset α := ↑(text.filter fun c => !blank c)

@[simp] theorem ink_nil : ink blank [] = 0 := rfl

theorem ink_cons_of_blank {c : α} (isBlank : blank c = true) (text : List α) :
    ink blank (c :: text) = ink blank text := by
  rw [ink, List.filter_cons_of_neg (by simp [isBlank]), ink]

@[simp] theorem ink_append (left right : List α) :
    ink blank (left ++ right) = ink blank left + ink blank right := by
  rw [ink, List.filter_append, ← Multiset.coe_add]
  rfl

theorem ink_cons (c : α) (text : List α) :
    ink blank (c :: text) = ink blank [c] + ink blank text :=
  ink_append blank [c] text

@[simp] theorem ink_reverse (text : List α) : ink blank text.reverse = ink blank text := by
  rw [ink, List.filter_reverse, Multiset.coe_reverse]
  rfl

theorem ink_flatten (parts : List (List α)) :
    ink blank parts.flatten = (parts.map (ink blank)).sum := by
  induction parts with
  | nil => rfl
  | cons part parts ih =>
      rw [List.flatten_cons, ink_append, ih, List.map_cons, List.sum_cons]

theorem ink_flatMap {β : Type} (f : β → List α) (items : List β) :
    ink blank (items.flatMap f) = (items.map fun item => ink blank (f item)).sum := by
  rw [List.flatMap_def, ink_flatten, List.map_map]
  rfl

theorem ink_eq_zero_iff (text : List α) :
    ink blank text = 0 ↔ ∀ c ∈ text, blank c = true := by
  simp [ink]

/-! ## Dropping blanks at the ends -/

/-- `trim`: the text without the blanks at its ends. -/
def trim (text : List α) : List α := (text.dropWhile blank).rdropWhile blank

theorem ink_dropWhile {drop : α → Bool} (only : ∀ c, drop c = true → blank c = true)
    (text : List α) : ink blank (text.dropWhile drop) = ink blank text := by
  induction text with
  | nil => rfl
  | cons c text ih =>
      cases dropped : drop c with
      | true =>
          rw [List.dropWhile_cons_of_pos dropped, ih, ink_cons_of_blank blank (only c dropped)]
      | false => rw [List.dropWhile_cons_of_neg (by simp [dropped])]

theorem ink_rdropWhile {drop : α → Bool} (only : ∀ c, drop c = true → blank c = true)
    (text : List α) : ink blank (text.rdropWhile drop) = ink blank text := by
  rw [List.rdropWhile, ink_reverse, ink_dropWhile blank only, ink_reverse]

@[simp] theorem ink_trim (text : List α) : ink blank (trim blank text) = ink blank text := by
  rw [trim, ink_rdropWhile blank fun _ dropped => dropped,
    ink_dropWhile blank fun _ dropped => dropped]

theorem trim_eq_nil_iff (text : List α) : trim blank text = [] ↔ ink blank text = 0 := by
  constructor
  · intro empty
    rw [← ink_trim, empty, ink_nil]
  · intro blanks
    rw [ink_eq_zero_iff] at blanks
    rw [trim, List.dropWhile_eq_nil_iff.mpr blanks, List.rdropWhile_nil]

/-! ## Cutting at blanks -/

/-- `split_whitespace`: the maximal pieces without a blank. -/
def words (text : List α) : List (List α) := (text.splitOnP blank).filter fun word => !word.isEmpty

theorem sum_ink_splitOnP (text : List α) :
    ((text.splitOnP blank).map (ink blank)).sum = ink blank text := by
  induction text with
  | nil => rfl
  | cons c text ih =>
      rw [List.splitOnP_cons_eq_if_modifyHead]
      cases isBlank : blank c with
      | true =>
          rw [if_pos rfl, List.map_cons, List.sum_cons, ih, ink_cons_of_blank blank isBlank,
            ink_nil, zero_add]
      | false =>
          obtain ⟨word, rest, split⟩ := List.exists_cons_of_ne_nil (List.splitOnP_ne_nil blank text)
          rw [split, List.map_cons, List.sum_cons] at ih
          rw [if_neg (by simp), split, List.modifyHead_cons, List.map_cons, List.sum_cons,
            ink_cons blank c text, ← ih, ink_cons blank c word, add_assoc]

theorem sum_ink_words (text : List α) : ((words blank text).map (ink blank)).sum = ink blank text := by
  have dropped (parts : List (List α)) :
      ((parts.filter fun word => !word.isEmpty).map (ink blank)).sum =
        (parts.map (ink blank)).sum := by
    induction parts with
    | nil => rfl
    | cons part parts ih =>
        cases part with
        | nil => simpa using ih
        | cons c rest => simp [ih]
  rw [words, dropped, sum_ink_splitOnP]

/-- Joining with blanks adds no ink. -/
theorem ink_intercalate {separator : List α} (isBlank : ink blank separator = 0)
    (parts : List (List α)) :
    ink blank (separator.intercalate parts) = (parts.map (ink blank)).sum := by
  induction parts with
  | nil => rfl
  | cons part parts ih =>
      cases parts with
      | nil => simp [List.intercalate]
      | cons next rest =>
          rw [List.intercalate_cons_cons, ink_append, ink_append, ih, isBlank, add_zero,
            List.map_cons (a := part), List.sum_cons]

end Ink

/-! ## Strings -/

/-- `char::is_whitespace`: the Unicode `White_Space` property. -/
def isWhitespace (c : Char) : Bool :=
  let n := c.toNat
  (9 ≤ n ∧ n ≤ 13) ∨ n = 0x20 ∨ n = 0x85 ∨ n = 0xA0 ∨ n = 0x1680 ∨
    (0x2000 ≤ n ∧ n ≤ 0x200A) ∨ n = 0x2028 ∨ n = 0x2029 ∨ n = 0x202F ∨ n = 0x205F ∨
    n = 0x3000

/-- Decimal numerals have digits only. -/
theorem notMem_toDigits {c : Char} (other : c.isDigit = false) (n : Nat) :
    c ∉ Nat.toDigits 10 n := by
  intro member
  rw [Nat.isDigit_of_mem_toDigits (by decide) (by decide) member] at other
  exact absurd other (by decide)

/-- `split_whitespace().collect().join(" ")`. -/
def collapse (text : List Char) : List Char := [' '].intercalate (words isWhitespace text)

theorem ink_collapse (text : List Char) :
    ink isWhitespace (collapse text) = ink isWhitespace text := by
  rw [collapse, ink_intercalate isWhitespace rfl, sum_ink_words]

/-- `str::lines`: the pieces between line feeds, without the carriage return in front of a
line feed and without an empty last piece. -/
def lines (text : List Char) : List (List Char) :=
  let pieces := text.splitOnP (· == '\n')
  pieces.dropLast.map (fun line => if line.getLast? = some '\r' then line.dropLast else line) ++
    (pieces.getLast?.toList.filter fun line => !line.isEmpty)

end AiCoreStack.Foundation
