import Mathlib

/-!
# Texts as scalar-value lists with UTF-8 byte offsets

A Rust `&str` is determined by its list of Unicode scalar values.  Byte offsets
are recovered from the encoded width of each scalar.  An offset inside an encoded
scalar is not a boundary, and slicing there yields `none`, the model's rendering
of the slicing panic.
-/

namespace AiCoreStack.Foundation

open String (utf8Len utf8Len_nil utf8Len_cons utf8Len_append utf8Len_eq_zero)

theorem length_le_utf8Len (text : List Char) : text.length ≤ utf8Len text := by
  induction text with
  | nil => simp
  | cons c text ih =>
      have positive := Char.utf8Size_pos c
      simp only [List.length_cons, utf8Len_cons]
      omega

theorem utf8Len_pos {text : List Char} (nonempty : text ≠ []) :
    0 < utf8Len text := by
  have positive := List.length_pos_of_ne_nil nonempty
  have bound := length_le_utf8Len text
  omega

/-- Cut a text at a byte offset; `none` when the offset is past the end or
inside an encoded scalar. -/
def splitAtByte : List Char → Nat → Option (List Char × List Char)
  | text, 0 => some ([], text)
  | [], _ + 1 => none
  | c :: text, offset + 1 =>
      if c.utf8Size ≤ offset + 1 then
        (splitAtByte text (offset + 1 - c.utf8Size)).map
          fun cut => (c :: cut.1, cut.2)
      else
        none

@[simp] theorem splitAtByte_zero (text : List Char) :
    splitAtByte text 0 = some ([], text) := by
  cases text <;> rfl

theorem splitAtByte_append (left right : List Char) :
    splitAtByte (left ++ right) (utf8Len left) = some (left, right) := by
  induction left with
  | nil => simp
  | cons c left ih =>
      have positive := Char.utf8Size_pos c
      obtain ⟨width, widthEq⟩ : ∃ width, utf8Len left + c.utf8Size = width + 1 :=
        ⟨utf8Len left + c.utf8Size - 1, by omega⟩
      have fits : c.utf8Size ≤ width + 1 := by omega
      have rest : width + 1 - c.utf8Size = utf8Len left := by omega
      simp only [List.cons_append, utf8Len_cons, widthEq, splitAtByte, fits,
        if_true, rest, ih, Option.map_some]

/-- A successful cut splits the text exactly at the requested offset. -/
theorem splitAtByte_eq_some {text : List Char} {offset : Nat}
    {left right : List Char} :
    splitAtByte text offset = some (left, right) ↔
      text = left ++ right ∧ utf8Len left = offset := by
  constructor
  · intro cut
    induction text generalizing offset left right with
    | nil =>
        cases offset with
        | zero =>
            simp only [splitAtByte, Option.some.injEq, Prod.mk.injEq] at cut
            obtain ⟨rfl, rfl⟩ := cut
            exact ⟨rfl, rfl⟩
        | succ offset => simp [splitAtByte] at cut
    | cons c text ih =>
        cases offset with
        | zero =>
            simp only [splitAtByte, Option.some.injEq, Prod.mk.injEq] at cut
            obtain ⟨rfl, rfl⟩ := cut
            exact ⟨rfl, rfl⟩
        | succ offset =>
            simp only [splitAtByte] at cut
            split at cut
            next fits =>
              rw [Option.map_eq_some_iff] at cut
              obtain ⟨⟨head, tail⟩, inner, pair⟩ := cut
              obtain ⟨rfl, width⟩ := ih inner
              simp only [Prod.mk.injEq] at pair
              obtain ⟨rfl, rfl⟩ := pair
              exact ⟨rfl, by simp only [utf8Len_cons]; omega⟩
            next => exact absurd cut (by simp)
  · rintro ⟨rfl, rfl⟩
    exact splitAtByte_append left right

/-- The offset lies between two encoded scalars (or at either end). -/
def IsBoundary (text : List Char) (offset : Nat) : Prop :=
  ∃ left right, text = left ++ right ∧ utf8Len left = offset

theorem isBoundary_iff_isSome {text : List Char} {offset : Nat} :
    IsBoundary text offset ↔ (splitAtByte text offset).isSome := by
  rw [Option.isSome_iff_exists]
  constructor
  · rintro ⟨left, right, cut⟩
    exact ⟨(left, right), splitAtByte_eq_some.mpr cut⟩
  · rintro ⟨⟨left, right⟩, cut⟩
    exact ⟨left, right, splitAtByte_eq_some.mp cut⟩

instance (text : List Char) (offset : Nat) : Decidable (IsBoundary text offset) :=
  decidable_of_iff _ isBoundary_iff_isSome.symm

theorem IsBoundary.le_utf8Len {text : List Char} {offset : Nat}
    (boundary : IsBoundary text offset) : offset ≤ utf8Len text := by
  obtain ⟨left, right, rfl, rfl⟩ := boundary
  simp

/-- Two cuts of one text at the same byte offset are the same cut. -/
theorem append_inj_of_utf8Len {left left' right right' : List Char}
    (same : left ++ right = left' ++ right')
    (width : utf8Len left = utf8Len left') : left = left' ∧ right = right' := by
  have first := splitAtByte_append left right
  rw [same, width, splitAtByte_append] at first
  simp only [Option.some.injEq, Prod.mk.injEq] at first
  exact ⟨first.1.symm, first.2.symm⟩

/-- Two cuts of one text in letter order are nested. -/
theorem leads_of_cuts {α : Type} {text front back front' back' : List α}
    (cut : text = front ++ back) (cut' : text = front' ++ back')
    (short : front.length ≤ front'.length) : front <+: front' :=
  List.prefix_of_prefix_length_le ⟨back, cut.symm⟩ ⟨back', cut'.symm⟩ short

/-- Two cuts of one text in byte order are nested. -/
theorem exists_append_of_utf8Len_le {left left' right right' : List Char}
    (same : left ++ right = left' ++ right')
    (ordered : utf8Len left ≤ utf8Len left') :
    ∃ middle, left' = left ++ middle ∧ right = middle ++ right' := by
  rcases List.append_eq_append_iff.mp same with
    ⟨middle, leftEq, rightEq⟩ | ⟨middle, leftEq, rightEq⟩
  · exact ⟨middle, leftEq, rightEq⟩
  · subst leftEq
    have empty : middle = [] := by
      rw [← utf8Len_eq_zero]
      simp only [utf8Len_append] at ordered
      omega
    subst empty
    exact ⟨[], by simp, by simpa using rightEq.symm⟩

/-- Byte-indexed slice `text[start..stop]`; `none` stands for the panic on a
reversed, out-of-range, or misaligned range. -/
def sliceBytes (text : List Char) (start stop : Nat) : Option (List Char) :=
  if start ≤ stop then
    match splitAtByte text start with
    | none => none
    | some (_, rest) => (splitAtByte rest (stop - start)).map Prod.fst
  else
    none

theorem sliceBytes_append (before middle after : List Char) :
    sliceBytes (before ++ middle ++ after) (utf8Len before)
      (utf8Len before + utf8Len middle) = some middle := by
  have first := splitAtByte_append before (middle ++ after)
  have second := splitAtByte_append middle after
  simp [sliceBytes, first, second]

/-- A successful slice names the text before, inside, and after it. -/
theorem sliceBytes_eq_some {text middle : List Char} {start stop : Nat} :
    sliceBytes text start stop = some middle ↔
      ∃ before after, text = before ++ middle ++ after ∧
        utf8Len before = start ∧ start + utf8Len middle = stop := by
  constructor
  · intro slice
    simp only [sliceBytes] at slice
    split at slice
    next ordered =>
      split at slice
      next => exact absurd slice (by simp)
      next left rest cut =>
        rw [Option.map_eq_some_iff] at slice
        obtain ⟨⟨inside, after⟩, inner, rfl⟩ := slice
        obtain ⟨rfl, width⟩ := splitAtByte_eq_some.mp inner
        obtain ⟨rfl, rfl⟩ := splitAtByte_eq_some.mp cut
        exact ⟨left, after, by simp, rfl, by dsimp only; omega⟩
    next => exact absurd slice (by simp)
  · rintro ⟨before, after, rfl, rfl, rfl⟩
    exact sliceBytes_append before middle after

theorem sliceBytes_whole (text : List Char) : sliceBytes text 0 (utf8Len text) = some text :=
  sliceBytes_eq_some.mpr ⟨[], [], by simp, rfl, by simp⟩

/-- Adjacent slices make one slice. -/
theorem sliceBytes_join {text left right : List Char} {start middle stop : Nat}
    (first : sliceBytes text start middle = some left)
    (second : sliceBytes text middle stop = some right) :
    sliceBytes text start stop = some (left ++ right) := by
  obtain ⟨before, after, rfl, rfl, rfl⟩ := sliceBytes_eq_some.mp first
  obtain ⟨before', after', whole, width, rfl⟩ := sliceBytes_eq_some.mp second
  rw [List.append_assoc before' right after', ← utf8Len_append] at *
  obtain ⟨rfl, rfl⟩ := append_inj_of_utf8Len whole width.symm
  apply sliceBytes_eq_some.mpr
  refine ⟨before, after', by simp, rfl, ?_⟩
  simp only [utf8Len_append]
  omega

theorem sliceBytes_isSome {text : List Char} {start stop : Nat}
    (ordered : start ≤ stop) (first : IsBoundary text start)
    (last : IsBoundary text stop) : (sliceBytes text start stop).isSome := by
  obtain ⟨before, rest, rfl, rfl⟩ := first
  obtain ⟨left, after, same, rfl⟩ := last
  obtain ⟨middle, rfl, rfl⟩ := exists_append_of_utf8Len_le same ordered
  have slice := sliceBytes_append before middle after
  simp only [List.append_assoc] at slice
  simp [slice]

end AiCoreStack.Foundation
