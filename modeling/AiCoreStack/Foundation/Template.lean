import AiCoreStack.Foundation.Search

/-!
# Texts with marked slots

A template is a text with slots, each of which hides a value.  Its encoding puts
`opener ++ label ++ closer` in the place of every slot; `expandMarks` replaces such
marks by the values their labels are read as.  Expanding an encoding gives the
revealed text exactly when no stretch of plain text between two slots contains
the opener: whatever the expansion of one that does inserts, the texts differ.
-/

namespace AiCoreStack.Foundation

universe u

variable {α : Type u}

/-- A hidden value, its label, and the plain text up to the next slot. -/
structure Slot (α : Type u) where
  label : List α
  value : List α
  following : List α

/-- Plain text, then slots. -/
structure Template (α : Type u) where
  leading : List α
  slots : List (Slot α)

namespace Template

/-- The text with every value in place. -/
def revealed (template : Template α) : List α :=
  template.leading ++ template.slots.flatMap fun slot => slot.value ++ slot.following

/-- The text with a mark in place of every value. -/
def encoded (opener closer : List α) (template : Template α) : List α :=
  template.leading ++
    template.slots.flatMap fun slot => opener ++ slot.label ++ closer ++ slot.following

/-- The plain texts around the slots. -/
def stretches (template : Template α) : List (List α) :=
  template.leading :: template.slots.map Slot.following

@[simp] theorem revealed_nil (leading : List α) : revealed ⟨leading, []⟩ = leading := by
  simp [revealed]

@[simp] theorem encoded_nil (opener closer leading : List α) :
    encoded opener closer ⟨leading, []⟩ = leading := by
  simp [encoded]

theorem revealed_cons (leading : List α) (slot : Slot α) (slots : List (Slot α)) :
    revealed ⟨leading, slot :: slots⟩ =
      leading ++ (slot.value ++ revealed ⟨slot.following, slots⟩) := by
  simp [revealed]

theorem encoded_cons (opener closer leading : List α) (slot : Slot α) (slots : List (Slot α)) :
    encoded opener closer ⟨leading, slot :: slots⟩ =
      leading ++ opener ++ (slot.label ++ closer ++ encoded opener closer ⟨slot.following, slots⟩) := by
  simp [encoded]

theorem encoded_append (opener closer head tail : List α) (slots : List (Slot α)) :
    encoded opener closer ⟨head ++ tail, slots⟩ =
      head ++ encoded opener closer ⟨tail, slots⟩ := by
  simp [encoded]

theorem revealed_append (head tail : List α) (slots : List (Slot α)) :
    revealed ⟨head ++ tail, slots⟩ = head ++ revealed ⟨tail, slots⟩ := by
  simp [revealed]

theorem forall_stretches_cons {property : List α → Prop} {leading : List α} {slot : Slot α}
    {slots : List (Slot α)} :
    (∀ stretch ∈ stretches ⟨leading, slot :: slots⟩, property stretch) ↔
      property leading ∧ ∀ stretch ∈ stretches ⟨slot.following, slots⟩, property stretch := by
  simp [stretches]

end Template

variable [DecidableEq α]

/-- Replace every mark by the value its label is read as.  The closing mark is
`last :: closing`. -/
def expandMarks (opener : List α) (last : α) (closing : List α) (read : List α → Option (List α))
    (text : List α) : Option (List α) :=
  match found : splitOnce opener text with
  | none => some text
  | some (head, after) =>
      match closed : splitOnce (last :: closing) after with
      | none => none
      | some (label, tail) =>
          have : tail.length < text.length := by
            rw [splitOnce_append found, splitOnce_append closed]
            simp only [List.length_append, List.length_cons]
            omega
          match read label, expandMarks opener last closing read tail with
          | some value, some expanded => some (head ++ value ++ expanded)
          | _, _ => none
termination_by text.length

section Expand

variable {opener : List α} {last : α} {closing : List α} {read : List α → Option (List α)}

theorem expandMarks_of_absent {text : List α} (absent : ¬ opener <:+: text) :
    expandMarks opener last closing read text = some text := by
  rw [expandMarks]
  split
  next => rfl
  next head after found => exact absurd ⟨head, after, (splitOnce_append found).symm⟩ absent

/-- One mark is replaced. -/
theorem expandMarks_mark {text head label tail : List α} {after : List α}
    (found : splitOnce opener text = some (head, after))
    (closed : splitOnce (last :: closing) after = some (label, tail)) :
    expandMarks opener last closing read text =
      (read label).bind fun value =>
        (expandMarks opener last closing read tail).map fun expanded => head ++ value ++ expanded := by
  rw [expandMarks]
  split
  next none => rw [found] at none; exact absurd none (by simp)
  next head' after' found' =>
    rw [found, Option.some.injEq, Prod.mk.injEq] at found'
    obtain ⟨rfl, rfl⟩ := found'
    split
    next none => rw [closed] at none; exact absurd none (by simp)
    next label' tail' closed' =>
      rw [closed, Option.some.injEq, Prod.mk.injEq] at closed'
      obtain ⟨rfl, rfl⟩ := closed'
      cases read label <;> cases expandMarks opener last closing read tail <;> rfl

theorem expandMarks_unclosed {text head after : List α}
    (found : splitOnce opener text = some (head, after))
    (unclosed : splitOnce (last :: closing) after = none) :
    expandMarks opener last closing read text = none := by
  rw [expandMarks]
  split
  next none => rw [found] at none; exact absurd none (by simp)
  next head' after' found' =>
    rw [found, Option.some.injEq, Prod.mk.injEq] at found'
    obtain ⟨rfl, rfl⟩ := found'
    split
    next => rfl
    next label tail closed => rw [unclosed] at closed; exact absurd closed (by simp)

/-- A slot whose label the reader understands is expanded to its value. -/
theorem expandMarks_slot {leading : List α} {slot : Slot α} {slots : List (Slot α)}
    (borderFree : BorderFree opener) (clean : ¬ opener <:+: leading)
    (plain : last ∉ slot.label) (reads : read slot.label = some slot.value) :
    expandMarks opener last closing read
        (Template.encoded opener (last :: closing) ⟨leading, slot :: slots⟩) =
      (expandMarks opener last closing read
        (Template.encoded opener (last :: closing) ⟨slot.following, slots⟩)).map
          fun expanded => leading ++ slot.value ++ expanded := by
  rw [Template.encoded_cons, expandMarks_mark (splitOnce_of_absent borderFree clean)
    (splitOnce_of_head_not_mem plain), reads]
  rfl

/-- Expanding an encoding whose plain stretches are free of the opener reveals
the values. -/
theorem expandMarks_encoded (borderFree : BorderFree opener) (template : Template α)
    (plain : ∀ slot ∈ template.slots, last ∉ slot.label)
    (reads : ∀ slot ∈ template.slots, read slot.label = some slot.value)
    (clean : ∀ stretch ∈ template.stretches, ¬ opener <:+: stretch) :
    expandMarks opener last closing read (template.encoded opener (last :: closing)) =
      some template.revealed := by
  obtain ⟨leading, slots⟩ := template
  induction slots generalizing leading with
  | nil =>
      rw [Template.encoded_nil, Template.revealed_nil]
      apply expandMarks_of_absent
      exact clean leading (by simp [Template.stretches])
  | cons slot slots ih =>
      simp only [List.forall_mem_cons] at plain reads
      obtain ⟨cleanLeading, cleanRest⟩ := Template.forall_stretches_cons.mp clean
      rw [expandMarks_slot borderFree cleanLeading plain.1 reads.1,
        ih slot.following plain.2 reads.2 cleanRest, Template.revealed_cons, Option.map_some,
        List.append_assoc]

/-! ## The converse -/

variable {first : α} {opening : List α}

/-- A mark that opens in a plain stretch and can be read is closed there. -/
theorem closed_in_stretch {slots : List (Slot α)} {after label tail : List α}
    (distinct : first ∉ last :: closing) (unread : ∀ label, first ∈ label → read label = none)
    (closed : splitOnce (last :: closing) (Template.encoded (first :: opening)
      (last :: closing) ⟨after, slots⟩) = some (label, tail))
    (isRead : (read label).isSome) :
    ∃ inside, after = label ++ (last :: closing) ++ inside ∧
      tail = Template.encoded (first :: opening) (last :: closing) ⟨inside, slots⟩ := by
  have whole := splitOnce_append closed
  have absent : first ∉ label := by
    intro member
    rw [unread label member] at isRead
    exact absurd isRead (by simp)
  rw [← List.append_nil after, Template.encoded_append, List.append_assoc] at whole
  rcases List.append_eq_append_iff.mp whole with
    ⟨extra, labelEq, restEq⟩ | ⟨extra, afterEq, restEq⟩
  · -- the label would reach past the stretch, over the opener of the next slot
    cases slots with
    | nil => exact absurd restEq (by simp)
    | cons slot slots =>
        rw [Template.encoded_cons] at restEq
        cases extra with
        | nil =>
            simp only [List.nil_append, List.cons_append, List.cons.injEq] at restEq
            exact absurd (by simp [restEq.1]) distinct
        | cons a extra =>
            simp only [List.nil_append, List.cons_append, List.cons.injEq] at restEq
            exact absurd (by simp [labelEq, restEq.1]) absent
  · rcases List.append_eq_append_iff.mp restEq with
      ⟨inside, extraEq, tailEq⟩ | ⟨beyond, closerEq, tailEq⟩
    · refine ⟨inside, by simp [afterEq, extraEq], ?_⟩
      rw [tailEq, ← Template.encoded_append, List.append_nil]
    · -- the closer would reach over the opener of the next slot
      cases beyond with
      | nil =>
          refine ⟨[], by simp [afterEq, closerEq], ?_⟩
          simpa using tailEq.symm
      | cons a beyond =>
          cases slots with
          | nil => exact absurd tailEq (by simp)
          | cons slot slots =>
              rw [Template.encoded_cons] at tailEq
              simp only [List.nil_append, List.cons_append, List.cons.injEq] at tailEq
              exact absurd (by simp [closerEq, tailEq.1]) distinct

omit [DecidableEq α] in
/-- A text in front of a common head moves behind it. -/
theorem append_commute {head owed left right : List α}
    (same : head ++ left = owed ++ (head ++ right)) :
    ∃ owed', owed'.length = owed.length ∧ left = owed' ++ right := by
  rw [← List.append_assoc] at same
  rcases List.append_eq_append_iff.mp same with ⟨owed', split, leftEq⟩ | ⟨owed', split, rightEq⟩
  · have lengths := congrArg List.length split
    simp only [List.length_append] at lengths
    exact ⟨owed', by omega, leftEq⟩
  · have lengths := congrArg List.length split
    simp only [List.length_append] at lengths
    have empty : owed' = [] := List.eq_nil_of_length_eq_zero (by omega)
    exact ⟨[], by simp; omega, by simpa [empty] using rightEq.symm⟩

/-- A mark in a plain stretch: where the search finds it and what its expansion
leaves to expandMarks. -/
theorem expandMarks_stray {leading expansion : List α} {slots : List (Slot α)}
    (borderFree : BorderFree (first :: opening)) (distinct : first ∉ last :: closing)
    (unread : ∀ label, first ∈ label → read label = none)
    (occurs : (first :: opening) <:+: leading)
    (expands : expandMarks (first :: opening) last closing read (Template.encoded (first :: opening)
      (last :: closing) ⟨leading, slots⟩) = some expansion) :
    ∃ head label inside value expanded,
      leading = head ++ ((first :: opening) ++ label ++ (last :: closing) ++ inside) ∧
      read label = some value ∧
      expandMarks (first :: opening) last closing read (Template.encoded (first :: opening)
        (last :: closing) ⟨inside, slots⟩) = some expanded ∧
      expansion = head ++ (value ++ expanded) := by
  obtain ⟨head, after, foundLeading⟩ := splitOnce_isSome occurs
  have leadingEq := splitOnce_append foundLeading
  have found : splitOnce (first :: opening) (Template.encoded (first :: opening)
      (last :: closing) ⟨leading, slots⟩) =
        some (head, Template.encoded (first :: opening) (last :: closing) ⟨after, slots⟩) := by
    rw [leadingEq, List.append_assoc, Template.encoded_append, Template.encoded_append,
      ← List.append_assoc]
    exact splitOnce_of_absent borderFree (splitOnce_absent (by simp) foundLeading)
  cases closed : splitOnce (last :: closing)
      (Template.encoded (first :: opening) (last :: closing) ⟨after, slots⟩) with
  | none =>
      rw [expandMarks_unclosed found closed] at expands
      exact absurd expands (by simp)
  | some cut =>
      obtain ⟨label, tail⟩ := cut
      rw [expandMarks_mark found closed, Option.bind_eq_some_iff] at expands
      obtain ⟨value, isRead, mapped⟩ := expands
      obtain ⟨expanded, expandsTail, expansionEq⟩ := Option.map_eq_some_iff.mp mapped
      obtain ⟨inside, afterEq, rfl⟩ := closed_in_stretch distinct unread closed (by simp [isRead])
      refine ⟨head, label, inside, value, expanded, ?_, isRead, expandsTail, ?_⟩
      · rw [leadingEq, afterEq]
        simp
      · rw [← expansionEq, List.append_assoc]

/-- If an encoding expands to its revealed text behind some owed text, nothing is
owed and no plain stretch contains the opener.  A value is free of the opener, so
it cannot cover a mark of a stretch: every such mark adds to the debt. -/
theorem clean_of_expandMarks (borderFree : BorderFree (first :: opening))
    (distinct : first ∉ last :: closing) (unread : ∀ label, first ∈ label → read label = none)
    (free : ∀ label value, read label = some value → ¬ (first :: opening) <:+: value)
    (leading : List α) (slots : List (Slot α)) (plain : ∀ slot ∈ slots, last ∉ slot.label)
    (reads : ∀ slot ∈ slots, read slot.label = some slot.value) (owed : List α)
    (expands : expandMarks (first :: opening) last closing read (Template.encoded (first :: opening)
      (last :: closing) ⟨leading, slots⟩) =
        some (owed ++ Template.revealed ⟨leading, slots⟩)) :
    owed = [] ∧ ∀ stretch ∈ Template.stretches ⟨leading, slots⟩,
      ¬ (first :: opening) <:+: stretch := by
  by_cases occurs : (first :: opening) <:+: leading
  · exfalso
    obtain ⟨head, label, inside, value, expanded, leadingEq, isRead, expandsInside, same⟩ :=
      expandMarks_stray borderFree distinct unread occurs expands
    have shorter : inside.length < leading.length := by
      rw [leadingEq]
      simp only [List.length_append, List.length_cons]
      omega
    rw [leadingEq, Template.revealed_append, Template.revealed_append] at same
    obtain ⟨owed', -, rest⟩ := append_commute same.symm
    rw [← List.append_assoc] at rest
    rcases List.append_eq_append_iff.mp rest with ⟨debt, markEq, expandedEq⟩ | ⟨extra, valueEq, -⟩
    · rw [expandedEq] at expandsInside
      obtain ⟨rfl, -⟩ := clean_of_expandMarks borderFree distinct unread free inside slots plain reads
        debt expandsInside
      rw [List.append_nil] at markEq
      exact free label value isRead ⟨owed', label ++ (last :: closing), by simp [← markEq]⟩
    · exact free label value isRead
        ⟨owed', label ++ (last :: closing) ++ extra, by simp [valueEq]⟩
  · cases slots with
    | nil =>
        rw [Template.encoded_nil, expandMarks_of_absent occurs, Template.revealed_nil,
          Option.some.injEq] at expands
        have lengths := congrArg List.length expands
        simp only [List.length_append] at lengths
        refine ⟨List.eq_nil_of_length_eq_zero (by omega), ?_⟩
        simpa [Template.stretches] using occurs
    | cons slot slots =>
        simp only [List.forall_mem_cons] at plain reads
        rw [expandMarks_slot borderFree occurs plain.1 reads.1, Option.map_eq_some_iff] at expands
        obtain ⟨expanded, expandsRest, same⟩ := expands
        rw [Template.revealed_cons, ← List.append_assoc leading] at same
        obtain ⟨owed', lengths, rest⟩ := append_commute same
        rw [rest] at expandsRest
        obtain ⟨rfl, clean⟩ := clean_of_expandMarks borderFree distinct unread free slot.following
          slots plain.2 reads.2 owed' expandsRest
        refine ⟨List.eq_nil_of_length_eq_zero (by simpa using lengths.symm), ?_⟩
        exact Template.forall_stretches_cons.mpr ⟨occurs, clean⟩
termination_by (slots.length, leading.length)

/-- An encoding expands to its revealed text exactly when no plain stretch
contains the opener. -/
theorem expandMarks_encoded_iff (borderFree : BorderFree (first :: opening))
    (distinct : first ∉ last :: closing) (unread : ∀ label, first ∈ label → read label = none)
    (free : ∀ label value, read label = some value → ¬ (first :: opening) <:+: value)
    (template : Template α) (plain : ∀ slot ∈ template.slots, last ∉ slot.label)
    (reads : ∀ slot ∈ template.slots, read slot.label = some slot.value) :
    expandMarks (first :: opening) last closing read
        (template.encoded (first :: opening) (last :: closing)) = some template.revealed ↔
      ∀ stretch ∈ template.stretches, ¬ (first :: opening) <:+: stretch := by
  constructor
  · intro expands
    exact (clean_of_expandMarks borderFree distinct unread free template.leading template.slots plain
      reads [] expands).2
  · exact expandMarks_encoded borderFree template plain reads

end Expand

end AiCoreStack.Foundation
