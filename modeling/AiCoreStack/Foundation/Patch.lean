import Mathlib.Data.List.Basic
import Mathlib.Tactic.Common

/-!
# Patches

A text cut into stretches that are copied and stretches that are replaced.  A patch
knows both texts, so what lies outside the replaced places is the same in both.
-/

namespace AiCoreStack.Foundation

/-- A replaced stretch together with the copied stretch in front of it. -/
structure Edit (α : Type*) where
  gap : List α
  old : List α
  new : List α
  deriving DecidableEq

/-- Edits from left to right and what is copied behind the last one. -/
structure Patch (α : Type*) where
  edits : List (Edit α)
  tail : List α
  deriving DecidableEq

namespace Patch

variable {α : Type*}

/-- The text before the edits. -/
def source (patch : Patch α) : List α :=
  patch.edits.flatMap (fun edit => edit.gap ++ edit.old) ++ patch.tail

/-- The text after the edits. -/
def target (patch : Patch α) : List α :=
  patch.edits.flatMap (fun edit => edit.gap ++ edit.new) ++ patch.tail

/-- One more edit at the front. -/
def cons (edit : Edit α) (patch : Patch α) : Patch α := { patch with edits := edit :: patch.edits }

@[simp] theorem source_nil (tail : List α) : source ⟨[], tail⟩ = tail := rfl

@[simp] theorem target_nil (tail : List α) : target ⟨[], tail⟩ = tail := rfl

@[simp] theorem source_cons (edit : Edit α) (patch : Patch α) :
    (cons edit patch).source = edit.gap ++ edit.old ++ patch.source := by
  simp [cons, source]

@[simp] theorem target_cons (edit : Edit α) (patch : Patch α) :
    (cons edit patch).target = edit.gap ++ edit.new ++ patch.target := by
  simp [cons, target]

/-- Where the replaced stretches start and stop in the source, when the first gap
starts at a cursor. -/
def places (size : List α → Nat) : Nat → List (Edit α) → List (Nat × Nat)
  | _, [] => []
  | cursor, edit :: edits =>
      let start := cursor + size edit.gap
      let stop := start + size edit.old
      (start, stop) :: places size stop edits

variable {size : List α → Nat}

theorem cursor_le_places {cursor : Nat} {edits : List (Edit α)} :
    ∀ place ∈ places size cursor edits, cursor ≤ place.1 ∧ place.1 ≤ place.2 := by
  induction edits generalizing cursor with
  | nil => simp [places]
  | cons edit edits ih =>
      intro place member
      rcases List.mem_cons.mp member with rfl | later
      · exact ⟨Nat.le_add_right _ _, Nat.le_add_right _ _⟩
      · have after := ih place later
        exact ⟨by omega, after.2⟩

/-- Replaced stretches stop before the next one starts. -/
theorem places_pairwise (cursor : Nat) (edits : List (Edit α)) :
    (places size cursor edits).Pairwise fun left right => left.2 ≤ right.1 := by
  induction edits generalizing cursor with
  | nil => exact .nil
  | cons edit edits ih =>
      apply List.Pairwise.cons
      · intro place later
        exact (cursor_le_places place later).1
      · exact ih _

end Patch

end AiCoreStack.Foundation
