import Mathlib

/-!
# Greedy choice without clashes

Items are taken from left to right, and each one is chosen unless an item chosen before clashes
with it.  The clash need not be symmetric.
-/

namespace AiCoreStack.Foundation

open scoped List

variable {α : Type} {clash : α → α → Bool} {items : List α} {item : α}

/-- The items that clash with none chosen before them. -/
def thin (clash : α → α → Bool) (items : List α) : List α :=
  (items.reverse.pwFilter fun later earlier => clash earlier later = false).reverse

@[simp] theorem thin_nil : thin clash ([] : List α) = [] := rfl

theorem thin_snoc_of_free (free : ∀ chosen ∈ thin clash items, clash chosen item = false) :
    thin clash (items ++ [item]) = thin clash items ++ [item] := by
  rw [thin, List.reverse_concat, List.pwFilter_cons_of_pos, List.reverse_cons, ← thin]
  intro chosen member
  exact free chosen (List.mem_reverse.mpr member)

theorem thin_snoc_of_clash {chosen : α} (member : chosen ∈ thin clash items)
    (clashes : clash chosen item = true) : thin clash (items ++ [item]) = thin clash items := by
  rw [thin, List.reverse_concat, List.pwFilter_cons_of_neg, ← thin]
  intro free
  have apart := free chosen (List.mem_reverse.mp member)
  rw [clashes] at apart
  cases apart

/-- The chosen items keep their order. -/
theorem thin_sublist (items : List α) : thin clash items <+ items := by
  have sub := (List.pwFilter_sublist (R := fun later earlier => clash earlier later = false)
    items.reverse).reverse
  rwa [List.reverse_reverse] at sub

theorem pairwise_thin (items : List α) :
    (thin clash items).Pairwise fun a b => clash a b = false :=
  List.pairwise_reverse.mpr (List.pairwise_pwFilter _)

/-- An item that is not chosen clashes with one chosen before it. -/
theorem exists_clash (member : item ∈ items) (dropped : item ∉ thin clash items) :
    ∃ chosen ∈ thin clash items, clash chosen item = true ∧ [chosen, item] <+ items := by
  induction items using List.reverseRecOn with
  | nil => simp at member
  | append_singleton rest last ih =>
      by_cases free : ∀ chosen ∈ thin clash rest, clash chosen last = false
      · rw [thin_snoc_of_free free, List.mem_append, not_or] at dropped
        have before : item ∈ rest := by
          rcases List.mem_append.mp member with before | same
          · exact before
          · exact absurd same dropped.2
        obtain ⟨chosen, inThin, clashes, sub⟩ := ih before dropped.1
        rw [thin_snoc_of_free free]
        exact ⟨chosen, List.mem_append_left _ inThin, clashes,
          sub.trans (List.sublist_append_left _ _)⟩
      · push Not at free
        obtain ⟨chosen, inThin, clashes⟩ := free
        rw [ne_eq, Bool.not_eq_false] at clashes
        rw [thin_snoc_of_clash inThin clashes] at dropped ⊢
        rcases List.mem_append.mp member with before | same
        · obtain ⟨chosen, inThin, clashes, sub⟩ := ih before dropped
          exact ⟨chosen, inThin, clashes, sub.trans (List.sublist_append_left _ _)⟩
        · rw [List.mem_singleton.mp same]
          refine ⟨chosen, inThin, clashes, ?_⟩
          have pair : [chosen] ++ [last] <+ rest ++ [last] :=
            (List.singleton_sublist.mpr ((thin_sublist rest).subset inThin)).append_right [last]
          exact pair

/-- Items of which none clash are all chosen. -/
theorem thin_eq_self (apart : items.Pairwise fun a b => clash a b = false) :
    thin clash items = items := by
  rw [thin, List.pwFilter_eq_self.mpr (List.pairwise_reverse.mpr apart), List.reverse_reverse]

end AiCoreStack.Foundation
