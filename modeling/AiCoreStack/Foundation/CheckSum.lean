import Mathlib

/-!
# Check sums

A check sum adds up what each digit contributes at its place.  It notices every change of
a single digit as long as each place tells the digits apart modulo the base, and a last
digit then completes every prefix in exactly one way.
-/

namespace AiCoreStack.Foundation.CheckSum

/-- Sum of what the digits contribute at their places. -/
def placed (term : Nat → Nat → Nat) (digits : List Nat) : Nat := (digits.mapIdx term).sum

/-- Different digits contribute different amounts modulo the base. -/
def TellsApart (base : Nat) (term : Nat → Nat) : Prop :=
  ∀ ⦃a b : Nat⦄, a < base → b < base → term a ≡ term b [MOD base] → a = b

theorem placed_append (term : Nat → Nat → Nat) (left right : List Nat) :
    placed term (left ++ right) =
      placed term left + placed (fun place => term (place + left.length)) right := by
  rw [placed, List.mapIdx_append, List.sum_append, placed, placed]

theorem placed_snoc (term : Nat → Nat → Nat) (digits : List Nat) (digit : Nat) :
    placed term (digits ++ [digit]) = placed term digits + term digits.length digit := by
  rw [placed_append]
  simp [placed]

/-- What a replaced digit contributed is exchanged for what the new one does. -/
theorem placed_set (term : Nat → Nat → Nat) {digits : List Nat} {place : Nat}
    (inside : place < digits.length) (digit : Nat) :
    placed term (digits.set place digit) + term place digits[place] =
      placed term digits + term place digit := by
  induction digits generalizing term place with
  | nil => exact absurd inside (Nat.not_lt_zero _)
  | cons head digits ih =>
      cases place with
      | zero => simp [placed, Nat.add_comm, Nat.add_left_comm]
      | succ place =>
          have inner : place < digits.length := Nat.lt_of_succ_lt_succ inside
          have tail := ih (fun place => term (place + 1)) inner
          simp only [placed, List.set_cons_succ, List.mapIdx_cons, List.sum_cons,
            List.getElem_cons_succ] at tail ⊢
          omega

/-- A single change shows. -/
theorem placed_set_ne {base : Nat} {term : Nat → Nat → Nat} {digits : List Nat} {place : Nat}
    (apart : TellsApart base (term place)) (inside : place < digits.length)
    (below : digits[place] < base) {digit : Nat} (belowNew : digit < base)
    (changed : digit ≠ digits[place]) :
    ¬ placed term (digits.set place digit) ≡ placed term digits [MOD base] := by
  intro same
  apply changed
  apply apart belowNew below
  have exchanged : placed term digits + term place digits[place] ≡
      placed term digits + term place digit [MOD base] := by
    rw [← placed_set term inside digit]
    exact same.symm.add_right _
  exact exchanged.add_left_cancel'.symm

/-- Every amount is brought to a multiple of the base by exactly one digit. -/
theorem existsUnique_completing {base : Nat} (positive : 0 < base) {term : Nat → Nat}
    (apart : TellsApart base term) (amount : Nat) :
    ∃! digit, digit < base ∧ (amount + term digit) % base = 0 := by
  let residue (digit : Fin base) : Fin base := ⟨(amount + term digit) % base, Nat.mod_lt _ positive⟩
  have injective : Function.Injective residue := by
    intro a b same
    have congruent : amount + term a ≡ amount + term b [MOD base] := Fin.mk.inj same
    exact Fin.ext (apart a.isLt b.isLt congruent.add_left_cancel')
  obtain ⟨digit, completes⟩ := Finite.surjective_of_injective injective ⟨0, positive⟩
  refine ⟨digit, ⟨digit.isLt, Fin.mk.inj completes⟩, ?_⟩
  rintro other ⟨below, completes'⟩
  have same : residue ⟨other, below⟩ = residue digit := by
    rw [completes]
    exact Fin.ext completes'
  exact congrArg Fin.val (injective same)

end AiCoreStack.Foundation.CheckSum
