import Mathlib

/-!
# Banding

Signatures whose slots lie in bands of equal width.  Two signatures that differ in fewer slots
than there are bands agree in one of the bands.
-/

namespace AiCoreStack.Foundation.Banding

variable {β : Type}

/-- Two signatures agree in each slot of a band. -/
def AgreeIn (rows : Nat) (left right : Nat → β) (band : Nat) : Prop :=
  ∀ row < rows, left (band * rows + row) = right (band * rows + row)

variable [DecidableEq β]

/-- In how many of the first slots two signatures differ. -/
def differences (slots : Nat) (left right : Nat → β) : Nat :=
  (List.range slots).countP fun slot => left slot ≠ right slot

/-- A band in which two signatures do not agree adds a difference. -/
theorem differences_band {rows band : Nat} {left right : Nat → β}
    (differs : ¬AgreeIn rows left right band) :
    differences (band * rows) left right < differences ((band + 1) * rows) left right := by
  obtain ⟨row, within, apart⟩ : ∃ row < rows,
      left (band * rows + row) ≠ right (band * rows + row) := by
    rw [AgreeIn] at differs
    push Not at differs
    exact differs
  have last : 0 < ((List.range rows).map (band * rows + ·)).countP
      fun slot => decide (left slot ≠ right slot) :=
    List.countP_pos_iff.mpr
      ⟨_, List.mem_map_of_mem (List.mem_range.mpr within), decide_eq_true apart⟩
  rw [differences, differences, Nat.succ_mul, List.range_add, List.countP_append]
  omega

theorem exists_agreeIn {rows bands : Nat} {left right : Nat → β}
    (few : differences (bands * rows) left right < bands) :
    ∃ band < bands, AgreeIn rows left right band := by
  induction bands with
  | zero => exact absurd few (Nat.not_lt_zero _)
  | succ bands ih =>
      by_cases agrees : AgreeIn rows left right bands
      · exact ⟨bands, Nat.lt_succ_self bands, agrees⟩
      · have more := differences_band agrees
        obtain ⟨band, before, agrees⟩ := ih (by omega)
        exact ⟨band, before.trans (Nat.lt_succ_self bands), agrees⟩

end AiCoreStack.Foundation.Banding
