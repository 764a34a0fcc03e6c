import Mathlib

/-!
# Events with a gap

Times of events, each at least a gap behind all events before it.
-/

namespace AiCoreStack.Foundation

variable {gap : Nat}

/-- Each time is at least the gap behind every earlier one. -/
def Spaced (gap : Nat) (times : List Nat) : Prop :=
  times.Pairwise fun earlier later => earlier + gap ≤ later

namespace Spaced

theorem nil : Spaced gap [] := List.Pairwise.nil

theorem concat {times : List Nat} {time : Nat} (spaced : Spaced gap times)
    (behind : ∀ earlier ∈ times, earlier + gap ≤ time) : Spaced gap (times ++ [time]) := by
  refine List.pairwise_append.mpr ⟨spaced, List.pairwise_singleton .., ?_⟩
  intro earlier member later last
  rw [List.mem_singleton.mp last]
  exact behind earlier member

theorem sublist {times part : List Nat} (spaced : Spaced gap times) (inside : part.Sublist times) :
    Spaced gap part := List.Pairwise.sublist inside spaced

/-- The last of some events before a limit is as many gaps behind the start as there are events
before it. -/
theorem length_mul_lt {times : List Nat} (spaced : Spaced gap times) (nonempty : times ≠ [])
    (start stop : Nat) (inside : ∀ time ∈ times, start ≤ time ∧ time < stop) :
    start + (times.length - 1) * gap < stop := by
  induction times generalizing start with
  | nil => exact absurd rfl nonempty
  | cons time rest ih =>
      obtain ⟨above, below⟩ := inside time List.mem_cons_self
      cases rest with
      | nil =>
          rw [List.length_singleton, Nat.sub_self, Nat.zero_mul]
          exact above.trans_lt below
      | cons next rest =>
          obtain ⟨behind, spaced⟩ := List.pairwise_cons.mp spaced
          have rest_ := ih spaced (List.cons_ne_nil _ _) (start + gap) fun later member =>
            ⟨(Nat.add_le_add_right above gap).trans (behind later member),
              (inside later (List.mem_cons_of_mem _ member)).2⟩
          rw [List.length_cons, Nat.add_sub_cancel] at rest_ ⊢
          rw [List.length_cons, Nat.add_mul, Nat.one_mul]
          omega

/-- A window holds no more events than gaps fit into it, and one more. -/
theorem length_window_le {times : List Nat} (spaced : Spaced gap times) (positive : 0 < gap)
    (start width : Nat) :
    (times.filter fun time => start ≤ time ∧ time < start + width).length ≤
      (width + gap - 1) / gap := by
  rw [Nat.le_div_iff_mul_le positive]
  by_cases none : times.filter (fun time => start ≤ time ∧ time < start + width) = []
  · rw [none, List.length_nil, Nat.zero_mul]
    exact Nat.zero_le _
  · have few := (spaced.sublist List.filter_sublist).length_mul_lt none start (start + width)
      fun time member => by simpa using (List.mem_filter.mp member).2
    have some_ : 0 < _ := List.length_pos_iff.mpr none
    obtain ⟨count, counted⟩ := Nat.exists_eq_succ_of_ne_zero some_.ne'
    rw [counted, Nat.succ_sub_one] at few
    rw [counted, Nat.succ_mul]
    omega

end Spaced

end AiCoreStack.Foundation
