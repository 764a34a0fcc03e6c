import Mathlib

/-!
# The first best of a list

A walk that keeps the best value so far.  The comparison need not be total: values
that do not compare, such as NaN, are never beaten and never beat.
-/

namespace AiCoreStack.Foundation

universe u

/-- A strict and a weak comparison; the first argument is the challenger. -/
structure Contest (α : Type u) where
  beats : α → α → Bool
  meets : α → α → Bool
  beats_irrefl : ∀ x, beats x x = false
  meets_of_beats : ∀ {x y}, beats x y = true → meets x y = true
  beats_of_meets_of_beats : ∀ {x y z}, meets x y = true → beats y z = true → beats x z = true

namespace Contest

variable {α : Type u} (contest : Contest α)

/-- One more challenger.  The champion stays unless it is beaten; the other one joins
the losers. -/
def challenge (state : Option α × List α) (x : α) : Option α × List α :=
  match state.1 with
  | none => (some x, state.2)
  | some champion =>
      if contest.beats x champion then (some x, state.2 ++ [champion])
      else (some champion, state.2 ++ [x])

/-- Champion and losers of a list. -/
def run (xs : List α) : Option α × List α := xs.foldl contest.challenge (none, [])

theorem run_concat (xs : List α) (x : α) :
    contest.run (xs ++ [x]) = contest.challenge (contest.run xs) x := by
  rw [run, List.foldl_append]
  rfl

/-- The champion is the first of the values that no value beats. -/
structure FirstBest (before : List α) (champion : α) (after losers : List α) : Prop where
  accounted : losers.Perm (before ++ after)
  unbeaten : ∀ x ∈ before ++ champion :: after, contest.beats x champion = false
  first : ∀ x ∈ before, contest.meets x champion = false

namespace FirstBest

variable {contest} {before after losers : List α} {champion x : α}

theorem single (x : α) : contest.FirstBest [] x [] [] where
  accounted := .nil
  unbeaten := by simpa using contest.beats_irrefl x
  first := by simp

/-- A challenger that beats the champion is met by no earlier value. -/
theorem replaced (best : contest.FirstBest before champion after losers)
    (beaten : contest.beats x champion = true) :
    contest.FirstBest (before ++ champion :: after) x [] (losers ++ [champion]) := by
  have unmet : ∀ y ∈ before ++ champion :: after, contest.meets y x = false := by
    intro y member
    by_contra meets
    have beats := contest.beats_of_meets_of_beats (Bool.eq_true_of_not_eq_false meets) beaten
    rw [best.unbeaten y member] at beats
    exact absurd beats (by simp)
  refine ⟨?_, ?_, unmet⟩
  · rw [List.append_nil]
    exact (best.accounted.append_right _).trans ((List.perm_append_singleton ..).trans
      List.perm_middle.symm)
  · intro y member
    rcases List.mem_append.mp member with earlier | last
    · by_contra beats
      have meets := contest.meets_of_beats (Bool.eq_true_of_not_eq_false beats)
      rw [unmet y earlier] at meets
      exact absurd meets (by simp)
    · rw [List.mem_singleton.mp last]
      exact contest.beats_irrefl x

theorem defended (best : contest.FirstBest before champion after losers)
    (unbeaten : contest.beats x champion = false) :
    contest.FirstBest before champion (after ++ [x]) (losers ++ [x]) := by
  refine ⟨?_, ?_, best.first⟩
  · rw [← List.append_assoc]
    exact best.accounted.append_right _
  · rw [← List.cons_append, ← List.append_assoc]
    intro y member
    rcases List.mem_append.mp member with earlier | last
    · exact best.unbeaten y earlier
    · rwa [List.mem_singleton.mp last]

end FirstBest

/-- The walk ends with the first best of a nonempty list. -/
theorem run_firstBest {xs : List α} (nonempty : xs ≠ []) :
    ∃ before champion after losers, xs = before ++ champion :: after ∧
      contest.run xs = (some champion, losers) ∧
        contest.FirstBest before champion after losers := by
  induction xs using List.reverseRecOn with
  | nil => exact absurd rfl nonempty
  | append_singleton xs x ih =>
      by_cases empty : xs = []
      · subst empty
        exact ⟨[], x, [], [], rfl, rfl, .single x⟩
      · obtain ⟨before, champion, after, losers, rfl, ran, best⟩ := ih empty
        by_cases beaten : contest.beats x champion = true
        · refine ⟨_, x, [], _, rfl, ?_, best.replaced beaten⟩
          rw [run_concat, ran, challenge]
          simp only [beaten, if_true]
        · refine ⟨before, champion, after ++ [x], _, by simp, ?_,
            best.defended (Bool.eq_false_of_not_eq_true beaten)⟩
          rw [run_concat, ran, challenge]
          simp only [beaten, Bool.false_eq_true, if_false]

/-- The walk without the losers. -/
theorem foldl_challenge (xs losers : List α) (x : α) :
    (xs.foldl contest.challenge (some x, losers)).1 =
      some (xs.foldl (fun best y => if contest.beats y best then y else best) x) := by
  induction xs generalizing x losers with
  | nil => rfl
  | cons y rest ih =>
      rw [List.foldl_cons, List.foldl_cons, challenge]
      simp only
      split
      · exact ih _ y
      · exact ih _ x

/-- The best value so far, from a first one on, is the first best in the end. -/
theorem foldl_firstBest (x : α) (xs : List α) :
    ∃ before after losers, x :: xs = before ++
        xs.foldl (fun best y => if contest.beats y best then y else best) x :: after ∧
      contest.FirstBest before
        (xs.foldl (fun best y => if contest.beats y best then y else best) x) after losers := by
  obtain ⟨before, champion, after, losers, split, ran, best⟩ :=
    contest.run_firstBest (List.cons_ne_nil x xs)
  have same := contest.foldl_challenge xs [] x
  have champions : some champion = some _ :=
    (congrArg Prod.fst ran).symm.trans same
  rw [Option.some_inj] at champions
  subst champions
  exact ⟨before, after, losers, split, best⟩

end Contest

end AiCoreStack.Foundation
