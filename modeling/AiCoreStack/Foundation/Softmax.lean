import Mathlib

/-!
# The online softmax

A mean of vectors, weighted by the exponentials of their scores, in one pass: the weights
are relative to the largest score so far, and what has been added up is rescaled when a
larger one comes.
-/

namespace AiCoreStack.Foundation

variable {K : Type} [Field K] [LinearOrder K]

/-- An exponential function on an ordered field. -/
structure Exponential (K : Type) [Field K] [LinearOrder K] where
  exp : K → K
  exp_add : ∀ a b, exp (a + b) = exp a * exp b
  exp_pos : ∀ a, 0 < exp a

/-- The state of the pass: the largest score, which is below every number at first, the sum
of the weights and the weighted sum of the vectors. -/
structure Softmax (K : Type) where
  m : Option K := none
  ssum : K
  acc : List K

namespace Softmax

def start (d : Nat) : Softmax K where
  ssum := 0
  acc := List.replicate d 0

/-- Take a vector with its score. -/
def step (exp : K → K) (state : Softmax K) (score : K) (value : List K) : Softmax K :=
  let larger (scaleOld : K) : Softmax K :=
    { m := some score
      ssum := state.ssum * scaleOld + 1
      acc := List.zipWith (· + ·) (state.acc.map (· * scaleOld)) value }
  match state.m with
  | none => larger 0
  | some m =>
      if m < score then larger (exp (m - score))
      else
        let w := exp (score - m)
        { m := some m
          ssum := state.ssum + w
          acc := List.zipWith (fun a e => a + e * w) state.acc value }

/-- The mean. -/
def finish (state : Softmax K) : List K :=
  let inv := if 0 < state.ssum then 1 / state.ssum else 0
  state.acc.map (· * inv)

/-- The pass over some vectors. -/
def run (exp : K → K) (d : Nat) (entries : List (K × List K)) : Softmax K :=
  entries.foldl (fun state entry => state.step exp entry.1 entry.2) (start d)

end Softmax

/-- The mean of some vectors, weighted by the exponentials of their scores. -/
def softmaxMean (exp : K → K) (d : Nat) (entries : List (K × List K)) : List K :=
  (List.range d).map fun t =>
    (entries.map fun entry => exp entry.1 * entry.2.getD t 0).sum /
      (entries.map fun entry => exp entry.1).sum

/-! ## The pass is exact -/

omit [LinearOrder K] in
theorem eq_map_getD {vector : List K} {d : Nat} (wide : vector.length = d) :
    vector = (List.range d).map fun t => vector.getD t 0 := by
  apply List.ext_getElem
  · simp [wide]
  · intro i left right
    simp [left]

omit [LinearOrder K] in
theorem zipWith_range (f : K → K → K) (d : Nat) (g : Nat → K) {vector : List K}
    (wide : vector.length = d) :
    List.zipWith f ((List.range d).map g) vector =
      (List.range d).map fun t => f (g t) (vector.getD t 0) := by
  conv_lhs => rw [eq_map_getD wide]
  rw [List.zipWith_map, List.zipWith_self]

namespace Exponential

variable (E : Exponential K)

theorem exp_zero : E.exp 0 = 1 := by
  have double : E.exp 0 * E.exp 0 = E.exp 0 * 1 := by
    rw [← E.exp_add, add_zero, mul_one]
  exact mul_left_cancel₀ (E.exp_pos 0).ne' double

theorem exp_sub_mul (a b c : K) : E.exp (a - b) * E.exp (b - c) = E.exp (a - c) := by
  rw [← E.exp_add]
  congr 1
  ring

end Exponential

namespace Softmax

variable (E : Exponential K) {d : Nat}

/-- A state has added up some vectors, relative to a score. -/
structure Tracks (entries : List (K × List K)) (top : K) (state : Softmax K) : Prop where
  m : state.m = some top
  ssum : state.ssum = (entries.map fun entry => E.exp (entry.1 - top)).sum
  acc : state.acc = (List.range d).map fun t =>
    (entries.map fun entry => E.exp (entry.1 - top) * entry.2.getD t 0).sum

/-- Rescaling moves the weights to another score. -/
theorem sum_rescale (entries : List (K × List K)) (weight : K × List K → K) (top next : K) :
    (entries.map fun entry => E.exp (entry.1 - top) * weight entry).sum * E.exp (top - next) =
      (entries.map fun entry => E.exp (entry.1 - next) * weight entry).sum := by
  rw [← List.sum_map_mul_right]
  congr 1
  apply List.map_congr_left
  intro entry _
  rw [mul_right_comm, E.exp_sub_mul]

theorem tracks_first {score : K} {value : List K} (wide : value.length = d) :
    Tracks E (d := d) [(score, value)] score ((start d).step E.exp score value) where
  m := rfl
  ssum := by
    simp [step, start, E.exp_zero]
  acc := by
    have zeros : (List.replicate d (0 : K)).map (· * 0) = (List.range d).map fun _ => 0 := by
      simp
    simp only [step, start, zeros, zipWith_range _ d _ wide]
    simp [E.exp_zero]

theorem Tracks.larger {entries : List (K × List K)} {top score : K} {state : Softmax K}
    (tracks : Tracks E (d := d) entries top state) (above : top < score) {value : List K}
    (wide : value.length = d) :
    Tracks E (d := d) (entries ++ [(score, value)]) score (state.step E.exp score value) where
  m := by simp [step, tracks.m, above]
  ssum := by
    have moved := sum_rescale E entries (fun _ => 1) top score
    simp only [mul_one] at moved
    simp [step, tracks.m, above, tracks.ssum, moved, E.exp_zero]
  acc := by
    have moved (t : Nat) := sum_rescale E entries (fun entry => entry.2.getD t 0) top score
    simp only [step, tracks.m, if_pos above, tracks.acc, List.map_map, Function.comp_def, moved,
      zipWith_range _ d _ wide]
    simp [E.exp_zero]

theorem Tracks.below {entries : List (K × List K)} {top score : K} {state : Softmax K}
    (tracks : Tracks E (d := d) entries top state) (below : ¬ top < score) {value : List K}
    (wide : value.length = d) :
    Tracks E (d := d) (entries ++ [(score, value)]) top (state.step E.exp score value) where
  m := by simp [step, tracks.m, below]
  ssum := by simp [step, tracks.m, below, tracks.ssum]
  acc := by
    simp only [step, tracks.m, if_neg below, tracks.acc, zipWith_range _ d _ wide]
    simp [mul_comm]

/-- The pass tracks all the vectors it has read. -/
theorem exists_tracks_run {entries : List (K × List K)} (full : entries ≠ [])
    (wide : ∀ entry ∈ entries, entry.2.length = d) :
    ∃ top, Tracks E (d := d) entries top (run E.exp d entries) := by
  induction entries using List.reverseRecOn with
  | nil => exact absurd rfl full
  | append_singleton entries entry ih =>
      have last : entry.2.length = d := wide entry (by simp)
      rw [run, List.foldl_append]
      rcases List.eq_nil_or_concat entries with rfl | ⟨front, other, rfl⟩
      · exact ⟨entry.1, tracks_first E last⟩
      · obtain ⟨top, tracks⟩ := ih (by simp) fun found member =>
          wide found (List.mem_append_left _ member)
        rcases lt_or_ge top entry.1 with above | below
        · exact ⟨entry.1, tracks.larger E above last⟩
        · exact ⟨top, tracks.below E (not_lt.mpr below) last⟩

variable [IsStrictOrderedRing K]

/-- The online softmax gives the weighted mean. -/
theorem finish_run {entries : List (K × List K)} (full : entries ≠ [])
    (wide : ∀ entry ∈ entries, entry.2.length = d) :
    (run E.exp d entries).finish = softmaxMean E.exp d entries := by
  obtain ⟨top, tracks⟩ := exists_tracks_run E full wide
  have positive : 0 < (run E.exp d entries).ssum := by
    rw [tracks.ssum]
    apply List.sum_pos
    · intro weight member
      obtain ⟨entry, -, rfl⟩ := List.mem_map.mp member
      exact E.exp_pos _
    · simpa using full
  have weights := sum_rescale E entries (fun _ => 1) top 0
  have vectors (t : Nat) := sum_rescale E entries (fun entry => entry.2.getD t 0) top 0
  simp only [sub_zero, mul_one] at weights vectors
  rw [finish, softmaxMean, if_pos positive, tracks.acc, tracks.ssum, List.map_map]
  apply List.map_congr_left
  intro t _
  rw [Function.comp_apply, ← weights, ← vectors, mul_one_div,
    mul_div_mul_right _ _ (E.exp_pos top).ne']

end Softmax

end AiCoreStack.Foundation
