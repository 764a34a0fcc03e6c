import Mathlib

/-!
# Exponential families on finitely many points

Every point has a level, and under the parameter `s` its weight is `exp (-s * level)`.  The
larger the parameter, the smaller the mean level.  The likelihood of a sample is largest where
the mean under the parameter is that of the sample.
-/

namespace AiCoreStack.Foundation.ExponentialFamily

open Finset

variable {ι : Type*} (points : Finset ι) (level : ι → ℝ)

noncomputable def weight (s : ℝ) (i : ι) : ℝ := Real.exp (-s * level i)

noncomputable def total (s : ℝ) : ℝ := ∑ i ∈ points, weight level s i

/-- The mean level under a parameter. -/
noncomputable def mean (s : ℝ) : ℝ :=
  (∑ i ∈ points, weight level s i * level i) / total points level s

variable {points level}

theorem weight_pos (s : ℝ) (i : ι) : 0 < weight level s i := Real.exp_pos _

theorem total_pos (filled : points.Nonempty) (s : ℝ) : 0 < total points level s :=
  sum_pos (fun i _ => weight_pos s i) filled

theorem mean_mul_total (filled : points.Nonempty) (s : ℝ) :
    mean points level s * total points level s = ∑ i ∈ points, weight level s i * level i :=
  div_mul_cancel₀ _ (total_pos filled s).ne'

/-- The weights under one parameter, shifted to the mean under another one. -/
theorem total_mul_exp (s t : ℝ) :
    total points level s * Real.exp ((s - t) * mean points level t) =
      ∑ i ∈ points, weight level t i *
        Real.exp (-(s - t) * (level i - mean points level t)) := by
  rw [total, sum_mul]
  refine sum_congr rfl fun i _ => ?_
  rw [weight, weight, ← Real.exp_add, ← Real.exp_add]
  ring_nf

/-- The deviations from the mean cancel. -/
theorem sum_deviation (filled : points.Nonempty) (s t : ℝ) :
    ∑ i ∈ points, weight level t i * (-(s - t) * (level i - mean points level t) + 1) =
      total points level t := by
  have split : ∀ i, weight level t i * (-(s - t) * (level i - mean points level t) + 1) =
      -(s - t) * (weight level t i * level i) +
        ((s - t) * mean points level t + 1) * weight level t i := by
    intro i
    ring
  simp only [split]
  rw [sum_add_distrib, ← mul_sum, ← mul_sum, ← mean_mul_total filled, ← total]
  ring

/-- Some point is not at the mean. -/
theorem exists_ne_mean {i j : ι} (first : i ∈ points) (second : j ∈ points)
    (apart : level i ≠ level j) (t : ℝ) : ∃ k ∈ points, level k ≠ mean points level t := by
  by_contra none
  push Not at none
  exact apart ((none i first).trans (none j second).symm)

theorem total_lt {s t : ℝ} (other : s ≠ t)
    (spread : ∃ i ∈ points, ∃ j ∈ points, level i ≠ level j) :
    total points level t < total points level s * Real.exp ((s - t) * mean points level t) := by
  obtain ⟨i, first, j, second, apart⟩ := spread
  obtain ⟨k, inside, off⟩ := exists_ne_mean first second apart t
  rw [total_mul_exp, ← sum_deviation ⟨i, first⟩ s t]
  refine sum_lt_sum (fun i _ => ?_) ⟨k, inside, ?_⟩
  · exact mul_le_mul_of_nonneg_left (Real.add_one_le_exp _) (weight_pos t i).le
  · refine mul_lt_mul_of_pos_left (Real.add_one_lt_exp ?_) (weight_pos t k)
    exact mul_ne_zero (neg_ne_zero.mpr (sub_ne_zero.mpr other)) (sub_ne_zero.mpr off)

/-- The relative entropy of one parameter from another one is positive. -/
theorem entropy_pos {s t : ℝ} (other : s ≠ t)
    (spread : ∃ i ∈ points, ∃ j ∈ points, level i ≠ level j) :
    0 < (s - t) * mean points level t + Real.log (total points level s) -
      Real.log (total points level t) := by
  have filled : points.Nonempty := spread.imp fun _ both => both.1
  have larger := Real.log_lt_log (total_pos filled t) (total_lt other spread)
  rw [Real.log_mul (total_pos filled s).ne' (Real.exp_pos _).ne', Real.log_exp] at larger
  linarith

/-- A larger parameter has a smaller mean. -/
theorem mean_strictAnti (spread : ∃ i ∈ points, ∃ j ∈ points, level i ≠ level j) :
    StrictAnti (mean points level) := by
  intro s t less
  have left := entropy_pos less.ne spread
  have right := entropy_pos less.ne' spread
  have : 0 < (t - s) * (mean points level s - mean points level t) := by linarith
  exact sub_pos.mp ((mul_pos_iff_of_pos_left (sub_pos.mpr less)).mp this)

theorem continuous_mean (filled : points.Nonempty) : Continuous (mean points level) := by
  have weights : ∀ i, Continuous fun s => weight level s i := fun i => by
    unfold weight
    fun_prop
  unfold mean
  refine Continuous.div ?_ ?_ fun s => (total_pos filled s).ne'
  · exact continuous_finsetSum _ fun i _ => (weights i).mul continuous_const
  · exact continuous_finsetSum _ fun i _ => weights i

/-! ## The weight of the lower levels -/

/-- The lower levels have more of the weight under a larger parameter. -/
theorem share_mono {head : Finset ι} (sub : head ⊆ points) (filled : points.Nonempty)
    (lower : ∀ i ∈ head, ∀ j ∈ points, j ∉ head → level i ≤ level j) :
    Monotone fun s => total head level s / total points level s := by
  classical
  intro s t less
  have cross : total head level s * total (points \ head) level t ≤
      total head level t * total (points \ head) level s := by
    rw [total, total, total, total, sum_mul_sum, sum_mul_sum]
    refine sum_le_sum fun i inside => sum_le_sum fun j outside => ?_
    rw [mem_sdiff] at outside
    rw [weight, weight, weight, weight, ← Real.exp_add, ← Real.exp_add, Real.exp_le_exp]
    nlinarith [lower i inside j outside.1 outside.2, less]
  have split : ∀ u, total points level u = total head level u + total (points \ head) level u := by
    intro u
    rw [add_comm]
    exact (sum_sdiff sub).symm
  refine (div_le_div_iff₀ (total_pos filled s) (total_pos filled t)).mpr ?_
  rw [split s, split t, mul_add, mul_add, mul_comm (total head level s) (total head level t)]
  exact add_le_add le_rfl cross

theorem weight_le {bound : ℝ} {i : ι} (nonneg : 0 ≤ level i) (below : level i ≤ bound) (s t : ℝ) :
    weight level s i ≤ Real.exp (|s - t| * bound) * weight level t i := by
  rw [weight, weight, ← Real.exp_add, Real.exp_le_exp]
  have := abs_sub_comm s t ▸ neg_abs_le (t - s)
  nlinarith [le_abs_self (t - s), abs_sub_comm s t, abs_nonneg (s - t)]

theorem total_le_exp_mul {bound : ℝ} {head : Finset ι}
    (within : ∀ i ∈ head, 0 ≤ level i ∧ level i ≤ bound) (s t : ℝ) :
    total head level s ≤ Real.exp (|s - t| * bound) * total head level t := by
  rw [total, total, mul_sum]
  exact sum_le_sum fun i inside => weight_le (within i inside).1 (within i inside).2 s t

/-- Close parameters give every set of points close shares of the weight. -/
theorem share_sub_le {bound : ℝ} {head : Finset ι} (sub : head ⊆ points)
    (filled : points.Nonempty) (within : ∀ i ∈ points, 0 ≤ level i ∧ level i ≤ bound) (s t : ℝ) :
    |total head level s / total points level s - total head level t / total points level t| ≤
      Real.exp (2 * (|s - t| * bound)) - 1 := by
  have oneSided : ∀ s t : ℝ, total head level s / total points level s -
      total head level t / total points level t ≤ Real.exp (2 * (|s - t| * bound)) - 1 := by
    intro s t
    have above := total_le_exp_mul (fun i inside => within i (sub inside)) s t
    have below := total_le_exp_mul within t s
    have small : total head level t / total points level t ≤ 1 :=
      div_le_one_of_le₀ (sum_le_sum_of_subset_of_nonneg sub fun i _ _ => (weight_pos t i).le)
        (total_pos filled t).le
    have inverse : 1 / total points level s ≤
        Real.exp (|s - t| * bound) / total points level t := by
      rw [div_le_div_iff₀ (total_pos filled s) (total_pos filled t), one_mul, abs_sub_comm]
      exact below
    have nonneg : 0 ≤ Real.exp (|s - t| * bound) * total head level t :=
      mul_nonneg (Real.exp_pos _).le (sum_nonneg fun i _ => (weight_pos t i).le)
    have ratio : total head level s / total points level s ≤
        Real.exp (2 * (|s - t| * bound)) * (total head level t / total points level t) :=
      calc total head level s / total points level s
          = total head level s * (1 / total points level s) := by rw [mul_one_div]
        _ ≤ Real.exp (|s - t| * bound) * total head level t *
              (Real.exp (|s - t| * bound) / total points level t) :=
            mul_le_mul above inverse (one_div_pos.mpr (total_pos filled s)).le nonneg
        _ = Real.exp (2 * (|s - t| * bound)) *
              (total head level t / total points level t) := by
            rw [two_mul, Real.exp_add]
            ring
    have bound_nonneg : 0 ≤ bound :=
      filled.elim fun i inside => (within i inside).1.trans (within i inside).2
    have grows : 1 ≤ Real.exp (2 * (|s - t| * bound)) :=
      Real.one_le_exp (by positivity)
    nlinarith
  refine abs_sub_le_iff.mpr ⟨oneSided s t, ?_⟩
  rw [abs_sub_comm s t]
  exact oneSided t s

end AiCoreStack.Foundation.ExponentialFamily
