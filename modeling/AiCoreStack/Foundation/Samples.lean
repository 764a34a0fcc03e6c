import Mathlib

/-!
# Means and covariances of finite samples

The structural similarity of two samples multiplies a term on the means with a term on the
covariance.  Both terms are at most their bounds by completing a square, and the squares vanish
when the samples agree.
-/

namespace AiCoreStack.Foundation.Samples

open Finset

variable {ι K : Type*} [Field K] (s : Finset ι) (x y : ι → K)

def mean : K := (∑ i ∈ s, x i) / #s

def covariance : K := (∑ i ∈ s, (x i - mean s x) * (y i - mean s y)) / #s

theorem covariance_comm : covariance s x y = covariance s y x := by
  rw [covariance, covariance]
  exact congrArg (· / (#s : K)) (sum_congr rfl fun i _ => mul_comm _ _)

theorem mean_neg : mean s (-y) = -mean s y := by
  rw [mean, mean, ← neg_div, ← sum_neg_distrib]
  rfl

theorem covariance_neg_right : covariance s x (-y) = -covariance s x y := by
  rw [covariance, covariance, mean_neg, ← neg_div, ← sum_neg_distrib]
  exact congrArg (· / (#s : K)) (sum_congr rfl fun i _ => by rw [Pi.neg_apply]; ring)

theorem covariance_neg_neg : covariance s (-y) (-y) = covariance s y y := by
  rw [covariance_neg_right, covariance_comm, covariance_neg_right, neg_neg]

/-- Covariances complete a square. -/
theorem covariance_sub :
    covariance s x x + covariance s y y - 2 * covariance s x y =
      (∑ i ∈ s, (x i - mean s x - (y i - mean s y)) ^ 2) / #s := by
  have squares : ∑ i ∈ s, (x i - mean s x - (y i - mean s y)) ^ 2 =
      ∑ i ∈ s, (x i - mean s x) * (x i - mean s x) + ∑ i ∈ s, (y i - mean s y) * (y i - mean s y) -
        2 * ∑ i ∈ s, (x i - mean s x) * (y i - mean s y) := by
    rw [mul_sum, ← sum_add_distrib, ← sum_sub_distrib]
    exact sum_congr rfl fun i _ => by ring
  rw [squares, covariance, covariance, covariance]
  ring

section Bounds

variable [LinearOrder K] [IsStrictOrderedRing K]

theorem mean_nonneg {x : ι → K} (nonneg : ∀ i ∈ s, 0 ≤ x i) : 0 ≤ mean s x :=
  div_nonneg (sum_nonneg nonneg) (Nat.cast_nonneg _)

theorem covariance_le : 2 * covariance s x y ≤ covariance s x x + covariance s y y := by
  have square : 0 ≤ (∑ i ∈ s, (x i - mean s x - (y i - mean s y)) ^ 2) / (#s : K) :=
    div_nonneg (sum_nonneg fun i _ => sq_nonneg _) (Nat.cast_nonneg _)
  rw [← covariance_sub] at square
  linarith

theorem neg_covariance_le : -(2 * covariance s x y) ≤ covariance s x x + covariance s y y := by
  have opposite := covariance_le s x (-y)
  rw [covariance_neg_neg, covariance_neg_right] at opposite
  linarith

theorem covariance_self_nonneg : 0 ≤ covariance s x x := by
  have both := covariance_le s x x
  have opposite := neg_covariance_le s x x
  linarith

/-- The bound of the covariance is met when the samples deviate alike from their means. -/
theorem covariance_eq_iff :
    2 * covariance s x y = covariance s x x + covariance s y y ↔
      ∀ i ∈ s, x i - mean s x = y i - mean s y := by
  have difference := covariance_sub s x y
  constructor
  · intro same i inside
    have card : (#s : K) ≠ 0 := Nat.cast_ne_zero.mpr (card_pos.mpr ⟨i, inside⟩).ne'
    rw [same, sub_self, eq_comm, div_eq_zero_iff, or_iff_left card,
      sum_eq_zero_iff_of_nonneg fun i _ => sq_nonneg _] at difference
    exact sub_eq_zero.mp (pow_eq_zero_iff two_ne_zero |>.mp (difference i inside))
  · intro alike
    have none : ∑ i ∈ s, (x i - mean s x - (y i - mean s y)) ^ 2 = 0 :=
      sum_eq_zero fun i inside => by rw [alike i inside, sub_self, zero_pow two_ne_zero]
    rw [none, zero_div] at difference
    linarith

end Bounds

/-! ## Structural similarity -/

variable (c₁ c₂ : K)

/-- The structural similarity of two samples with constants that keep its quotient stable. -/
def similarity : K :=
  (2 • mean s x * mean s y + c₁) * (2 • covariance s x y + c₂) /
    ((mean s x * mean s x + mean s y * mean s y + c₁) *
      (covariance s x x + covariance s y y + c₂))

theorem similarity_eq : similarity s x y c₁ c₂ =
    (2 * mean s x * mean s y + c₁) * (2 * covariance s x y + c₂) /
      ((mean s x * mean s x + mean s y * mean s y + c₁) *
        (covariance s x x + covariance s y y + c₂)) := by
  simp only [similarity, nsmul_eq_mul, Nat.cast_ofNat]

theorem similarity_comm : similarity s x y c₁ c₂ = similarity s y x c₁ c₂ := by
  rw [similarity_eq, similarity_eq, covariance_comm s y x]
  ring

variable [LinearOrder K] [IsStrictOrderedRing K] {x y c₁ c₂}

/-- A product of two terms between their bounds is between the products of the bounds, and meets
the upper one when both terms do. -/
theorem mul_bounds {a b l r : K} (positive : 0 < a) (below : a ≤ l) (low : -r ≤ b) (high : b ≤ r)
    (positive' : 0 < r) :
    -(l * r) ≤ a * b ∧ a * b ≤ l * r ∧ (a * b = l * r ↔ a = l ∧ b = r) := by
  have upper : a * b ≤ a * r := mul_le_mul_of_nonneg_left high positive.le
  have lower : a * -r ≤ a * b := mul_le_mul_of_nonneg_left low positive.le
  have across : a * r ≤ l * r := mul_le_mul_of_nonneg_right below positive'.le
  refine ⟨by linarith, by linarith, fun same => ?_, fun both => by rw [both.1, both.2]⟩
  have first : a * r = l * r := by linarith
  have second : a * b = a * r := by linarith
  exact ⟨mul_right_cancel₀ positive'.ne' first, mul_left_cancel₀ positive.ne' second⟩

/-- The quotient is defined. -/
theorem divisor_pos (x y : ι → K) (positive₁ : 0 < c₁) (positive₂ : 0 < c₂) :
    0 < (mean s x * mean s x + mean s y * mean s y + c₁) *
      (covariance s x x + covariance s y y + c₂) := by
  have spreadX := covariance_self_nonneg s x
  have spreadY := covariance_self_nonneg s y
  have squareX := mul_self_nonneg (mean s x)
  have squareY := mul_self_nonneg (mean s y)
  positivity

/-- Non-negative samples have a similarity between minus one and one, and one only if they are
the same. -/
theorem similarity_bounds (nonneg : ∀ i ∈ s, 0 ≤ x i)
    (nonneg' : ∀ i ∈ s, 0 ≤ y i) (positive₁ : 0 < c₁) (positive₂ : 0 < c₂) :
    -1 ≤ similarity s x y c₁ c₂ ∧ similarity s x y c₁ c₂ ≤ 1 ∧
      (similarity s x y c₁ c₂ = 1 ↔ ∀ i ∈ s, x i = y i) := by
  have meanX := mean_nonneg s nonneg
  have meanY := mean_nonneg s nonneg'
  have spreadX := covariance_self_nonneg s x
  have spreadY := covariance_self_nonneg s y
  have means : 0 < 2 * mean s x * mean s y + c₁ := by positivity
  have square : 0 ≤ (mean s x - mean s y) ^ 2 := sq_nonneg _
  have bounds := mul_bounds (b := 2 * covariance s x y + c₂)
    (l := mean s x * mean s x + mean s y * mean s y + c₁)
    (r := covariance s x x + covariance s y y + c₂) means (by linarith)
    (by linarith [neg_covariance_le s x y]) (by linarith [covariance_le s x y]) (by positivity)
  have positive := divisor_pos s x y positive₁ positive₂
  obtain ⟨low, high, meets⟩ := bounds
  refine ⟨?_, ?_, ?_⟩
  · rw [similarity_eq, le_div_iff₀ positive]
    linarith
  · rw [similarity_eq, div_le_one positive]
    exact high
  · rw [similarity_eq, div_eq_one_iff_eq positive.ne', meets]
    constructor
    · rintro ⟨sameMeans, sameSpread⟩ i inside
      have alike := (covariance_eq_iff s x y).mp (by linarith) i inside
      have equal : mean s x = mean s y := by
        have zero : (mean s x - mean s y) ^ 2 = 0 := by linarith
        exact sub_eq_zero.mp ((pow_eq_zero_iff two_ne_zero).mp zero)
      rw [equal] at alike
      linarith
    · intro same
      have equal : mean s x = mean s y := by rw [mean, mean, sum_congr rfl same]
      have alike : ∀ i ∈ s, x i - mean s x = y i - mean s y := fun i inside => by
        rw [same i inside, equal]
      exact ⟨by rw [equal]; ring, by rw [(covariance_eq_iff s x y).mpr alike]⟩

end AiCoreStack.Foundation.Samples
