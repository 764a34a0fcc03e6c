import AiCoreStack.Foundation.ExponentialFamily
import AiCoreStack.Ranking.Budget

/-!
# Counts from the tail of a power law

The fit behind `Budget::TailMass`, over the reals.  The masses `r^-s` of the ranks are an
exponential family.  So the bisection comes to the exponent of maximum likelihood, and the count
that is derived from it keeps what it promises of the observed mass as far as the fit is good.
-/

namespace AiCoreStack.Ranking

open Foundation ExponentialFamily

/-- `tail_mass`: the mass behind the first `k` of `v` ranks. -/
def tailMass {F : Type} (D : Type) [Scalar F] [Analytic D] [Widens F D] (s : F) (k v : Nat) : F :=
  if v = 0 ∨ v ≤ k then Scalar.lit 0
  else
    let s : D := Widens.widen s
    let head := Budget.harmonic s k
    let all := Budget.harmonic s v
    if Scalar.le all (Scalar.lit 0) then Scalar.lit 0
    else Widens.narrow (Scalar.sub (Scalar.lit 1) (Scalar.div head all))

namespace Budget

/-- The reals, which are all finite. -/
noncomputable local instance : Analytic ℝ where
  lit q := q
  ofNat n := n
  nan := 0
  infinity := 0
  negInfinity := 0
  add a b := a + b
  sub a b := a - b
  mul a b := a * b
  div a b := a / b
  lt a b := a < b
  le a b := a ≤ b
  max a b := a ⊔ b
  min a b := a ⊓ b
  totalCmp a b := compare a b
  isNan _ := false
  isFinite _ := true
  powf a b := a ^ b
  ln := Real.log
  abs a := |a|

local instance : Widens ℝ ℝ where
  widen a := a
  narrow a := a

theorem lt_iff {a b : ℝ} : Scalar.lt a b = true ↔ a < b := decide_eq_true_iff

theorem le_iff {a b : ℝ} : Scalar.le a b = true ↔ a ≤ b := decide_eq_true_iff

theorem lit_eq (q : ℚ) : (Scalar.lit q : ℝ) = q := rfl

/-! ## Ranks as an exponential family -/

/-- The level of a rank. -/
noncomputable def level (r : Nat) : ℝ := Real.log r

/-- The first ranks. -/
def ranks (n : Nat) : Finset Nat := Finset.Icc 1 n

theorem sum_eq (values : List ℝ) : Scalar.sum values = values.sum := by
  have folded : ∀ (values : List ℝ) (start : ℝ),
      values.foldl Scalar.add start = start + values.sum := by
    intro values
    induction values with
    | nil => simp
    | cons value rest ih =>
        intro start
        rw [List.foldl_cons, ih, List.sum_cons, ← add_assoc]
        rfl
  rw [Scalar.sum, folded, lit_eq, Rat.cast_zero, zero_add]

theorem sum_range'_eq (f : Nat → ℝ) (n : Nat) :
    ((List.range' 1 n).map f).sum = ∑ r ∈ ranks n, f r := by
  induction n with
  | zero => simp [ranks]
  | succ n ih =>
      rw [List.range'_1_concat, List.map_append, List.sum_append, ih, ranks, ranks,
        Finset.sum_Icc_succ_top (by omega), Nat.add_comm 1 n]
      simp

theorem rankMass_eq (s : ℝ) {r : Nat} (positive : 0 < r) : rankMass s r = weight level s r := by
  change (r : ℝ) ^ (((-1 : ℚ) : ℝ) * s) = Real.exp (-s * Real.log r)
  rw [Real.rpow_def_of_pos (Nat.cast_pos.mpr positive)]
  congr 1
  push_cast
  ring

theorem harmonic_eq (s : ℝ) (n : Nat) : harmonic s n = total (ranks n) level s := by
  rw [harmonic, sum_eq, sum_range'_eq, total]
  exact Finset.sum_congr rfl fun r inside => rankMass_eq s (Finset.mem_Icc.mp inside).1

theorem ranks_nonempty {v : Nat} (positive : 0 < v) : (ranks v).Nonempty :=
  Finset.nonempty_Icc.mpr positive

theorem ranks_spread {v : Nat} (several : 2 ≤ v) :
    ∃ r ∈ ranks v, ∃ r' ∈ ranks v, level r ≠ level r' := by
  refine ⟨1, Finset.mem_Icc.mpr ⟨le_rfl, by omega⟩, 2, Finset.mem_Icc.mpr ⟨by omega, several⟩, ?_⟩
  simp only [level, Nat.cast_one, Real.log_one, Nat.cast_ofNat]
  exact (Real.log_pos one_lt_two).ne

theorem harmonic_not_le {v : Nat} (positive : 0 < v) (s : ℝ) :
    ¬ Scalar.le (harmonic s v) (Scalar.lit 0) = true := by
  rw [le_iff, harmonic_eq, lit_eq, Rat.cast_zero, not_le]
  exact total_pos (ranks_nonempty positive) s

theorem modelStatistic_eq {v : Nat} (positive : 0 < v) :
    modelStatistic v = mean (ranks v) level := by
  funext s
  rw [modelStatistic, if_neg (harmonic_not_le positive s), harmonic_eq, sum_eq, sum_range'_eq, mean]
  change (∑ r ∈ ranks v, rankMass s r * level r) / _ = _
  congr 1
  exact Finset.sum_congr rfl fun r inside => by
    rw [rankMass_eq s (Finset.mem_Icc.mp inside).1]

/-! ## The exponent -/

theorem middle_eq (lo hi : ℝ) : middle lo hi = (lo + hi) / 2 := by
  change ((0.5 : ℚ) : ℝ) * (lo + hi) = _
  push_cast
  ring

/-- The bisection halves the interval in which the value is reached. -/
theorem bisect_near {f : ℝ → ℝ} (anti : StrictAnti f) (x : ℝ) (rounds : Nat) :
    ∀ lo hi, lo ≤ x → x ≤ hi → |bisect f (f x) rounds lo hi - x| ≤ (hi - lo) / 2 ^ (rounds + 1) := by
  induction rounds with
  | zero =>
      intro lo hi low high
      rw [bisect, middle_eq, abs_le]
      constructor <;> linarith
  | succ rounds ih =>
      intro lo hi low high
      have half : (hi - lo) / 2 ^ (rounds + 1 + 1) = ((hi - lo) / 2) / 2 ^ (rounds + 1) := by
        rw [pow_succ' (2 : ℝ) (rounds + 1), div_div]
      rw [bisect, half, middle_eq]
      by_cases above : f x < f ((lo + hi) / 2)
      · rw [if_pos (lt_iff.mpr above)]
        have left := ih ((lo + hi) / 2) hi (anti.lt_iff_gt.mp above).le high
        rwa [show hi - (lo + hi) / 2 = (hi - lo) / 2 by ring] at left
      · rw [if_neg (lt_iff.not.mpr above)]
        have right := ih lo ((lo + hi) / 2) low (anti.le_iff_ge.mp (not_lt.mp above))
        rwa [show (lo + hi) / 2 - lo = (hi - lo) / 2 by ring] at right

/-- What the masses say of the exponent. -/
noncomputable def observed (mass : List ℝ) : ℝ :=
  (mass.zipIdx.map fun entry => entry.1 / mass.sum * level (entry.2 + 1)).sum

/-- Where an estimate should be: at the end of the interval that the observed value is beyond, or
where the model has it. -/
structure Best (mass : List ℝ) (best : ℝ) : Prop where
  low : 0.01 ≤ best
  high : best ≤ 6
  below : best ≠ 6 → mean (ranks mass.length) level best ≤ observed mass
  above : best ≠ 0.01 → observed mass ≤ mean (ranks mass.length) level best

theorem estimateExponent_eq {mass : List ℝ} (positive : 0 < mass.length) :
    estimateExponent mass =
      if mean (ranks mass.length) level 0.01 < observed mass then 0.01
      else if observed mass < mean (ranks mass.length) level 6 then 6
      else bisect (mean (ranks mass.length) level) (observed mass) 60 0.01 6 := by
  have low : (Scalar.lit 0.01 : ℝ) = 0.01 := by
    rw [lit_eq]
    norm_num
  have high : (Scalar.lit 6 : ℝ) = 6 := by
    rw [lit_eq]
    norm_num
  have statistic : Scalar.sum (mass.zipIdx.map fun entry => Scalar.mul
      (Scalar.div entry.1 (Scalar.sum mass)) (Analytic.ln (Scalar.ofNat (entry.2 + 1)))) =
        observed mass := by
    rw [sum_eq, sum_eq]
    rfl
  change (if Scalar.lt (modelStatistic mass.length (Scalar.lit 0.01)) (Scalar.sum _) = true then _
    else if Scalar.lt (Scalar.sum _) (modelStatistic mass.length (Scalar.lit 6)) = true then _
    else bisect _ (Scalar.sum _) 60 _ _) = _
  rw [statistic, modelStatistic_eq positive, low, high]
  simp only [lt_iff]

/-- The estimate is as close to the best exponent as the bisection goes. -/
theorem estimateExponent_near {mass : List ℝ} (several : 2 ≤ mass.length) :
    ∃ best, Best mass best ∧ |estimateExponent mass - best| ≤ 5.99 / 2 ^ 61 := by
  have positive : 0 < mass.length := by omega
  have anti := mean_strictAnti (ranks_spread several)
  have small : (0 : ℝ) ≤ 5.99 / 2 ^ 61 := by positivity
  rw [estimateExponent_eq positive]
  split_ifs with beyondLow beyondHigh
  · refine ⟨0.01, ⟨le_rfl, by norm_num, fun _ => beyondLow.le, fun no => absurd rfl no⟩, ?_⟩
    rwa [sub_self, abs_zero]
  · refine ⟨6, ⟨by norm_num, le_rfl, fun no => absurd rfl no, fun _ => beyondHigh.le⟩, ?_⟩
    rwa [sub_self, abs_zero]
  · have reached : observed mass ∈ mean (ranks mass.length) level '' Set.Icc 0.01 6 := by
      refine intermediate_value_Icc' (by norm_num) ?_ ⟨not_lt.mp beyondHigh, not_lt.mp beyondLow⟩
      exact (continuous_mean (ranks_nonempty positive)).continuousOn
    obtain ⟨best, ⟨low, high⟩, same⟩ := reached
    refine ⟨best, ⟨low, high, fun _ => same.le, fun _ => same.ge⟩, ?_⟩
    have near := bisect_near anti best 60 0.01 6 low high
    rw [same] at near
    refine near.trans (le_of_eq ?_)
    norm_num

/-- The log-likelihood of the masses under a power law. -/
noncomputable def logLikelihood (mass : List ℝ) (s : ℝ) : ℝ :=
  (mass.zipIdx.map fun entry =>
    entry.1 * Real.log (rankMass s (entry.2 + 1) / harmonic s mass.length)).sum

theorem logLikelihood_eq {mass : List ℝ} (positive : 0 < mass.sum) (s : ℝ) :
    logLikelihood mass s =
      -(mass.sum * (s * observed mass + Real.log (total (ranks mass.length) level s))) := by
  have filled : 0 < mass.length := by
    refine List.length_pos_iff.mpr fun empty => ?_
    simp [empty] at positive
  have term : ∀ entry : ℝ × Nat,
      entry.1 * Real.log (rankMass s (entry.2 + 1) / harmonic s mass.length) =
        -(mass.sum * s) * (entry.1 / mass.sum * level (entry.2 + 1)) +
          -Real.log (total (ranks mass.length) level s) * entry.1 := by
    intro entry
    rw [harmonic_eq, rankMass_eq s (Nat.succ_pos _), Real.log_div (weight_pos s _).ne'
      (total_pos (ranks_nonempty filled) s).ne', weight, Real.log_exp]
    field_simp
    ring
  have masses : (mass.zipIdx.map fun entry => entry.1).sum = mass.sum :=
    congrArg List.sum (List.zipIdx_map_fst 0 mass)
  simp only [logLikelihood, term]
  rw [List.sum_map_add, List.sum_map_mul_left, List.sum_map_mul_left, masses, ← observed]
  ring

/-- No other exponent of the interval is as likely as the best one. -/
theorem Best.likely {mass : List ℝ} {best s : ℝ} (here : Best mass best)
    (several : 2 ≤ mass.length) (positive : 0 < mass.sum) (low : 0.01 ≤ s) (high : s ≤ 6)
    (other : s ≠ best) : logLikelihood mass s < logLikelihood mass best := by
  have entropy := entropy_pos other (ranks_spread several)
  have toward : 0 ≤ (s - best) * (observed mass - mean (ranks mass.length) level best) := by
    rcases lt_or_gt_of_ne other with less | more
    · have := here.above (low.trans_lt less).ne'
      nlinarith
    · have := here.below (more.trans_le high).ne
      nlinarith
  rw [logLikelihood_eq positive, logLikelihood_eq positive, neg_lt_neg_iff]
  refine mul_lt_mul_of_pos_left ?_ positive
  nlinarith

/-- The estimate is within what sixty halvings leave of the exponent of maximum likelihood. -/
theorem estimateExponent_likely {mass : List ℝ} (several : 2 ≤ mass.length)
    (positive : 0 < mass.sum) :
    ∃ best, 0.01 ≤ best ∧ best ≤ 6 ∧
      (∀ s, 0.01 ≤ s → s ≤ 6 → s ≠ best → logLikelihood mass s < logLikelihood mass best) ∧
      |estimateExponent mass - best| ≤ 5.99 / 2 ^ 61 := by
  obtain ⟨best, here, near⟩ := estimateExponent_near several
  refine ⟨best, here.low, here.high, fun s low high other => ?_, near⟩
  exact here.likely several positive low high other

theorem estimateExponent_likely_two :
    ∃ best, 0.01 ≤ best ∧ best ≤ 6 ∧
      (∀ s, 0.01 ≤ s → s ≤ 6 → s ≠ best → logLikelihood [2, 1] s < logLikelihood [2, 1] best) ∧
      |estimateExponent [2, 1] - best| ≤ 5.99 / 2 ^ 61 :=
  estimateExponent_likely (by decide) (by norm_num)

/-! ## The count -/

/-- The mass of the first `k` of `v` ranks under a power law. -/
noncomputable def share (s : ℝ) (k v : Nat) : ℝ :=
  total (ranks k) level s / total (ranks v) level s

theorem ranks_subset {k v : Nat} (within : k ≤ v) : ranks k ⊆ ranks v :=
  Finset.Icc_subset_Icc_right within

theorem share_self {v : Nat} (positive : 0 < v) (s : ℝ) : share s v v = 1 :=
  div_self (total_pos (ranks_nonempty positive) s).ne'

theorem share_le {s s' : ℝ} {k v : Nat} (positive : 0 < v) (within : k ≤ v) (flatter : s ≤ s') :
    share s k v ≤ share s' k v := by
  refine share_mono (ranks_subset within) (ranks_nonempty positive) ?_ flatter
  intro i inside j _ outside
  rw [ranks, Finset.mem_Icc] at inside outside
  have later : i ≤ j := by
    rename_i member
    rw [ranks, Finset.mem_Icc] at member
    omega
  exact Real.log_le_log (Nat.cast_pos.mpr inside.1) (Nat.cast_le.mpr later)

theorem harmonic_succ (s : ℝ) (k : Nat) :
    Scalar.add (harmonic s k) (rankMass s (k + 1)) = harmonic s (k + 1) := by
  rw [harmonic, harmonic, sum_eq, sum_eq, List.range'_1_concat, List.map_append,
    List.sum_append, Nat.add_comm 1 k]
  simp only [List.map_cons, List.map_nil, List.sum_cons, List.sum_nil, add_zero]
  rfl

theorem share_succ (s : ℝ) (k v : Nat) :
    share s (k + 1) v = share s k v + rankMass s (k + 1) / harmonic s v := by
  rw [share, share, ← harmonic_eq, ← harmonic_eq, ← harmonic_eq, ← harmonic_succ]
  exact add_div (harmonic s k) (rankMass s (k + 1)) (harmonic s v)

/-- The first count behind which the mass is within `epsilon`. -/
noncomputable def firstCount (s : ℝ) (v : Nat) (epsilon : ℝ) (counts : List Nat) : Nat :=
  (counts.find? fun k => decide (1 - share s k v ≤ epsilon)).getD v

theorem deriveKFrom_eq (s epsilon : ℝ) (v n : Nat) : ∀ k,
    deriveKFrom s (harmonic s v) epsilon v (harmonic s k) (List.range' (k + 1) n) =
      UInt32.ofNat (firstCount s v epsilon (List.range' (k + 1) n)) := by
  induction n with
  | zero =>
      intro k
      rfl
  | succ n ih =>
      intro k
      have tail : Scalar.le (Scalar.sub (Scalar.lit 1) (Scalar.div (harmonic s (k + 1))
          (harmonic s v))) epsilon = true ↔ 1 - share s (k + 1) v ≤ epsilon := by
        rw [le_iff, harmonic_eq, harmonic_eq, lit_eq, Rat.cast_one]
        rfl
      rw [List.range'_succ, deriveKFrom, harmonic_succ, firstCount, List.find?_cons]
      by_cases enough : 1 - share s (k + 1) v ≤ epsilon
      · rw [if_pos (tail.mpr enough)]
        simp [enough]
      · rw [if_neg (tail.not.mpr enough), ih (k + 1)]
        simp [enough, firstCount]

theorem deriveK_eq {v : Nat} (positive : 0 < v) (s epsilon : ℝ) :
    deriveK s v epsilon = UInt32.ofNat (firstCount s v epsilon (List.range' 1 v)) := by
  have none : (Scalar.lit 0 : ℝ) = harmonic s 0 := rfl
  rw [deriveK, if_neg (harmonic_not_le positive s), none]
  exact deriveKFrom_eq s epsilon v v 0

theorem firstCount_le (s : ℝ) (v : Nat) (epsilon : ℝ) :
    firstCount s v epsilon (List.range' 1 v) ≤ v := by
  rw [firstCount]
  cases found : (List.range' 1 v).find? fun k => decide (1 - share s k v ≤ epsilon) with
  | none => exact le_rfl
  | some k =>
      have inside := (List.find?_range'_eq_some.mp found).2.1
      rw [List.mem_range'_1] at inside
      rw [Option.getD_some]
      omega

theorem deriveK_toNat {v : Nat} (positive : 0 < v) (fits : v < 2 ^ 32) (s epsilon : ℝ) :
    (deriveK s v epsilon).toNat = firstCount s v epsilon (List.range' 1 v) := by
  rw [deriveK_eq positive]
  exact UInt32.toNat_ofNat_of_lt' ((firstCount_le s v epsilon).trans_lt fits)

theorem firstCount_least {v : Nat} (positive : 0 < v) (s : ℝ) {epsilon : ℝ}
    (nonneg : 0 ≤ epsilon) :
    1 ≤ firstCount s v epsilon (List.range' 1 v) ∧
      1 - share s (firstCount s v epsilon (List.range' 1 v)) v ≤ epsilon ∧
      ∀ k, 1 ≤ k → k < firstCount s v epsilon (List.range' 1 v) → epsilon < 1 - share s k v := by
  rw [firstCount]
  cases found : (List.range' 1 v).find? fun k => decide (1 - share s k v ≤ epsilon) with
  | none =>
      have last := List.find?_range'_eq_none.mp found v positive (by omega)
      simp [share_self positive, nonneg] at last
  | some k =>
      obtain ⟨enough, inside, least⟩ := List.find?_range'_eq_some.mp found
      rw [List.mem_range'_1] at inside
      refine ⟨inside.1, of_decide_eq_true enough, fun j first before => ?_⟩
      have short := least j first before
      simp only [Bool.not_eq_true', decide_eq_false_iff_not, not_le] at short
      exact short

/-- The derived count is the smallest one behind which no more than `epsilon` is left. -/
theorem deriveK_least {v : Nat} (positive : 0 < v) (fits : v < 2 ^ 32) (s : ℝ) {epsilon : ℝ}
    (nonneg : 0 ≤ epsilon) :
    1 ≤ (deriveK s v epsilon).toNat ∧ (deriveK s v epsilon).toNat ≤ v ∧
      1 - share s (deriveK s v epsilon).toNat v ≤ epsilon ∧
      ∀ k, 1 ≤ k → k < (deriveK s v epsilon).toNat → epsilon < 1 - share s k v := by
  rw [deriveK_toNat positive fits]
  obtain ⟨first, enough, least⟩ := firstCount_least positive s nonneg
  exact ⟨first, firstCount_le s v epsilon, enough, least⟩

theorem tailMass_eq {k v : Nat} (positive : 0 < v) (within : k ≤ v) (s : ℝ) :
    Ranking.tailMass ℝ s k v = 1 - share s k v := by
  rcases within.lt_or_eq with less | rfl
  · have formula : Ranking.tailMass ℝ s k v =
        Scalar.sub (Scalar.lit 1) (Scalar.div (harmonic s k) (harmonic s v)) := by
      rw [Ranking.tailMass, if_neg (by omega)]
      exact if_neg (harmonic_not_le positive s)
    rw [formula, harmonic_eq, harmonic_eq, lit_eq, Rat.cast_one]
    rfl
  · rw [Ranking.tailMass, if_pos (.inr le_rfl), share_self positive, sub_self, lit_eq, Rat.cast_zero]

/-- A steeper exponent or a larger allowance never derives more. -/
theorem deriveK_le {v : Nat} (positive : 0 < v) (fits : v < 2 ^ 32) {s s' epsilon epsilon' : ℝ}
    (flatter : s ≤ s') (tighter : epsilon ≤ epsilon') :
    (deriveK s' v epsilon').toNat ≤ (deriveK s v epsilon).toNat := by
  rw [deriveK_toNat positive fits, deriveK_toNat positive fits]
  cases found : (List.range' 1 v).find? fun k => decide (1 - share s k v ≤ epsilon) with
  | none =>
      have all : firstCount s v epsilon (List.range' 1 v) = v := by rw [firstCount, found]; rfl
      rw [all]
      exact firstCount_le s' v epsilon'
  | some k =>
      obtain ⟨enough, inside, -⟩ := List.find?_range'_eq_some.mp found
      rw [List.mem_range'_1] at inside
      have steeper := share_le positive (k := k) (by omega) flatter
      have enough' : 1 - share s' k v ≤ epsilon' := by
        linarith [of_decide_eq_true enough]
      have here : firstCount s v epsilon (List.range' 1 v) = k := by rw [firstCount, found]; rfl
      rw [here, firstCount]
      cases found' : (List.range' 1 v).find? fun k => decide (1 - share s' k v ≤ epsilon') with
      | none =>
          have no := List.find?_range'_eq_none.mp found' k inside.1 (by omega)
          simp [enough'] at no
      | some k' =>
          by_contra later
          have no := (List.find?_range'_eq_some.mp found').2.2 k inside.1 (not_le.mp later)
          simp [enough'] at no

theorem deriveK_le_ten :
    (deriveK (2 : ℝ) 10 0.1).toNat ≤ (deriveK (1 : ℝ) 10 0.1).toNat :=
  deriveK_le (by decide) (by decide) (by norm_num) le_rfl

/-! ## The fit -/

/-- The distance of the observed mass of the first ranks from that of the model. -/
noncomputable def gap (T s : ℝ) (v : Nat) (mass : List ℝ) (n : Nat) : ℝ :=
  |(mass.take n).sum / T - share s n v|

/-- A round of the loop of `fit_quality`. -/
noncomputable def fitStep (T H s : ℝ) (state : ℝ × ℝ × ℝ) (entry : ℝ × Nat) : ℝ × ℝ × ℝ :=
  (Scalar.add state.1 (Scalar.div entry.1 T),
    Scalar.add state.2.1 (Scalar.div (rankMass s (entry.2 + 1)) H),
    Scalar.max state.2.2 (Analytic.abs (Scalar.sub (Scalar.add state.1 (Scalar.div entry.1 T))
      (Scalar.add state.2.1 (Scalar.div (rankMass s (entry.2 + 1)) H)))))

/-- The loop holds both masses of the ranks so far and the largest gap between them. -/
theorem foldl_fitStep (T s : ℝ) (v : Nat) (mass : List ℝ) :
    ∃ d, mass.zipIdx.foldl (fitStep T (harmonic s v) s) (0, 0, 0) =
        (mass.sum / T, share s mass.length v, d) ∧
      (∀ n ≤ mass.length, gap T s v mass n ≤ d) ∧
      ∀ bound, (∀ n ≤ mass.length, gap T s v mass n ≤ bound) → d ≤ bound := by
  induction mass using List.reverseRecOn with
  | nil =>
      refine ⟨0, ?_, ?_, ?_⟩
      · simp [share, ranks, total]
      · intro n within
        simp [gap, share, ranks, total, Nat.le_zero.mp within]
      · intro bound all
        have zero := all 0 le_rfl
        simpa [gap, share, ranks, total] using zero
  | append_singleton mass m ih =>
      obtain ⟨d, state, covers, least⟩ := ih
      have length : (mass ++ [m]).length = mass.length + 1 := List.length_append
      have sum : (mass ++ [m]).sum / T = mass.sum / T + m / T := by
        rw [List.sum_append, List.sum_singleton, add_div]
      have last : gap T s v (mass ++ [m]) (mass.length + 1) =
          |mass.sum / T + m / T -
            (share s mass.length v + rankMass s (mass.length + 1) / harmonic s v)| := by
        rw [gap, ← length, List.take_length, sum, length, share_succ]
      have before : ∀ n ≤ mass.length, gap T s v (mass ++ [m]) n = gap T s v mass n := by
        intro n within
        rw [gap, gap, List.take_append_of_le_length within]
      refine ⟨max d (gap T s v (mass ++ [m]) (mass.length + 1)), ?_, ?_, ?_⟩
      · rw [List.zipIdx_append, List.foldl_append, state, sum, length, share_succ, last]
        rw [Nat.zero_add]
        rfl
      · intro n within
        rw [length] at within
        rcases Nat.lt_or_eq_of_le within with inside | rfl
        · rw [before n (Nat.lt_succ_iff.mp inside)]
          exact (covers n (Nat.lt_succ_iff.mp inside)).trans (le_max_left ..)
        · exact le_max_right ..
      · intro bound all
        rw [length] at all
        refine max_le (least bound fun n within => ?_) (all _ le_rfl)
        rw [← before n within]
        exact all n (within.trans (Nat.le_succ _))

theorem fitQuality_eq {mass : List ℝ} (positive : 0 < mass.length) (s : ℝ) :
    ∃ d, fitQuality mass s = max 0 (min 1 (1 - d)) ∧
      (∀ n ≤ mass.length, gap mass.sum s mass.length mass n ≤ d) ∧
      ∀ bound, (∀ n ≤ mass.length, gap mass.sum s mass.length mass n ≤ bound) → d ≤ bound := by
  obtain ⟨d, state, covers, least⟩ := foldl_fitStep mass.sum s mass.length mass
  refine ⟨d, ?_, covers, least⟩
  have zero : (Scalar.lit 0 : ℝ) = 0 := by rw [lit_eq, Rat.cast_zero]
  have one : (Scalar.lit 1 : ℝ) = 1 := by rw [lit_eq, Rat.cast_one]
  have distance : fitQuality mass s =
      if Scalar.le (harmonic s mass.length) (Scalar.lit 0) = true then Scalar.lit 0
      else Scalar.clamp (Scalar.sub (Scalar.lit 1) (mass.zipIdx.foldl
        (fitStep (Scalar.sum mass) (harmonic s mass.length) s)
        (Scalar.lit 0, Scalar.lit 0, Scalar.lit 0)).2.2) (Scalar.lit 0) (Scalar.lit 1) := rfl
  rw [distance, if_neg (harmonic_not_le positive s), zero, one, sum_eq, state, Scalar.clamp]
  change (if Scalar.lt (1 - d) 0 = true then 0
    else if Scalar.lt 1 (1 - d) = true then 1 else 1 - d) = max 0 (min 1 (1 - d))
  simp only [lt_iff]
  split_ifs with low high
  · rw [max_eq_left]
    exact (min_le_right ..).trans low.le
  · rw [min_eq_left high.le, max_eq_right zero_le_one]
  · rw [min_eq_right (not_lt.mp high), max_eq_right (not_lt.mp low)]

/-- The gap of a share of masses that are not negative. -/
theorem gap_le_one {mass : List ℝ} (nonneg : ∀ m ∈ mass, 0 ≤ m) (positive : 0 < mass.sum) (s : ℝ)
    {n : Nat} (within : n ≤ mass.length) : gap mass.sum s mass.length mass n ≤ 1 := by
  have filled : 0 < mass.length := by
    refine List.length_pos_iff.mpr fun empty => ?_
    simp [empty] at positive
  have split : (mass.take n).sum + (mass.drop n).sum = mass.sum := by
    rw [← List.sum_append, List.take_append_drop]
  have front : 0 ≤ (mass.take n).sum :=
    List.sum_nonneg fun m inside => nonneg m (List.mem_of_mem_take inside)
  have back : 0 ≤ (mass.drop n).sum :=
    List.sum_nonneg fun m inside => nonneg m (List.mem_of_mem_drop inside)
  have observedLow : 0 ≤ (mass.take n).sum / mass.sum := div_nonneg front positive.le
  have observedHigh : (mass.take n).sum / mass.sum ≤ 1 :=
    div_le_one_of_le₀ (by linarith) positive.le
  have modelLow : 0 ≤ share s n mass.length :=
    div_nonneg (Finset.sum_nonneg fun r _ => (weight_pos s r).le)
      (total_pos (ranks_nonempty filled) s).le
  have modelHigh : share s n mass.length ≤ 1 :=
    div_le_one_of_le₀ (Finset.sum_le_sum_of_subset_of_nonneg (ranks_subset within)
      fun r _ _ => (weight_pos s r).le) (total_pos (ranks_nonempty filled) s).le
  rw [gap, abs_le]
  constructor <;> linarith

/-- The fit bounds every gap. -/
theorem gap_le {mass : List ℝ} (nonneg : ∀ m ∈ mass, 0 ≤ m) (positive : 0 < mass.sum) (s : ℝ)
    {n : Nat} (within : n ≤ mass.length) :
    gap mass.sum s mass.length mass n ≤ 1 - fitQuality mass s := by
  have filled : 0 < mass.length := by
    refine List.length_pos_iff.mpr fun empty => ?_
    simp [empty] at positive
  obtain ⟨d, fit, covers, least⟩ := fitQuality_eq filled s
  have small : d ≤ 1 := least 1 fun n inside => gap_le_one nonneg positive s inside
  have := covers n within
  rw [fit]
  rcases max_cases 0 (min 1 (1 - d)) with ⟨same, _⟩ | ⟨same, _⟩
  · linarith
  · linarith [min_le_right 1 (1 - d)]

/-- When the count is derived, and not the fallback. -/
theorem deriveBudget_kept {mass : List ℝ} {epsilon minFit : ℝ} {fallbackK : UInt32}
    (kept : (deriveBudget mass epsilon fallbackK minFit).fallback = false) :
    10 ≤ mass.length ∧ (∀ m ∈ mass, 0 ≤ m) ∧ 0 < mass.sum ∧
      minFit ≤ fitQuality mass (estimateExponent mass) ∧
      (deriveBudget mass epsilon fallbackK minFit).derivedK =
        deriveK (estimateExponent mass) mass.length epsilon := by
  rw [deriveBudget] at kept ⊢
  split_ifs at kept ⊢ with few unusable massless
  · simp [bail] at kept
  · simp [bail] at kept
  · simp [bail] at kept
  · dsimp only at kept ⊢
    split_ifs at kept ⊢ with poor
    refine ⟨not_lt.mp few, fun m inside => ?_, ?_, not_lt.mp (lt_iff.not.mp poor), rfl⟩
    · by_contra negative
      apply unusable
      refine List.any_eq_true.mpr ⟨m, inside, ?_⟩
      have below : Scalar.lt m (Scalar.lit 0) = true := by
        rw [lt_iff, lit_eq, Rat.cast_zero]
        exact not_le.mp negative
      rw [below, Bool.or_true]
    · rw [le_iff, sum_eq, lit_eq, Rat.cast_zero, not_le] at massless
      exact massless

/-- When the masses are a distribution and the fit is good. -/
theorem deriveBudget_eq {mass : List ℝ} {epsilon minFit : ℝ} {fallbackK : UInt32}
    (several : 10 ≤ mass.length) (nonneg : ∀ m ∈ mass, 0 ≤ m) (positive : 0 < mass.sum)
    (fit : minFit ≤ fitQuality mass (estimateExponent mass)) :
    deriveBudget mass epsilon fallbackK minFit =
      { s := estimateExponent mass
        fitQuality := fitQuality mass (estimateExponent mass)
        fallback := false
        reason := none
        derivedK := deriveK (estimateExponent mass) mass.length epsilon } := by
  have usable : ¬ (mass.any fun m => !Scalar.isFinite m || Scalar.lt m (Scalar.lit 0)) = true := by
    intro some
    obtain ⟨m, inside, bad⟩ := List.any_eq_true.mp some
    rw [Bool.or_eq_true, lt_iff, lit_eq, Rat.cast_zero] at bad
    rcases bad with infinite | negative
    · cases infinite
    · exact absurd negative (not_lt.mpr (nonneg m inside))
  have massive : ¬ Scalar.le (Scalar.sum mass) (Scalar.lit 0) = true := by
    rw [le_iff, sum_eq, lit_eq, Rat.cast_zero, not_le]
    exact positive
  rw [deriveBudget, if_neg (not_lt.mpr several), if_neg usable, if_neg massive]
  exact if_neg (lt_iff.not.mpr (not_lt.mpr fit))

/-! ## Masses that are a power law -/

/-- The masses of a power law. -/
noncomputable def powerLaw (c t : ℝ) (v : Nat) : List ℝ :=
  (List.range' 1 v).map fun r : Nat => c * (r : ℝ) ^ (-t)

section

variable {c t : ℝ} {v : Nat}

theorem powerLaw_take (c t : ℝ) {n : Nat} (within : n ≤ v) :
    (powerLaw c t v).take n = powerLaw c t n := by
  rw [powerLaw, ← List.map_take, List.take_range'_of_length_ge within]
  rfl

theorem rpow_eq_weight {r : Nat} (inside : r ∈ ranks v) : (r : ℝ) ^ (-t) = weight level t r := by
  have positive : (0 : ℝ) < r := Nat.cast_pos.mpr (Finset.mem_Icc.mp inside).1
  rw [weight, Real.rpow_def_of_pos positive, level, mul_comm (Real.log r)]

theorem powerLaw_length (c t : ℝ) (v : Nat) : (powerLaw c t v).length = v := by
  simp [powerLaw]

theorem powerLaw_sum (c t : ℝ) (v : Nat) : (powerLaw c t v).sum = c * total (ranks v) level t := by
  rw [powerLaw, sum_range'_eq, total, Finset.mul_sum]
  exact Finset.sum_congr rfl fun r inside => by rw [rpow_eq_weight inside]

theorem powerLaw_pos (positive : 0 < c) {m : ℝ} (inside : m ∈ powerLaw c t v) : 0 < m := by
  obtain ⟨r, first, rfl⟩ := List.mem_map.mp inside
  rw [List.mem_range'_1] at first
  have : (0 : ℝ) < r := Nat.cast_pos.mpr (by omega)
  positivity

theorem observed_powerLaw (positive : 0 < c) :
    observed (powerLaw c t v) = mean (ranks v) level t := by
  have ranked : ∀ (f : ℝ → Nat → ℝ) (n : Nat),
      ((powerLaw c t n).zipIdx.map fun entry => f entry.1 (entry.2 + 1)).sum =
        ∑ r ∈ ranks n, f (c * (r : ℝ) ^ (-t)) r := by
    intro f n
    induction n with
    | zero => simp [powerLaw, ranks]
    | succ n ih =>
        have longer : powerLaw c t (n + 1) = powerLaw c t n ++ [c * ((n + 1 : Nat) : ℝ) ^ (-t)] := by
          rw [powerLaw, List.range'_1_concat, List.map_append, Nat.add_comm 1 n]
          rfl
        rw [longer, List.zipIdx_append, List.map_append, List.sum_append, ih, powerLaw_length,
          ranks, ranks, Finset.sum_Icc_succ_top (by omega)]
        simp
  rw [observed, ranked fun m r => m / (powerLaw c t v).sum * level r, powerLaw_sum, mean,
    Finset.sum_div]
  refine Finset.sum_congr rfl fun r inside => ?_
  rw [rpow_eq_weight inside, mul_div_mul_left _ _ positive.ne', div_mul_eq_mul_div]

/-- The estimate of the exponent that the masses have. -/
theorem estimateExponent_powerLaw (positive : 0 < c) (several : 2 ≤ v) (low : 0.01 ≤ t)
    (high : t ≤ 6) : |estimateExponent (powerLaw c t v) - t| ≤ 5.99 / 2 ^ 61 := by
  have enough : 2 ≤ (powerLaw c t v).length := by rwa [powerLaw_length]
  obtain ⟨best, here, near⟩ := estimateExponent_near enough
  have same : observed (powerLaw c t v) = mean (ranks v) level t := observed_powerLaw positive
  have anti := mean_strictAnti (ranks_spread several)
  obtain ⟨bestLow, bestHigh, below, above⟩ := here
  rw [powerLaw_length, same] at below above
  suffices best = t by rwa [this] at near
  by_contra other
  rcases lt_or_gt_of_ne other with less | more
  · have := below (less.trans_le high).ne
    exact absurd (anti less) (not_lt.mpr this)
  · have := above (low.trans_lt more).ne'
    exact absurd (anti more) (not_lt.mpr this)

/-- What an exponent so close misses of the masses. -/
theorem gap_powerLaw (positive : 0 < c) (filled : 0 < v) (fits : v < 2 ^ 32) {s : ℝ}
    (near : |s - t| ≤ 5.99 / 2 ^ 61) {n : Nat} (within : n ≤ v) :
    gap (powerLaw c t v).sum s v (powerLaw c t v) n ≤ 1 / 2 ^ 50 := by
  have levels : ∀ r ∈ ranks v, 0 ≤ level r ∧ level r ≤ 32 := by
    intro r inside
    obtain ⟨first, last⟩ := Finset.mem_Icc.mp inside
    have below : (r : ℝ) ≤ 2 ^ 32 := by exact_mod_cast last.trans fits.le
    refine ⟨Real.log_natCast_nonneg r, ?_⟩
    calc Real.log r ≤ Real.log (2 ^ 32) := Real.log_le_log (Nat.cast_pos.mpr first) below
      _ = 32 * Real.log 2 := by rw [Real.log_pow]; norm_num
      _ ≤ 32 := by linarith [Real.log_le_sub_one_of_pos (zero_lt_two' ℝ)]
  have close := share_sub_le (ranks_subset within) (ranks_nonempty filled) levels t s
  have masses : ((powerLaw c t v).take n).sum / (powerLaw c t v).sum = share t n v := by
    rw [powerLaw_take c t within, powerLaw_sum, powerLaw_sum, mul_div_mul_left _ _ positive.ne',
      share]
  rw [gap, masses]
  refine close.trans ?_
  rw [abs_sub_comm] at near
  have nonneg := abs_nonneg (t - s)
  have small : 2 * (|t - s| * 32) ≤ 1 / 2 ^ 52 := by
    refine (mul_le_mul_of_nonneg_left (mul_le_mul_of_nonneg_right near (by norm_num))
      (by norm_num)).trans ?_
    norm_num
  have tiny : |2 * (|t - s| * 32)| ≤ 1 := by
    rw [abs_of_nonneg (by positivity)]
    exact small.trans (by norm_num)
  have grows := Real.abs_exp_sub_one_le tiny
  rw [abs_of_nonneg (by positivity : 0 ≤ 2 * (|t - s| * 32))] at grows
  refine (le_abs_self _).trans (grows.trans ?_)
  calc 2 * (2 * (|t - s| * 32)) ≤ 2 * (1 / 2 ^ 52) := by linarith
    _ ≤ 1 / 2 ^ 50 := by norm_num

theorem powerLaw_massive (positive : 0 < c) (filled : 0 < v) : 0 < (powerLaw c t v).sum := by
  rw [powerLaw_sum]
  exact mul_pos positive (total_pos (ranks_nonempty filled) t)

theorem fitQuality_powerLaw (positive : 0 < c) (filled : 0 < v) (fits : v < 2 ^ 32) {s : ℝ}
    (near : |s - t| ≤ 5.99 / 2 ^ 61) : 1 - 1 / 2 ^ 50 ≤ fitQuality (powerLaw c t v) s := by
  have ranked : 0 < (powerLaw c t v).length := by rwa [powerLaw_length]
  obtain ⟨d, same, -, least⟩ := fitQuality_eq ranked s
  rw [powerLaw_length] at least
  have small := least (1 / 2 ^ 50) fun n within => gap_powerLaw positive filled fits near within
  rw [same]
  refine le_max_of_le_right (le_min ?_ ?_)
  · norm_num
  · linarith

/-- Masses of a power law pass the gate. -/
theorem deriveBudget_powerLaw_eq {epsilon minFit : ℝ} {fallbackK : UInt32} (positive : 0 < c)
    (low : 0.01 ≤ t) (high : t ≤ 6) (several : 10 ≤ v) (fits : v < 2 ^ 32)
    (gate : minFit ≤ 1 - 1 / 2 ^ 50) :
    deriveBudget (powerLaw c t v) epsilon fallbackK minFit =
      { s := estimateExponent (powerLaw c t v)
        fitQuality := fitQuality (powerLaw c t v) (estimateExponent (powerLaw c t v))
        fallback := false
        reason := none
        derivedK := deriveK (estimateExponent (powerLaw c t v)) v epsilon } := by
  have near : |estimateExponent (powerLaw c t v) - t| ≤ 5.99 / 2 ^ 61 :=
    estimateExponent_powerLaw positive (by omega) low high
  have ranked : 10 ≤ (powerLaw c t v).length := by rwa [powerLaw_length]
  have fit := fitQuality_powerLaw (v := v) positive (by omega) fits near
  have trace : deriveBudget (powerLaw c t v) epsilon fallbackK minFit = _ :=
    deriveBudget_eq ranked (fun m inside => (powerLaw_pos positive inside).le)
      (powerLaw_massive positive (by omega)) (gate.trans fit)
  rwa [powerLaw_length] at trace

/-- Masses of a power law keep their own exponent, pass the gate, and get the smallest count
behind which the fitted power law leaves no more than the allowance. -/
theorem deriveBudget_powerLaw {epsilon minFit : ℝ} {fallbackK : UInt32} (positive : 0 < c)
    (low : 0.01 ≤ t) (high : t ≤ 6) (several : 10 ≤ v) (fits : v < 2 ^ 32) (nonneg : 0 ≤ epsilon)
    (gate : minFit ≤ 1 - 1 / 2 ^ 50) :
    ∃ trace, deriveBudget (powerLaw c t v) epsilon fallbackK minFit = trace ∧
      trace.fallback = false ∧ |trace.s - t| ≤ 5.99 / 2 ^ 61 ∧
      1 - 1 / 2 ^ 50 ≤ trace.fitQuality ∧
      Ranking.tailMass ℝ trace.s trace.derivedK.toNat v ≤ epsilon ∧
      ∀ k, 1 ≤ k → k < trace.derivedK.toNat → epsilon < Ranking.tailMass ℝ trace.s k v := by
  have filled : 0 < v := by omega
  have near : |estimateExponent (powerLaw c t v) - t| ≤ 5.99 / 2 ^ 61 :=
    estimateExponent_powerLaw positive (by omega) low high
  refine ⟨_, deriveBudget_powerLaw_eq positive low high several fits gate, rfl, near,
    fitQuality_powerLaw positive filled fits near, ?_⟩
  obtain ⟨first, within, enough, least⟩ :=
    deriveK_least filled fits (estimateExponent (powerLaw c t v)) nonneg
  refine ⟨?_, fun k one before => ?_⟩
  · rwa [tailMass_eq filled within]
  · rw [tailMass_eq filled (before.le.trans within)]
    exact least k one before

theorem deriveBudget_powerLaw_ten :
    ∃ trace, deriveBudget (powerLaw 1 1 10) (0.1 : ℝ) 7 0.9 = trace ∧
      trace.fallback = false ∧ |trace.s - 1| ≤ 5.99 / 2 ^ 61 ∧
      1 - 1 / 2 ^ 50 ≤ trace.fitQuality ∧
      Ranking.tailMass ℝ trace.s trace.derivedK.toNat 10 ≤ 0.1 ∧
      ∀ k, 1 ≤ k → k < trace.derivedK.toNat → 0.1 < Ranking.tailMass ℝ trace.s k 10 :=
  deriveBudget_powerLaw one_pos (by norm_num) (by norm_num) le_rfl (by norm_num) (by norm_num)
    (by norm_num)

end

/-! ## What is left behind -/

/-- Whatever the masses are, no more of them than the allowance and what the fit may be off is
left behind a derived count. -/
theorem deriveBudget_tail {mass : List ℝ} {epsilon minFit : ℝ} {fallbackK : UInt32}
    (fits : mass.length < 2 ^ 32) (nonneg : 0 ≤ epsilon)
    (kept : (deriveBudget mass epsilon fallbackK minFit).fallback = false) :
    (mass.drop (deriveBudget mass epsilon fallbackK minFit).derivedK.toNat).sum / mass.sum ≤
      epsilon + (1 - minFit) := by
  obtain ⟨several, masses, positive, fit, derived⟩ := deriveBudget_kept kept
  obtain ⟨-, within, enough, -⟩ :=
    deriveK_least (v := mass.length) (by omega) fits (estimateExponent mass) nonneg
  have close := gap_le masses positive (estimateExponent mass) within
  rw [derived]
  generalize (deriveK (estimateExponent mass) mass.length epsilon).toNat = k at *
  have split : (mass.drop k).sum / mass.sum = 1 - (mass.take k).sum / mass.sum := by
    have parts : (mass.take k).sum + (mass.drop k).sum = mass.sum := by
      rw [← List.sum_append, List.take_append_drop]
    rw [eq_sub_iff_add_eq, ← add_div, add_comm, parts, div_self positive.ne']
  have := (abs_le.mp close).1
  rw [split]
  linarith

theorem deriveBudget_tail_ten :
    ((powerLaw 1 1 10).drop
      (deriveBudget (powerLaw 1 1 10) (0.1 : ℝ) 7 0.9).derivedK.toNat).sum /
        (powerLaw 1 1 10).sum ≤ 0.1 + (1 - 0.9) := by
  refine deriveBudget_tail (by rw [powerLaw_length]; norm_num) (by norm_num) ?_
  rw [deriveBudget_powerLaw_eq one_pos (by norm_num) (by norm_num) le_rfl (by norm_num)
    (by norm_num)]

end Budget

end AiCoreStack.Ranking
