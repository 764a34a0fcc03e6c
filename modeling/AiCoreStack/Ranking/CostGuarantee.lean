import AiCoreStack.Ranking.Gains

/-!
# Guarantees under a cost budget

`knapsack` packs by gain per cost, packs by gain alone, looks for the best single
candidate, and returns the best of the three.  Without set constraints that keeps
half of every set within the budget, and with a coverage objective the share
`(1 - 1 / e) / 2`.
-/

namespace AiCoreStack.Ranking

open Foundation Foundation.Greedy

variable {C : Type}

namespace Selector

variable {self : Selector Exact C} {pool : Pool Exact C}

/-! ## Densities -/

theorem ratio_fin (gain : ℚ) (cost : UInt64) :
    ratio (Exact.fin gain) cost =
      if cost.toNat = 0 then .posInf else .fin (gain / cost.toNat) := by
  rw [ratio]
  by_cases free : cost = 0
  · simp only [free, if_true]
    rfl
  · have nonzero : cost.toNat ≠ 0 := fun zero => free (UInt64.toNat_inj.mp zero)
    have cast : (cost.toNat : ℚ) ≠ 0 := by exact_mod_cast nonzero
    rw [if_neg free, if_neg nonzero, Exact.ofNat_eq]
    exact if_neg cast

/-- The keys of `greedy_pack` compare as densities do. -/
theorem le_ratio_iff (g g' : ℚ) (c c' : UInt64) :
    Scalar.le (ratio (Exact.fin g) c) (ratio (Exact.fin g') c') = true ↔
      density g c.toNat ≤ density g' c'.toNat := by
  rw [ratio_fin, ratio_fin, density, density]
  by_cases free : c.toNat = 0 <;> by_cases free' : c'.toNat = 0
  · simp only [free, free', if_true, le_refl, iff_true]
    rfl
  · simp only [free, free', if_true, if_false, top_le_iff, WithTop.coe_ne_top, iff_false]
    exact Bool.false_ne_true
  · simp only [free, free', if_true, if_false, le_top, iff_true]
    rfl
  · simp only [free, free', if_false, Exact.le_fin, decide_eq_true_eq, WithTop.coe_le_coe]

theorem ratio_ne_nan (gain : ℚ) (cost : UInt64) : ratio (Exact.fin gain) cost ≠ .nan := by
  rw [ratio_fin]
  split <;> simp

/-! ## The three packings -/

variable {u : Utility (Fin pool.length) ℚ} {limit : UInt64}

theorem packFits_iff (unconstrained : self.setConstraints = []) {before : List (Fin pool.length)}
    {i : Fin pool.length} :
    self.PackFits pool limit before i ↔ Fits (self.positionCost pool) limit.toNat before i := by
  rw [PackFits, admitsAll_nil unconstrained]
  simp

/-- The value that `greedy_pack` returns is the value of what it packed. -/
theorem greedyPack_value (gains : self.GainsOf pool u) (small : limit.toNat < 2 ^ 32)
    (byRatio : Bool) :
    (self.greedyPack pool limit byRatio).2.1 =
      .fin (u.total (self.greedyPack pool limit byRatio).1) := by
  refine (self.greedyPack_rule pool byRatio
    (fun before value => value = Exact.fin (u.total before)) small ?_ ?_).1
  · simp
  · intro before spent value i b same _ _ pick
    rw [same, gains before i (packOpen_of_pick pick).1, Exact.add_fin, u.total_snoc]

/-- A pick by ratio is no less dense than any position that fits. -/
theorem packPick_densest (gains : self.GainsOf pool u) (small : limit.toNat < 2 ^ 32)
    (unconstrained : self.setConstraints = []) {before : List (Fin pool.length)} {spent : UInt64}
    (within : spent.toNat ≤ limit.toNat)
    (accounted : spent.toNat = Greedy.spent (self.positionCost pool) before)
    {i : Fin pool.length} {b : Exact}
    (pick : self.packPick pool limit true before spent = some (i, b)) :
    ∀ j, Fits (self.positionCost pool) limit.toNat before j →
      density (u.gain before.toFinset j) (self.positionCost pool j) ≤
        density (u.gain before.toFinset i) (self.positionCost pool i) := by
  intro j fits
  have isOpen := packOpen_of_pick pick
  have openJ := (packOpen_iff small within accounted j).mpr
    ((packFits_iff unconstrained).mpr fits)
  have numbers : ∀ j ∈ List.finRange pool.length,
      (!before.contains j && !decide (spent + self.costOf (pool.get j).candidate > limit) &&
        self.admitsAll (refs pool before) (pool.get j).candidate) = true →
      self.packKey true (refs pool before) (pool.get j) ≠ .nan := by
    intro j _ eligible
    simp only [Bool.and_eq_true] at eligible
    rw [packKey, if_pos rfl, gains before j (by simpa using eligible.1.1)]
    exact ratio_ne_nan _ _
  have largest := firstBest_max numbers pick j (List.mem_finRange j) (by
    simpa [PackOpen, and_assoc] using openJ)
  rw [packKey, packKey, if_pos rfl, if_pos rfl, gains before j openJ.1,
    gains before i isOpen.1] at largest
  exact (le_ratio_iff _ _ _ _).mp largest

/-- Every pick by ratio is the densest position that fits. -/
theorem greedyPack_densest (gains : self.GainsOf pool u) (small : limit.toNat < 2 ^ 32)
    (unconstrained : self.setConstraints = []) :
    Run (Densest u (self.positionCost pool) limit.toNat) (self.greedyPack pool limit true).1 ∧
      ∀ i, ¬ Fits (self.positionCost pool) limit.toNat (self.greedyPack pool limit true).1 i := by
  have rule := self.greedyPack_rule pool true
    (fun before (_ : Exact) => Run (Densest u (self.positionCost pool) limit.toNat) before)
    small Run.nil (by
      intro before spent _ i b run accounted within pick
      have fits := (packOpen_iff small within accounted i).mp (packOpen_of_pick pick)
      exact run.snoc ⟨fits.1, packPick_densest gains small unconstrained within accounted pick⟩)
  exact ⟨rule.1, fun i fits => rule.2.2 i ((packFits_iff unconstrained).mpr fits)⟩

/-- The best single candidate has the largest gain of those that fit alone. -/
theorem bestSingle_max (gains : self.GainsOf pool u) (unconstrained : self.setConstraints = [])
    {i : Fin pool.length} {gain : Exact} (single : self.bestSingle pool limit = some (i, gain)) :
    gain = .fin (u.total [i]) ∧
      ∀ j, self.positionCost pool j ≤ limit.toNat → u.value {j} ≤ u.total [i] := by
  have alone : ∀ j, self.gain [] (pool.get j) = .fin (u.total [j]) := by
    intro j
    have := gains [] j (by simp)
    rw [show refs pool [] = [] from rfl] at this
    rw [this, ← List.nil_append [j], u.total_snoc, u.total_nil, zero_add]
  have value := (firstBest_some single).2.2
  refine ⟨value.trans (alone i), ?_⟩
  intro j fits
  have numbers : ∀ j ∈ List.finRange pool.length,
      (!(decide (self.costOf (pool.get j).candidate > limit) ||
        !self.admitsAll [] (pool.get j).candidate)) = true →
      self.gain [] (pool.get j) ≠ .nan := by
    intro j _ _
    rw [alone j]
    simp
  have eligible : (!(decide (self.costOf (pool.get j).candidate > limit) ||
      !self.admitsAll [] (pool.get j).candidate)) = true := by
    have cheap : self.costOf (pool.get j).candidate ≤ limit := UInt64.le_iff_toNat_le.mpr fits
    rw [admitsAll_nil unconstrained]
    simpa using cheap
  have largest := firstBest_max numbers single j (List.mem_finRange j) eligible
  rw [alone j, alone i, Exact.le_fin] at largest
  have bound := of_decide_eq_true largest
  simpa [Utility.total] using bound

/-- When no single candidate was found, none fits alone. -/
theorem bestSingle_none (unconstrained : self.setConstraints = [])
    (none : self.bestSingle pool limit = none) (j : Fin pool.length) :
    limit.toNat < self.positionCost pool j := by
  have shut := firstBest_none none j (List.mem_finRange j)
  rw [admitsAll_nil unconstrained] at shut
  have dear : self.costOf (pool.get j).candidate > limit := by simpa using shut
  exact UInt64.lt_iff_toNat_lt.mp dear

/-- The better packing is worth what it says, and at least the packing by ratio. -/
theorem bestPacking_value (gains : self.GainsOf pool u) (small : limit.toNat < 2 ^ 32) :
    (self.bestPacking pool limit).2 = .fin (u.total (self.bestPacking pool limit).1) ∧
      u.total (self.greedyPack pool limit true).1 ≤ u.total (self.bestPacking pool limit).1 := by
  have ratioValue := greedyPack_value gains small true
  have gainValue := greedyPack_value gains small false
  rw [bestPacking]
  dsimp only
  rw [ratioValue, gainValue, Exact.lt_fin]
  by_cases better : u.total (self.greedyPack pool limit true).1 <
      u.total (self.greedyPack pool limit false).1
  · rw [if_pos (by simpa using better)]
    exact ⟨rfl, better.le⟩
  · rw [if_neg (by simpa using better)]
    exact ⟨rfl, le_rfl⟩

/-- The best branch is worth at least the packing by ratio, and at least every
candidate that fits alone. -/
theorem bestBranch_value (gains : self.GainsOf pool u) (unconstrained : self.setConstraints = [])
    (small : limit.toNat < 2 ^ 32) :
    u.total (self.greedyPack pool limit true).1 ≤ u.total (self.bestBranch pool limit).1 ∧
      ∀ j, self.positionCost pool j ≤ limit.toNat →
        u.value {j} ≤ u.total (self.bestBranch pool limit).1 := by
  obtain ⟨isValue, aboveRatio⟩ := bestPacking_value gains small
  cases single : self.bestSingle pool limit with
  | none =>
      rw [bestBranch, single]
      refine ⟨aboveRatio, fun j fits => ?_⟩
      exact absurd fits (Nat.not_le.mpr (bestSingle_none unconstrained single j))
  | some found =>
      obtain ⟨i, gain⟩ := found
      obtain ⟨isGain, largest⟩ := bestSingle_max gains unconstrained single
      rw [bestBranch, single]
      dsimp only
      rw [isValue, isGain, Exact.lt_fin]
      by_cases wins : u.total (self.bestPacking pool limit).1 < u.total [i]
      · rw [if_pos (by simpa using wins)]
        exact ⟨aboveRatio.trans wins.le, largest⟩
      · rw [if_neg (by simpa using wins)]
        exact ⟨aboveRatio, fun j fits => (largest j fits).trans (not_lt.mp wins)⟩

/-! ## What the engine promises -/

/-- A set of positions whose costs are within the budget. -/
structure WithinCost (selector : Selector Exact C) (pool : Pool Exact C) (max : UInt32)
    (others : List (Fin pool.length)) : Prop where
  nodup : others.Nodup
  total : (others.map (selector.positionCost pool)).sum ≤ max.toNat

theorem WithinCost.sum_le {max : UInt32} {others : List (Fin pool.length)}
    (within : self.WithinCost pool max others) :
    ∑ o ∈ others.toFinset, self.positionCost pool o ≤ max.toNat := by
  rw [List.sum_toFinset _ within.nodup]
  exact within.total

theorem bestBranch_nodup (small : limit.toNat < 2 ^ 32) :
    (self.bestBranch pool limit).1.Nodup :=
  (self.packRun_bestBranch pool small).nodup fun _ _ step => step.1.1

/-- Without an objective and without set constraints, the selection keeps the
reported half of every set within the cost budget. -/
theorem modular_cost_share (scores : NonNegative pool) (noObjective : self.objective = none)
    (unconstrained : self.setConstraints = []) {max : UInt32}
    (tokens : self.tokenBudget = some max) {others : List (Fin pool.length)}
    (within : self.WithinCost pool max others) :
    self.guarantee false = (false, some (.fin (1 / 2))) ∧
      1 / 2 * fusedSum pool others ≤ fusedSum pool (self.knapsack pool).selected := by
  constructor
  · rw [guarantee, noObjective, unconstrained, tokens]
    simp [structureOf, guaranteeOf, matroidCount]
    norm_num
  · have small : max.toUInt64.toNat < 2 ^ 32 := UInt32.toNat_lt max
    have gains := gainsOf_fused scores noObjective
    obtain ⟨run, full⟩ := greedyPack_densest gains small unconstrained
    obtain ⟨aboveRatio, aboveSingle⟩ := bestBranch_value gains unconstrained small
    have single : ∀ x, self.positionCost pool x ≤ max.toNat →
        fusedScore pool x ≤ (fusedUtility scores).total (self.bestBranch pool max.toUInt64).1 := by
      intro x fits
      have := aboveSingle x fits
      change ∑ y ∈ {x}, fusedScore pool y ≤ _ at this
      rwa [Finset.sum_singleton] at this
    have bound := weight_le_of_full within.sum_le run full single (Utility.value_nonneg _ _)
    have nodup : (self.bestBranch pool max.toUInt64).1.Nodup := bestBranch_nodup small
    rw [List.sum_toFinset _ within.nodup] at bound
    rw [knapsack_selected tokens, ← fusedUtility_total scores nodup]
    change fusedSum pool others ≤ (fusedUtility scores).total _ + _ at bound
    linarith

/-- A budget of three for the costs two, two and one. -/
theorem modular_cost_share_of_three :
    1 / 2 * fusedSum (scoredPool [3, 2, 1]) [⟨0, by decide⟩, ⟨2, by decide⟩] ≤
      fusedSum (scoredPool [3, 2, 1])
        (Selector.knapsack ⟨[], none, [], none, some 3, some fun n => if n = 2 then 1 else 2⟩
          (scoredPool [3, 2, 1])).selected :=
  (modular_cost_share (scoredPool_nonNegative (by simp)) rfl rfl rfl
    ⟨by decide, by decide⟩).2

/-- With a coverage objective and without set constraints, the selection keeps the
share `(1 - 1 / e) / 2` of every set within the cost budget. -/
theorem coverage_cost_share {K : Type} [DecidableEq K] {objective : Coverage Exact C K}
    (scores : NonNegative pool) (weights : objective.NonNegative)
    (covering : self.objective = some objective.toSetObjective)
    (unconstrained : self.setConstraints = []) {max : UInt32}
    (tokens : self.tokenBudget = some max) {others : List (Fin pool.length)}
    (within : self.WithinCost pool max others) :
    (1 - Real.exp (-1)) / 2 * (coverageValue pool objective others : ℝ) ≤
      (coverageValue pool objective (self.knapsack pool).selected : ℝ) := by
  have small : max.toUInt64.toNat < 2 ^ 32 := UInt32.toNat_lt max
  have gains := gainsOf_coverage scores weights covering
  obtain ⟨run, full⟩ := greedyPack_densest gains small unconstrained
  obtain ⟨aboveRatio, aboveSingle⟩ := bestBranch_value gains unconstrained small
  have realRun := run.mono fun _ _ step => step.toReal
  have single : ∀ x, self.positionCost pool x ≤ max.toNat →
      (coverageUtility scores weights).toReal.value {x} ≤
        ((coverageUtility scores weights).total (self.bestBranch pool max.toUInt64).1 : ℝ) :=
    fun x fits => Rat.cast_le.mpr (aboveSingle x fits)
  have bound := value_le_of_full within.sum_le realRun full single
    (Rat.cast_nonneg.mpr (Utility.value_nonneg _ _))
  have ratio : (coverageUtility scores weights).toReal.total
      (self.greedyPack pool max.toUInt64 true).1 ≤
        ((coverageUtility scores weights).total (self.bestBranch pool max.toUInt64).1 : ℝ) :=
    Rat.cast_le.mpr aboveRatio
  rw [knapsack_selected tokens, ← coverageUtility_total scores weights within.nodup,
    ← coverageUtility_total scores weights (bestBranch_nodup small)]
  change (1 - Real.exp (-1)) * ((coverageUtility scores weights).total others : ℝ) ≤ _ at bound
  linarith

/-- A budget of three for the costs two, two and one. -/
theorem coverage_cost_share_of_three :
    (1 - Real.exp (-1)) / 2 *
        (coverageValue (scoredPool [3, 2, 1]) ⟨fun n => [n], none⟩
          [⟨0, by decide⟩, ⟨2, by decide⟩] : ℝ) ≤
      (coverageValue (scoredPool [3, 2, 1]) ⟨fun n => [n], none⟩
        (Selector.knapsack ⟨[], some (Coverage.toSetObjective ⟨fun n => [n], none⟩), [], none,
          some 3, some fun n => if n = 2 then 1 else 2⟩ (scoredPool [3, 2, 1])).selected : ℝ) :=
  coverage_cost_share (scoredPool_nonNegative (by simp)) (fun _ => ⟨1, by simp, rfl⟩) rfl rfl rfl
    ⟨by decide, by decide⟩

end Selector

end AiCoreStack.Ranking
