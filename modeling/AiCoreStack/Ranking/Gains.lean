import AiCoreStack.Ranking.SelectRuns

/-!
# Gains in exact arithmetic

With fused scores that are finite and not negative, the gains of the selector are
the gains of a utility on the positions of the pool: the sum of the fused scores,
with a coverage objective the weight of the covered keys added to it.
-/

namespace AiCoreStack.Ranking

open Foundation Foundation.Greedy

variable {C K : Type} [DecidableEq K]

/-- Every fused score is finite and not negative. -/
def NonNegative (pool : Pool Exact C) : Prop :=
  ∀ i : Fin pool.length, ∃ score : ℚ, 0 ≤ score ∧ (pool.get i).fused = .fin score

/-- The fused score of a position. -/
def fusedScore (pool : Pool Exact C) (i : Fin pool.length) : ℚ := (pool.get i).fused.finitePart

theorem NonNegative.fused_eq {pool : Pool Exact C} (scores : NonNegative pool)
    (i : Fin pool.length) : (pool.get i).fused = .fin (fusedScore pool i) := by
  obtain ⟨score, _, same⟩ := scores i
  rw [fusedScore, same, Exact.finitePart]

theorem NonNegative.fusedScore_nonneg {pool : Pool Exact C} (scores : NonNegative pool)
    (i : Fin pool.length) : 0 ≤ fusedScore pool i := by
  obtain ⟨score, nonneg, same⟩ := scores i
  rwa [fusedScore, same, Exact.finitePart]

/-- The sum of the fused scores of some positions. -/
def fusedSum (pool : Pool Exact C) (members : List (Fin pool.length)) : ℚ :=
  (members.map (fusedScore pool)).sum

/-- A pool of numbered candidates with the given fused scores. -/
def scoredPool (scores : List ℚ) : Pool Exact Nat :=
  scores.zipIdx.map fun (score, candidate) =>
    { candidate := candidate
      id := .num (UInt64.ofNat candidate)
      scores := []
      fused := .fin score
      trace := ⟨.max, none, .skip, []⟩ }

theorem scoredPool_nonNegative {scores : List ℚ} (nonneg : ∀ score ∈ scores, 0 ≤ score) :
    NonNegative (scoredPool scores) := by
  intro i
  have inside : (i : Nat) < scores.length := by simpa [scoredPool] using i.isLt
  refine ⟨scores[(i : Nat)], nonneg _ (List.getElem_mem inside), ?_⟩
  rw [List.get_eq_getElem]
  simp [scoredPool]

namespace Coverage

/-- Every key has a finite weight that is not negative. -/
def NonNegative (objective : Coverage Exact C K) : Prop :=
  ∀ key, ∃ weight : ℚ, 0 ≤ weight ∧ objective.weightOf key = .fin weight

/-- The weight of a key. -/
def keyWeight (objective : Coverage Exact C K) (key : K) : ℚ :=
  (objective.weightOf key).finitePart

variable {objective : Coverage Exact C K}

omit [DecidableEq K] in
theorem NonNegative.weightOf_eq (weights : objective.NonNegative) (key : K) :
    objective.weightOf key = .fin (objective.keyWeight key) := by
  obtain ⟨weight, _, same⟩ := weights key
  rw [keyWeight, same, Exact.finitePart]

omit [DecidableEq K] in
theorem NonNegative.keyWeight_nonneg (weights : objective.NonNegative) (key : K) :
    0 ≤ objective.keyWeight key := by
  obtain ⟨weight, nonneg, same⟩ := weights key
  rwa [keyWeight, same, Exact.finitePart]

/-- The keys that some candidates cover. -/
def keysOf (objective : Coverage Exact C K) (members : List C) : Finset K :=
  (members.flatMap objective.cover).toFinset

/-- The keys that the loop of `marginal_gain` counts. -/
def newKeys (covered : List K) : List K → List K → List K
  | _, [] => []
  | fresh, key :: rest =>
      if covered.contains key = false ∧ fresh.contains key = false then
        key :: newKeys covered (key :: fresh) rest
      else newKeys covered fresh rest

theorem gainLoop_eq_foldl {F : Type} [Scalar F] (objective : Coverage F C K)
    (covered fresh keys : List K) (gain : F) :
    gainLoop objective covered gain fresh keys =
      ((newKeys covered fresh keys).map objective.weightOf).foldl Scalar.add gain := by
  induction keys generalizing gain fresh with
  | nil => rfl
  | cons key rest ih =>
      rw [gainLoop, newKeys]
      split
      · rw [ih, List.map_cons, List.foldl_cons]
      · exact ih fresh gain

theorem mem_newKeys {covered fresh keys : List K} {k : K} :
    k ∈ newKeys covered fresh keys ↔ k ∈ keys ∧ k ∉ covered ∧ k ∉ fresh := by
  induction keys generalizing fresh with
  | nil => simp [newKeys]
  | cons key rest ih =>
      rw [newKeys]
      split
      · next isNew =>
          have outside : key ∉ covered ∧ key ∉ fresh := by simpa using isNew
          rw [List.mem_cons, ih, List.mem_cons, List.mem_cons]
          by_cases same : k = key
          · simp [same, outside]
          · simp [same]
      · next old =>
          have inside : key ∈ covered ∨ key ∈ fresh := by
            by_contra outside
            exact old (by simpa using outside)
          rw [ih, List.mem_cons]
          refine and_congr_left fun outside => (or_iff_right ?_).symm
          rintro rfl
          exact inside.elim outside.1 outside.2

theorem nodup_newKeys (covered fresh keys : List K) : (newKeys covered fresh keys).Nodup := by
  induction keys generalizing fresh with
  | nil => exact List.nodup_nil
  | cons key rest ih =>
      rw [newKeys]
      split
      · refine List.nodup_cons.mpr ⟨fun member => ?_, ih _⟩
        exact (mem_newKeys.mp member).2.2 List.mem_cons_self
      · exact ih fresh

theorem toFinset_newKeys (covered fresh keys : List K) :
    (newKeys covered fresh keys).toFinset =
      keys.toFinset \ (covered.toFinset ∪ fresh.toFinset) := by
  ext k
  simp [mem_newKeys]

/-- The loop of `marginal_gain` adds the weights of the keys that are new. -/
theorem gainLoop_eq (weights : objective.NonNegative) (covered fresh keys : List K) (gain : ℚ) :
    gainLoop objective covered (.fin gain) fresh keys =
      .fin (gain + ∑ k ∈ keys.toFinset \ (covered.toFinset ∪ fresh.toFinset),
        objective.keyWeight k) := by
  have finite : (newKeys covered fresh keys).map objective.weightOf =
      ((newKeys covered fresh keys).map objective.keyWeight).map Exact.fin := by
    rw [List.map_map]
    exact List.map_congr_left fun k _ => weights.weightOf_eq k
  rw [gainLoop_eq_foldl, finite, Exact.foldl_add_fin, ← toFinset_newKeys,
    List.sum_toFinset _ (nodup_newKeys covered fresh keys)]

theorem marginalGain_eq (weights : objective.NonNegative) (selected : List C) (candidate : C) :
    objective.marginalGain selected candidate =
      .fin (∑ k ∈ (objective.cover candidate).toFinset \ objective.keysOf selected,
        objective.keyWeight k) := by
  rw [marginalGain, Exact.lit_eq, gainLoop_eq weights]
  simp [keysOf]

end Coverage

/-- Fused scores and the weight of the covered keys. -/
def coverageValue (pool : Pool Exact C) (objective : Coverage Exact C K)
    (members : List (Fin pool.length)) : ℚ :=
  fusedSum pool members +
    ∑ k ∈ objective.keysOf (Selector.refs pool members), objective.keyWeight k

/-- The utility without an objective. -/
def fusedUtility {pool : Pool Exact C} (scores : NonNegative pool) : Utility (Fin pool.length) ℚ :=
  .modular (fusedScore pool) scores.fusedScore_nonneg

/-- The utility with a coverage objective. -/
def coverageUtility {pool : Pool Exact C} (scores : NonNegative pool)
    {objective : Coverage Exact C K} (weights : objective.NonNegative) :
    Utility (Fin pool.length) ℚ :=
  (fusedUtility scores).add
    (.coverage (fun i => (objective.cover (pool.get i).candidate).toFinset) objective.keyWeight
      weights.keyWeight_nonneg)

theorem fusedUtility_total {pool : Pool Exact C} (scores : NonNegative pool)
    {members : List (Fin pool.length)} (nodup : members.Nodup) :
    (fusedUtility scores).total members = fusedSum pool members :=
  List.sum_toFinset (fusedScore pool) nodup

theorem keysOf_refs (pool : Pool Exact C) (objective : Coverage Exact C K)
    (members : List (Fin pool.length)) :
    objective.keysOf (Selector.refs pool members) =
      members.toFinset.biUnion fun i => (objective.cover (pool.get i).candidate).toFinset := by
  ext k
  simp [Coverage.keysOf, Selector.refs]

theorem coverageUtility_total {pool : Pool Exact C} (scores : NonNegative pool)
    {objective : Coverage Exact C K} (weights : objective.NonNegative)
    {members : List (Fin pool.length)} (nodup : members.Nodup) :
    (coverageUtility scores weights).total members = coverageValue pool objective members := by
  rw [coverageValue, keysOf_refs, ← fusedUtility_total scores nodup]
  rfl

namespace Selector

/-- The gains of the selector at new positions are those of the utility. -/
def GainsOf (self : Selector Exact C) (pool : Pool Exact C)
    (u : Utility (Fin pool.length) ℚ) : Prop :=
  ∀ before i, i ∉ before →
    self.gain (refs pool before) (pool.get i) = .fin (u.gain before.toFinset i)

variable {self : Selector Exact C} {pool : Pool Exact C}

theorem gainsOf_fused (scores : Ranking.NonNegative pool) (noObjective : self.objective = none) :
    self.GainsOf pool (fusedUtility scores) := by
  intro before i fresh
  rw [gain, noObjective, scores.fused_eq, fusedUtility,
    Utility.modular_gain _ (by simpa using fresh)]

theorem gainsOf_coverage (scores : Ranking.NonNegative pool) {objective : Coverage Exact C K}
    (weights : objective.NonNegative)
    (covering : self.objective = some objective.toSetObjective) :
    self.GainsOf pool (coverageUtility scores weights) := by
  intro before i fresh
  have marginal := Coverage.marginalGain_eq weights (refs pool before) (pool.get i).candidate
  rw [gain, covering]
  dsimp only [Coverage.toSetObjective]
  rw [marginal, scores.fused_eq, Exact.add_fin, coverageUtility, Utility.add_gain, fusedUtility,
    Utility.modular_gain _ (by simpa using fresh), Utility.coverage_gain, keysOf_refs]

/-- A pick of `cardinality` has the largest gain among the open positions. -/
theorem countPick_best {u : Utility (Fin pool.length) ℚ} (gains : self.GainsOf pool u)
    {before : List (Fin pool.length)} {i : Fin pool.length} {b : Exact}
    (pick : self.countPick pool before = some (i, b)) :
    ∀ j, self.CountOpen pool before j → u.gain before.toFinset j ≤ u.gain before.toFinset i := by
  intro j isOpen
  have freshI := (countOpen_of_pick pick).1
  have numbers : ∀ j ∈ List.finRange pool.length,
      (!before.contains j && self.admitsAll (refs pool before) (pool.get j).candidate) = true →
      self.gain (refs pool before) (pool.get j) ≠ .nan := by
    intro j _ eligible
    rw [gains before j (by simpa using (Bool.and_eq_true_iff.mp eligible).1)]
    simp
  have largest := firstBest_max numbers pick j (List.mem_finRange j) (by
    simpa [CountOpen] using isOpen)
  rw [gains before j isOpen.1, gains before i freshI, Exact.le_fin] at largest
  exact of_decide_eq_true largest

end Selector

end AiCoreStack.Ranking
