import AiCoreStack.Ranking.Gains

/-!
# Guarantees under a count budget

Caps on groups and on the total are the constraints the engine declares to be
matroids.  A pick of `cardinality` closes at most one position of a set within a
cap.  The greedy selection is then optimal under at most one cap, within `1 / p`
of the optimum under `p` caps, and within `1 / (p + 1)` with a coverage objective.
Without caps a coverage objective keeps the share `1 - (1 - 1 / k) ^ k`.
-/

namespace AiCoreStack.Ranking

open Foundation Foundation.Greedy

variable {C D : Type} [Scalar D]

/-! ## Caps -/

namespace BuiltIn

/-- A cap counts the members of the group of a candidate. -/
theorem IsCap.exists_key {cap : BuiltIn D C} (isCap : cap.IsCap) :
    ∃ (K : Type) (_ : DecidableEq K) (key : C → K) (max : Nat),
      (∀ selected candidate, cap.toSetConstraint.admits selected candidate = true ↔
        selected.countP (key · = key candidate) < max) ∧
      ∀ members, cap.Holds members ↔ ∀ g, members.countP (key · = g) ≤ max := by
  cases cap with
  | @maxPerGroup K decEq id max key =>
      exact ⟨K, decEq, key, max, MaxPerGroup.admits_iff max key, fun _ => Iff.rfl⟩
  | maxTotal id max =>
      refine ⟨Unit, inferInstance, fun _ => (), max, ?_, ?_⟩
      · intro selected candidate
        simp [toSetConstraint, Ranking.maxTotal]
      · intro members
        simp [Holds]
  | costBudget id limit cost => exact isCap.elim

theorem IsCap.isMatroid {cap : BuiltIn D C} (isCap : cap.IsCap) :
    cap.toSetConstraint.isMatroid = true := by
  cases cap with
  | maxPerGroup id max key => rfl
  | maxTotal id max => rfl
  | costBudget id limit cost => exact isCap.elim

/-- What a cap admits beside more members it admits beside fewer. -/
theorem IsCap.admits_of_snoc {cap : BuiltIn D C} (isCap : cap.IsCap) {selected : List C}
    {added candidate : C}
    (admitted : cap.toSetConstraint.admits (selected ++ [added]) candidate = true) :
    cap.toSetConstraint.admits selected candidate = true := by
  obtain ⟨K, decEq, key, max, admits, _⟩ := isCap.exists_key
  rw [admits] at admitted ⊢
  rw [List.countP_append] at admitted
  exact (Nat.le_add_right _ _).trans_lt admitted

end BuiltIn

/-- A set of positions within the count budget and the caps. -/
structure WithinCaps {F : Type} (caps : List (BuiltIn D C)) (k : Nat) (pool : Pool F C)
    (others : List (Fin pool.length)) : Prop where
  nodup : others.Nodup
  size : others.length ≤ k
  holds : ∀ cap ∈ caps, cap.Holds (Selector.refs pool others)

namespace Selector

variable {F : Type}

/-- A position that `cardinality` may pick when `k` places are asked for. -/
def Open (self : Selector F C) (pool : Pool F C) (k : Nat) (before : List (Fin pool.length))
    (i : Fin pool.length) : Prop :=
  before.length < k ∧ self.CountOpen pool before i

section Caps

variable {self : Selector F C} {pool : Pool F C} {caps : List (BuiltIn D C)} {k : Nat}

theorem refs_snoc (pool : Pool F C) (before : List (Fin pool.length)) (i : Fin pool.length) :
    refs pool (before ++ [i]) = refs pool before ++ [(pool.get i).candidate] := by
  simp [refs]

theorem admitsAll_iff (registered : self.setConstraints = caps.map BuiltIn.toSetConstraint)
    (selected : List C) (candidate : C) :
    self.admitsAll selected candidate = true ↔
      ∀ cap ∈ caps, cap.toSetConstraint.admits selected candidate = true := by
  rw [admitsAll, registered, List.all_map, List.all_eq_true]
  rfl

theorem open_of_snoc (registered : self.setConstraints = caps.map BuiltIn.toSetConstraint)
    (areCaps : ∀ cap ∈ caps, cap.IsCap) (before : List (Fin pool.length))
    (x y : Fin pool.length) (isOpen : self.Open pool k (before ++ [x]) y) :
    self.Open pool k before y := by
  obtain ⟨room, fresh, admitted⟩ := isOpen
  rw [List.length_append, List.length_singleton] at room
  rw [admitsAll_iff registered, refs_snoc] at admitted
  refine ⟨Nat.lt_of_succ_lt room, fun member => fresh (List.mem_append_left _ member), ?_⟩
  rw [admitsAll_iff registered]
  exact fun cap member => (areCaps cap member).admits_of_snoc (admitted cap member)

/-- Under a cap, picks close no more positions than there are picks. -/
theorem card_closed_cap_le (cap : BuiltIn D C) (isCap : cap.IsCap)
    {before others : List (Fin pool.length)} (nodup : before.Nodup) (distinct : others.Nodup)
    (size : others.length ≤ k) (holds : cap.Holds (refs pool others)) :
    (closed (fun before i => before.length < k ∧ i ∉ before ∧
      cap.toSetConstraint.admits (refs pool before) (pool.get i).candidate = true)
      others.toFinset before).card ≤ before.length := by
  obtain ⟨K, decEq, key, max, admits, groups⟩ := isCap.exists_key
  have countRefs : ∀ (members : List (Fin pool.length)) g, (refs pool members).countP (key · = g) =
      members.countP (fun i => key (pool.get i).candidate = g) := by
    intro members g
    rw [refs, List.countP_map]
    rfl
  have sameOpen : (fun (before : List (Fin pool.length)) i => before.length < k ∧ i ∉ before ∧
      cap.toSetConstraint.admits (refs pool before) (pool.get i).candidate = true) =
      Capped (fun i => key (pool.get i).candidate) max k := by
    funext before i
    rw [Capped, admits, countRefs]
  rw [sameOpen]
  apply card_closed_capped_le _ nodup
  · rwa [List.toFinset_card_of_nodup distinct]
  · intro g
    have bound := (groups _).mp holds g
    rwa [countRefs, countP_eq_card _ distinct] at bound

/-- Under `p` caps, picks close at most `p` positions each.  Without a cap the
count budget takes the part of one. -/
theorem card_closed_le (registered : self.setConstraints = caps.map BuiltIn.toSetConstraint)
    (areCaps : ∀ cap ∈ caps, cap.IsCap) {before others : List (Fin pool.length)}
    (nodup : before.Nodup) (within : WithinCaps caps k pool others) :
    (closed (self.Open pool k) others.toFinset before).card ≤
      max caps.length 1 * before.length := by
  by_cases none : caps = []
  · have asTotal := card_closed_cap_le (BuiltIn.maxTotal (D := D) "" k) trivial nodup
      within.nodup within.size (by simpa [BuiltIn.Holds, refs] using within.size)
    have sub : closed (self.Open pool k) others.toFinset before ⊆
        closed (fun before i => before.length < k ∧ i ∉ before ∧
          (BuiltIn.maxTotal (D := D) "" k).toSetConstraint.admits (refs pool before)
            (pool.get i).candidate = true) others.toFinset before := by
      intro o inClosed
      rw [mem_closed] at inClosed ⊢
      refine ⟨inClosed.1, fun isOpen => inClosed.2 ⟨isOpen.1, isOpen.2.1, ?_⟩⟩
      rw [admitsAll_iff registered, none]
      simp
    have := (Finset.card_le_card sub).trans asTotal
    simpa [none] using this
  · have positive : 1 ≤ caps.length := List.length_pos_iff.mpr none
    rw [max_eq_left positive]
    apply card_closed_le_mul (fun (j : Fin caps.length) before i =>
      before.length < k ∧ i ∉ before ∧
        (caps.get j).toSetConstraint.admits (refs pool before) (pool.get i).candidate = true)
    · intro o parts
      obtain ⟨room, fresh, _⟩ := parts ⟨0, positive⟩
      refine ⟨room, fresh, ?_⟩
      rw [admitsAll_iff registered]
      intro cap member
      obtain ⟨j, rfl⟩ := List.get_of_mem member
      exact (parts j).2.2
    · intro j
      exact card_closed_cap_le _ (areCaps _ (List.get_mem caps j)) nodup within.nodup within.size
        (within.holds _ (List.get_mem caps j))

end Caps

/-! ## Runs of `cardinality` -/

theorem mem_of_length_eq {n : Nat} {picks : List (Fin n)} (nodup : picks.Nodup)
    (every : n ≤ picks.length) (i : Fin n) : i ∈ picks := by
  by_contra out
  have larger := (List.nodup_cons.mpr ⟨out, nodup⟩).length_le_card
  simp only [List.length_cons, Fintype.card_fin] at larger
  omega

section Exact

variable {self : Selector Exact C} {pool : Pool Exact C} {k : Nat}

/-- In exact arithmetic the run picks the largest gain among the open positions,
and ends when none is open. -/
theorem cardinality_greedy {u : Utility (Fin pool.length) ℚ} (gains : self.GainsOf pool u)
    (count : self.k = some k) :
    Run (Best u (self.Open pool k)) (self.cardinality pool).selected ∧
      (self.cardinality pool).selected.Nodup ∧
      ∀ i, ¬ self.Open pool k (self.cardinality pool).selected i := by
  obtain ⟨run, size, ended⟩ := self.cardinality_run pool
    (fun before i => self.CountOpen pool before i ∧
      ∀ j, self.CountOpen pool before j → u.gain before.toFinset j ≤ u.gain before.toFinset i)
    (fun before i b pick => ⟨countOpen_of_pick pick, countPick_best gains pick⟩)
  have nodup : (self.cardinality pool).selected.Nodup := run.nodup fun _ _ step => step.1.1
  rw [count, Option.getD_some] at size ended
  refine ⟨?_, nodup, ?_⟩
  · refine (run.bounded (size.trans (min_le_left _ _))).mono ?_
    intro before i step
    exact ⟨⟨step.1, step.2.1⟩, fun j isOpen => step.2.2 j isOpen.2⟩
  · intro i isOpen
    rcases ended with full | stuck
    · have short : (self.cardinality pool).selected.length < k := isOpen.1
      have every : pool.length ≤ (self.cardinality pool).selected.length := by omega
      exact isOpen.2.1 (mem_of_length_eq nodup every i)
    · exact not_countOpen stuck i isOpen.2

variable {caps : List (BuiltIn D C)}

/-- The value of the selection under `p` caps, for any utility. -/
theorem value_le_cardinality {u : Utility (Fin pool.length) ℚ} (gains : self.GainsOf pool u)
    (count : self.k = some k)
    (registered : self.setConstraints = caps.map BuiltIn.toSetConstraint)
    (areCaps : ∀ cap ∈ caps, cap.IsCap) {others : List (Fin pool.length)}
    (within : WithinCaps caps k pool others) :
    u.total others ≤ (max caps.length 1 + 1 : ℕ) * u.total (self.cardinality pool).selected := by
  obtain ⟨run, nodup, shut⟩ := cardinality_greedy gains count
  have bound := value_le_of_closed (p := max caps.length 1) (O := others.toFinset) run
    (fun before x y => open_of_snoc registered areCaps before x y)
    (fun before is => card_closed_le registered areCaps (nodup.sublist is.sublist) within)
    (fun o _ => shut o)
  push_cast
  push_cast at bound
  exact bound

/-- Without constraints the gap to `k` positions shrinks with every pick. -/
theorem share_le_cardinality {u : Utility (Fin pool.length) ℚ} (gains : self.GainsOf pool u)
    (count : self.k = some k) (positive : 1 ≤ k) (unconstrained : self.setConstraints = [])
    {others : List (Fin pool.length)} (distinct : others.Nodup) (size : others.length ≤ k) :
    (1 - (1 - 1 / (k : ℚ)) ^ k) * u.total others ≤ u.total (self.cardinality pool).selected := by
  obtain ⟨run, nodup, shut⟩ := cardinality_greedy gains count
  have admitted : ∀ before (i : Fin pool.length),
      self.admitsAll (refs pool before) (pool.get i).candidate = true := by
    simp [admitsAll, unconstrained]
  have leads : Run (fun before x => ∀ o ∈ others.toFinset,
      u.gain before.toFinset o ≤ u.gain before.toFinset x) (self.cardinality pool).selected := by
    refine run.mono ?_
    intro before x step o _
    by_cases picked : o ∈ before
    · rw [u.gain_eq_zero (by simpa using picked)]
      exact u.gain_nonneg _ _
    · exact step.2 o ⟨step.1.1, picked, admitted before o⟩
  have gap := gap_le positive (by rwa [List.toFinset_card_of_nodup distinct]) leads
  change u.total others - _ ≤ _ * u.total others at gap
  have nonneg : 0 ≤ u.total others := u.value_nonneg _
  have factor : 0 ≤ 1 - 1 / (k : ℚ) := by
    rw [sub_nonneg, div_le_one (by exact_mod_cast positive)]
    exact_mod_cast positive
  by_cases full : k ≤ (self.cardinality pool).selected.length
  · have shrunk : (1 - 1 / (k : ℚ)) ^ (self.cardinality pool).selected.length ≤
        (1 - 1 / (k : ℚ)) ^ k :=
      pow_le_pow_of_le_one factor (by simp) full
    have := mul_le_mul_of_nonneg_right shrunk nonneg
    linarith
  · -- every position was picked before the places ran out
    have inside : others.toFinset ⊆ (self.cardinality pool).selected.toFinset := by
      intro o _
      rw [List.mem_toFinset]
      by_contra out
      exact shut o ⟨Nat.lt_of_not_le full, out, admitted _ o⟩
    have below : u.total others ≤ u.total (self.cardinality pool).selected := u.monotone inside
    have := mul_nonneg (pow_nonneg factor k) nonneg
    linarith

/-- The fused scores of the selection under `p` caps, without an objective. -/
theorem fusedSum_le_cardinality (scores : NonNegative pool) (noObjective : self.objective = none)
    (count : self.k = some k)
    (registered : self.setConstraints = caps.map BuiltIn.toSetConstraint)
    (areCaps : ∀ cap ∈ caps, cap.IsCap) {others : List (Fin pool.length)}
    (within : WithinCaps caps k pool others) :
    fusedSum pool others ≤
      (max caps.length 1 : ℕ) * fusedSum pool (self.cardinality pool).selected := by
  obtain ⟨run, nodup, shut⟩ := cardinality_greedy (gainsOf_fused scores noObjective) count
  have bound := weight_le_of_closed scores.fusedScore_nonneg (p := max caps.length 1)
    (O := others.toFinset) run (fun _ _ isOpen => isOpen.2.1)
    (fun before x y => open_of_snoc registered areCaps before x y)
    (fun before is => card_closed_le registered areCaps (nodup.sublist is.sublist) within)
    (fun o _ => shut o)
  rw [← fusedUtility_total scores nodup, ← fusedUtility_total scores within.nodup]
  exact bound

end Exact

/-! ## Repairs that changed nothing -/

section Repair

variable [Scalar F] {self : Selector F C} {pool : Pool F C}

theorem repairLoop_unchanged {reqIndex : Nat} {req : Requirement C} {fuel : Nat}
    {selected after : List (Fin pool.length)} {repaired : Bool}
    (done : self.repairLoop pool reqIndex req fuel selected repaired = .ok (after, false)) :
    after = selected ∧ repaired = false := by
  induction fuel generalizing selected repaired with
  | zero =>
      rw [repairLoop] at done
      cases done
      exact ⟨rfl, rfl⟩
  | succ fuel ih =>
      rw [repairLoop] at done
      split at done
      · cases done
        exact ⟨rfl, rfl⟩
      · split at done
        · exact absurd (ih done).2 (by simp)
        · cases done

theorem repairFrom_unchanged {reqIndex : Nat} {selected after : List (Fin pool.length)}
    {repaired : Bool} {requirements : List (Requirement C)}
    (done : self.repairFrom pool reqIndex selected repaired requirements = .ok (after, false)) :
    after = selected ∧ repaired = false := by
  induction requirements generalizing reqIndex selected repaired with
  | nil =>
      rw [repairFrom] at done
      cases done
      exact ⟨rfl, rfl⟩
  | cons req rest ih =>
      rw [repairFrom] at done
      cases first : self.repairLoop pool reqIndex req req.needed selected repaired with
      | error failure =>
          rw [first] at done
          cases done
      | ok state =>
          rw [first] at done
          obtain ⟨same, unrepaired⟩ := ih done
          obtain ⟨middle, flag⟩ := state
          dsimp only at same unrepaired
          rw [unrepaired] at first
          rw [same]
          exact repairLoop_unchanged first

/-- A run that repaired nothing returns what the greedy selection picked. -/
theorem run_unrepaired {chosen : Chosen F pool.length} (ran : self.run pool = .ok chosen)
    (count : self.tokenBudget = none) (unrepaired : chosen.repaired = false) :
    chosen.selected = (self.cardinality pool).selected := by
  have repair := (run_ok ran).1
  rw [unrepaired, greedySelection, count] at repair
  exact (repairFrom_unchanged repair).1

end Repair

/-! ## What the engine promises -/

section Promises

theorem guaranteeOf_knapsack [Scalar F] (kind : Structure) (matroids nonMatroids : Nat)
    (repaired : Bool) :
    (guaranteeOf (F := F) kind matroids nonMatroids true repaired).1 = false := by
  cases repaired with
  | true => rfl
  | false =>
      by_cases other : 0 < nonMatroids
      · simp [guaranteeOf, other]
      · cases kind <;> cases matroids <;> simp [guaranteeOf, other]

/-- Only a count budget without repairs is reported as exact. -/
theorem guaranteeOf_exact [Scalar F] {kind : Structure} {matroids nonMatroids : Nat}
    {knapsackBudget repaired : Bool}
    (reported : (guaranteeOf (F := F) kind matroids nonMatroids knapsackBudget repaired).1 = true) :
    knapsackBudget = false ∧ repaired = false := by
  cases repaired with
  | true => simp [guaranteeOf] at reported
  | false =>
      cases knapsackBudget with
      | true =>
          rw [guaranteeOf_knapsack] at reported
          cases reported
      | false => exact ⟨rfl, rfl⟩

/-- All registered constraints are caps, so all count as matroids. -/
theorem matroidCount_caps {caps : List (BuiltIn D C)} (areCaps : ∀ cap ∈ caps, cap.IsCap) :
    matroidCount (caps.map BuiltIn.toSetConstraint) = caps.length := by
  rw [matroidCount, List.countP_map, List.countP_eq_length]
  exact fun cap member => (areCaps cap member).isMatroid

variable {self : Selector Exact C} {pool : Pool Exact C} {k : Nat} {caps : List (BuiltIn D C)}

/-- Without an objective and under at most one cap, the selection that is reported
as exact has the largest sum of fused scores. -/
theorem exact_selection_optimal (scores : NonNegative pool)
    (noObjective : self.objective = none) (count : self.k = some k)
    (registered : self.setConstraints = caps.map BuiltIn.toSetConstraint)
    (areCaps : ∀ cap ∈ caps, cap.IsCap) (atMostOne : caps.length ≤ 1) :
    (∀ others, WithinCaps caps k pool others →
      fusedSum pool others ≤ fusedSum pool (self.cardinality pool).selected) ∧
    (∀ chosen, self.run pool = .ok chosen → (self.guarantee chosen.repaired).1 = true →
      ∀ others, WithinCaps caps k pool others →
        fusedSum pool others ≤ fusedSum pool chosen.selected) ∧
    (self.tokenBudget = none → self.guarantee false = (true, none)) := by
  have greedy : ∀ others, WithinCaps caps k pool others →
      fusedSum pool others ≤ fusedSum pool (self.cardinality pool).selected := by
    intro others within
    have bound := fusedSum_le_cardinality scores noObjective count registered areCaps within
    rwa [max_eq_right atMostOne, Nat.cast_one, one_mul] at bound
  refine ⟨greedy, ?_, ?_⟩
  · intro chosen ran reported
    obtain ⟨noTokens, unrepaired⟩ := guaranteeOf_exact reported
    rw [run_unrepaired ran (by simpa using noTokens) unrepaired]
    exact greedy
  · intro noTokens
    rw [guarantee, noObjective, registered, matroidCount_caps areCaps, noTokens]
    rcases Nat.le_one_iff_eq_zero_or_eq_one.mp atMostOne with none | one
    · simp [none, structureOf, guaranteeOf]
    · simp [one, structureOf, guaranteeOf]

/-- Parity classes of three numbered candidates, one place each. -/
theorem exact_selection_optimal_parity :
    fusedSum (scoredPool [3, 2, 1]) [⟨0, by decide⟩, ⟨1, by decide⟩] ≤ fusedSum (scoredPool [3, 2, 1])
      (Selector.cardinality ⟨[maxPerGroup "parity" 1 (· % 2)], none, [], some 2, none, none⟩
        (scoredPool [3, 2, 1])).selected := by
  have registered : [maxPerGroup "parity" 1 (fun n : Nat => n % 2)] =
      [(BuiltIn.maxPerGroup "parity" 1 (· % 2) : BuiltIn Exact Nat)].map
        BuiltIn.toSetConstraint := rfl
  refine (exact_selection_optimal (scoredPool_nonNegative (by simp)) rfl rfl registered
    (by simp [BuiltIn.IsCap]) (by simp)).1 _ ⟨by decide, by decide, ?_⟩
  simp only [List.mem_singleton, forall_eq, BuiltIn.Holds]
  intro group
  change List.countP _ [0, 1] ≤ 1
  cases group with
  | zero => decide
  | succ group => cases group <;> simp

/-- Without an objective and under `p` caps, the selection keeps the reported share
`1 / p` of every set within the caps. -/
theorem modular_share (scores : NonNegative pool) (noObjective : self.objective = none)
    (count : self.k = some k) (noTokens : self.tokenBudget = none)
    (registered : self.setConstraints = caps.map BuiltIn.toSetConstraint)
    (areCaps : ∀ cap ∈ caps, cap.IsCap) (several : 2 ≤ caps.length)
    {others : List (Fin pool.length)} (within : WithinCaps caps k pool others) :
    self.guarantee false = (false, some (.fin (1 / caps.length))) ∧
      1 / caps.length * fusedSum pool others ≤ fusedSum pool (self.cardinality pool).selected := by
  have positive : (0 : ℚ) < caps.length := by exact_mod_cast (by omega : 0 < caps.length)
  constructor
  · obtain ⟨more, size⟩ := Nat.exists_eq_add_of_le' several
    rw [guarantee, noObjective, registered, matroidCount_caps areCaps, noTokens, size]
    have nonzero : (more + 2 : ℚ) ≠ 0 := by exact_mod_cast (by omega : more + 2 ≠ 0)
    simp [structureOf, guaranteeOf, size, Scalar.div, Exact.div, nonzero]
  · have bound := fusedSum_le_cardinality scores noObjective count registered areCaps within
    rw [max_eq_left (by omega)] at bound
    rwa [one_div, inv_mul_le_iff₀ positive]

/-- Two total caps on three numbered candidates. -/
theorem modular_share_totals :
    1 / (2 : ℕ) * fusedSum (scoredPool [3, 2, 1]) [⟨2, by decide⟩] ≤ fusedSum (scoredPool [3, 2, 1])
      (Selector.cardinality ⟨[maxTotal "few" 1, maxTotal "some" 2], none, [], some 2, none, none⟩
        (scoredPool [3, 2, 1])).selected := by
  have registered : [maxTotal "few" 1, maxTotal "some" 2] =
      [(BuiltIn.maxTotal "few" 1 : BuiltIn Exact Nat), .maxTotal "some" 2].map
        BuiltIn.toSetConstraint := rfl
  have within : WithinCaps [(BuiltIn.maxTotal "few" 1 : BuiltIn Exact Nat), .maxTotal "some" 2] 2
      (scoredPool [3, 2, 1]) [⟨2, by decide⟩] :=
    ⟨by decide, by decide, by simp [BuiltIn.Holds, refs]⟩
  have scores : NonNegative (scoredPool [3, 2, 1]) := scoredPool_nonNegative (by simp)
  refine (modular_share scores rfl rfl rfl registered ?_ ?_ within).2
  · simp [BuiltIn.IsCap]
  · decide

/-- With a coverage objective and under `p` caps, the selection keeps the reported
share `1 / (p + 1)` of every set within the caps. -/
theorem coverage_share {K : Type} [DecidableEq K] {objective : Coverage Exact C K}
    (scores : NonNegative pool) (weights : objective.NonNegative)
    (covering : self.objective = some objective.toSetObjective)
    (count : self.k = some k) (noTokens : self.tokenBudget = none)
    (registered : self.setConstraints = caps.map BuiltIn.toSetConstraint)
    (areCaps : ∀ cap ∈ caps, cap.IsCap) (capped : 1 ≤ caps.length)
    {others : List (Fin pool.length)} (within : WithinCaps caps k pool others) :
    self.guarantee false = (false, some (.fin (1 / (caps.length + 1)))) ∧
      1 / (caps.length + 1) * coverageValue pool objective others ≤
        coverageValue pool objective (self.cardinality pool).selected := by
  have positive : (0 : ℚ) < caps.length + 1 := by positivity
  constructor
  · obtain ⟨more, size⟩ := Nat.exists_eq_add_of_le' capped
    rw [guarantee, covering, registered, matroidCount_caps areCaps, noTokens, size]
    cases more with
    | zero =>
        simp [structureOf, guaranteeOf, size, Coverage.toSetObjective]
        norm_num
    | succ more =>
        have nonzero : (more + 1 + 1 + 1 : ℚ) ≠ 0 := by
          exact_mod_cast (by omega : more + 1 + 1 + 1 ≠ 0)
        simp [structureOf, guaranteeOf, size, Coverage.toSetObjective, Scalar.div, Exact.div,
          nonzero]
  · have gains := gainsOf_coverage scores weights covering
    have nodup := (cardinality_greedy gains count).2.1
    have bound := value_le_cardinality gains count registered areCaps within
    rw [max_eq_left capped, coverageUtility_total scores weights within.nodup,
      coverageUtility_total scores weights nodup] at bound
    push_cast at bound
    rwa [one_div, inv_mul_le_iff₀ positive]

/-- One total cap on three numbered candidates that cover themselves. -/
theorem coverage_share_total :
    1 / ((1 : ℕ) + 1) * coverageValue (scoredPool [3, 2, 1]) ⟨fun n => [n], none⟩
        [⟨2, by decide⟩] ≤
      coverageValue (scoredPool [3, 2, 1]) ⟨fun n => [n], none⟩
        (Selector.cardinality ⟨[maxTotal "few" 1],
          some (Coverage.toSetObjective ⟨fun n => [n], none⟩), [], some 2, none, none⟩
          (scoredPool [3, 2, 1])).selected := by
  have registered : [maxTotal "few" 1] =
      [(BuiltIn.maxTotal "few" 1 : BuiltIn Exact Nat)].map BuiltIn.toSetConstraint := rfl
  have within : WithinCaps [(BuiltIn.maxTotal "few" 1 : BuiltIn Exact Nat)] 2
      (scoredPool [3, 2, 1]) [⟨2, by decide⟩] :=
    ⟨by decide, by decide, by simp [BuiltIn.Holds, refs]⟩
  have scores : NonNegative (scoredPool [3, 2, 1]) := scoredPool_nonNegative (by simp)
  refine (coverage_share scores ?_ rfl rfl rfl registered ?_ ?_ within).2
  · exact fun _ => ⟨1, by simp, rfl⟩
  · simp [BuiltIn.IsCap]
  · decide

/-- With a coverage objective and no constraint, the selection keeps the share
`1 - (1 - 1 / k) ^ k`, and so `1 - 1 / e`, of every set of `k` positions. -/
theorem coverage_share_of_count {K : Type} [DecidableEq K] {objective : Coverage Exact C K}
    (scores : NonNegative pool) (weights : objective.NonNegative)
    (covering : self.objective = some objective.toSetObjective)
    (count : self.k = some k) (positive : 1 ≤ k) (unconstrained : self.setConstraints = [])
    {others : List (Fin pool.length)} (distinct : others.Nodup) (size : others.length ≤ k) :
    (1 - (1 - 1 / (k : ℚ)) ^ k) * coverageValue pool objective others ≤
        coverageValue pool objective (self.cardinality pool).selected ∧
      (1 - Real.exp (-1)) * (coverageValue pool objective others : ℝ) ≤
        (coverageValue pool objective (self.cardinality pool).selected : ℝ) := by
  have gains := gainsOf_coverage scores weights covering
  have nodup := (cardinality_greedy gains count).2.1
  have share := share_le_cardinality gains count positive unconstrained distinct size
  have nonneg := (coverageUtility scores weights).value_nonneg others.toFinset
  change 0 ≤ (coverageUtility scores weights).total others at nonneg
  rw [coverageUtility_total scores weights distinct] at nonneg
  rw [coverageUtility_total scores weights distinct, coverageUtility_total scores weights nodup]
    at share
  refine ⟨share, ?_⟩
  have limit : (1 - 1 / (k : ℝ)) ^ k ≤ Real.exp (-1) :=
    Real.one_sub_div_pow_le_exp_neg (by exact_mod_cast positive)
  have shareReal : (1 - (1 - 1 / (k : ℝ)) ^ k) * (coverageValue pool objective others : ℝ) ≤
      (coverageValue pool objective (self.cardinality pool).selected : ℝ) := by
    have cast := (Rat.cast_le (K := ℝ)).mpr share
    push_cast at cast
    exact cast
  have nonnegReal : (0 : ℝ) ≤ coverageValue pool objective others := by exact_mod_cast nonneg
  have := mul_le_mul_of_nonneg_right limit nonnegReal
  linarith

/-- Two places for three numbered candidates that cover themselves. -/
theorem coverage_share_of_two :
    (1 - Real.exp (-1)) *
        (coverageValue (scoredPool [3, 2, 1]) ⟨fun n => [n], none⟩
          [⟨1, by decide⟩, ⟨2, by decide⟩] : ℝ) ≤
      (coverageValue (scoredPool [3, 2, 1]) ⟨fun n => [n], none⟩
        (Selector.cardinality ⟨[], some (Coverage.toSetObjective ⟨fun n => [n], none⟩), [],
          some 2, none, none⟩ (scoredPool [3, 2, 1])).selected : ℝ) :=
  (coverage_share_of_count (scoredPool_nonNegative (by simp)) (fun _ => ⟨1, by simp, rfl⟩) rfl
    rfl (by decide) rfl (by decide) (by decide)).2

end Promises

end Selector

end AiCoreStack.Ranking
