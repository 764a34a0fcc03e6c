import AiCoreStack.Ranking.CountGuarantee

/-!
# Successful selections are feasible

The greedy loops establish the constraints candidate by candidate; the repair of a
requirement checks that every member is admitted by the others.  So a selection
that succeeds is free of repetitions, within its budget and its constraints, and
meets every requirement.
-/

namespace AiCoreStack.Ranking

open Foundation Foundation.Greedy

variable {C : Type}

/-! ## Constraints on whole sets -/

namespace BuiltIn

/-- Costs are finite and not negative. -/
def NonNegativeCosts : BuiltIn Exact C → Prop
  | costBudget _ _ cost => ∀ candidate, ∃ value : ℚ, 0 ≤ value ∧ cost candidate = .fin value
  | _ => True

/-- A sum of finite costs is the sum of their values. -/
theorem sum_cost {cost : C → Exact}
    (finite : ∀ candidate, ∃ value : ℚ, 0 ≤ value ∧ cost candidate = .fin value)
    (members : List C) :
    Scalar.sum (members.map cost) =
      .fin (members.map fun candidate => (cost candidate).finitePart).sum := by
  have same : members.map cost =
      (members.map fun candidate => (cost candidate).finitePart).map Exact.fin := by
    rw [List.map_map]
    apply List.map_congr_left
    intro candidate _
    obtain ⟨value, _, isFin⟩ := finite candidate
    simp [isFin, Exact.finitePart]
  rw [Scalar.sum, same, Exact.lit_eq, Exact.foldl_add_fin, zero_add]

/-- Adding a candidate that is admitted keeps the constraint. -/
theorem holds_snoc {constraint : BuiltIn Exact C} {members : List C} {candidate : C}
    (holds : constraint.IsCap → constraint.Holds members)
    (admitted : constraint.toSetConstraint.admits members candidate = true) :
    constraint.Holds (members ++ [candidate]) := by
  cases constraint with
  | maxPerGroup id max key =>
      have room := (MaxPerGroup.admits_iff max key members candidate).mp admitted
      intro group
      rw [List.countP_append, List.countP_singleton]
      have before := holds trivial group
      by_cases same : key candidate = group
      · rw [← same] at before ⊢
        simp only [decide_true, if_true]
        omega
      · simpa [same] using before
  | maxTotal id max =>
      have room : members.length < max := by simpa [toSetConstraint, Ranking.maxTotal] using admitted
      simpa [Holds] using room
  | costBudget id limit cost =>
      change Scalar.le (Scalar.sum ((members ++ [candidate]).map cost)) limit = true
      rw [List.map_append, Scalar.sum, List.foldl_append]
      exact admitted

/-- A set whose members are each admitted by the others keeps the constraint. -/
theorem holds_of_others {constraint : BuiltIn Exact C} (finite : constraint.NonNegativeCosts)
    {members : List C} (nonempty : members ≠ [])
    (admitted : ∀ position : Fin members.length,
      constraint.toSetConstraint.admits (members.eraseIdx position) (members.get position) = true) :
    constraint.Holds members := by
  have split : ∀ position : Fin members.length,
      members.Perm (members.get position :: members.eraseIdx position) :=
    fun position => (List.getElem_cons_eraseIdx_perm position.isLt).symm
  cases constraint with
  | maxPerGroup id max key =>
      intro group
      by_cases occurs : ∃ candidate ∈ members, key candidate = group
      · obtain ⟨candidate, member, rfl⟩ := occurs
        obtain ⟨position, rfl⟩ := List.get_of_mem member
        have room := (MaxPerGroup.admits_iff max key _ _).mp (admitted position)
        rw [(split position).countP_eq, List.countP_cons]
        simp only [decide_true, if_true]
        omega
      · have none : members.countP (key · = group) = 0 := by
          rw [List.countP_eq_zero]
          intro candidate member
          simpa using fun same => occurs ⟨candidate, member, same⟩
        rw [none]
        exact Nat.zero_le max
  | maxTotal id max =>
      have positive := List.length_pos_iff.mpr nonempty
      have room : (members.eraseIdx 0).length < max := by
        simpa [toSetConstraint, Ranking.maxTotal] using admitted ⟨0, positive⟩
      change members.length ≤ max
      rw [List.length_eraseIdx_of_lt positive] at room
      omega
  | costBudget id limit cost =>
      have positive := List.length_pos_iff.mpr nonempty
      have within := admitted ⟨0, positive⟩
      change Scalar.le (Scalar.add (Scalar.sum ((members.eraseIdx 0).map cost))
        (cost (members.get ⟨0, positive⟩))) limit = true at within
      change Scalar.le (Scalar.sum (members.map cost)) limit = true
      obtain ⟨value, _, isFin⟩ := finite (members.get ⟨0, positive⟩)
      rw [sum_cost finite, isFin, Exact.add_fin] at within
      have total := ((split ⟨0, positive⟩).map fun c => (cost c).finitePart).sum_eq
      rw [List.map_cons, List.sum_cons, isFin, Exact.finitePart, add_comm] at total
      rw [sum_cost finite, total]
      exact within

end BuiltIn

/-! ## Feasible selections -/

namespace Selector

variable {F : Type} [Scalar F]

/-- No repetitions, within the budget, and within every constraint.  An empty
selection is only asked to satisfy what the empty set satisfies. -/
structure Feasible (selector : Selector F C) (pool : Pool F C) (builtIns : List (BuiltIn Exact C))
    (members : List (Fin pool.length)) : Prop where
  nodup : members.Nodup
  count : selector.tokenBudget = none → ∀ k, selector.k = some k → members.length ≤ k
  cost : ∀ max, selector.tokenBudget = some max →
    Greedy.spent (selector.positionCost pool) members ≤ max.toNat
  holds : ∀ constraint ∈ builtIns, members ≠ [] ∨ constraint.Holds [] →
    constraint.Holds (refs pool members)

variable {self : Selector F C} {pool : Pool F C} {builtIns : List (BuiltIn Exact C)}

omit [Scalar F] in
/-- Picks that were admitted one after another keep every constraint. -/
theorem holds_of_run (registered : self.setConstraints = builtIns.map BuiltIn.toSetConstraint)
    {picks : List (Fin pool.length)}
    (run : Run (fun before i => self.admitsAll (refs pool before) (pool.get i).candidate = true)
      picks) {constraint : BuiltIn Exact C} (member : constraint ∈ builtIns)
    (relevant : picks ≠ [] ∨ constraint.Holds []) : constraint.Holds (refs pool picks) := by
  induction run with
  | nil =>
      rcases relevant with absurd | holds
      · exact (absurd rfl).elim
      · exact holds
  | @snoc before i _ step ih =>
      rw [admitsAll_iff registered] at step
      rw [refs_snoc]
      apply BuiltIn.holds_snoc _ (step constraint member)
      intro isCap
      apply ih
      obtain ⟨K, decEq, key, max, _, groups⟩ := isCap.exists_key
      exact .inr ((groups []).mpr fun g => by simp)

theorem feasible_cardinality
    (registered : self.setConstraints = builtIns.map BuiltIn.toSetConstraint)
    (noTokens : self.tokenBudget = none) :
    self.Feasible pool builtIns (self.cardinality pool).selected := by
  obtain ⟨run, size, _⟩ := self.cardinality_run pool
    (fun before i => self.CountOpen pool before i) (fun _ _ _ pick => countOpen_of_pick pick)
  refine ⟨run.nodup fun _ _ step => step.1, ?_, ?_, ?_⟩
  · intro _ k count
    rw [count, Option.getD_some] at size
    exact size.trans (min_le_left _ _)
  · intro max tokens
    rw [noTokens] at tokens
    cases tokens
  · intro constraint member relevant
    exact holds_of_run registered (run.mono fun _ _ step => step.2) member relevant

theorem feasible_knapsack
    (registered : self.setConstraints = builtIns.map BuiltIn.toSetConstraint) {max : UInt32}
    (tokens : self.tokenBudget = some max) :
    self.Feasible pool builtIns (self.knapsack pool).selected := by
  have small : max.toUInt64.toNat < 2 ^ 32 := UInt32.toNat_lt max
  have run := self.packRun_bestBranch pool small
  rw [knapsack_selected tokens]
  refine ⟨run.nodup fun _ _ step => step.1.1, ?_, ?_, ?_⟩
  · intro noTokens
    rw [tokens] at noTokens
    cases noTokens
  · intro limit isLimit
    rw [tokens] at isLimit
    cases isLimit
    generalize (self.bestBranch pool max.toUInt64).1 = picks at run
    cases run with
    | nil => exact Nat.zero_le _
    | snoc _ step =>
        rw [spent_snoc]
        exact step.1.2
  · intro constraint member relevant
    exact holds_of_run registered (run.mono fun _ _ step => step.2) member relevant

/-! ### Repairs -/

/-- One round of a repair keeps some members and brings one new candidate in; as
many members satisfy the requirement as before, and the new candidate as well. -/
structure Replaces (req : Requirement C) (pool : Pool F C)
    (selected kept : List (Fin pool.length)) (donor : Fin pool.length) : Prop where
  sub : kept.Sublist selected
  fresh : donor ∉ selected
  same : satisfying pool req kept = satisfying pool req selected
  satisfied : req.satisfiedBy (pool.get donor).candidate = true

omit [Scalar F] in
theorem setIsFeasible_of_accepts {reqIndex : Nat} {trial after : List (Fin pool.length)}
    (accepted : self.accepts pool reqIndex trial = some after) :
    after = trial ∧ self.setIsFeasible pool trial = true := by
  rw [accepts] at accepted
  split at accepted
  · rename_i passed
    cases accepted
    exact ⟨rfl, (Bool.and_eq_true_iff.mp passed).1⟩
  · cases accepted

omit [Scalar F] in
/-- Members that do not satisfy a requirement can go out without loss. -/
theorem satisfying_filter {req : Requirement C} {selected : List (Fin pool.length)}
    {victim : Fin pool.length} (unsatisfied : req.satisfiedBy (pool.get victim).candidate = false) :
    satisfying pool req (selected.filter (· ≠ victim)) = satisfying pool req selected := by
  rw [satisfying, satisfying, List.countP_filter]
  apply List.countP_congr
  intro i _
  by_cases isVictim : i = victim
  · rw [isVictim, unsatisfied]
    simp
  · simp [isVictim]

omit [Scalar F] in
theorem satisfying_snoc {req : Requirement C} {selected kept : List (Fin pool.length)}
    {donor : Fin pool.length} (replaces : Replaces req pool selected kept donor) :
    satisfying pool req (kept ++ [donor]) = satisfying pool req selected + 1 := by
  rw [← replaces.same, satisfying, List.countP_append, List.countP_singleton, replaces.satisfied]
  rfl

theorem repairStep_replaces {reqIndex : Nat} {req : Requirement C}
    {selected after : List (Fin pool.length)}
    (step : self.repairStep pool reqIndex req selected = some after) :
    ∃ kept donor, Replaces req pool selected kept donor ∧ after = kept ++ [donor] ∧
      self.setIsFeasible pool after = true := by
  obtain ⟨donor, isDonor, tried⟩ := List.exists_of_findSome?_eq_some step
  rw [donors, List.mem_insertionSort, List.mem_filter] at isDonor
  simp only [Bool.and_eq_true, Bool.not_eq_true', List.contains_eq_mem,
    decide_eq_false_iff_not] at isDonor
  obtain ⟨_, fresh, satisfied⟩ := isDonor
  rw [tryDonor, Option.or_eq_some_iff] at tried
  rcases tried with added | ⟨_, swapped⟩
  · split at added
    · obtain ⟨rfl, feasible⟩ := setIsFeasible_of_accepts added
      exact ⟨selected, donor, ⟨List.Sublist.refl _, fresh, rfl, satisfied⟩, rfl, feasible⟩
    · cases added
  · obtain ⟨victim, isVictim, accepted⟩ := List.exists_of_findSome?_eq_some swapped
    rw [victims, List.mem_insertionSort, List.mem_filter] at isVictim
    obtain ⟨rfl, feasible⟩ := setIsFeasible_of_accepts accepted
    exact ⟨_, donor, ⟨List.filter_sublist, fresh, satisfying_filter (by simpa using isVictim.2),
      satisfied⟩, rfl, feasible⟩

omit [Scalar F] in
/-- The `u64` total of costs is their sum when that is below `2 ^ 64`. -/
theorem toNat_spentOn {cost : C → UInt32} (hasCost : self.cost = some cost)
    {members : List (Fin pool.length)}
    (small : Greedy.spent (self.positionCost pool) members < 2 ^ 64) :
    (spentOn pool cost members).toNat = Greedy.spent (self.positionCost pool) members := by
  induction members with
  | nil => rfl
  | cons i rest ih =>
      have head : (cost (pool.get i).candidate).toUInt64.toNat = self.positionCost pool i := by
        rw [positionCost, costOf, hasCost]
      have total : Greedy.spent (self.positionCost pool) (i :: rest) =
          self.positionCost pool i + Greedy.spent (self.positionCost pool) rest := rfl
      rw [total] at small ⊢
      have tail := ih (by omega)
      rw [spentOn] at tail
      rw [spentOn, List.map_cons, List.sum_cons, UInt64.toNat_add, head, tail, Nat.mod_eq_of_lt small]

omit [Scalar F] in
theorem spent_sublist {cost : Fin pool.length → ℕ} {kept selected : List (Fin pool.length)}
    (sub : kept.Sublist selected) : Greedy.spent cost kept ≤ Greedy.spent cost selected :=
  (sub.map cost).sum_le_sum (by simp)

omit [Scalar F] in
/-- A trial that passes `set_is_feasible` is feasible. -/
theorem Feasible.of_trial (registered : self.setConstraints = builtIns.map BuiltIn.toSetConstraint)
    (costs : ∀ constraint ∈ builtIns, constraint.NonNegativeCosts)
    {selected kept : List (Fin pool.length)} {donor : Fin pool.length}
    (feasible : self.Feasible pool builtIns selected) (sub : kept.Sublist selected)
    (fresh : donor ∉ selected)
    (passed : self.setIsFeasible pool (kept ++ [donor]) = true) :
    self.Feasible pool builtIns (kept ++ [donor]) := by
  simp only [setIsFeasible, Bool.and_eq_true, List.all_eq_true, List.mem_finRange,
    true_implies] at passed
  obtain ⟨⟨counted, budgeted⟩, admitted⟩ := passed
  refine ⟨?_, ?_, ?_, ?_⟩
  · refine List.nodup_append.mpr ⟨feasible.nodup.sublist sub, List.nodup_singleton donor, ?_⟩
    intro i inKept j isDonor same
    rw [List.mem_singleton] at isDonor
    exact fresh (isDonor ▸ same ▸ sub.subset inKept)
  · intro _ k isCount
    simpa [withinCount, isCount] using counted
  · intro max tokens
    cases hasCost : self.cost with
    | none =>
        have free : self.positionCost pool = fun _ => 0 := by
          funext i
          rw [positionCost, costOf, hasCost]
          rfl
        simp [Greedy.spent, free]
    | some cost =>
        have before := (spent_sublist sub).trans (feasible.cost max tokens)
        have one := self.positionCost_lt pool donor
        have limit := UInt32.toNat_lt max
        have below : Greedy.spent (self.positionCost pool) (kept ++ [donor]) < 2 ^ 64 := by
          rw [spent_snoc]
          omega
        rw [withinBudget, tokens, hasCost] at budgeted
        rw [← toNat_spentOn hasCost below]
        exact UInt64.le_iff_toNat_le.mp (by simpa using budgeted)
  · intro constraint member _
    apply BuiltIn.holds_of_others (costs constraint member) (by simp [refs])
    intro position
    have lengths : (refs pool (kept ++ [donor])).length = (kept ++ [donor]).length := by
      simp [refs]
    have here := admitted (position.cast lengths)
    rw [admitsAll_iff registered] at here
    have erased : (refs pool (kept ++ [donor])).eraseIdx position =
        refs pool ((kept ++ [donor]).eraseIdx position) := by
      simp only [refs, List.eraseIdx_map]
    have got : (refs pool (kept ++ [donor])).get position =
        (pool.get ((kept ++ [donor]).get (position.cast lengths))).candidate := by
      rw [List.get_eq_getElem]
      simp only [refs, List.getElem_map]
      rfl
    rw [erased, got]
    exact here constraint member

theorem Feasible.repairLoop (registered : self.setConstraints = builtIns.map BuiltIn.toSetConstraint)
    (costs : ∀ constraint ∈ builtIns, constraint.NonNegativeCosts) {reqIndex : Nat}
    {req : Requirement C} {fuel : Nat} {selected after : List (Fin pool.length)}
    {repaired flag : Bool} (feasible : self.Feasible pool builtIns selected)
    (done : self.repairLoop pool reqIndex req fuel selected repaired = .ok (after, flag)) :
    self.Feasible pool builtIns after := by
  induction fuel generalizing selected repaired with
  | zero =>
      rw [Selector.repairLoop] at done
      cases done
      exact feasible
  | succ fuel ih =>
      rw [Selector.repairLoop] at done
      split at done
      · cases done
        exact feasible
      · split at done
        · rename_i trial step
          obtain ⟨kept, donor, replaces, rfl, passed⟩ := repairStep_replaces step
          exact ih (feasible.of_trial registered costs replaces.sub replaces.fresh passed) done
        · cases done

theorem Feasible.repairFrom (registered : self.setConstraints = builtIns.map BuiltIn.toSetConstraint)
    (costs : ∀ constraint ∈ builtIns, constraint.NonNegativeCosts) {reqIndex : Nat}
    {requirements : List (Requirement C)} {selected after : List (Fin pool.length)}
    {repaired flag : Bool} (feasible : self.Feasible pool builtIns selected)
    (done : self.repairFrom pool reqIndex selected repaired requirements = .ok (after, flag)) :
    self.Feasible pool builtIns after := by
  induction requirements generalizing reqIndex selected repaired with
  | nil =>
      rw [Selector.repairFrom] at done
      cases done
      exact feasible
  | cons req rest ih =>
      rw [Selector.repairFrom] at done
      cases first : self.repairLoop pool reqIndex req req.needed selected repaired with
      | error failure =>
          rw [first] at done
          cases done
      | ok state =>
          rw [first] at done
          exact ih (feasible.repairLoop registered costs first) done

omit [Scalar F] in
/-- The final check lets through what meets every requirement. -/
theorem needed_le_of_check {selected : List (Fin pool.length)}
    {requirements : List (Requirement C)}
    (checked : checkRequirements pool selected requirements = .ok ()) :
    ∀ req ∈ requirements, req.needed ≤ satisfying pool req selected := by
  induction requirements with
  | nil => simp
  | cons req rest ih =>
      rw [checkRequirements] at checked
      split at checked
      · cases checked
      · rename_i met
        exact List.forall_mem_cons.mpr ⟨Nat.le_of_not_lt met, ih checked⟩

/-- Every round of a repair brings one more satisfying candidate in, so the rounds
that `repair_requirements` is given here are enough: more change nothing. -/
theorem repairLoop_fuel {reqIndex : Nat} {req : Requirement C} {fuel : Nat}
    {selected : List (Fin pool.length)} {repaired : Bool}
    (enough : req.needed ≤ satisfying pool req selected + fuel) (extra : Nat) :
    self.repairLoop pool reqIndex req (fuel + extra) selected repaired =
      self.repairLoop pool reqIndex req fuel selected repaired := by
  induction fuel generalizing selected repaired with
  | zero =>
      cases extra with
      | zero => rfl
      | succ extra =>
          have met : req.needed ≤ satisfying pool req selected := enough
          simp only [repairLoop, if_pos met]
  | succ fuel ih =>
      rw [Nat.add_right_comm, repairLoop, repairLoop]
      cases step : self.repairStep pool reqIndex req selected with
      | none => rfl
      | some trial =>
          obtain ⟨kept, donor, replaces, rfl, _⟩ := repairStep_replaces step
          have more := satisfying_snoc replaces
          dsimp only
          rw [ih (by omega)]

/-- A successful selection is feasible and meets every requirement.  The costs add
up in `u64` as they do in the naturals. -/
theorem run_feasible (registered : self.setConstraints = builtIns.map BuiltIn.toSetConstraint)
    (costs : ∀ constraint ∈ builtIns, constraint.NonNegativeCosts)
    {chosen : Chosen F pool.length} (ran : self.run pool = .ok chosen) :
    self.Feasible pool builtIns chosen.selected ∧
      (∀ max cost, self.tokenBudget = some max → self.cost = some cost →
        (spentOn pool cost chosen.selected).toNat =
          (chosen.selected.map fun i => (cost (pool.get i).candidate).toNat).sum) ∧
      ∀ req ∈ self.requirements, req.needed ≤ satisfying pool req chosen.selected := by
  obtain ⟨repair, checked⟩ := run_ok ran
  have greedy : self.Feasible pool builtIns (self.greedySelection pool) := by
    rw [greedySelection]
    cases tokens : self.tokenBudget with
    | none => exact feasible_cardinality registered tokens
    | some max => exact feasible_knapsack registered tokens
  have feasible := greedy.repairFrom registered costs repair
  refine ⟨feasible, ?_, needed_le_of_check checked⟩
  intro max cost tokens hasCost
  have within := feasible.cost max tokens
  have limit := UInt32.toNat_lt max
  rw [toNat_spentOn hasCost (by omega), Greedy.spent]
  congr 1
  apply List.map_congr_left
  intro i _
  rw [positionCost, costOf, hasCost]
  rfl

/-- A total cap of one and a requirement that the greedy selection misses. -/
theorem run_feasible_after_repair :
    ∃ chosen, Selector.run (F := Exact)
        ⟨[maxTotal "one" 1], none, [⟨"two", (· = 2), 1⟩], some 2, none, none⟩
        (scoredPool [3, 2, 1]) = .ok chosen ∧ chosen.repaired = true ∧
      ∀ req ∈ [(⟨"two", (· = 2), 1⟩ : Requirement Nat)],
        req.needed ≤ satisfying (scoredPool [3, 2, 1]) req chosen.selected := by
  have registered : [maxTotal "one" 1] =
      [(BuiltIn.maxTotal "one" 1 : BuiltIn Exact Nat)].map BuiltIn.toSetConstraint := rfl
  obtain ⟨chosen, ran, repaired⟩ : ∃ chosen, Selector.run (F := Exact)
      ⟨[maxTotal "one" 1], none, [⟨"two", (· = 2), 1⟩], some 2, none, none⟩
      (scoredPool [3, 2, 1]) = .ok chosen ∧ chosen.repaired = true := ⟨_, rfl, rfl⟩
  exact ⟨chosen, ran, repaired,
    (run_feasible registered (by simp [BuiltIn.NonNegativeCosts]) ran).2.2⟩

/-- A limit below zero admits nothing, and the empty selection exceeds it. -/
theorem negative_limit_exceeded :
    ∃ chosen, Selector.run (F := Exact)
        ⟨[costBudget "spend" (Exact.fin (-1)) fun _ => .fin 0], none, [], some 1, none, none⟩
        (scoredPool [1]) = .ok chosen ∧
      ¬ (BuiltIn.costBudget "spend" (.fin (-1)) fun _ => .fin 0 : BuiltIn Exact Nat).Holds
        (refs (scoredPool [1]) chosen.selected) := by
  obtain ⟨chosen, ran, nothing⟩ : ∃ chosen, Selector.run (F := Exact)
      ⟨[costBudget "spend" (Exact.fin (-1)) fun _ => .fin 0], none, [], some 1, none, none⟩
      (scoredPool [1]) = .ok chosen ∧ chosen.selected = [] := ⟨_, rfl, by decide +kernel⟩
  refine ⟨chosen, ran, ?_⟩
  rw [nothing]
  intro holds
  change Scalar.le (Exact.fin 0) (Exact.fin (-1)) = true at holds
  norm_num at holds

end Selector

end AiCoreStack.Ranking
