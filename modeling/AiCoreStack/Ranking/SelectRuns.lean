import AiCoreStack.Foundation.Knapsack
import AiCoreStack.Ranking.Select

/-!
# Runs of the greedy loops

Each of the two loops of the selector has an invariant rule: what one pick
preserves holds of the whole run, and the run ends with its places filled or with
nothing left to pick.  In exact arithmetic a pick has the largest key.
-/

namespace AiCoreStack.Ranking

open Foundation Foundation.Greedy

/-! ## The scan for the best item -/

section Scan

variable {F ι : Type} [Scalar F] {eligible : ι → Bool} {key : ι → F}

/-- A round keeps what it has, or takes the item because nothing so far is as
large. -/
theorem scanBest_cases (eligible : ι → Bool) (key : ι → F) (best : Option (ι × F)) (i : ι) :
    (scanBest eligible key best i = best ∧
      (eligible i = true → ∃ j b, best = some (j, b) ∧ Scalar.le (key i) b = true)) ∨
    (scanBest eligible key best i = some (i, key i) ∧ eligible i = true ∧
      ∀ j b, best = some (j, b) → Scalar.le (key i) b = false) := by
  cases isEligible : eligible i with
  | false => simp [scanBest, isEligible]
  | true =>
      cases best with
      | none => simp [scanBest, isEligible]
      | some pair =>
          cases below : Scalar.le (key i) pair.2 with
          | true => exact .inl ⟨by simp [scanBest, isEligible, below], fun _ => ⟨_, _, rfl, below⟩⟩
          | false =>
              refine .inr ⟨by simp [scanBest, isEligible, below], rfl, ?_⟩
              intro j b same
              cases same
              exact below

theorem scanBest_fold_some {items : List ι} {start : Option (ι × F)} {i : ι} {b : F}
    (best : items.foldl (scanBest eligible key) start = some (i, b)) :
    start = some (i, b) ∨ (i ∈ items ∧ eligible i = true ∧ b = key i) := by
  induction items generalizing start with
  | nil => exact .inl best
  | cons item rest ih =>
      rcases ih best with first | ⟨member, isEligible, value⟩
      · rcases scanBest_cases eligible key start item with ⟨kept, _⟩ | ⟨took, isEligible, _⟩
        · exact .inl (kept.symm.trans first)
        · rw [took] at first
          cases first
          exact .inr ⟨List.mem_cons_self, isEligible, rfl⟩
      · exact .inr ⟨List.mem_cons_of_mem _ member, isEligible, value⟩

theorem firstBest_some {items : List ι} {i : ι} {b : F}
    (best : firstBest eligible key items = some (i, b)) :
    i ∈ items ∧ eligible i = true ∧ b = key i := by
  rcases scanBest_fold_some best with first | found
  · exact absurd first (by simp)
  · exact found

theorem scanBest_fold_none {items : List ι} {start : Option (ι × F)}
    (nothing : items.foldl (scanBest eligible key) start = none) :
    start = none ∧ ∀ i ∈ items, eligible i = false := by
  induction items generalizing start with
  | nil => exact ⟨nothing, by simp⟩
  | cons item rest ih =>
      obtain ⟨first, later⟩ := ih nothing
      rcases scanBest_cases eligible key start item with ⟨kept, kind⟩ | ⟨took, _, _⟩
      · have empty : start = none := kept.symm.trans first
        refine ⟨empty, List.forall_mem_cons.mpr ⟨?_, later⟩⟩
        by_contra isEligible
        obtain ⟨j, b, some, _⟩ := kind (by simpa using isEligible)
        rw [empty] at some
        cases some
      · rw [took] at first
        cases first

theorem firstBest_none {items : List ι} (nothing : firstBest eligible key items = none) :
    ∀ i ∈ items, eligible i = false :=
  (scanBest_fold_none nothing).2

end Scan

section ExactScan

variable {ι : Type} {eligible : ι → Bool} {key : ι → Exact}

/-- In exact arithmetic without NaN the scan ends with the largest key. -/
theorem scanBest_fold_max {items : List ι} {start : Option (ι × Exact)} {i : ι} {b : Exact}
    (numbers : ∀ j ∈ items, eligible j = true → key j ≠ .nan)
    (startNumber : ∀ j c, start = some (j, c) → c ≠ .nan)
    (best : items.foldl (scanBest eligible key) start = some (i, b)) :
    (∀ j c, start = some (j, c) → Scalar.le c b = true) ∧
      ∀ j ∈ items, eligible j = true → Scalar.le (key j) b = true := by
  induction items generalizing start with
  | nil =>
      refine ⟨?_, by simp⟩
      intro j c same
      rw [List.foldl_nil] at best
      rw [best] at same
      cases same
      exact Exact.le_refl (startNumber _ _ best)
  | cons item rest ih =>
      have numbersLater := fun j member => numbers j (List.mem_cons_of_mem item member)
      rcases scanBest_cases eligible key start item with ⟨kept, kind⟩ | ⟨took, isEligible, above⟩
      · rw [List.foldl_cons, kept] at best
        have later := ih numbersLater startNumber best
        refine ⟨later.1, List.forall_mem_cons.mpr ⟨?_, later.2⟩⟩
        intro isEligible
        obtain ⟨j, c, same, below⟩ := kind isEligible
        exact Exact.le_trans below (later.1 j c same)
      · rw [List.foldl_cons, took] at best
        have itemNumber := numbers item List.mem_cons_self isEligible
        have later := ih numbersLater (fun j c same => by cases same; exact itemNumber) best
        have itemBelow := later.1 item (key item) rfl
        refine ⟨?_, List.forall_mem_cons.mpr ⟨fun _ => itemBelow, later.2⟩⟩
        intro j c same
        have smaller := Exact.le_of_not_le itemNumber (startNumber j c same) (above j c same)
        exact Exact.le_trans smaller itemBelow

theorem firstBest_max {items : List ι} {i : ι} {b : Exact}
    (numbers : ∀ j ∈ items, eligible j = true → key j ≠ .nan)
    (best : firstBest eligible key items = some (i, b)) :
    ∀ j ∈ items, eligible j = true → Scalar.le (key j) (key i) = true := by
  have value := (firstBest_some best).2.2
  rw [← value]
  exact (scanBest_fold_max numbers (by simp) best).2

end ExactScan

/-! ## The loops -/

namespace Selector

variable {F C : Type} [Scalar F] (self : Selector F C) (pool : Pool F C)

theorem update_contains {n : Nat} (before : List (Fin n)) (i : Fin n) :
    Function.update (fun j => before.contains j) i true =
      fun j => (before ++ [i]).contains j := by
  funext j
  by_cases same : j = i <;> simp [same]

/-- The pick of `cardinality` after `before`. -/
def countPick (before : List (Fin pool.length)) : Option (Fin pool.length × F) :=
  firstBest
    (fun i => !before.contains i && self.admitsAll (refs pool before) (pool.get i).candidate)
    (fun i => self.gain (refs pool before) (pool.get i)) (List.finRange pool.length)

/-- The pick of `greedy_pack` after `before`, with `spent` already spent. -/
def packPick (limit : UInt64) (byRatio : Bool) (before : List (Fin pool.length))
    (spent : UInt64) : Option (Fin pool.length × F) :=
  firstBest
    (fun i => !before.contains i && !decide (spent + self.costOf (pool.get i).candidate > limit) &&
      self.admitsAll (refs pool before) (pool.get i).candidate)
    (fun i => self.packKey byRatio (refs pool before) (pool.get i)) (List.finRange pool.length)

variable {self pool}

/-- A position is eligible for `cardinality`. -/
def CountOpen (self : Selector F C) (pool : Pool F C) (before : List (Fin pool.length))
    (i : Fin pool.length) : Prop :=
  i ∉ before ∧ self.admitsAll (refs pool before) (pool.get i).candidate = true

/-- A position is eligible for `greedy_pack`. -/
def PackOpen (self : Selector F C) (pool : Pool F C) (limit : UInt64)
    (before : List (Fin pool.length)) (spent : UInt64) (i : Fin pool.length) : Prop :=
  i ∉ before ∧ spent + self.costOf (pool.get i).candidate ≤ limit ∧
    self.admitsAll (refs pool before) (pool.get i).candidate = true

omit [Scalar F] in
theorem admitsAll_nil (unconstrained : self.setConstraints = []) (selected : List C)
    (candidate : C) : self.admitsAll selected candidate = true := by
  simp [admitsAll, unconstrained]

theorem countOpen_of_pick {before : List (Fin pool.length)} {i : Fin pool.length} {b : F}
    (pick : self.countPick pool before = some (i, b)) : self.CountOpen pool before i := by
  have found := (firstBest_some pick).2.1
  simpa [CountOpen] using found

theorem not_countOpen {before : List (Fin pool.length)}
    (stuck : self.countPick pool before = none) (i : Fin pool.length) :
    ¬ self.CountOpen pool before i := by
  have shut := firstBest_none stuck i (List.mem_finRange i)
  simpa [CountOpen] using shut

theorem packOpen_of_pick {limit spent : UInt64} {byRatio : Bool}
    {before : List (Fin pool.length)} {i : Fin pool.length} {b : F}
    (pick : self.packPick pool limit byRatio before spent = some (i, b)) :
    self.PackOpen pool limit before spent i := by
  have found := (firstBest_some pick).2.1
  simpa [PackOpen, and_assoc] using found

theorem not_packOpen {limit spent : UInt64} {byRatio : Bool} {before : List (Fin pool.length)}
    (stuck : self.packPick pool limit byRatio before spent = none) (i : Fin pool.length) :
    ¬ self.PackOpen pool limit before spent i := by
  have shut := firstBest_none stuck i (List.mem_finRange i)
  simpa [PackOpen] using shut

/-- Invariant rule of the loop of `cardinality`. -/
theorem cardinalityLoop_rule {P : List (Fin pool.length) → Prop} (remaining : Nat)
    {before : List (Fin pool.length)} (start : P before)
    (step : ∀ before i b, P before → self.countPick pool before = some (i, b) →
      P (before ++ [i])) :
    let picks := (self.cardinalityLoop pool remaining (fun i => before.contains i) before).1
    P picks ∧ picks.length ≤ before.length + remaining ∧
      (picks.length = before.length + remaining ∨ self.countPick pool picks = none) := by
  induction remaining generalizing before with
  | zero => exact ⟨start, le_rfl, .inl rfl⟩
  | succ remaining ih =>
      cases pick : self.countPick pool before with
      | none =>
          have ended : self.cardinalityLoop pool (remaining + 1) (fun i => before.contains i)
              before = (before, true) := by
            rw [countPick] at pick
            rw [cardinalityLoop, pick]
          rw [ended]
          exact ⟨start, Nat.le_add_right _ _, .inr pick⟩
      | some found =>
          obtain ⟨i, b⟩ := found
          have more : self.cardinalityLoop pool (remaining + 1) (fun i => before.contains i)
              before = self.cardinalityLoop pool remaining
                (fun j => (before ++ [i]).contains j) (before ++ [i]) := by
            rw [countPick] at pick
            rw [cardinalityLoop, pick, ← update_contains]
          have later := ih (step before i b start pick)
          rw [List.length_append, List.length_singleton, Nat.add_assoc, Nat.add_comm 1] at later
          rw [more]
          exact later

/-- When every position is picked, none is open. -/
theorem packPick_eq_none {limit spent : UInt64} {byRatio : Bool}
    {before : List (Fin pool.length)} (nodup : before.Nodup)
    (every : pool.length ≤ before.length) :
    self.packPick pool limit byRatio before spent = none := by
  cases pick : self.packPick pool limit byRatio before spent with
  | none => rfl
  | some found =>
      have fresh := (packOpen_of_pick (i := found.1) (b := found.2) pick).1
      have larger := (List.nodup_cons.mpr ⟨fresh, nodup⟩).length_le_card
      simp only [List.length_cons, Fintype.card_fin] at larger
      omega

/-- Invariant rule of the loop of `greedy_pack`. -/
theorem packLoop_rule {P : List (Fin pool.length) → UInt64 → F → Prop} {limit : UInt64}
    {byRatio : Bool} (fuel : Nat) {before : List (Fin pool.length)} {spent : UInt64} {value : F}
    (nodup : before.Nodup) (enough : pool.length ≤ before.length + fuel)
    (start : P before spent value)
    (step : ∀ before spent value i b, P before spent value →
      self.packPick pool limit byRatio before spent = some (i, b) →
      P (before ++ [i]) (spent + self.costOf (pool.get i).candidate)
        (Scalar.add value (self.gain (refs pool before) (pool.get i)))) :
    ∃ spentAll, P
        (self.packLoop pool limit byRatio fuel (fun i => before.contains i) before spent value).1
        spentAll
        (self.packLoop pool limit byRatio fuel (fun i => before.contains i) before spent value).2 ∧
      self.packPick pool limit byRatio
        (self.packLoop pool limit byRatio fuel (fun i => before.contains i) before spent value).1
        spentAll = none := by
  induction fuel generalizing before spent value with
  | zero => exact ⟨spent, start, packPick_eq_none nodup enough⟩
  | succ fuel ih =>
      cases pick : self.packPick pool limit byRatio before spent with
      | none =>
          have ended : self.packLoop pool limit byRatio (fuel + 1) (fun i => before.contains i)
              before spent value = (before, value) := by
            have scan := pick
            rw [packPick] at scan
            rw [packLoop, scan]
          rw [ended]
          exact ⟨spent, start, pick⟩
      | some found =>
          obtain ⟨i, b⟩ := found
          have more : self.packLoop pool limit byRatio (fuel + 1) (fun i => before.contains i)
              before spent value = self.packLoop pool limit byRatio fuel
                (fun j => (before ++ [i]).contains j) (before ++ [i])
                (spent + self.costOf (pool.get i).candidate)
                (Scalar.add value (self.gain (refs pool before) (pool.get i))) := by
            have scan := pick
            rw [packPick] at scan
            rw [packLoop, scan, ← update_contains]
          have fresh := (packOpen_of_pick pick).1
          rw [more]
          apply ih
          · exact List.nodup_append.mpr ⟨nodup, List.nodup_singleton i, by
              intro a inBefore c inSingle same
              rw [List.mem_singleton] at inSingle
              exact fresh (inSingle ▸ same ▸ inBefore)⟩
          · rw [List.length_append, List.length_singleton]
            omega
          · exact step before spent value i b start pick

/-- What `cardinality` returns is a run of its picks, as long as asked for or
ended because nothing was open. -/
theorem cardinality_run (self : Selector F C) (pool : Pool F C)
    (Step : List (Fin pool.length) → Fin pool.length → Prop)
    (each : ∀ before i b, self.countPick pool before = some (i, b) → Step before i) :
    Run Step (self.cardinality pool).selected ∧
      (self.cardinality pool).selected.length ≤ min (self.k.getD pool.length) pool.length ∧
      ((self.cardinality pool).selected.length = min (self.k.getD pool.length) pool.length ∨
        self.countPick pool (self.cardinality pool).selected = none) := by
  have rule := cardinalityLoop_rule (P := Run Step)
    (min (self.k.getD pool.length) pool.length) Run.nil
    (fun before i b run pick => run.snoc (each before i b pick))
  simpa [cardinality] using rule

/-! ## Costs without overflow -/

/-- The cost of a position as a natural number. -/
def positionCost (self : Selector F C) (pool : Pool F C) (i : Fin pool.length) : ℕ :=
  (self.costOf (pool.get i).candidate).toNat

omit [Scalar F] in
theorem positionCost_lt (self : Selector F C) (pool : Pool F C) (i : Fin pool.length) :
    self.positionCost pool i < 2 ^ 32 := by
  rw [positionCost, costOf]
  split
  · exact UInt32.toNat_lt _
  · decide

omit [Scalar F] in
/-- What was spent and one more cost add up in `u64` as they do in the naturals. -/
theorem toNat_add_cost {limit spent : UInt64} (small : limit.toNat < 2 ^ 32)
    (within : spent.toNat ≤ limit.toNat) (self : Selector F C) (pool : Pool F C)
    (i : Fin pool.length) :
    (spent + self.costOf (pool.get i).candidate).toNat =
      spent.toNat + self.positionCost pool i := by
  have costSmall := self.positionCost_lt pool i
  rw [UInt64.toNat_add, ← positionCost, Nat.mod_eq_of_lt]
  omega

/-- A position that fits the budget beside `before` and is admitted. -/
def PackFits (self : Selector F C) (pool : Pool F C) (limit : UInt64)
    (before : List (Fin pool.length)) (i : Fin pool.length) : Prop :=
  Fits (self.positionCost pool) limit.toNat before i ∧
    self.admitsAll (refs pool before) (pool.get i).candidate = true

omit [Scalar F] in
theorem packOpen_iff {limit spent : UInt64} {before : List (Fin pool.length)}
    (small : limit.toNat < 2 ^ 32) (within : spent.toNat ≤ limit.toNat)
    (accounted : spent.toNat = Greedy.spent (self.positionCost pool) before)
    (i : Fin pool.length) :
    self.PackOpen pool limit before spent i ↔ self.PackFits pool limit before i := by
  rw [PackOpen, PackFits, Fits, UInt64.le_iff_toNat_le, toNat_add_cost small within, accounted,
    and_assoc]

/-- Invariant rule of `greedy_pack`: every pick fits the budget, the costs add up
without overflow, and at the end nothing fits any more. -/
theorem greedyPack_rule (self : Selector F C) (pool : Pool F C) (byRatio : Bool)
    (P : List (Fin pool.length) → F → Prop) {limit : UInt64} (small : limit.toNat < 2 ^ 32) (start : P [] (Scalar.lit 0))
    (step : ∀ before spent value i b, P before value →
      spent.toNat = Greedy.spent (self.positionCost pool) before → spent.toNat ≤ limit.toNat →
      self.packPick pool limit byRatio before spent = some (i, b) →
      P (before ++ [i]) (Scalar.add value (self.gain (refs pool before) (pool.get i)))) :
    let packed := self.greedyPack pool limit byRatio
    P packed.1 packed.2.1 ∧
      Run (fun before i => self.PackFits pool limit before i) packed.1 ∧
      ∀ i, ¬ self.PackFits pool limit packed.1 i := by
  let Accounted (before : List (Fin pool.length)) (spent : UInt64) (value : F) : Prop :=
    P before value ∧ Run (fun before i => self.PackFits pool limit before i) before ∧
      spent.toNat = Greedy.spent (self.positionCost pool) before ∧ spent.toNat ≤ limit.toNat
  have starts : Accounted [] 0 (Scalar.lit 0) := ⟨start, Run.nil, rfl, Nat.zero_le _⟩
  have steps : ∀ before spent value i b, Accounted before spent value →
      self.packPick pool limit byRatio before spent = some (i, b) →
      Accounted (before ++ [i]) (spent + self.costOf (pool.get i).candidate)
        (Scalar.add value (self.gain (refs pool before) (pool.get i))) := by
    rintro before spent value i b ⟨holds, run, accounted, within⟩ pick
    have fits := (packOpen_iff small within accounted i).mp (packOpen_of_pick pick)
    have sum := toNat_add_cost small within self pool i
    refine ⟨step before spent value i b holds accounted within pick, run.snoc fits, ?_, ?_⟩
    · rw [sum, spent_snoc, accounted]
    · rw [sum, accounted]
      exact fits.1.2
  obtain ⟨spent, ⟨holds, run, accounted, within⟩, stuck⟩ :=
    packLoop_rule pool.length List.nodup_nil (by simp) starts steps
  refine ⟨holds, run, ?_⟩
  intro i fits
  exact not_packOpen stuck i ((packOpen_iff small within accounted i).mpr fits)

/-- A run of admitted picks that fit the budget. -/
def PackRun (self : Selector F C) (pool : Pool F C) (limit : UInt64)
    (picks : List (Fin pool.length)) : Prop :=
  Run (fun before i => self.PackFits pool limit before i) picks

theorem packRun_greedyPack (self : Selector F C) (pool : Pool F C) (byRatio : Bool)
    {limit : UInt64} (small : limit.toNat < 2 ^ 32) :
    self.PackRun pool limit (self.greedyPack pool limit byRatio).1 :=
  (self.greedyPack_rule pool byRatio (fun _ _ => True) small trivial
    (fun _ _ _ _ _ _ _ _ _ => trivial)).2.1

theorem packRun_bestPacking (self : Selector F C) (pool : Pool F C) {limit : UInt64}
    (small : limit.toNat < 2 ^ 32) :
    self.PackRun pool limit (self.bestPacking pool limit).1 := by
  rw [bestPacking]
  dsimp only
  split
  · exact self.packRun_greedyPack pool false small
  · exact self.packRun_greedyPack pool true small

/-- Each of the three branches is such a run; a single candidate is a short one. -/
theorem packRun_bestBranch (self : Selector F C) (pool : Pool F C) {limit : UInt64}
    (small : limit.toNat < 2 ^ 32) :
    self.PackRun pool limit (self.bestBranch pool limit).1 := by
  rw [bestBranch]
  split
  · rename_i i gain single
    split
    · have found := (firstBest_some single).2.1
      simp only [Bool.not_eq_true', Bool.or_eq_false_iff, decide_eq_false_iff_not,
        Bool.not_eq_false'] at found
      refine Run.nil.snoc ⟨⟨by simp, ?_⟩, found.2⟩
      rw [spent_nil, zero_add]
      exact UInt64.le_iff_toNat_le.mp (by simpa using found.1)
    · exact self.packRun_bestPacking pool small
  · exact self.packRun_bestPacking pool small

theorem knapsack_selected {max : UInt32} (tokens : self.tokenBudget = some max) :
    (self.knapsack pool).selected = (self.bestBranch pool max.toUInt64).1 := by
  rw [knapsack, costLimit, tokens]
  rfl

/-! ## Successful runs -/

/-- The selection before any repair. -/
def greedySelection (self : Selector F C) (pool : Pool F C) : List (Fin pool.length) :=
  (if self.tokenBudget.isSome then self.knapsack pool else self.cardinality pool).selected

/-- A successful run repaired the greedy selection and passed the final check. -/
theorem run_ok {chosen : Chosen F pool.length} (ran : self.run pool = .ok chosen) :
    self.repairFrom pool 0 (self.greedySelection pool) false self.requirements =
        .ok (chosen.selected, chosen.repaired) ∧
      checkRequirements pool chosen.selected self.requirements = .ok () := by
  rw [run, repairRequirements] at ran
  change Except.map _ (Except.bind (self.repairFrom pool 0 (self.greedySelection pool) false
    self.requirements) _) = _ at ran
  cases repair : self.repairFrom pool 0 (self.greedySelection pool) false self.requirements with
  | error failure =>
      rw [repair] at ran
      cases ran
  | ok state =>
      obtain ⟨after, flag⟩ := state
      rw [repair] at ran
      change Except.map _ (Except.map _ (checkRequirements pool after self.requirements)) = _ at ran
      cases check : checkRequirements pool after self.requirements with
      | error failure =>
          rw [check] at ran
          cases ran
      | ok _ =>
          rw [check] at ran
          cases ran
          exact ⟨rfl, check⟩

end Selector

end AiCoreStack.Ranking
