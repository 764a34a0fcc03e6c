import AiCoreStack.Ranking.RepairRuns

/-!
# Giving up beside a candidate that fits

A candidate is brought in without another one going out only where the budget is a count.  Under
a cost budget the exchanges for one requirement can free what a further candidate needs, and when
no member is left that may go out for it, the repair gives up beside it.
-/

namespace AiCoreStack.Ranking.Selector

open Foundation Relation

variable {F C : Type} [Scalar F] (self : Selector F C) (pool : Pool F C)

/-- A candidate that satisfies a requirement and fits beside the members. -/
structure CanAdd (selector : Selector F C) (pool : Pool F C) (req : Requirement C)
    (selected : List (Fin pool.length)) (donor : Fin pool.length) : Prop where
  fresh : donor ∉ selected
  satisfied : req.satisfiedBy (pool.get donor).candidate = true
  fits : selector.setIsFeasible pool (selected ++ [donor]) = true

/-- A candidate that satisfies a requirement and fits in the place of a member that does not, and
the earlier requirements stay met. -/
structure CanExchange (selector : Selector F C) (pool : Pool F C)
    (state : RepairState pool.length) (req : Requirement C) (donor victim : Fin pool.length) :
    Prop where
  fresh : donor ∉ state.selected
  satisfied : req.satisfiedBy (pool.get donor).candidate = true
  member : victim ∈ state.selected
  unsatisfied : req.satisfiedBy (pool.get victim).candidate = false
  fits : selector.setIsFeasible pool (state.selected.filter (· ≠ victim) ++ [donor]) = true
  keeps : selector.requirementsMet pool (state.selected.filter (· ≠ victim) ++ [donor])
    state.requirement = true

/-- When the repair fails, no candidate could have been added where it gave up. -/
def AddsBeforeGivingUp (selected : List (Fin pool.length)) : Prop :=
  ∀ error, self.repairRequirements pool selected = .error error →
    ∀ state req, ReflTransGen (self.Repairs pool) ⟨0, selected⟩ state →
      self.GivesUp pool state req → ∀ donor, ¬ self.CanAdd pool req state.selected donor

/-- Wherever a candidate could be added for a requirement that is not met, one could come in for
a member as well. -/
def ExchangesWhereOneFits (selected : List (Fin pool.length)) : Prop :=
  ∀ state req, ReflTransGen (self.Repairs pool) ⟨0, selected⟩ state →
    self.requirements[state.requirement]? = some req →
    satisfying pool req state.selected < req.needed →
    (∃ donor, self.CanAdd pool req state.selected donor) →
    ∃ donor victim, self.CanExchange pool state req donor victim

variable {self pool}

theorem mem_donors {req : Requirement C} {selected : List (Fin pool.length)}
    {donor : Fin pool.length} :
    donor ∈ donors pool req selected ↔
      donor ∉ selected ∧ req.satisfiedBy (pool.get donor).candidate = true := by
  rw [donors, List.mem_insertionSort, List.mem_filter]
  simp

theorem mem_victims {req : Requirement C} {selected : List (Fin pool.length)}
    {victim : Fin pool.length} :
    victim ∈ victims pool req selected ↔
      victim ∈ selected ∧ req.satisfiedBy (pool.get victim).candidate = false := by
  rw [victims, List.mem_insertionSort, List.mem_filter]
  simp

omit [Scalar F] in
theorem accepts_eq_none {requirement : Nat} {trial : List (Fin pool.length)} :
    self.accepts pool requirement trial = none ↔
      (self.setIsFeasible pool trial = true → self.requirementsMet pool trial requirement = false) := by
  rw [accepts]
  cases self.setIsFeasible pool trial <;> cases self.requirementsMet pool trial requirement <;> simp

/-- When no candidate can be brought in, none fits for a member, and none beside the members
where the budget is a count. -/
theorem repairStep_eq_none {state : RepairState pool.length} {req : Requirement C}
    (nothing : self.repairStep pool state.requirement req state.selected = none) :
    (∀ donor victim, ¬ self.CanExchange pool state req donor victim) ∧
      ∀ donor, self.CanAdd pool req state.selected donor → self.hasRoom pool state.selected = true →
        self.requirementsMet pool (state.selected ++ [donor]) state.requirement = false := by
  rw [repairStep, List.findSome?_eq_none_iff] at nothing
  constructor
  · intro donor victim exchange
    have tried := nothing donor (mem_donors.mpr ⟨exchange.fresh, exchange.satisfied⟩)
    rw [tryDonor, Option.or_eq_none_iff, List.findSome?_eq_none_iff] at tried
    have refused := tried.2 victim (mem_victims.mpr ⟨exchange.member, exchange.unsatisfied⟩)
    have broken := accepts_eq_none.mp refused exchange.fits
    rw [exchange.keeps] at broken
    cases broken
  · intro donor addition room
    have tried := nothing donor (mem_donors.mpr ⟨addition.fresh, addition.satisfied⟩)
    rw [tryDonor, Option.or_eq_none_iff, if_pos room] at tried
    exact accepts_eq_none.mp tried.1 addition.fits

omit [Scalar F] in
/-- A further member does no harm to the requirements that are met. -/
theorem requirementsMet_snoc {requirement : Nat} {selected : List (Fin pool.length)}
    (met : self.requirementsMet pool selected requirement = true) (donor : Fin pool.length) :
    self.requirementsMet pool (selected ++ [donor]) requirement = true := by
  rw [requirementsMet, List.all_eq_true] at met ⊢
  intro req member
  have enough := of_decide_eq_true (met req member)
  apply decide_eq_true
  rw [satisfying, List.countP_append]
  exact enough.trans (Nat.le_add_right _ _)

omit [Scalar F] in
theorem hasRoom_of_canAdd {req : Requirement C} {selected : List (Fin pool.length)}
    {donor : Fin pool.length} (addition : self.CanAdd pool req selected donor)
    (counted : self.k.isSome = true) : self.hasRoom pool selected = true := by
  obtain ⟨k, count⟩ := Option.isSome_iff_exists.mp counted
  have fits := addition.fits
  rw [setIsFeasible, withinCount, count, Bool.and_eq_true, Bool.and_eq_true] at fits
  have within := fits.1.1
  rw [hasRoom, count]
  simpa using within

/-- Under a cost budget the exchanges are all that is tried. -/
theorem repairStep_of_noExchange {state : RepairState pool.length} {req : Requirement C}
    (uncounted : self.k = none)
    (none : ∀ donor victim, ¬ self.CanExchange pool state req donor victim) :
    self.repairStep pool state.requirement req state.selected = Option.none := by
  rw [repairStep, List.findSome?_eq_none_iff]
  intro donor isDonor
  obtain ⟨fresh, satisfied⟩ := mem_donors.mp isDonor
  have full : self.hasRoom pool state.selected = false := by
    rw [hasRoom, uncounted]
    rfl
  rw [tryDonor, full, Option.or_eq_none_iff, List.findSome?_eq_none_iff]
  refine ⟨rfl, ?_⟩
  intro victim isVictim
  obtain ⟨member, unsatisfied⟩ := mem_victims.mp isVictim
  apply accepts_eq_none.mpr
  intro fits
  apply Bool.eq_false_iff.mpr
  intro keeps
  exact none donor victim ⟨fresh, satisfied, member, unsatisfied, fits, keeps⟩

/-- The repair never gives up beside a candidate that could be added exactly when the budget is
a count, or wherever one could be added an exchange is possible too. -/
theorem addsBeforeGivingUp_iff (self : Selector F C) (pool : Pool F C)
    (selected : List (Fin pool.length)) :
    self.AddsBeforeGivingUp pool selected ↔
      self.k.isSome = true ∨ self.ExchangesWhereOneFits pool selected := by
  constructor
  · intro adds
    by_cases counted : self.k.isSome = true
    · exact .inl counted
    · right
      intro state req run current unmet ⟨donor, addition⟩
      by_contra noExchange
      push Not at noExchange
      have uncounted : self.k = none := by simpa using counted
      have stays : self.GivesUp pool state req :=
        ⟨current, unmet, repairStep_of_noExchange uncounted noExchange⟩
      exact adds _ (stays.error run) state req run stays donor addition
  · intro condition _ _ state req run stays donor addition
    obtain ⟨noExchange, refused⟩ := repairStep_eq_none stays.2.2
    cases condition with
    | inl counted =>
        have start : self.requirementsMet pool selected 0 = true := by simp [requirementsMet]
        have met := requirementsMet_snoc (requirementsMet_of_run run start) donor
        have broken := refused donor addition (hasRoom_of_canAdd addition counted)
        rw [met] at broken
        cases broken
    | inr exchanges =>
        obtain ⟨other, victim, exchange⟩ :=
          exchanges state req run stays.1 stays.2.1 ⟨donor, addition⟩
        exact noExchange other victim exchange

/-! ## A token budget of ten -/

/-- One expensive candidate and two cheap ones, which are both required. -/
def twoCheap : Selector Exact Nat where
  setConstraints := []
  objective := none
  requirements := [⟨"cheap", (0 < ·), 2⟩]
  k := none
  tokenBudget := some 10
  cost := some fun candidate => if candidate = 0 then 10 else 3

instance : NeZero (scoredPool [9, 1, 1]).length := ⟨by decide⟩

/-- The expensive one goes out for a cheap one, and then the other one is not added. -/
theorem twoCheap_givesUp :
    ¬ twoCheap.AddsBeforeGivingUp (scoredPool [9, 1, 1])
      (twoCheap.greedySelection (scoredPool [9, 1, 1])) := by
  have picked : twoCheap.greedySelection (scoredPool [9, 1, 1]) = [0] := by decide +kernel
  have first : twoCheap.repairStep (scoredPool [9, 1, 1]) 0 ⟨"cheap", (0 < ·), 2⟩ [0] =
      some [1] := by decide +kernel
  have second : twoCheap.repairStep (scoredPool [9, 1, 1]) 0 ⟨"cheap", (0 < ·), 2⟩ [1] =
      none := by decide +kernel
  have run : ReflTransGen (twoCheap.Repairs (scoredPool [9, 1, 1])) ⟨0, [0]⟩ ⟨0, [1]⟩ :=
    .single (.iterate rfl (by decide +kernel) first)
  have stays : twoCheap.GivesUp (scoredPool [9, 1, 1]) ⟨0, [1]⟩ ⟨"cheap", (0 < ·), 2⟩ :=
    ⟨rfl, by decide +kernel, second⟩
  rw [picked]
  intro adds
  exact adds _ (stays.error run) ⟨0, [1]⟩ _ run stays 2
    ⟨by decide +kernel, by decide +kernel, by decide +kernel⟩

end AiCoreStack.Ranking.Selector
