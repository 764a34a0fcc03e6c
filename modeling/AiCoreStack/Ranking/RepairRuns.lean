import AiCoreStack.Ranking.Stages

/-!
# Runs of the repair

The two loops of `repair_requirements` as a machine without a bound on its steps.  A step brings
one more satisfying member in, or goes on to the next requirement; the requirements behind stay
met.  So every run ends, in what the bounded loops of the model return.
-/

namespace AiCoreStack.Ranking.Selector

open Foundation Relation

variable {F C : Type} [Scalar F] (self : Selector F C) (pool : Pool F C)

/-! ## The machine -/

/-- The requirement the outer loop is at, and the selection so far. -/
structure RepairState (n : Nat) where
  requirement : Nat
  selected : List (Fin n)

/-- One iteration of the inner loop, or the end of it. -/
inductive Repairs : RepairState pool.length → RepairState pool.length → Prop where
  | iterate {requirement : Nat} {req : Requirement C} {before after : List (Fin pool.length)}
      (current : self.requirements[requirement]? = some req)
      (unmet : satisfying pool req before < req.needed)
      (step : self.repairStep pool requirement req before = some after) :
      Repairs ⟨requirement, before⟩ ⟨requirement, after⟩
  | advance {requirement : Nat} {req : Requirement C} {selected : List (Fin pool.length)}
      (current : self.requirements[requirement]? = some req)
      (met : req.needed ≤ satisfying pool req selected) :
      Repairs ⟨requirement, selected⟩ ⟨requirement + 1, selected⟩

/-- No candidate can be brought in for the requirement at hand, which is not met. -/
def GivesUp (state : RepairState pool.length) (req : Requirement C) : Prop :=
  self.requirements[state.requirement]? = some req ∧
    satisfying pool req state.selected < req.needed ∧
    self.repairStep pool state.requirement req state.selected = none

variable {self pool}

/-! ## One iteration -/

/-- An iteration brings one more satisfying member in. -/
theorem satisfying_repairStep {requirement : Nat} {req : Requirement C}
    {before after : List (Fin pool.length)}
    (step : self.repairStep pool requirement req before = some after) :
    satisfying pool req after = satisfying pool req before + 1 := by
  obtain ⟨kept, donor, replaces, rfl, _⟩ := repairStep_replaces step
  exact satisfying_snoc replaces

omit [Scalar F] in
theorem requirementsMet_of_accepts {requirement : Nat} {trial after : List (Fin pool.length)}
    (accepted : self.accepts pool requirement trial = some after) :
    self.requirementsMet pool after requirement = true := by
  rw [accepts] at accepted
  split at accepted
  next passed =>
    cases accepted
    exact (Bool.and_eq_true_iff.mp passed).2
  next => cases accepted

/-- An iteration keeps the requirements that come earlier. -/
theorem requirementsMet_repairStep {requirement : Nat} {req : Requirement C}
    {before after : List (Fin pool.length)}
    (step : self.repairStep pool requirement req before = some after) :
    self.requirementsMet pool after requirement = true := by
  obtain ⟨donor, _, tried⟩ := List.exists_of_findSome?_eq_some step
  rw [tryDonor, Option.or_eq_some_iff] at tried
  cases tried with
  | inl added =>
      split at added
      next => exact requirementsMet_of_accepts added
      next => cases added
  | inr exchanged =>
      obtain ⟨victim, _, accepted⟩ := List.exists_of_findSome?_eq_some exchanged.2
      exact requirementsMet_of_accepts accepted

omit [Scalar F] in
theorem requirementsMet_succ {requirement : Nat} {req : Requirement C}
    {selected : List (Fin pool.length)} (current : self.requirements[requirement]? = some req) :
    self.requirementsMet pool selected (requirement + 1) = true ↔
      self.requirementsMet pool selected requirement = true ∧
        req.needed ≤ satisfying pool req selected := by
  rw [requirementsMet, requirementsMet, List.take_add_one, current, Option.toList_some,
    List.all_append, Bool.and_eq_true]
  simp

/-! ## Whole runs -/

/-- Every step keeps the requirements behind met. -/
theorem Repairs.requirementsMet {state next : RepairState pool.length}
    (step : self.Repairs pool state next)
    (met : self.requirementsMet pool state.selected state.requirement = true) :
    self.requirementsMet pool next.selected next.requirement = true := by
  cases step with
  | iterate _ _ step => exact requirementsMet_repairStep step
  | advance current enough => exact (requirementsMet_succ current).mpr ⟨met, enough⟩

theorem requirementsMet_of_run {state last : RepairState pool.length}
    (run : ReflTransGen (self.Repairs pool) state last)
    (met : self.requirementsMet pool state.selected state.requirement = true) :
    self.requirementsMet pool last.selected last.requirement = true := by
  induction run with
  | refl => exact met
  | tail _ step ih => exact step.requirementsMet ih

/-- What is left to do: the requirements ahead, and the members that the current one lacks. -/
def remaining (self : Selector F C) (pool : Pool F C) (state : RepairState pool.length) : ℕ ×ₗ ℕ :=
  toLex (self.requirements.length - state.requirement,
    (self.requirements[state.requirement]?).elim 0 fun req =>
      req.needed - satisfying pool req state.selected)

theorem Repairs.remaining_lt {state next : RepairState pool.length}
    (step : self.Repairs pool state next) :
    remaining self pool next < remaining self pool state := by
  rw [remaining, remaining, Prod.Lex.toLex_lt_toLex]
  cases step with
  | iterate current unmet step =>
      right
      have more := satisfying_repairStep step
      dsimp only
      rw [current, Option.elim_some, Option.elim_some]
      exact ⟨rfl, by omega⟩
  | advance current _ =>
      left
      have inside := (List.getElem?_eq_some_iff.mp current).1
      dsimp only
      omega

/-- No run goes on for ever. -/
theorem wellFounded_repairs : WellFounded fun next state => self.Repairs pool state next :=
  Subrelation.wf Repairs.remaining_lt (InvImage.wf (remaining self pool) wellFounded_lt)

/-! ## What the bounded loops return -/

/-- The inner loop runs through, or the machine gives up. -/
theorem repairLoop_run {requirement : Nat} {req : Requirement C} {fuel : Nat}
    (current : self.requirements[requirement]? = some req) (selected : List (Fin pool.length))
    (repaired : Bool) (enough : req.needed ≤ satisfying pool req selected + fuel) :
    (∃ after, self.repairLoop pool requirement req fuel selected repaired =
        .ok (after, repaired || decide (satisfying pool req selected < req.needed)) ∧
      ReflTransGen (self.Repairs pool) ⟨requirement, selected⟩ ⟨requirement + 1, after⟩ ∧
      (req.needed ≤ satisfying pool req selected → after = selected)) ∨
    ∃ stuck, ReflTransGen (self.Repairs pool) ⟨requirement, selected⟩ ⟨requirement, stuck⟩ ∧
      self.GivesUp pool ⟨requirement, stuck⟩ req ∧
      self.repairLoop pool requirement req fuel selected repaired = .error (infeasible pool req) := by
  induction fuel generalizing selected repaired with
  | zero =>
      have met : req.needed ≤ satisfying pool req selected := enough
      left
      refine ⟨selected, ?_, .single (.advance current met), fun _ => rfl⟩
      rw [repairLoop, decide_eq_false (Nat.not_lt.mpr met), Bool.or_false]
  | succ fuel ih =>
      rw [repairLoop]
      by_cases met : req.needed ≤ satisfying pool req selected
      · left
        refine ⟨selected, ?_, .single (.advance current met), fun _ => rfl⟩
        rw [if_pos met, decide_eq_false (Nat.not_lt.mpr met), Bool.or_false]
      · have unmet : satisfying pool req selected < req.needed := Nat.lt_of_not_le met
        rw [if_neg met]
        cases step : self.repairStep pool requirement req selected with
        | none => exact .inr ⟨selected, .refl, ⟨current, unmet, step⟩, rfl⟩
        | some trial =>
            have more := satisfying_repairStep step
            have first := Repairs.iterate current unmet step
            rcases ih trial true (by omega) with
              ⟨after, looped, run, _⟩ | ⟨stuck, run, stays, looped⟩
            · left
              refine ⟨after, ?_, run.head first, fun enough => absurd enough met⟩
              rw [decide_eq_true unmet, Bool.or_true]
              exact looped
            · exact .inr ⟨stuck, run.head first, stays, looped⟩

/-- The outer loop runs through, or the machine gives up. -/
theorem repairFrom_run {requirement : Nat} {rest : List (Requirement C)}
    (selected : List (Fin pool.length)) (repaired : Bool)
    (ahead : self.requirements.drop requirement = rest)
    (within : requirement ≤ self.requirements.length) :
    (∃ after flag, self.repairFrom pool requirement selected repaired rest = .ok (after, flag) ∧
      ReflTransGen (self.Repairs pool) ⟨requirement, selected⟩
        ⟨self.requirements.length, after⟩ ∧
      (flag = true → repaired = true ∨
        ∃ req ∈ rest, satisfying pool req selected < req.needed)) ∨
    ∃ stuck req, ReflTransGen (self.Repairs pool) ⟨requirement, selected⟩ stuck ∧
      self.GivesUp pool stuck req ∧
      self.repairFrom pool requirement selected repaired rest = .error (infeasible pool req) := by
  induction rest generalizing requirement selected repaired with
  | nil =>
      have done : requirement = self.requirements.length :=
        le_antisymm within (List.drop_eq_nil_iff.mp ahead)
      subst done
      exact .inl ⟨selected, repaired, rfl, .refl, .inl⟩
  | cons req rest ih =>
      have current : self.requirements[requirement]? = some req := by
        rw [← List.head?_drop, ahead]
        rfl
      have next : self.requirements.drop (requirement + 1) = rest := by
        rw [← List.tail_drop, ahead]
        rfl
      have inside := (List.getElem?_eq_some_iff.mp current).1
      rw [repairFrom]
      rcases repairLoop_run current selected repaired (Nat.le_add_left _ _)
        with ⟨middle, looped, run, same⟩ | ⟨stuck, run, stays, looped⟩
      · rw [looped]
        dsimp only [Except.bind]
        rcases ih middle _ next inside with
          ⟨after, flag, repairs, later, because⟩ | ⟨stuck, other, later, stays, repairs⟩
        · refine .inl ⟨after, flag, repairs, run.trans later, ?_⟩
          intro raised
          by_cases met : req.needed ≤ satisfying pool req selected
          · have unchanged := same met
            subst unchanged
            rcases because raised with earlier | ⟨other, member, lacking⟩
            · rw [decide_eq_false (Nat.not_lt.mpr met), Bool.or_false] at earlier
              exact .inl earlier
            · exact .inr ⟨other, List.mem_cons_of_mem req member, lacking⟩
          · exact .inr ⟨req, List.mem_cons_self, Nat.lt_of_not_le met⟩
        · exact .inr ⟨stuck, other, run.trans later, stays, repairs⟩
      · rw [looped]
        exact .inr ⟨_, req, run, stays, rfl⟩

omit [Scalar F] in
theorem checkRequirements_eq {selected : List (Fin pool.length)} {requirements : List (Requirement C)}
    (met : ∀ req ∈ requirements, req.needed ≤ satisfying pool req selected) :
    checkRequirements pool selected requirements = .ok () := by
  induction requirements with
  | nil => rfl
  | cons req rest ih =>
      rw [checkRequirements, if_neg (Nat.not_lt.mpr (met req List.mem_cons_self))]
      exact ih fun other member => met other (List.mem_cons_of_mem req member)

/-- The machine runs to the end, where every requirement is met, or it gives up, and
`repair_requirements` returns what it reaches. -/
theorem repairRequirements_run (self : Selector F C) (selected : List (Fin pool.length)) :
    (∃ after flag, self.repairRequirements pool selected = .ok (after, flag) ∧
      ReflTransGen (self.Repairs pool) ⟨0, selected⟩ ⟨self.requirements.length, after⟩ ∧
      (∀ req ∈ self.requirements, req.needed ≤ satisfying pool req after) ∧
      (flag = true → ∃ req ∈ self.requirements, satisfying pool req selected < req.needed) ∧
      (flag = false → after = selected)) ∨
    ∃ stuck req, ReflTransGen (self.Repairs pool) ⟨0, selected⟩ stuck ∧
      self.GivesUp pool stuck req ∧
      self.repairRequirements pool selected = .error (infeasible pool req) := by
  rw [repairRequirements]
  rcases repairFrom_run selected false List.drop_zero (Nat.zero_le _) with
    ⟨after, flag, repairs, run, because⟩ | ⟨stuck, req, run, stays, repairs⟩
  · have start : self.requirementsMet pool selected 0 = true := by simp [requirementsMet]
    have ended := requirementsMet_of_run run start
    have met : ∀ req ∈ self.requirements, req.needed ≤ satisfying pool req after := by
      rw [requirementsMet, List.take_length, List.all_eq_true] at ended
      intro req member
      exact of_decide_eq_true (ended req member)
    left
    refine ⟨after, flag, ?_, run, met, ?_, ?_⟩
    · rw [repairs]
      dsimp only [Except.bind]
      rw [checkRequirements_eq met]
      rfl
    · intro raised
      exact (because raised).resolve_left Bool.false_ne_true
    · rintro rfl
      exact (repairFrom_unchanged repairs).1
  · right
    refine ⟨stuck, req, run, stays, ?_⟩
    rw [repairs]
    rfl

theorem Repairs.unique {state next other : RepairState pool.length}
    (first : self.Repairs pool state next) (second : self.Repairs pool state other) :
    next = other := by
  cases first with
  | iterate current unmet step =>
      cases second with
      | iterate current' _ step' =>
          cases current.symm.trans current'
          cases step.symm.trans step'
          rfl
      | advance current' met =>
          cases current.symm.trans current'
          exact absurd met (Nat.not_le.mpr unmet)
  | advance current met =>
      cases second with
      | iterate current' unmet _ =>
          cases current.symm.trans current'
          exact absurd met (Nat.not_le.mpr unmet)
      | advance _ _ => rfl

/-- The machine makes no step where it gives up. -/
theorem GivesUp.final {state last : RepairState pool.length} {req : Requirement C}
    (stays : self.GivesUp pool state req) (run : ReflTransGen (self.Repairs pool) state last) :
    last = state := by
  obtain ⟨current, unmet, nothing⟩ := stays
  cases run.cases_head with
  | inl same => exact same.symm
  | inr moves =>
      obtain ⟨_, step, _⟩ := moves
      cases step with
      | iterate current' _ step =>
          cases current.symm.trans current'
          cases nothing.symm.trans step
      | advance current' met =>
          cases current.symm.trans current'
          exact absurd met (Nat.not_le.mpr unmet)

/-- A machine that gives up makes `repair_requirements` fail. -/
theorem GivesUp.error {selected : List (Fin pool.length)} {state : RepairState pool.length}
    {req : Requirement C} (stays : self.GivesUp pool state req)
    (run : ReflTransGen (self.Repairs pool) ⟨0, selected⟩ state) :
    self.repairRequirements pool selected = .error (infeasible pool req) := by
  have unique : Relator.RightUnique (self.Repairs pool) := fun _ _ _ => Repairs.unique
  rcases repairRequirements_run self selected with
    ⟨after, _, _, ended, _⟩ | ⟨other, lacking, ended, failed, returned⟩
  · -- the end of the requirements is not a place to give up
    have same : state = ⟨self.requirements.length, after⟩ := by
      cases ReflTransGen.total_of_right_unique unique run ended with
      | inl later => exact (stays.final later).symm
      | inr later =>
          cases later.cases_head with
          | inl same => exact same.symm
          | inr moves =>
              obtain ⟨_, step, _⟩ := moves
              cases step with
              | iterate current _ _ => simp at current
              | advance current _ => simp at current
    have current := stays.1
    rw [same] at current
    simp at current
  · have same : other = state := by
      cases ReflTransGen.total_of_right_unique unique run ended with
      | inl later => exact stays.final later
      | inr later => exact (failed.final later).symm
    subst same
    cases stays.1.symm.trans failed.1
    exact returned

/-! ## The result is honest -/

/-- The flag says whether the selection is another one, also up to its order. -/
theorem repaired_iff {selected after : List (Fin pool.length)} {flag : Bool}
    (done : self.repairRequirements pool selected = .ok (after, flag)) :
    (flag = true ↔ after ≠ selected) ∧ (flag = true ↔ ¬ after.Perm selected) := by
  rcases repairRequirements_run self selected with
    ⟨other, raised, returned, _, met, because, unchanged⟩ | ⟨_, _, _, _, failed⟩
  · rw [returned] at done
    cases done
    have moved (up : flag = true) : ¬ after.Perm selected := by
      intro perm
      obtain ⟨req, member, lacking⟩ := because up
      have enough := met req member
      rw [satisfying, perm.countP_eq, ← satisfying] at enough
      omega
    constructor
    · constructor
      · intro up same
        exact moved up (same ▸ List.Perm.refl _)
      · intro different
        by_contra down
        exact different (unchanged (Bool.eq_false_iff.mpr down))
    · constructor
      · exact moved
      · intro different
        by_contra down
        exact different (unchanged (Bool.eq_false_iff.mpr down) ▸ List.Perm.refl _)
  · rw [failed] at done
    cases done

theorem guarantee_of_changed {engine : Engine F C} {D : Type} [Analytic D] [Widens F D]
    {chosen : Chosen F pool.length} (ran : (engine.selector D pool).run pool = .ok chosen)
    (changed : chosen.selected ≠ (engine.selector D pool).greedySelection pool) :
    engine.guarantee chosen.repaired = (false, none) := by
  have repaired : chosen.repaired = true := by
    by_contra unrepaired
    have repair := (run_ok ran).1
    rw [Bool.eq_false_iff.mpr unrepaired] at repair
    exact changed (repairFrom_unchanged repair).1
  rw [repaired]
  rfl

/-- Every run of the repair ends.  An iteration brings one more satisfying member in and keeps
what is met; the flag of the result says whether the selection was changed, and for a changed
one the engine promises nothing. -/
theorem repair_honest (self : Selector F C) (pool : Pool F C) (selected : List (Fin pool.length)) :
    WellFounded (fun next state => self.Repairs pool state next) ∧
    (∀ state next, ReflTransGen (self.Repairs pool) ⟨0, selected⟩ state →
      self.Repairs pool state next →
        self.requirementsMet pool next.selected next.requirement = true ∧
        ∀ req, self.requirements[state.requirement]? = some req →
          next.requirement = state.requirement →
          satisfying pool req state.selected < satisfying pool req next.selected) ∧
    ((∃ after flag, self.repairRequirements pool selected = .ok (after, flag) ∧
        ReflTransGen (self.Repairs pool) ⟨0, selected⟩ ⟨self.requirements.length, after⟩ ∧
        (flag = true ↔ after ≠ selected) ∧ (flag = true ↔ ¬ after.Perm selected)) ∨
      ∃ stuck req, ReflTransGen (self.Repairs pool) ⟨0, selected⟩ stuck ∧
        self.GivesUp pool stuck req ∧
        self.repairRequirements pool selected = .error (infeasible pool req)) ∧
    ∀ (D : Type) [Analytic D] [Widens F D] [Candidate C] (engine : Engine F C)
      (candidates : List C) (outcome : Outcome F C), engine.run D candidates = .ok outcome →
      ∃ course : Engine.Course D engine candidates outcome,
        course.chosen.selected ≠ (engine.selector D course.pool).greedySelection course.pool →
          outcome.selection.exact = false ∧ outcome.selection.guarantee = none := by
  refine ⟨wellFounded_repairs, ?_, ?_, ?_⟩
  · intro state next run step
    have start : self.requirementsMet pool selected 0 = true := by simp [requirementsMet]
    refine ⟨step.requirementsMet (requirementsMet_of_run run start), ?_⟩
    intro req current stays
    cases step with
    | iterate known _ step =>
        have same : _ = req := Option.some.inj (known.symm.trans current)
        rw [← same]
        have more := satisfying_repairStep step
        dsimp only
        omega
    | advance _ _ => exact absurd stays (Nat.succ_ne_self _)
  · rcases repairRequirements_run self selected with
      ⟨after, flag, returned, run, _, _, _⟩ | failed
    · exact .inl ⟨after, flag, returned, run, repaired_iff returned⟩
    · exact .inr failed
  · intro D _ _ _ engine candidates outcome ran
    obtain ⟨course⟩ := Engine.run_course ran
    refine ⟨course, ?_⟩
    intro changed
    have nothing := course.declared
    rw [guarantee_of_changed course.selected changed] at nothing
    exact ⟨congrArg Prod.fst nothing, congrArg Prod.snd nothing⟩

end AiCoreStack.Ranking.Selector
