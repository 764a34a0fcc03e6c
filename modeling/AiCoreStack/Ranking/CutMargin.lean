import AiCoreStack.Ranking.Feasible

/-!
# The cut margin of a count budget

The margin is computed from the final selection.  Without a repair this is the greedy one, and
what competes with its last member is what was open when the greedy loop picked it.  So in exact
arithmetic nothing that competes has a larger gain.
-/

namespace AiCoreStack.Ranking

open Foundation Foundation.Greedy

namespace Selector

section Rivals

variable {F C : Type} [Scalar F] {self : Selector F C} {pool : Pool F C}

/-- The candidates that compete with the last of the members. -/
def rivals (self : Selector F C) (pool : Pool F C) (before : List (Fin pool.length))
    (last : Fin pool.length) : List (Fin pool.length) :=
  (List.finRange pool.length).filter fun i =>
    !(before ++ [last]).contains i && self.admitsAll (refs pool before) (pool.get i).candidate

/-- Under a count budget the margin is a difference of gains. -/
theorem cutMargin_snoc (counted : self.tokenBudget = none) (before : List (Fin pool.length))
    (last : Fin pool.length) :
    self.cutMargin pool (before ++ [last]) =
      (FusionTrace.maxFold ((self.rivals pool before last).map fun i =>
        self.gain (refs pool before) (pool.get i))).map fun best =>
          Scalar.sub (self.gain (refs pool before) (pool.get last)) best := by
  rw [cutMargin, List.getLast?_append, List.dropLast_concat, remainingBudget, counted]
  simp [rivals]

omit [Scalar F] in
theorem mem_rivals {before : List (Fin pool.length)} {last i : Fin pool.length} :
    i ∈ self.rivals pool before last ↔
      i ∉ before ++ [last] ∧ self.admitsAll (refs pool before) (pool.get i).candidate = true := by
  rw [rivals, List.mem_filter]
  simp

/-- What a run reports as its margin. -/
theorem run_cutMargin {chosen : Chosen F pool.length} (ran : self.run pool = .ok chosen)
    (counted : self.tokenBudget = none) :
    chosen.cutMargin = self.cutMargin pool chosen.selected := by
  rw [run, counted] at ran
  cases repaired : self.repairRequirements pool (self.cardinality pool).selected with
  | error failure =>
      change Except.map _ (self.repairRequirements pool (self.cardinality pool).selected) = _ at ran
      rw [repaired] at ran
      cases ran
  | ok state =>
      change Except.map _ (self.repairRequirements pool (self.cardinality pool).selected) = _ at ran
      rw [repaired] at ran
      cases ran
      rfl

/-- There is no margin where nothing was selected or nothing competes. -/
theorem cutMargin_eq_none (counted : self.tokenBudget = none) (selected : List (Fin pool.length)) :
    self.cutMargin pool selected = none ↔
      selected = [] ∨ ∀ i, i ∉ selected →
        self.admitsAll (refs pool selected.dropLast) (pool.get i).candidate = false := by
  induction selected using List.reverseRecOn with
  | nil => exact ⟨fun _ => .inl rfl, fun _ => rfl⟩
  | append_singleton before last _ =>
      rw [cutMargin_snoc counted, Option.map_eq_none_iff, FusionTrace.maxFold_eq_none,
        List.map_eq_nil_iff, List.eq_nil_iff_forall_not_mem, List.dropLast_concat]
      constructor
      · intro nobody
        right
        intro i fresh
        apply Bool.eq_false_iff.mpr
        intro admitted
        exact nobody i (mem_rivals.mpr ⟨fresh, admitted⟩)
      · intro condition i competes
        obtain ⟨fresh, admitted⟩ := mem_rivals.mp competes
        cases condition with
        | inl empty => simp at empty
        | inr refused =>
            rw [refused i fresh] at admitted
            cases admitted

/-- The greedy selection is empty when nothing may be selected, or nothing can be. -/
theorem refused_of_empty (positive : self.k ≠ some 0)
    (empty : (self.cardinality pool).selected = []) (i : Fin pool.length) :
    self.admitsAll (refs pool []) (pool.get i).candidate = false := by
  obtain ⟨_, _, ended⟩ := self.cardinality_run pool (fun _ _ => True) (fun _ _ _ _ => trivial)
  rw [empty] at ended
  cases ended with
  | inl full =>
      have inside := i.pos
      cases count : self.k with
      | none =>
          rw [count, Option.getD_none, List.length_nil] at full
          omega
      | some k =>
          rw [count, Option.getD_some, List.length_nil] at full
          have zero : k = 0 := by omega
          exact absurd (zero ▸ count) positive
  | inr stuck =>
      apply Bool.eq_false_iff.mpr
      intro admitted
      exact not_countOpen stuck i ⟨List.not_mem_nil, admitted⟩

end Rivals

/-! ## Exact arithmetic -/

variable {C : Type} {self : Selector Exact C} {pool : Pool Exact C}

/-- Scores and marginal gains are rational numbers. -/
structure RationalGains (selector : Selector Exact C) (pool : Pool Exact C) : Prop where
  fused : ∀ i, ∃ value : ℚ, (pool.get i).fused = .fin value
  marginal : ∀ objective, selector.objective = some objective → ∀ selected candidate,
    ∃ value : ℚ, objective.marginalGain selected candidate = .fin value

theorem RationalGains.gain_eq (gains : self.RationalGains pool) (selected : List C)
    (i : Fin pool.length) :
    self.gain selected (pool.get i) = .fin (self.gain selected (pool.get i)).finitePart := by
  obtain ⟨score, fused⟩ := gains.fused i
  rw [gain]
  cases registered : self.objective with
  | none =>
      dsimp only
      rw [fused]
      rfl
  | some objective =>
      obtain ⟨extra, marginal⟩ := gains.marginal objective registered selected
        (pool.get i).candidate
      dsimp only
      rw [fused, marginal, Exact.add_fin]
      rfl

/-- What competes with the last pick does not gain more. -/
theorem rival_le (gains : self.RationalGains pool) {before : List (Fin pool.length)}
    {last : Fin pool.length} {b : Exact} (pick : self.countPick pool before = some (last, b))
    {i : Fin pool.length} (competes : i ∈ self.rivals pool before last) :
    (self.gain (refs pool before) (pool.get i)).finitePart ≤
      (self.gain (refs pool before) (pool.get last)).finitePart := by
  obtain ⟨fresh, admitted⟩ := mem_rivals.mp competes
  have outside : i ∉ before := fun member => fresh (List.mem_append_left _ member)
  have largest := firstBest_max
    (fun j _ _ => by
      rw [gains.gain_eq]
      intro isNan
      cases isNan)
    pick i (List.mem_finRange i) (Bool.and_eq_true_iff.mpr ⟨by simpa using outside, admitted⟩)
  rw [gains.gain_eq, gains.gain_eq _ last, Exact.le_fin] at largest
  exact of_decide_eq_true largest

/-- The largest of rational values is one of them. -/
theorem maxFold_mem {values : List ℚ} {best : Exact}
    (largest : FusionTrace.maxFold (values.map Exact.fin) = some best) :
    ∃ value ∈ values, best = .fin value := by
  cases values with
  | nil => cases largest
  | cons value rest =>
      rw [List.map_cons, FusionTrace.maxFold_cons, Exact.foldl_max_fin] at largest
      cases largest
      exact ⟨_, List.max?_mem List.max?_cons', rfl⟩

/-- The margin of a last pick. -/
theorem margin_of_pick (gains : self.RationalGains pool) (counted : self.tokenBudget = none)
    {before : List (Fin pool.length)} {last : Fin pool.length} {b margin : Exact}
    (pick : self.countPick pool before = some (last, b))
    (reported : self.cutMargin pool (before ++ [last]) = some margin) :
    ∃ value : ℚ, 0 ≤ value ∧ margin = .fin value := by
  have rational : ((self.rivals pool before last).map fun i =>
      self.gain (refs pool before) (pool.get i)) =
      ((self.rivals pool before last).map fun i =>
        (self.gain (refs pool before) (pool.get i)).finitePart).map Exact.fin := by
    rw [List.map_map]
    apply List.map_congr_left
    intro i _
    exact gains.gain_eq _ i
  rw [cutMargin_snoc counted, rational] at reported
  obtain ⟨best, largest, same⟩ := Option.map_eq_some_iff.mp reported
  obtain ⟨value, member, isBest⟩ := maxFold_mem largest
  obtain ⟨i, competes, isValue⟩ := List.mem_map.mp member
  refine ⟨(self.gain (refs pool before) (pool.get last)).finitePart - value, ?_, ?_⟩
  · rw [← isValue]
    exact sub_nonneg.mpr (rival_le gains pick competes)
  · rw [← same, isBest, gains.gain_eq _ last, Exact.sub_fin]
    rfl

/-- Without a repair the margin of a count budget is not negative, and there is none exactly when
the budget is zero or nothing competes with the last member. -/
theorem cutMargin_nonneg {chosen : Chosen Exact pool.length} (ran : self.run pool = .ok chosen)
    (counted : self.tokenBudget = none) (unrepaired : chosen.repaired = false)
    (gains : self.RationalGains pool) :
    (∀ margin, chosen.cutMargin = some margin → ∃ value : ℚ, 0 ≤ value ∧ margin = .fin value) ∧
      (chosen.cutMargin = none ↔ self.k = some 0 ∨ ∀ i, i ∉ chosen.selected →
        self.admitsAll (refs pool chosen.selected.dropLast) (pool.get i).candidate = false) := by
  obtain ⟨run, size, _⟩ := self.cardinality_run pool
    (fun before i => ∃ b, self.countPick pool before = some (i, b)) (fun _ _ b pick => ⟨b, pick⟩)
  rw [run_cutMargin ran counted]
  have greedy := run_unrepaired ran counted unrepaired
  rw [← greedy] at run size
  generalize selection : chosen.selected = selected at run size greedy ⊢
  constructor
  · intro margin reported
    cases run with
    | nil => cases reported
    | snoc _ step =>
        obtain ⟨b, pick⟩ := step
        exact margin_of_pick gains counted pick reported
  · rw [cutMargin_eq_none counted]
    constructor
    · rintro (empty | refused)
      · by_cases zero : self.k = some 0
        · exact .inl zero
        · subst empty
          exact .inr fun i _ => refused_of_empty zero greedy.symm i
      · exact .inr refused
    · rintro (zero | refused)
      · rw [zero, Option.getD_some, Nat.zero_min] at size
        exact .inl (List.length_eq_zero_iff.mp (Nat.le_zero.mp size))
      · exact .inr refused

/-- Two picks of three candidates, and half a point between the last two. -/
theorem cutMargin_nonneg_three :
    ∃ chosen, Selector.run (F := Exact) ⟨[], none, [], some 2, none, none⟩
        (scoredPool [3, 2, 3 / 2]) = .ok chosen ∧ chosen.cutMargin = some (.fin (1 / 2)) ∧
      ∀ margin, chosen.cutMargin = some margin → ∃ value : ℚ, 0 ≤ value ∧ margin = .fin value := by
  obtain ⟨chosen, ran, unrepaired, margin⟩ : ∃ chosen, Selector.run (F := Exact)
      ⟨[], none, [], some 2, none, none⟩ (scoredPool [3, 2, 3 / 2]) = .ok chosen ∧
      chosen.repaired = false ∧ chosen.cutMargin = some (.fin (1 / 2)) :=
    ⟨_, rfl, rfl, by decide +kernel⟩
  exact ⟨chosen, ran, margin, (cutMargin_nonneg ran rfl unrepaired
    ⟨fun i => ⟨_, (scoredPool_nonNegative (by decide +kernel)).fused_eq i⟩, by simp⟩).1⟩

/-- A budget of zero selects nothing, and there is no margin, although a candidate could be
selected. -/
theorem no_margin_for_zero :
    ∃ chosen, Selector.run (F := Exact) ⟨[], none, [], some 0, none, none⟩ (scoredPool [1]) =
        .ok chosen ∧ chosen.repaired = false ∧ chosen.cutMargin = none ∧
      ∃ i, i ∉ chosen.selected ∧
        Selector.admitsAll (F := Exact) ⟨[], none, [], some 0, none, none⟩
          (refs (scoredPool [1]) chosen.selected.dropLast)
          ((scoredPool [1]).get i).candidate = true :=
  ⟨_, rfl, rfl, rfl, ⟨0, by decide⟩, by simp [cardinality, cardinalityLoop], rfl⟩

end Selector

end AiCoreStack.Ranking
