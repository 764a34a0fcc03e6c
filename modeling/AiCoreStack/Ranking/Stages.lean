import AiCoreStack.Ranking.Conservation

/-!
# The stages of a run

What a run that succeeds went through: the candidates that the first stage left, the values of
the expensive axes, the pool, and the selection from it.
-/

namespace AiCoreStack.Ranking.Engine

open Foundation

variable {F C : Type} [Scalar F]

/-- The candidates that the first stage leaves, the best first. -/
def shortlist [Candidate C] (self : Engine F C) (key : AdmissionKey) (candidates : List C) :
    List (Staged F C) :=
  (self.firstStage key candidates).1.insertionSort fun left right =>
    TopList.Below (self.stagedCmp key) right left

/-- The pool that staged candidates make. -/
def poolFrom (self : Engine F C) (staged : List (Staged F C)) : Pool F C :=
  ((self.fuseAll (self.survivors staged)).filter
    fun e => (self.thresholdReason e).isNone).insertionSort poolOrder

variable (D : Type) [Analytic D] [Widens F D]

/-- The stages of a run that succeeds. -/
structure Course [Candidate C] (engine : Engine F C) (candidates : List C) (outcome : Outcome F C)
    where
  key : AdmissionKey
  valid : engine.validate = .ok ()
  resolved : engine.resolveAdmission = .ok key
  axes : List (Nat × List (Option F))
  collected : engine.collectExpensive ((engine.shortlist key candidates).map (·.candidate))
    engine.scorers.zipIdx = .ok axes
  pool : Pool F C
  pooled : pool = engine.poolFrom (axes.foldl absorbAxis (engine.shortlist key candidates))
  chosen : Chosen F pool.length
  selected : (engine.selector D pool).run pool = .ok chosen
  ranked : outcome.ranked = (chosen.selected.map pool.get).zipIdx.map fun (entry, rank) =>
    engine.rankedOf entry rank
  declared : (outcome.selection.exact, outcome.selection.guarantee) =
    engine.guarantee chosen.repaired
  margin : outcome.selection.cutMargin = chosen.cutMargin.filter Scalar.isFinite

variable {D}

/-- After the first stage a run is the second one on the shortlist. -/
theorem run_eq_finish [Candidate C] {self : Engine F C} {key : AdmissionKey}
    (valid : self.validate = .ok ()) (resolved : self.resolveAdmission = .ok key)
    (candidates : List C) :
    ∃ stream, self.run D candidates = self.finish D key stream (self.shortlist key candidates) := by
  obtain ⟨stream, streamed, staged, _, _, _⟩ := self.streamAll_eq key candidates
  refine ⟨stream, ?_⟩
  rw [run, valid, resolved]
  dsimp only [Except.mapError, Except.bind]
  rw [streamed]
  dsimp only
  rw [staged]
  rfl

/-- After the expensive axes the second stage is a selection from the pool. -/
theorem finish_eq_select {self : Engine F C} {staged : List (Staged F C)}
    {axes : List (Nat × List (Option F))}
    (collected : self.collectExpensive (staged.map (·.candidate)) self.scorers.zipIdx = .ok axes)
    (key : AdmissionKey) (stream : Stream F C) :
    ∃ log size trace, self.finish D key stream staged =
      (((self.selector D (self.poolFrom (axes.foldl absorbAxis staged))).run
        (self.poolFrom (axes.foldl absorbAxis staged))).mapError .error).bind fun chosen =>
          self.assemble (self.poolFrom (axes.foldl absorbAxis staged)) chosen log size trace := by
  rw [finish, scoreExpensive, collected]
  dsimp only [Except.map, Except.mapError, Except.bind]
  rw [absorb_foldl_fst]
  have pooled : (self.poolOf (axes.foldl absorbAxis staged) stream.log).1 =
      self.poolFrom (axes.foldl absorbAxis staged) :=
    self.poolOf_fst (axes.foldl absorbAxis staged) stream.log
  generalize self.poolOf (axes.foldl absorbAxis staged) stream.log = split at pooled
  obtain ⟨pool, log⟩ := split
  dsimp only at pooled
  subst pooled
  exact ⟨log, _, _, rfl⟩

/-- A run that succeeds went through the stages. -/
theorem run_course [Candidate C] {self : Engine F C} {candidates : List C} {outcome : Outcome F C}
    (ran : self.run D candidates = .ok outcome) : Nonempty (Course D self candidates outcome) := by
  have valid : self.validate = .ok () := by
    rw [run] at ran
    cases checked : self.validate with
    | error error =>
        rw [checked] at ran
        cases ran
    | ok _ => rfl
  obtain ⟨key, resolved⟩ := resolveAdmission_ok valid
  obtain ⟨stream, finished⟩ := run_eq_finish (D := D) valid resolved candidates
  rw [finished] at ran
  cases collected : self.collectExpensive ((self.shortlist key candidates).map (·.candidate))
      self.scorers.zipIdx with
  | error error =>
      rw [finish, scoreExpensive, collected] at ran
      cases ran
  | ok axes =>
      obtain ⟨log, size, trace, selects⟩ := finish_eq_select (D := D) collected key stream
      rw [selects] at ran
      generalize pooled : self.poolFrom (axes.foldl absorbAxis (self.shortlist key candidates)) =
        pool at ran
      cases selected : (self.selector D pool).run pool with
      | error error =>
          rw [selected] at ran
          cases ran
      | ok chosen =>
          rw [selected] at ran
          dsimp only [Except.mapError, Except.bind] at ran
          rw [assemble_eq (nodup_selected selected)] at ran
          cases ran
          exact ⟨⟨key, valid, resolved, axes, collected, pool, pooled.symm, chosen, selected, rfl, rfl,
            rfl⟩⟩

/-- A run whose selection succeeds, succeeds. -/
theorem run_of_selected [Candidate C] {self : Engine F C} {candidates : List C}
    {key : AdmissionKey} {axes : List (Nat × List (Option F))} {pool : Pool F C}
    {chosen : Chosen F pool.length} (valid : self.validate = .ok ())
    (resolved : self.resolveAdmission = .ok key)
    (collected : self.collectExpensive ((self.shortlist key candidates).map (·.candidate))
      self.scorers.zipIdx = .ok axes)
    (pooled : self.poolFrom (axes.foldl absorbAxis (self.shortlist key candidates)) = pool)
    (selected : (self.selector D pool).run pool = .ok chosen) :
    ∃ outcome, self.run D candidates = .ok outcome ∧
      outcome.ranked = (chosen.selected.map pool.get).zipIdx.map fun (entry, rank) =>
        self.rankedOf entry rank := by
  obtain ⟨stream, finished⟩ := run_eq_finish (D := D) valid resolved candidates
  obtain ⟨log, size, trace, selects⟩ := finish_eq_select (D := D) collected key stream
  rw [pooled, selected] at selects
  dsimp only [Except.mapError, Except.bind] at selects
  rw [assemble_eq (nodup_selected selected)] at selects
  exact ⟨_, finished.trans selects, rfl⟩

end AiCoreStack.Ranking.Engine
