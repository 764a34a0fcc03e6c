import AiCoreStack.Ranking.Feasible
import AiCoreStack.Ranking.Intake

/-!
# Nothing disappears

Every stage of a run hands each candidate on or records its rejection, exactly once.  A step of
the conservation law is stated for candidates that are still under way together with the
rejections so far, and the stages are chained by it.
-/

namespace AiCoreStack.Ranking

open Foundation

open scoped List

variable {F C : Type}

/-! ## The conservation law -/

@[simp] theorem RejectCounts.total_record (counts : RejectCounts) (reason : RejectReason) :
    (counts.record reason).total = counts.total + 1 := by
  cases reason <;> simp only [record, total] <;> omega

/-- Between two points of a run, every candidate under way is still under way or was recorded. -/
structure Conserves (policy : Rejections) (before after : List C × RejectLog F C) : Prop where
  count : after.1.length + after.2.counts.total = before.1.length + before.2.counts.total
  kept : policy = .keep →
    after.1 ++ after.2.rejected.map Rejected.candidate ~
      before.1 ++ before.2.rejected.map Rejected.candidate

namespace Conserves

variable {policy : Rejections} {log : RejectLog F C}

theorem trans {first second third : List C × RejectLog F C}
    (left : Conserves policy first second) (right : Conserves policy second third) :
    Conserves policy first third where
  count := right.count.trans left.count
  kept keep := (right.kept keep).trans (left.kept keep)

theorem of_perm {before after : List C} (perm : after ~ before) :
    Conserves policy (before, log) (after, log) where
  count := by rw [perm.length_eq]
  kept _ := perm.append_right _

theorem cons {before after : List C} {later : RejectLog F C} (candidate : C)
    (conserves : Conserves policy (before, log) (after, later)) :
    Conserves policy (candidate :: before, log) (candidate :: after, later) where
  count := by
    have count := conserves.count
    simp only [List.length_cons] at count ⊢
    omega
  kept keep := (conserves.kept keep).cons candidate

theorem append_left {before after : List C} {later : RejectLog F C} (others : List C)
    (conserves : Conserves policy (before, log) (after, later)) :
    Conserves policy (others ++ before, log) (others ++ after, later) := by
  induction others with
  | nil => exact conserves
  | cons candidate others ih => exact ih.cons candidate

theorem record (candidate : C) (rest : List C) (reason : RejectReason) (fused : Option F) :
    Conserves policy (candidate :: rest, log) (rest, log.record policy candidate reason fused) where
  count := by
    simp only [RejectLog.record, RejectCounts.total_record, List.length_cons]
    omega
  kept keep := by
    subst keep
    simp only [RejectLog.record, if_true, List.map_append, List.map_singleton]
    rw [← List.append_assoc]
    exact List.perm_append_singleton candidate _

end Conserves

namespace Engine

variable [Scalar F] {self : Engine F C}

/-! ## The first stage -/

section FirstStage

variable [Candidate C]

theorem conserves_intake (key : AdmissionKey) (top : List (Staged F C)) (log : RejectLog F C)
    (candidate : C) :
    Conserves self.rejections (candidate :: top.map Staged.candidate, log)
      ((self.intake key (top, log) candidate).1.map Staged.candidate,
        (self.intake key (top, log) candidate).2) := by
  rw [intake]
  cases classified : self.classify candidate with
  | error reason => exact .record candidate _ reason none
  | ok staged =>
      obtain ⟨scores, -, made⟩ := classify_eq_ok classified
      have same : staged.candidate = candidate := by rw [made]
      have moved := (TopList.offer_perm (self.stagedCmp key) self.poolCapacity top staged).map
        Staged.candidate
      rw [List.map_cons, same] at moved
      dsimp only
      generalize TopList.offer (self.stagedCmp key) self.poolCapacity top staged = next at moved
      obtain ⟨after, dropped⟩ := next
      cases dropped with
      | none =>
          rw [Option.toList_none, List.append_nil] at moved
          exact .of_perm moved
      | some lost =>
          rw [Option.toList_some, List.map_append, List.map_singleton] at moved
          have leaving : lost.candidate :: after.map Staged.candidate ~
              candidate :: top.map Staged.candidate :=
            (List.perm_append_singleton lost.candidate _).symm.trans moved
          exact (Conserves.of_perm leaving).trans (.record lost.candidate _ .outOfPool none)

theorem conserves_foldl_intake (key : AdmissionKey) (candidates : List C) (top : List (Staged F C))
    (log : RejectLog F C) :
    Conserves self.rejections (candidates ++ top.map Staged.candidate, log)
      ((candidates.foldl (self.intake key) (top, log)).1.map Staged.candidate,
        (candidates.foldl (self.intake key) (top, log)).2) := by
  induction candidates generalizing top log with
  | nil => exact .of_perm (List.Perm.refl _)
  | cons candidate rest ih =>
      have ordered : rest ++ candidate :: top.map Staged.candidate ~
          candidate :: rest ++ top.map Staged.candidate := List.perm_middle
      exact (Conserves.of_perm ordered).trans
        (((conserves_intake key top log candidate).append_left rest).trans (ih _ _))

end FirstStage

/-! ## Sifting -/

section Sift

variable {α : Type} {policy : Rejections} {candidate : α → C}
variable (reason : α → Option (RejectReason × Option F))

omit [Scalar F] in
theorem conserves_sift (log : RejectLog F C) (items : List α) :
    Conserves policy (items.map candidate, log)
      ((sift policy candidate reason log items).1.map candidate,
        (sift policy candidate reason log items).2) := by
  induction items generalizing log with
  | nil => exact .of_perm (List.Perm.refl _)
  | cons item rest ih =>
      rw [sift]
      cases found : reason item with
      | none => exact (ih log).cons (candidate item)
      | some why => exact (Conserves.record _ _ why.1 why.2).trans (ih _)

omit [Scalar F] in
/-- What is left is what no reason rejects, whatever was recorded. -/
theorem sift_fst (log : RejectLog F C) (items : List α) :
    (sift policy candidate reason log items).1 = items.filter fun item => (reason item).isNone := by
  induction items generalizing log with
  | nil => rfl
  | cons item rest ih =>
      rw [sift, List.filter_cons]
      cases found : reason item with
      | none => simpa using ih log
      | some why => exact ih _

omit [Scalar F] in
/-- What is counted does not depend on what is kept. -/
theorem sift_counts (log : RejectLog F C) (items : List α) :
    (sift policy candidate reason log items).2.counts =
      (items.filterMap reason).foldl (fun counts why => counts.record why.1) log.counts := by
  induction items generalizing log with
  | nil => rfl
  | cons item rest ih =>
      rw [sift, List.filterMap_cons]
      cases found : reason item with
      | none => exact ih log
      | some why => exact ih _

end Sift

/-! ## The expensive scorers -/

section Expensive

omit [Scalar F]

theorem length_scoreBatches {m : Scorer F C} {batches : List (List C)} {values : List (Option F)}
    (scored : scoreBatches m batches = .ok values) : values.length = batches.flatten.length := by
  induction batches generalizing values with
  | nil =>
      cases scored
      rfl
  | cons part rest ih =>
      rw [scoreBatches] at scored
      obtain ⟨_, checked, mapped⟩ := bind_ok_iff.mp scored
      obtain ⟨later, scoredRest, rfl⟩ := map_ok_iff.mp mapped
      have same : part.length = (m.scoreBatch part).length := by
        rw [checkBatch] at checked
        split at checked
        next equal => exact equal
        next => cases checked
      rw [List.length_append, ih scoredRest, List.flatten_cons, List.length_append, same]

theorem length_of_collectExpensive {refs : List C} {axes : List (Scorer F C × Nat)}
    {collected : List (Nat × List (Option F))}
    (scored : self.collectExpensive refs axes = .ok collected) :
    ∀ axis ∈ collected, axis.2.length = refs.length := by
  induction axes generalizing collected with
  | nil =>
      cases scored
      simp
  | cons entry rest ih =>
      rw [collectExpensive] at scored
      split at scored
      next =>
        obtain ⟨values, batches, mapped⟩ := bind_ok_iff.mp scored
        obtain ⟨later, scoredRest, rfl⟩ := map_ok_iff.mp mapped
        have count := length_scoreBatches batches
        rw [self.batching.flatten_split] at count
        exact List.forall_mem_cons.mpr ⟨count, ih scoredRest⟩
      next => exact ih scored

variable [Scalar F]

theorem candidates_absorbAxis {staged : List (Staged F C)} {axis : Nat × List (Option F)}
    (full : axis.2.length = staged.length) :
    (absorbAxis staged axis).map Staged.candidate = staged.map Staged.candidate := by
  rw [absorbAxis, List.map_zipWith]
  apply List.ext_getElem
  · simp [full]
  · intro i left right
    simp

theorem absorb_foldl_fst (collected : List (Nat × List (Option F)))
    (pool : List (Staged F C) × List ScorerTrace) :
    (collected.foldl absorb pool).1 = collected.foldl absorbAxis pool.1 := by
  induction collected generalizing pool with
  | nil => rfl
  | cons axis rest ih => exact ih _

theorem candidates_absorb {collected : List (Nat × List (Option F))} {staged : List (Staged F C)}
    (full : ∀ axis ∈ collected, axis.2.length = staged.length) :
    (collected.foldl absorbAxis staged).map Staged.candidate = staged.map Staged.candidate := by
  induction collected generalizing staged with
  | nil => rfl
  | cons axis rest ih =>
      obtain ⟨first, others⟩ := List.forall_mem_cons.mp full
      have same := candidates_absorbAxis first
      have count := congrArg List.length same
      rw [List.length_map, List.length_map] at count
      rw [List.foldl_cons, ih fun other member => (others other member).trans count.symm, same]

/-- The expensive scorers write scores and leave the candidates as they are. -/
theorem candidates_scoreExpensive {staged after : List (Staged F C)} {stats later : List ScorerTrace}
    (scored : self.scoreExpensive staged stats = .ok (after, later)) :
    after.map Staged.candidate = staged.map Staged.candidate := by
  rw [scoreExpensive] at scored
  obtain ⟨collected, ran, absorbed⟩ := map_ok_iff.mp scored
  have first := absorb_foldl_fst collected (staged, stats)
  rw [absorbed] at first
  dsimp only at first
  have full := length_of_collectExpensive ran
  simp only [List.length_map] at full
  rw [first, candidates_absorb full]

end Expensive

/-! ## The pool -/

theorem candidates_fuseAll (staged : List (Staged F C)) :
    (self.fuseAll staged).map PoolEntry.candidate = staged.map Staged.candidate := by
  rw [fuseAll, List.map_map]
  apply List.ext_getElem
  · simp
  · intro i left right
    simp

/-- Why a staged candidate does not come into the pool. -/
def missingReason (self : Engine F C) (s : Staged F C) : Option (RejectReason × Option F) :=
  (self.missingAxis s).map fun id => (.notScored id, none)

/-- Why a fused candidate does not come into the pool. -/
def thresholdReason (self : Engine F C) (e : PoolEntry F C) : Option (RejectReason × Option F) :=
  if self.threshold.any fun threshold => Scalar.lt e.fused threshold then
    some (.belowThreshold, some e.fused) else none

/-- The candidates whose scores are there. -/
def survivors (self : Engine F C) (staged : List (Staged F C)) : List (Staged F C) :=
  staged.filter fun s => (self.missingReason s).isNone

theorem conserves_poolOf (staged : List (Staged F C)) (log : RejectLog F C) :
    Conserves self.rejections (staged.map Staged.candidate, log)
      ((self.poolOf staged log).1.map PoolEntry.candidate, (self.poolOf staged log).2) := by
  rw [poolOf]
  dsimp only
  refine Conserves.trans (conserves_sift self.missingReason log staged) ?_
  rw [← candidates_fuseAll]
  refine Conserves.trans (conserves_sift self.thresholdReason _ _) ?_
  exact .of_perm ((List.perm_insertionSort poolOrder _).map PoolEntry.candidate)

/-- The pool does not depend on what was recorded. -/
theorem poolOf_fst (staged : List (Staged F C)) (log : RejectLog F C) :
    (self.poolOf staged log).1 =
      ((self.fuseAll (self.survivors staged)).filter
        fun e => (self.thresholdReason e).isNone).insertionSort poolOrder := by
  rw [poolOf]
  dsimp only
  rw [sift_fst, sift_fst]
  rfl

theorem poolOf_counts (staged : List (Staged F C)) (log : RejectLog F C) :
    (self.poolOf staged log).2.counts =
      ((self.fuseAll (self.survivors staged)).filterMap self.thresholdReason).foldl
        (fun counts why => counts.record why.1)
        ((staged.filterMap self.missingReason).foldl (fun counts why => counts.record why.1)
          log.counts) := by
  rw [poolOf]
  dsimp only
  rw [sift_counts, sift_counts, sift_fst]
  rfl

/-! ## The selection -/

section Selection

variable {selector : Selector F C} {pool : Pool F C}

theorem nodup_greedySelection : (selector.greedySelection pool).Nodup := by
  rw [Selector.greedySelection]
  cases tokens : selector.tokenBudget with
  | none =>
      have run := (selector.cardinality_run pool (fun before i => i ∉ before)
        fun before i b pick => (Selector.countOpen_of_pick pick).1).1
      exact run.nodup fun before i fresh => fresh
  | some max =>
      have small : max.toUInt64.toNat < 2 ^ 32 := by simpa using UInt32.toNat_lt max
      have run := selector.packRun_bestBranch pool small
      rw [← Selector.knapsack_selected tokens] at run
      exact Greedy.Run.nodup (fun before i fits => fits.1.1) run

theorem nodup_repairLoop {reqIndex : Nat} {req : Requirement C} {fuel : Nat}
    {selected after : List (Fin pool.length)} {repaired flag : Bool} (nodup : selected.Nodup)
    (done : selector.repairLoop pool reqIndex req fuel selected repaired = .ok (after, flag)) :
    after.Nodup := by
  induction fuel generalizing selected repaired with
  | zero =>
      cases done
      exact nodup
  | succ fuel ih =>
      rw [Selector.repairLoop] at done
      split at done
      next =>
        cases done
        exact nodup
      next =>
        split at done
        next trial step =>
          obtain ⟨kept, donor, replaces, rfl, _⟩ := Selector.repairStep_replaces step
          have fresh : donor ∉ kept := fun member => replaces.fresh (replaces.sub.subset member)
          have joined : (kept ++ [donor]).Nodup :=
            (List.perm_append_singleton donor kept).nodup_iff.mpr
              (List.nodup_cons.mpr ⟨fresh, nodup.sublist replaces.sub⟩)
          exact ih joined done
        next => cases done

theorem nodup_repairFrom {reqIndex : Nat} {requirements : List (Requirement C)}
    {selected after : List (Fin pool.length)} {repaired flag : Bool} (nodup : selected.Nodup)
    (done : selector.repairFrom pool reqIndex selected repaired requirements = .ok (after, flag)) :
    after.Nodup := by
  induction requirements generalizing reqIndex selected repaired with
  | nil =>
      cases done
      exact nodup
  | cons req rest ih =>
      rw [Selector.repairFrom] at done
      obtain ⟨⟨middle, changed⟩, first, later⟩ := bind_ok_iff.mp done
      exact ih (nodup_repairLoop nodup first) later

/-- No position is selected twice. -/
theorem nodup_selected {chosen : Chosen F pool.length} (ran : selector.run pool = .ok chosen) :
    chosen.selected.Nodup :=
  nodup_repairFrom nodup_greedySelection (Selector.run_ok ran).1

end Selection

/-! ## Assembly -/

section Assembly

/-- Why an entry of the pool is not ranked. -/
def dismissReason {n : Nat} (chosen : Chosen F n) (entry : Fin n → PoolEntry F C) (i : Fin n) :
    Option (RejectReason × Option F) :=
  if chosen.selected.contains i then none
  else
    some (match chosen.blockedBy i with
      | some id => .setConstraint id
      | none => .outranked, some (entry i).fused)

omit [Scalar F] in
theorem dismiss_eq {n : Nat} (chosen : Chosen F n) (entry : Fin n → PoolEntry F C)
    (log : RejectLog F C) :
    self.dismiss chosen entry log =
      sift self.rejections (fun i => (entry i).candidate) (dismissReason chosen entry) log
        (List.finRange n) := rfl

omit [Scalar F] in
theorem kept_dismiss {n : Nat} (chosen : Chosen F n) (entry : Fin n → PoolEntry F C)
    (log : RejectLog F C) :
    (self.dismiss chosen entry log).1 =
      (List.finRange n).filter fun i => chosen.selected.contains i := by
  rw [dismiss_eq, sift_fst]
  apply List.filter_congr
  intro i _
  rw [dismissReason]
  split <;> simp_all

omit [Scalar F] in
/-- What was selected is still there to be taken. -/
theorem takeRanked_eq {α : Type} {n : Nat} (entry : Fin n → α) {kept selected : List (Fin n)}
    (perm : kept ~ selected) (nodup : selected.Nodup) :
    takeRanked (kept.map fun i => (i.val, entry i)) (selected.map Fin.val) =
      .ok (selected.map entry) := by
  induction selected generalizing kept with
  | nil => rfl
  | cons i rest ih =>
      have inKept : i ∈ kept := perm.mem_iff.mpr List.mem_cons_self
      obtain ⟨front, back, rfl, first⟩ := List.eq_append_cons_of_mem inKept
      have left : front ++ back ~ rest := (List.perm_middle.symm.trans perm).cons_inv
      have position : ((front ++ i :: back).map fun i => (i.val, entry i)).findIdx?
          (·.1 == i.val) = some front.length := by
        rw [List.findIdx?_eq_some_iff_getElem]
        refine ⟨by simp, by simp, ?_⟩
        intro j before
        have other : front[j] ≠ i := fun same => first (same ▸ List.getElem_mem before)
        rw [List.getElem_map, List.getElem_append_left before]
        simpa [Fin.val_inj] using other
      rw [List.map_cons, takeRanked, position]
      dsimp only [expect, Except.bind]
      have found : ((front ++ i :: back).map fun i => (i.val, entry i))[front.length]? =
          some (i.val, entry i) := by
        simp
      have erased : ((front ++ i :: back).map fun i => (i.val, entry i)).eraseIdx front.length =
          (front ++ back).map fun i => (i.val, entry i) := by
        simp [List.eraseIdx_append_of_length_le]
      rw [found, erased]
      dsimp only
      rw [ih left (List.nodup_cons.mp nodup).2]
      rfl

variable {pool : Pool F C} {chosen : Chosen F pool.length}

omit [Scalar F] in
theorem kept_perm (nodup : chosen.selected.Nodup) (log : RejectLog F C) :
    (self.dismiss chosen pool.get log).1 ~ chosen.selected := by
  rw [kept_dismiss]
  apply (List.perm_ext_iff_of_nodup ((List.nodup_finRange _).filter _) nodup).mpr
  intro i
  simp

/-- The assembly takes every selected entry and records every other one. -/
theorem assemble_eq (nodup : chosen.selected.Nodup) (log : RejectLog F C) (poolSize : UInt32)
    (trace : RunTrace F) :
    self.assemble pool chosen log poolSize trace = .ok
      { ranked := (chosen.selected.map pool.get).zipIdx.map fun (entry, rank) =>
          self.rankedOf entry rank
        rejected := (self.dismiss chosen pool.get log).2.rejected
        rejectedCounts := (self.dismiss chosen pool.get log).2.counts
        selection :=
          { exact := (self.guarantee chosen.repaired).1
            guarantee := (self.guarantee chosen.repaired).2
            poolSize := poolSize
            poolExhausted := chosen.poolExhausted
            cutMargin := chosen.cutMargin.filter Scalar.isFinite }
        trace := trace } := by
  rw [assemble]
  dsimp only
  rw [takeRanked_eq pool.get (kept_perm nodup log) nodup]
  rfl

omit [Scalar F] in
theorem candidates_ranked (entries : List (PoolEntry F C)) :
    (entries.zipIdx.map fun (entry, rank) => self.rankedOf entry rank).map Ranked.candidate =
      entries.map PoolEntry.candidate := by
  apply List.ext_getElem
  · simp
  · intro i left right
    simp [rankedOf]

omit [Scalar F] in
theorem conserves_dismiss (nodup : chosen.selected.Nodup) (log : RejectLog F C) :
    Conserves self.rejections (pool.map PoolEntry.candidate, log)
      ((chosen.selected.map pool.get).map PoolEntry.candidate,
        (self.dismiss chosen pool.get log).2) := by
  have positions : pool.map PoolEntry.candidate =
      (List.finRange pool.length).map fun i => (pool.get i).candidate := by
    apply List.ext_getElem
    · simp
    · simp
  have ranked : (chosen.selected.map pool.get).map PoolEntry.candidate =
      chosen.selected.map fun i => (pool.get i).candidate := by
    rw [List.map_map]
    rfl
  have sifted : Conserves self.rejections
      ((List.finRange pool.length).map fun i => (pool.get i).candidate, log)
      ((self.dismiss chosen pool.get log).1.map fun i => (pool.get i).candidate,
        (self.dismiss chosen pool.get log).2) :=
    conserves_sift (dismissReason chosen pool.get) log (List.finRange pool.length)
  rw [positions, ranked]
  exact sifted.trans (.of_perm ((kept_perm nodup log).symm.map _))

end Assembly

/-! ## Whole runs -/

/-- A configuration that passes has its admission scorer. -/
theorem resolveAdmission_ok (valid : self.validate = .ok ()) :
    ∃ key, self.resolveAdmission = .ok key := by
  rw [validate] at valid
  split at valid
  next => cases valid
  next =>
    split at valid
    next => cases valid
    next nothing =>
      have passed : self.checkAdmission = none :=
        (Option.or_eq_none_iff.mp (Option.or_eq_none_iff.mp nothing).2).1
      rw [checkAdmission] at passed
      rw [resolveAdmission]
      cases chosen : self.admission with
      | some id =>
          rw [chosen] at passed
          dsimp only at passed
          cases found : self.scorers.find? (·.id == id) with
          | none =>
              rw [found] at passed
              cases passed
          | some m =>
              have located : (self.position id).isSome := by
                have same := List.find?_some found
                rw [position, List.findIdx?_isSome]
                exact List.any_eq_true.mpr ⟨m, List.mem_of_find?_eq_some found, same⟩
              obtain ⟨i, known⟩ := Option.isSome_iff_exists.mp located
              dsimp only
              rw [known]
              exact ⟨.scorer i, rfl⟩
      | none =>
          rw [chosen] at passed
          dsimp only at passed ⊢
          split
          next rrf =>
            have cheap : (self.scorers.any (·.cost == .cheap)) = true := by
              simpa [rrf] using passed
            have located : self.cheapPosition.isSome := by
              rw [cheapPosition, List.findIdx?_isSome]
              exact cheap
            obtain ⟨i, known⟩ := Option.isSome_iff_exists.mp located
            rw [known]
            exact ⟨.scorer i, rfl⟩
          next => exact ⟨.streamingFusion, rfl⟩

section Runs

variable (D : Type) [Analytic D] [Widens F D]

/-- The second stage fails with an error of its own or conserves the candidates. -/
theorem finish_conserves (key : AdmissionKey) (stream : Stream F C) (staged : List (Staged F C)) :
    (∃ error, self.finish D key stream staged = .error (.error error)) ∨
      ∃ outcome, self.finish D key stream staged = .ok outcome ∧
        outcome.trace.inputCount = stream.inputCount ∧
        Conserves self.rejections (staged.map Staged.candidate, stream.log)
          (outcome.ranked.map Ranked.candidate, ⟨outcome.rejected, outcome.rejectedCounts⟩) := by
  rw [finish]
  cases scored : self.scoreExpensive staged stream.stats with
  | error error => exact .inl ⟨error, rfl⟩
  | ok result =>
      obtain ⟨after, stats⟩ := result
      have pooled : Conserves self.rejections _ _ := conserves_poolOf after stream.log
      rw [candidates_scoreExpensive scored] at pooled
      dsimp only [Except.mapError, Except.bind]
      generalize self.poolOf after stream.log = split at pooled
      obtain ⟨pool, log⟩ := split
      cases ran : (self.selector D pool).run pool with
      | error error => exact .inl ⟨error, rfl⟩
      | ok chosen =>
          have nodup := nodup_selected ran
          have dismissed : Conserves self.rejections _ _ := conserves_dismiss nodup log
          right
          dsimp only
          rw [assemble_eq nodup]
          refine ⟨_, rfl, rfl, ?_⟩
          dsimp only
          rw [candidates_ranked]
          exact pooled.trans dismissed

/-- A run fails with an error of its own or conserves the candidates. -/
theorem run_cases [Candidate C] (self : Engine F C) (candidates : List C) :
    (∃ error, self.run D candidates = .error (.error error)) ∨
      ∃ outcome, self.run D candidates = .ok outcome ∧
        outcome.trace.inputCount = candidates.length ∧
        Conserves self.rejections (candidates, {})
          (outcome.ranked.map Ranked.candidate, ⟨outcome.rejected, outcome.rejectedCounts⟩) := by
  rw [run]
  cases checked : self.validate with
  | error error => exact .inl ⟨error, rfl⟩
  | ok _ =>
      obtain ⟨key, resolved⟩ := resolveAdmission_ok checked
      obtain ⟨stream, streamed, collected, _, logged, counted⟩ := self.streamAll_eq key candidates
      dsimp only [Except.mapError, Except.bind]
      rw [resolved]
      dsimp only
      rw [streamed]
      dsimp only
      rw [collected]
      dsimp only
      have first : Conserves self.rejections (candidates ++ [], {}) _ :=
        conserves_foldl_intake key candidates [] {}
      rw [List.append_nil] at first
      rcases finish_conserves D key stream _ with failed | ⟨outcome, finished, count, conserves⟩
      · exact .inl failed
      · refine .inr ⟨outcome, finished, count.trans counted, ?_⟩
        rw [logged] at conserves
        exact first.trans ((Conserves.of_perm
          ((List.perm_insertionSort _ _).map Staged.candidate)).trans conserves)

end Runs

/-! ## What is kept of the rejections does not matter -/

/-- What a run says about the candidates, without the rejected ones and the trace. -/
def Outcome.essence (outcome : Outcome F C) : List (Ranked F C) × RejectCounts × Selection F :=
  (outcome.ranked, outcome.rejectedCounts, outcome.selection)

/-- The same engine with another retention policy. -/
def withRejections (self : Engine F C) (policy : Rejections) : Engine F C :=
  { self with rejections := policy }

section Retention

variable (self) (policy : Rejections)

omit [Scalar F] in
theorem collectExpensive_withRejections (refs : List C) (axes : List (Scorer F C × Nat)) :
    (self.withRejections policy).collectExpensive refs axes = self.collectExpensive refs axes := by
  induction axes with
  | nil => rfl
  | cons axis rest ih =>
      rw [collectExpensive, collectExpensive, ih]
      rfl

theorem poolOf_withRejections (staged : List (Staged F C)) {log other : RejectLog F C}
    (counts : other.counts = log.counts) :
    ((self.withRejections policy).poolOf staged other).1 = (self.poolOf staged log).1 ∧
      ((self.withRejections policy).poolOf staged other).2.counts =
        (self.poolOf staged log).2.counts := by
  rw [poolOf_fst, poolOf_fst, poolOf_counts, poolOf_counts, counts]
  exact ⟨rfl, rfl⟩

theorem assemble_withRejections {pool : Pool F C} {chosen : Chosen F pool.length}
    (nodup : chosen.selected.Nodup) {log other : RejectLog F C} (counts : other.counts = log.counts)
    (poolSize : UInt32) (trace trace' : RunTrace F) :
    ((self.withRejections policy).assemble pool chosen other poolSize trace').map Outcome.essence =
      (self.assemble pool chosen log poolSize trace).map Outcome.essence := by
  have same : ((self.withRejections policy).dismiss chosen pool.get other).2.counts =
      (self.dismiss chosen pool.get log).2.counts := by
    rw [dismiss_eq, dismiss_eq, sift_counts, sift_counts, counts]
  rw [assemble_eq nodup, assemble_eq nodup]
  dsimp only [Except.map, Outcome.essence]
  rw [same]
  rfl

variable (D : Type) [Analytic D] [Widens F D]

theorem finish_withRejections (key : AdmissionKey) {stream other : Stream F C}
    (counts : other.log.counts = stream.log.counts)
    (size : other.heap.heap.length = stream.heap.heap.length) (staged : List (Staged F C)) :
    ((self.withRejections policy).finish D key other staged).map Outcome.essence =
      (self.finish D key stream staged).map Outcome.essence := by
  have scorers : (self.withRejections policy).scorers = self.scorers := rfl
  rw [finish, finish, scoreExpensive, scoreExpensive, collectExpensive_withRejections, scorers]
  cases self.collectExpensive (staged.map (·.candidate)) self.scorers.zipIdx with
  | error error => rfl
  | ok collected =>
      dsimp only [Except.map, Except.mapError, Except.bind]
      rw [absorb_foldl_fst, absorb_foldl_fst]
      dsimp only
      obtain ⟨same, counted⟩ := self.poolOf_withRejections policy
        (collected.foldl absorbAxis staged) counts
      generalize (self.withRejections policy).poolOf (collected.foldl absorbAxis staged) other.log =
        after at same counted
      generalize self.poolOf (collected.foldl absorbAxis staged) stream.log = before at same counted
      obtain ⟨_, log⟩ := before
      obtain ⟨pool, log'⟩ := after
      dsimp only at same counted
      subst same
      have selector : (self.withRejections policy).selector D pool = self.selector D pool := rfl
      rw [selector]
      cases ran : (self.selector D pool).run pool with
      | error error => rfl
      | ok chosen =>
          have assembled := self.assemble_withRejections policy (nodup_selected ran) counted
          rw [size]
          exact assembled _ _ _

/-- What a run says depends on what the first stage leaves and counts. -/
theorem run_essence [Candidate C] {candidates others : List C}
    (left : ∀ key, ((self.withRejections policy).firstStage key others).1 =
      (self.firstStage key candidates).1)
    (counts : ∀ key, ((self.withRejections policy).firstStage key others).2.counts =
      (self.firstStage key candidates).2.counts) :
    ((self.withRejections policy).run D others).map Outcome.essence =
      (self.run D candidates).map Outcome.essence := by
  have checks : (self.withRejections policy).validate = self.validate := rfl
  have resolves : (self.withRejections policy).resolveAdmission = self.resolveAdmission := rfl
  rw [run, run, checks, resolves]
  cases self.validate with
  | error error => rfl
  | ok _ =>
      dsimp only [Except.mapError, Except.bind]
      cases self.resolveAdmission with
      | error error => rfl
      | ok key =>
          obtain ⟨stream, streamed, collected, size, logged, _⟩ := self.streamAll_eq key candidates
          obtain ⟨other, streamed', collected', size', logged', _⟩ :=
            (self.withRejections policy).streamAll_eq key others
          rw [left key] at collected' size'
          dsimp only
          rw [streamed, streamed']
          dsimp only
          rw [collected, collected']
          have counted : other.log.counts = stream.log.counts := by
            rw [logged, logged', counts key]
          exact self.finish_withRejections policy D key counted (size'.trans size.symm) _

theorem scoreCheap_withRejections (candidate : C) (scorers : List (Scorer F C)) :
    (self.withRejections policy).scoreCheap candidate scorers =
      self.scoreCheap candidate scorers := by
  induction scorers with
  | nil => rfl
  | cons m rest ih =>
      rw [scoreCheap, scoreCheap, ih]
      rfl

theorem firstStage_withRejections [Candidate C] (key : AdmissionKey) (candidates : List C) :
    ((self.withRejections policy).firstStage key candidates).1 =
        (self.firstStage key candidates).1 ∧
      ((self.withRejections policy).firstStage key candidates).2.counts =
        (self.firstStage key candidates).2.counts := by
  have classified (candidate : C) :
      (self.withRejections policy).classify candidate = self.classify candidate := by
    rw [classify, classify, scoreCheap_withRejections]
    rfl
  induction candidates using List.reverseRecOn with
  | nil => exact ⟨rfl, rfl⟩
  | append_singleton candidates candidate ih =>
      obtain ⟨left, counts⟩ := ih
      rw [firstStage_snoc, firstStage_snoc, intake, intake, classified]
      cases self.classify candidate with
      | error reason => exact ⟨left, congrArg (·.record reason) counts⟩
      | ok staged =>
          dsimp only
          rw [left]
          refine ⟨rfl, ?_⟩
          have ordered : (self.withRejections policy).stagedCmp key = self.stagedCmp key := rfl
          have sized : (self.withRejections policy).poolCapacity = self.poolCapacity := rfl
          rw [ordered, sized]
          cases (TopList.offer (self.stagedCmp key) self.poolCapacity
              (self.firstStage key candidates).1 staged).2 with
          | none => exact counts
          | some lost => exact congrArg (·.record .outOfPool) counts

end Retention

section Audit

variable (D : Type) [Analytic D] [Widens F D]

/-- No bookkeeping fails, and a run that succeeds has ranked or rejected every candidate exactly
once; the counts say how many, and nothing but the kept rejections depends on how many of them
are kept. -/
theorem run_conserves [Candidate C] (self : Engine F C) (candidates : List C) :
    self.run D candidates ≠ .error .panic ∧
      ∀ outcome, self.run D candidates = .ok outcome →
        outcome.trace.inputCount = candidates.length ∧
        outcome.ranked.length + outcome.rejectedCounts.total = outcome.trace.inputCount ∧
        (self.rejections = .keep →
          (outcome.ranked.map Ranked.candidate ++ outcome.rejected.map Rejected.candidate).Perm
            candidates) ∧
        ∀ policy, ∃ other, ({ self with rejections := policy } : Engine F C).run D candidates =
            .ok other ∧
          other.ranked = outcome.ranked ∧ other.rejectedCounts = outcome.rejectedCounts ∧
          other.selection = outcome.selection := by
  rcases run_cases D self candidates with ⟨error, failed⟩ | ⟨found, ran, count, conserves⟩
  · rw [failed]
    constructor
    · intro panicked
      cases panicked
    · intro outcome succeeded
      cases succeeded
  · rw [ran]
    constructor
    · intro panicked
      cases panicked
    · intro outcome succeeded
      cases succeeded
      refine ⟨count, ?_, ?_, ?_⟩
      · have total := conserves.count
        simp only [List.length_map] at total
        rw [total, count]
        rfl
      · intro keep
        simpa using conserves.kept keep
      · intro policy
        have same := self.run_essence policy D
          (fun key => (self.firstStage_withRejections policy key candidates).1)
          (fun key => (self.firstStage_withRejections policy key candidates).2)
        rw [ran] at same
        obtain ⟨other, ranOther, equal⟩ := map_ok_iff.mp same
        obtain ⟨ranked, rest⟩ := Prod.mk.inj equal
        obtain ⟨counted, selection⟩ := Prod.mk.inj rest
        exact ⟨other, ranOther, ranked, counted, selection⟩

end Audit

end Engine

end AiCoreStack.Ranking
