import AiCoreStack.Ranking.AdmissionScore
import AiCoreStack.Ranking.ArrivalOrder

/-!
# Two stages or one

With cheap axes only, the first stage keeps candidates in the order in which the second one ranks
them.  What it drops comes behind all that is selected, however small the pool is.
-/

namespace AiCoreStack.Ranking

open Foundation Foundation.Greedy

/-! ## Beginnings of lists -/

section Beginnings

variable {α : Type} {items : List α}

/-- The first item beyond the beginning of a list. -/
theorem find?_beyond [DecidableEq α] (nodup : items.Nodup) (m : Nat) :
    items.find? (fun item => !(items.take m).contains item) = items[m]? := by
  have split := List.take_append_drop m items
  have apart : ∀ item ∈ items.drop m, item ∉ items.take m := by
    intro item inDrop inTake
    rw [← split] at nodup
    exact (List.nodup_append.mp nodup).2.2 item inTake item inDrop rfl
  have none : (items.take m).find? (fun item => !(items.take m).contains item) = none := by
    rw [List.find?_eq_none]
    intro item member
    simpa using member
  rw [← List.head?_drop]
  conv_lhs => rw [← split]
  rw [List.find?_append, split, none, Option.none_or]
  cases dropped : items.drop m with
  | nil => rfl
  | cons item rest =>
      have outside := apart item (dropped ▸ List.mem_cons_self)
      rw [List.find?_cons_of_pos (by simpa using outside), List.head?_cons]

/-- A filter that lets only a beginning through commutes with taking one. -/
theorem filter_take {p : α → Bool} (closed : items.Pairwise fun a b => p b = true → p a = true)
    (n : Nat) : (items.take n).filter p = (items.filter p).take n := by
  induction items generalizing n with
  | nil => simp
  | cons item rest ih =>
      obtain ⟨before, later⟩ := List.pairwise_cons.mp closed
      cases n with
      | zero => rfl
      | succ n =>
          rw [List.take_succ_cons]
          by_cases passes : p item = true
          · rw [List.filter_cons_of_pos passes, List.filter_cons_of_pos passes, ih later,
              List.take_succ_cons]
          · have nothing : rest.filter p = [] := by
              rw [List.filter_eq_nil_iff]
              intro other member passed
              exact passes (before other member passed)
            rw [List.filter_cons_of_neg passes, List.filter_cons_of_neg passes, ih later, nothing,
              List.take_nil, List.take_nil]

end Beginnings

/-! ## The selection from a sorted pool -/

section Scan

variable {F ι : Type} [Scalar F] {eligible : ι → Bool} {key : ι → F}

theorem scanBest_fold_below {items : List ι} {i : ι} {b : F}
    (below : ∀ j ∈ items, Scalar.le (key j) b = true) :
    items.foldl (scanBest eligible key) (some (i, b)) = some (i, b) := by
  induction items with
  | nil => rfl
  | cons item rest ih =>
      have kept : scanBest eligible key (some (i, b)) item = some (i, b) := by
        rw [scanBest]
        split
        next => exact if_pos (below item List.mem_cons_self)
        next => rfl
      rw [List.foldl_cons, kept]
      exact ih fun j member => below j (List.mem_cons_of_mem item member)

/-- Among sorted items the best is the first. -/
theorem firstBest_sorted {items : List ι}
    (sorted : items.Pairwise fun a b => Scalar.le (key b) (key a) = true) :
    firstBest eligible key items = (items.find? eligible).map fun i => (i, key i) := by
  induction items with
  | nil => rfl
  | cons item rest ih =>
      obtain ⟨below, later⟩ := List.pairwise_cons.mp sorted
      rw [firstBest, List.foldl_cons]
      cases isEligible : eligible item with
      | true =>
          have taken : scanBest eligible key none item = some (item, key item) := by
            rw [scanBest, if_pos isEligible]
          rw [taken, scanBest_fold_below below, List.find?_cons_of_pos isEligible]
          rfl
      | false =>
          have skipped : scanBest eligible key none item = none := by
            rw [scanBest, if_neg (by simp [isEligible])]
          rw [skipped, List.find?_cons_of_neg (by simp [isEligible])]
          exact ih later

end Scan

namespace Selector

variable {F C : Type} [Scalar F] {self : Selector F C} {pool : Pool F C}

/-- Without constraints and an objective, `cardinality` takes the beginning of a sorted pool. -/
theorem cardinality_sorted (unconstrained : self.setConstraints = [])
    (noObjective : self.objective = none)
    (sorted : pool.Pairwise fun a b => Scalar.le b.fused a.fused = true) :
    (self.cardinality pool).selected =
      (List.finRange pool.length).take (self.k.getD pool.length) := by
  have positions : (List.finRange pool.length).Pairwise fun i j =>
      Scalar.le (pool.get j).fused (pool.get i).fused = true := by
    rw [← List.map_get_finRange pool] at sorted
    exact List.pairwise_map.mp sorted
  have pick (m : Nat) : self.countPick pool ((List.finRange pool.length).take m) =
      (List.finRange pool.length)[m]?.map fun i => (i, (pool.get i).fused) := by
    rw [countPick]
    simp only [admitsAll_nil unconstrained, Bool.and_true, gain, noObjective]
    rw [firstBest_sorted positions, find?_beyond (List.nodup_finRange _)]
  obtain ⟨run, size, ended⟩ := self.cardinality_run pool
    (fun before i => ∃ b, self.countPick pool before = some (i, b)) (fun _ _ b step => ⟨b, step⟩)
  generalize (self.cardinality pool).selected = picks at run size ended ⊢
  have beginning : picks = (List.finRange pool.length).take picks.length := by
    clear size ended
    induction run with
    | nil => rfl
    | @snoc before i _ step ih =>
        obtain ⟨b, picked⟩ := step
        rw [ih, pick] at picked
        obtain ⟨j, found, same⟩ := Option.map_eq_some_iff.mp picked
        cases same
        rw [List.length_append, List.length_singleton, List.take_add_one, found, ← ih]
        rfl
  have whole : (List.finRange pool.length).length = pool.length := List.length_finRange
  cases ended with
  | inl full =>
      rw [beginning, full, List.take_eq_take_iff, whole]
      omega
  | inr stuck =>
      rw [beginning, pick, Option.map_eq_none_iff, List.getElem?_eq_none_iff, whole] at stuck
      rw [beginning, List.take_eq_take_iff, whole]
      omega

theorem run_sorted (self : Selector F C) (unconstrained : self.setConstraints = [])
    (noObjective : self.objective = none) (noRequirements : self.requirements = [])
    (counted : self.tokenBudget = none)
    (sorted : pool.Pairwise fun a b => Scalar.le b.fused a.fused = true) :
    ∃ chosen, self.run pool = .ok chosen ∧
      chosen.selected = (List.finRange pool.length).take (self.k.getD pool.length) := by
  rw [run, counted]
  change ∃ chosen, Except.map _ (self.repairRequirements pool (self.cardinality pool).selected) = _ ∧ _
  rw [repairRequirements, noRequirements]
  exact ⟨_, rfl, cardinality_sorted unconstrained noObjective sorted⟩

end Selector

namespace Engine

/-! ## The stages of a run with cheap axes only -/

section Stages

variable {F C : Type}

/-- Nothing but cheap axes, a fusion of values, and the best `k`. -/
structure OneStage (engine : Engine F C) (k : UInt32) : Prop where
  cheap : ∀ m ∈ engine.scorers, m.cost = .cheap
  unranked : engine.fusion.isRrf = false
  noAdmission : engine.admission = none
  noConstraints : engine.setConstraints = []
  noObjective : engine.objective = none
  noRequirements : engine.requirements = []
  budget : engine.budget = .topK k

variable {self : Engine F C} {k : UInt32}

theorem OneStage.resolved (simple : self.OneStage k) :
    self.resolveAdmission = .ok .streamingFusion := by
  rw [resolveAdmission, simple.noAdmission]
  dsimp only
  rw [simple.unranked]
  rfl

/-- No batch is scored. -/
theorem OneStage.collected (simple : self.OneStage k) (refs : List C) :
    self.collectExpensive refs self.scorers.zipIdx = .ok [] := by
  have cheap : ∀ axis ∈ self.scorers.zipIdx, axis.1.cost = .cheap := by
    intro axis member
    exact simple.cheap axis.1 (List.fst_mem_of_mem_zipIdx member)
  generalize self.scorers.zipIdx = axes at cheap
  induction axes with
  | nil => rfl
  | cons axis rest ih =>
      obtain ⟨m, i⟩ := axis
      have isCheap : m.cost = .cheap := cheap (m, i) List.mem_cons_self
      rw [collectExpensive, isCheap, if_neg (by decide)]
      exact ih fun other member => cheap other (List.mem_cons_of_mem _ member)

/-- The pool holds as many candidates as are selected. -/
theorem OneStage.le_poolCapacity (simple : self.OneStage k) (positive : self.poolMultiplier ≠ 0) :
    k.toNat ≤ self.poolCapacity := by
  have small := UInt32.toNat_lt k
  have atLeast : 1 ≤ self.poolMultiplier.toNat := by
    apply Nat.one_le_iff_ne_zero.mpr
    intro zero
    exact positive (UInt32.toNat_inj.mp zero)
  have product := Nat.le_mul_of_pos_right k.toNat atLeast
  rw [poolCapacity, simple.budget]
  dsimp only
  omega

variable [Scalar F]

/-- Every cheap axis gives what its scorer says, and under the rejecting policy something. -/
theorem scores_of_scoreCheap {candidate : C} {scorers : List (Scorer F C)}
    {scores : List (Option F)} (cheap : ∀ m ∈ scorers, m.cost = .cheap)
    (scored : self.scoreCheap candidate scorers = .ok scores) :
    scores = scorers.map (fun m => sanitize (m.score candidate)) ∧
      (self.missing.isReject = true → ∀ v ∈ scores, v.isSome = true) := by
  induction scorers generalizing scores with
  | nil =>
      cases scored
      exact ⟨rfl, by simp⟩
  | cons m rest ih =>
      rw [scoreCheap, if_pos (cheap m List.mem_cons_self)] at scored
      split at scored
      next => cases scored
      next present =>
        cases later : self.scoreCheap candidate rest with
        | error id =>
            rw [later] at scored
            cases scored
        | ok others =>
            rw [later] at scored
            cases scored
            obtain ⟨same, given⟩ := ih (fun other member => cheap other (List.mem_cons_of_mem m member)) later
            refine ⟨by rw [List.map_cons, same], ?_⟩
            intro rejects v member
            rcases List.mem_cons.mp member with rfl | member
            · exact Option.isSome_iff_ne_none.mpr (by simpa [rejects] using present)
            · exact given rejects v member

/-- A candidate that comes through the cheap scorers lacks nothing. -/
theorem missingReason_of_classify [Candidate C] (cheap : ∀ m ∈ self.scorers, m.cost = .cheap)
    {candidate : C} {staged : Staged F C} (passed : self.classify candidate = .ok staged) :
    staged.scores = self.scorers.map (fun m => sanitize (m.score candidate)) ∧
      self.missingReason staged = none := by
  obtain ⟨scores, scored, rfl⟩ := classify_eq_ok passed
  obtain ⟨same, given⟩ := scores_of_scoreCheap cheap scored
  refine ⟨same, ?_⟩
  rw [missingReason, missingAxis]
  split
  next rejects =>
    rw [Option.map_eq_none_iff, List.findSome?_eq_none_iff]
    intro axis member
    have present := given rejects axis.2 (List.of_mem_zip member).2
    simp [Option.isSome_iff_ne_none.mp present]
  next => rfl

end Stages

/-! ## Pools of staged candidates -/

section Pools

variable {C : Type} {self : Engine Exact C} {k : UInt32}

/-- The order of a ranking, on staged candidates. -/
def rankCmp (self : Engine Exact C) (left right : Staged Exact C) : Ordering :=
  self.stagedCmp .streamingFusion right left

theorem transCmp_rankCmp (self : Engine Exact C) : Std.TransCmp self.rankCmp :=
  have := self.transCmp_stagedCmp .streamingFusion
  TopList.transCmp_flip (self.stagedCmp .streamingFusion)

/-- Candidates whose fused scores are rational and the keys of the first stage. -/
structure Agreeing (engine : Engine Exact C) (staged : List (Staged Exact C)) : Prop where
  same : ∀ s ∈ staged, (engine.entryOf s).fused = engine.admissionValue .streamingFusion s.scores
  rational : ∀ s ∈ staged, ∃ q : ℚ, (engine.entryOf s).fused = .fin q
  present : ∀ s ∈ staged, engine.missingReason s = none
  distinct : ∀ a ∈ staged, ∀ b ∈ staged, engine.rankCmp a b = .eq → a = b

theorem Agreeing.mono {staged others : List (Staged Exact C)} (agreeing : self.Agreeing staged)
    (within : ∀ s ∈ others, s ∈ staged) : self.Agreeing others where
  same s member := agreeing.same s (within s member)
  rational s member := agreeing.rational s (within s member)
  present s member := agreeing.present s (within s member)
  distinct a inA b inB := agreeing.distinct a (within a inA) b (within b inB)

/-- The pool keeps the order of the first stage, and drops what is below the threshold. -/
theorem Agreeing.poolFrom_eq (unranked : self.fusion.isRrf = false)
    {staged : List (Staged Exact C)} (agreeing : self.Agreeing staged) :
    self.poolFrom staged = ((staged.insertionSort (TopList.Below self.rankCmp)).map
      self.entryOf).filter fun e => (self.thresholdReason e).isNone := by
  have _lawful := self.transCmp_rankCmp
  have all : self.survivors staged = staged := by
    apply List.filter_eq_self.mpr
    intro s member
    rw [agreeing.present s member]
    rfl
  have ordered : ∀ a ∈ staged.filter ((fun e => (self.thresholdReason e).isNone) ∘ self.entryOf),
      ∀ b ∈ staged.filter ((fun e => (self.thresholdReason e).isNone) ∘ self.entryOf),
        TopList.Below self.rankCmp a b ↔ poolOrder (self.entryOf a) (self.entryOf b) := by
    intro a inA b inB
    rw [poolOrder, agreeing.same a (List.mem_filter.mp inA).1,
      agreeing.same b (List.mem_filter.mp inB).1]
    rfl
  rw [poolFrom, all, fuseAll_eq_map unranked, List.filter_map,
    ← List.map_insertionSort _ _ _ _ ordered, TopList.filter_insertionSort agreeing.distinct,
    List.filter_map]

/-- In the order of a ranking the fused scores fall. -/
theorem Agreeing.falling {staged : List (Staged Exact C)} (agreeing : self.Agreeing staged) :
    ((staged.insertionSort (TopList.Below self.rankCmp)).map self.entryOf).Pairwise
      fun a b => Scalar.le b.fused a.fused = true := by
  have _lawful := self.transCmp_rankCmp
  apply List.pairwise_map.mpr
  apply (List.pairwise_insertionSort (TopList.Below self.rankCmp) staged).imp_of_mem
  intro a b inA inB ordered
  rw [List.mem_insertionSort] at inA inB
  obtain ⟨p, fusedA⟩ := agreeing.rational a inA
  obtain ⟨q, fusedB⟩ := agreeing.rational b inB
  have keys : Scalar.totalCmp (self.entryOf b).fused (self.entryOf a).fused ≠ .gt := by
    intro above
    apply ordered
    rw [agreeing.same a inA, agreeing.same b inB] at above
    rw [rankCmp, stagedCmp, above]
    rfl
  rw [fusedA, fusedB] at keys ⊢
  exact Exact.le_of_totalCmp keys

/-- What is below the threshold comes last. -/
theorem threshold_closed {entries : Pool Exact C}
    (falling : entries.Pairwise fun a b => Scalar.le b.fused a.fused = true) :
    entries.Pairwise fun a b =>
      (self.thresholdReason b).isNone = true → (self.thresholdReason a).isNone = true := by
  apply falling.imp
  intro a b below passes
  rw [thresholdReason] at passes ⊢
  cases limit : self.threshold with
  | none => rfl
  | some threshold =>
      rw [limit, Option.any_some] at passes
      rw [Option.any_some]
      cases under : Scalar.lt a.fused threshold with
      | false => rfl
      | true =>
          rw [Exact.lt_of_le_of_lt below under] at passes
          cases passes

/-- The pool of the best candidates is the beginning of the pool of all. -/
theorem Agreeing.poolFrom_take (unranked : self.fusion.isRrf = false)
    {staged : List (Staged Exact C)} (agreeing : self.Agreeing staged) (capacity : Nat) :
    self.poolFrom ((staged.insertionSort (TopList.Below self.rankCmp)).take capacity) =
      (self.poolFrom staged).take capacity := by
  have _lawful := self.transCmp_rankCmp
  have best : self.Agreeing
      ((staged.insertionSort (TopList.Below self.rankCmp)).take capacity) :=
    agreeing.mono fun s member => (List.mem_insertionSort _).mp (List.mem_of_mem_take member)
  have sorted : ((staged.insertionSort (TopList.Below self.rankCmp)).take capacity).Pairwise
      (TopList.Below self.rankCmp) :=
    (List.pairwise_insertionSort _ staged).sublist (List.take_sublist _ _)
  rw [best.poolFrom_eq unranked, sorted.insertionSort_eq, agreeing.poolFrom_eq unranked,
    List.map_take, filter_take (threshold_closed agreeing.falling)]

theorem Agreeing.poolFrom_falling (unranked : self.fusion.isRrf = false)
    {staged : List (Staged Exact C)} (agreeing : self.Agreeing staged) :
    (self.poolFrom staged).Pairwise fun a b => Scalar.le b.fused a.fused = true := by
  rw [agreeing.poolFrom_eq unranked]
  exact agreeing.falling.filter _

end Pools

/-! ## Whole runs -/

section Runs

variable {C : Type} [Candidate C] {self : Engine Exact C} {k : UInt32} {candidates : List C}

/-- Some axis speaks about each candidate. -/
def Participates (self : Engine Exact C) (candidates : List C) : Prop :=
  ∀ candidate ∈ candidates, ∃ m ∈ self.scorers,
    (self.effective (sanitize (m.score candidate))).isSome = true

omit [Candidate C] in
theorem Rational.effective_fin (rational : self.Rational) {m : Scorer Exact C}
    (registered : m ∈ self.scorers) {candidate : C} {v : Exact}
    (taken : self.effective (sanitize (m.score candidate)) = some v) :
    v = .fin v.finitePart := by
  have isRational : ∃ q : ℚ, v = .fin q := by
    cases given : sanitize (m.score candidate) with
    | some value =>
        rw [given] at taken
        cases taken
        exact rational.scores m registered candidate v (Option.filter_eq_some_iff.mp given).1
    | none =>
        rw [given] at taken
        cases missing : self.missing with
        | impute value =>
            simp only [effective, missing, Option.some.injEq] at taken
            exact taken ▸ rational.imputed value missing
        | skip => simp [effective, missing] at taken
        | reject => simp [effective, missing] at taken
  obtain ⟨q, isFin⟩ := isRational
  rw [isFin]
  rfl

/-- What the first stage compares is what the second one sorts by. -/
theorem agreeing_stagedOf (simple : self.OneStage k) (rational : self.Rational)
    (distinct : (candidates.map Candidate.id).Nodup)
    (participates : self.Participates candidates) :
    self.Agreeing (self.stagedOf candidates) := by
  have spec (s : Staged Exact C) (member : s ∈ self.stagedOf candidates) :
      self.RationalAxes (self.scorers.zip s.scores) ∧
        self.parts (self.scorers.zip s.scores) ≠ [] ∧ self.missingReason s = none := by
    obtain ⟨candidate, given, made⟩ := List.mem_filterMap.mp member
    have passed : self.classify candidate = .ok s := by
      cases classified : self.classify candidate with
      | error reason =>
          rw [classified] at made
          cases made
      | ok staged =>
          rw [classified] at made
          cases made
          rfl
    obtain ⟨scores, present⟩ := missingReason_of_classify simple.cheap passed
    have axes : self.scorers.zip s.scores =
        self.scorers.map fun m => (m, sanitize (m.score candidate)) := by
      have zipped : (self.scorers.map id).zip
          (self.scorers.map fun m => sanitize (m.score candidate)) =
          self.scorers.map fun m => (id m, sanitize (m.score candidate)) := List.zip_map'
      rw [scores]
      rwa [List.map_id] at zipped
    refine ⟨?_, ?_, present⟩
    · intro axis inAxes v taken
      rw [axes] at inAxes
      obtain ⟨m, registered, rfl⟩ := List.mem_map.mp inAxes
      exact rational.effective_fin registered taken
    · obtain ⟨m, registered, speaks⟩ := participates candidate given
      rw [parts, axes, ne_eq, List.filterMap_eq_nil_iff]
      intro silent
      have nothing := silent (m, sanitize (m.score candidate)) (List.mem_map_of_mem registered)
      rw [Option.map_eq_none_iff] at nothing
      rw [nothing] at speaks
      cases speaks
  refine ⟨?_, ?_, fun s member => (spec s member).2.2, ?_⟩
  · intro s member
    obtain ⟨values, speaks, _⟩ := spec s member
    exact fused_eq_admission values rational simple.unranked simple.cheap speaks
  · intro s member
    exact fused_fin (spec s member).1 rational simple.unranked
  · intro a inA b inB equal
    exact (self.stagedOf_distinct .streamingFusion distinct b inB a inA equal).symm

variable (D : Type) [Analytic D] [Widens Exact D]

/-- A run ranks the best of all that it would rank in one stage. -/
theorem run_oneStage (simple : self.OneStage k) (rational : self.Rational)
    (valid : self.validate = .ok ()) (positive : self.poolMultiplier ≠ 0)
    (distinct : (candidates.map Candidate.id).Nodup)
    (participates : self.Participates candidates) :
    ∃ outcome, self.run D candidates = .ok outcome ∧
      outcome.ranked = ((self.poolFrom (self.stagedOf candidates)).take k.toNat).zipIdx.map
        fun (entry, rank) => self.rankedOf entry rank := by
  have lawful := self.transCmp_stagedCmp .streamingFusion
  have agreeing := agreeing_stagedOf simple rational distinct participates
  have shortlisted : self.shortlist .streamingFusion candidates =
      ((self.stagedOf candidates).insertionSort (TopList.Below self.rankCmp)).take
        self.poolCapacity := by
    rw [shortlist, (self.firstStage_eq .streamingFusion candidates).1]
    exact TopList.run_insertionSort self.poolCapacity
      (self.stagedOf_distinct .streamingFusion distinct)
  have pooled : self.poolFrom (self.shortlist .streamingFusion candidates) =
      (self.poolFrom (self.stagedOf candidates)).take self.poolCapacity := by
    rw [shortlisted, agreeing.poolFrom_take simple.unranked]
  have falling := (agreeing.poolFrom_falling simple.unranked).sublist
    (List.take_sublist self.poolCapacity _)
  generalize whole : (self.poolFrom (self.stagedOf candidates)).take self.poolCapacity = pool
    at pooled falling
  have counted : (self.selector D pool).tokenBudget = none := by
    rw [selector, simple.budget]
  have limit : (self.selector D pool).k = some k.toNat := by
    rw [selector, selectionK, resolveBudget, simple.budget]
    rfl
  obtain ⟨chosen, selected, beginning⟩ := (self.selector D pool).run_sorted simple.noConstraints
    simple.noObjective simple.noRequirements counted falling
  obtain ⟨outcome, ran, ranked⟩ :=
    run_of_selected valid simple.resolved (simple.collected _) pooled selected
  refine ⟨outcome, ran, ?_⟩
  rw [ranked, beginning, limit, Option.getD_some, List.map_take, List.map_get_finRange, ← whole,
    List.take_take, min_eq_left (simple.le_poolCapacity positive)]

/-! ### Other multipliers -/

/-- The same engine with another pool multiplier. -/
def withMultiplier (self : Engine Exact C) (multiplier : UInt32) : Engine Exact C :=
  { self with poolMultiplier := multiplier }

omit [Candidate C] in
theorem scoreCheap_withMultiplier (multiplier : UInt32) (candidate : C)
    (scorers : List (Scorer Exact C)) :
    (self.withMultiplier multiplier).scoreCheap candidate scorers =
      self.scoreCheap candidate scorers := by
  induction scorers with
  | nil => rfl
  | cons m rest ih =>
      rw [scoreCheap, scoreCheap, ih]
      rfl

theorem stagedOf_withMultiplier (multiplier : UInt32) :
    (self.withMultiplier multiplier).stagedOf candidates = self.stagedOf candidates := by
  have same (candidate : C) :
      (self.withMultiplier multiplier).classify candidate = self.classify candidate := by
    rw [classify, classify, scoreCheap_withMultiplier]
    rfl
  rw [stagedOf, stagedOf]
  simp only [same]

omit [Candidate C] in
theorem validate_withMultiplier (valid : self.validate = .ok ()) {multiplier : UInt32}
    (positive : multiplier ≠ 0) : (self.withMultiplier multiplier).validate = .ok () := by
  rw [validate] at valid
  split at valid
  next => cases valid
  next registered =>
    split at valid
    next => cases valid
    next nothing =>
      obtain ⟨first, others⟩ := Option.or_eq_none_iff.mp nothing
      obtain ⟨admission, rest⟩ := Option.or_eq_none_iff.mp others
      obtain ⟨_, budget⟩ := Option.or_eq_none_iff.mp rest
      have nonempty : (self.withMultiplier multiplier).scorers ≠ [] := registered
      have passes : ((checkScorers (self.withMultiplier multiplier).fusion []
            (self.withMultiplier multiplier).scorers).or
          (self.withMultiplier multiplier).checkWeights).or
          ((self.withMultiplier multiplier).checkAdmission.or
            ((if (self.withMultiplier multiplier).poolMultiplier = 0 then
              some Error.invalidPoolMultiplier else none).or
              (self.withMultiplier multiplier).checkBudget)) = none :=
        Option.or_eq_none_iff.mpr ⟨first, Option.or_eq_none_iff.mpr ⟨admission,
          Option.or_eq_none_iff.mpr ⟨if_neg positive, budget⟩⟩⟩
      rw [validate, if_neg nonempty, passes]

/-- With cheap axes, in exact arithmetic, every pool multiplier gives the same ranking: the best of
the whole input. -/
theorem run_twoStage (simple : self.OneStage k) (rational : self.Rational)
    (valid : self.validate = .ok ()) (distinct : (candidates.map Candidate.id).Nodup)
    (participates : self.Participates candidates) (multiplier : UInt32)
    (positive : multiplier ≠ 0) :
    ∃ outcome, ({ self with poolMultiplier := multiplier } : Engine Exact C).run D candidates =
        .ok outcome ∧
      outcome.ranked = ((self.poolFrom (self.stagedOf candidates)).take k.toNat).zipIdx.map
        fun (entry, rank) => self.rankedOf entry rank := by
  have same : (self.withMultiplier multiplier).OneStage k :=
    ⟨simple.cheap, simple.unranked, simple.noAdmission, simple.noConstraints, simple.noObjective,
      simple.noRequirements, simple.budget⟩
  obtain ⟨outcome, ran, ranked⟩ := run_oneStage D same
    ⟨rational.scores, rational.imputed, rational.weights⟩ (validate_withMultiplier valid positive)
    positive distinct participates
  rw [stagedOf_withMultiplier] at ranked
  exact ⟨outcome, ran, ranked⟩

end Runs

theorem parityEngine_rational : parityEngine.Rational where
  scores m registered candidate value given := by
    rw [List.mem_singleton.mp registered] at given
    exact ⟨_, (Option.some.inj given).symm⟩
  imputed value imputed := by
    cases imputed
  weights weights fusion entry member := by
    cases fusion
    cases member

/-- The best two of four by their last bit; the identifier breaks the ties. -/
theorem run_twoStage_parity :
    ∃ outcome, ({ parityEngine with poolMultiplier := 3 } : Engine Exact UInt64).run Exact
        [7, 4, 5, 3] = .ok outcome ∧
      outcome.ranked =
        ((parityEngine.poolFrom (parityEngine.stagedOf [7, 4, 5, 3])).take 2).zipIdx.map
          fun (entry, rank) => parityEngine.rankedOf entry rank :=
  run_twoStage Exact (k := 2) ⟨by decide, rfl, rfl, rfl, rfl, rfl, rfl⟩ parityEngine_rational rfl
    (by decide) (fun candidate _ => ⟨_, List.mem_singleton_self _, rfl⟩) 3 (by decide)

end Engine

end AiCoreStack.Ranking
