import AiCoreStack.Ranking.Conservation

/-!
# Arrival order

The first stage leaves the best candidates of the stream, and how many it rejected for which
reason, whatever the order in which they came.  The identifier decides every tie, so that the
stages behind it start from the same list.
-/

namespace AiCoreStack.Ranking

open Foundation

open scoped List

variable {F C : Type} [Scalar F]

/-! ## Counts -/

instance : RightCommutative RejectCounts.record where
  right_comm counts first second := by
    cases first <;> cases second <;> rfl

namespace Engine

variable (self : Engine F C) [Candidate C]

/-- The candidates that come through the cheap scorers. -/
def stagedOf (candidates : List C) : List (Staged F C) :=
  candidates.filterMap fun candidate => (self.classify candidate).toOption

/-- Why the other ones do not. -/
def reasonsOf (candidates : List C) : List RejectReason :=
  candidates.filterMap fun candidate =>
    match self.classify candidate with
    | .error reason => some reason
    | .ok _ => none

/-- What the first stage keeps, and what it gives back, of the staged candidates. -/
def topOf (key : AdmissionKey) (candidates : List C) : List (Staged F C) × List (Staged F C) :=
  TopList.run (self.stagedCmp key) self.poolCapacity (self.stagedOf candidates)

variable {self} in
/-- A candidate that is not staged leaves its reason. -/
theorem snoc_of_error {candidate : C} {reason : RejectReason}
    (classified : self.classify candidate = .error reason) (candidates : List C) :
    self.stagedOf (candidates ++ [candidate]) = self.stagedOf candidates ∧
      self.reasonsOf (candidates ++ [candidate]) = self.reasonsOf candidates ++ [reason] := by
  constructor
  · simp [stagedOf, classified, Except.toOption]
  · simp [reasonsOf, classified]

variable {self} in
/-- A candidate that is staged comes behind the others. -/
theorem snoc_of_ok {candidate : C} {passed : Staged F C}
    (classified : self.classify candidate = .ok passed) (candidates : List C) :
    self.stagedOf (candidates ++ [candidate]) = self.stagedOf candidates ++ [passed] ∧
      self.reasonsOf (candidates ++ [candidate]) = self.reasonsOf candidates := by
  constructor
  · simp [stagedOf, classified, Except.toOption]
  · simp [reasonsOf, classified]

theorem firstStage_eq (key : AdmissionKey) (candidates : List C) :
    (self.firstStage key candidates).1 = (self.topOf key candidates).1 ∧
      (self.firstStage key candidates).2.counts =
        (self.reasonsOf candidates ++
          List.replicate (self.topOf key candidates).2.length RejectReason.outOfPool).foldl
          RejectCounts.record {} := by
  induction candidates using List.reverseRecOn with
  | nil => exact ⟨rfl, rfl⟩
  | append_singleton candidates candidate ih =>
      obtain ⟨left, counts⟩ := ih
      rw [firstStage_snoc, intake]
      cases classified : self.classify candidate with
      | error reason =>
          obtain ⟨staged, reasons⟩ := snoc_of_error classified candidates
          have kept : self.topOf key (candidates ++ [candidate]) = self.topOf key candidates := by
            rw [topOf, staged, topOf]
          rw [kept, reasons]
          refine ⟨left, ?_⟩
          generalize List.replicate (self.topOf key candidates).2.length RejectReason.outOfPool =
            dropped at counts ⊢
          have moved : self.reasonsOf candidates ++ [reason] ++ dropped ~
              self.reasonsOf candidates ++ dropped ++ [reason] := by
            rw [List.append_assoc, List.append_assoc]
            exact List.perm_append_comm.append_left _
          rw [moved.foldl_eq, List.foldl_append, ← counts]
          rfl
      | ok passed =>
          obtain ⟨staged, reasons⟩ := snoc_of_ok classified candidates
          have kept := TopList.run_snoc (self.stagedCmp key) self.poolCapacity
            (self.stagedOf candidates) passed
          rw [← topOf, ← left] at kept
          rw [topOf, staged, kept, reasons]
          refine ⟨rfl, ?_⟩
          dsimp only
          cases (TopList.offer (self.stagedCmp key) self.poolCapacity
              (self.firstStage key candidates).1 passed).2 with
          | none => simpa [recordDropped] using counts
          | some lost =>
              rw [Option.toList_some, List.length_append, List.length_singleton,
                List.replicate_succ', ← List.append_assoc, List.foldl_append, ← counts]
              rfl

variable [Std.TransCmp (Scalar.totalCmp : F → F → Ordering)]

omit [Candidate C] in
/-- The comparison of staged candidates is an order. -/
theorem transCmp_stagedCmp (key : AdmissionKey) : Std.TransCmp (self.stagedCmp key) := by
  have keys := TopList.transCmp_on (Scalar.totalCmp : F → F → Ordering)
    fun staged : Staged F C => self.admissionValue key staged.scores
  have ids := TopList.transCmp_on CandidateId.cmp fun staged : Staged F C => staged.id
  have flipped := TopList.transCmp_flip fun left right : Staged F C => left.id.cmp right.id
  exact inferInstanceAs (Std.TransCmp (compareLex
    (fun left right : Staged F C => Scalar.totalCmp (self.admissionValue key left.scores)
      (self.admissionValue key right.scores)) fun left right => right.id.cmp left.id))

omit [Std.TransCmp (Scalar.totalCmp : F → F → Ordering)] in
/-- Staged candidates that compare equal are the same when identifiers are distinct. -/
theorem stagedOf_distinct (key : AdmissionKey) {candidates : List C}
    (distinct : (candidates.map Candidate.id).Nodup) :
    ∀ a ∈ self.stagedOf candidates, ∀ b ∈ self.stagedOf candidates,
      self.stagedCmp key a b = .eq → a = b := by
  intro a inA b inB equal
  obtain ⟨first, inFirst, madeA⟩ := List.mem_filterMap.mp inA
  obtain ⟨second, inSecond, madeB⟩ := List.mem_filterMap.mp inB
  have ids : b.id = a.id := CandidateId.eq_of_cmp (Ordering.then_eq_eq.mp equal).2
  have known {candidate : C} {staged : Staged F C}
      (made : (self.classify candidate).toOption = some staged) :
      staged.id = Candidate.id candidate := by
    cases classified : self.classify candidate with
    | error reason =>
        rw [classified] at made
        cases made
    | ok passed =>
        rw [classified] at made
        cases made
        obtain ⟨scores, -, rfl⟩ := classify_eq_ok classified
        rfl
  have same : first = second := by
    apply List.inj_on_of_nodup_map distinct inFirst inSecond
    rw [← known madeA, ← known madeB, ids]
  subst same
  exact Option.some.inj (madeA.symm.trans madeB)

/-- The first stage leaves the same candidates and the same counts for every order of arrival. -/
theorem firstStage_perm (key : AdmissionKey) {candidates others : List C}
    (perm : candidates ~ others) (distinct : (candidates.map Candidate.id).Nodup) :
    (self.firstStage key others).1 = (self.firstStage key candidates).1 ∧
      (self.firstStage key others).2.counts = (self.firstStage key candidates).2.counts := by
  have lawful := self.transCmp_stagedCmp key
  have staged : self.stagedOf candidates ~ self.stagedOf others := perm.filterMap _
  have kept : (self.topOf key candidates).1 = (self.topOf key others).1 :=
    TopList.run_eq_of_perm (self.stagedOf_distinct key distinct) staged
  have dropped : (self.topOf key candidates).2.length = (self.topOf key others).2.length := by
    have first := (TopList.run_perm (self.stagedCmp key) self.poolCapacity
      (self.stagedOf candidates)).length_eq
    have second := (TopList.run_perm (self.stagedCmp key) self.poolCapacity
      (self.stagedOf others)).length_eq
    rw [List.length_append, ← topOf] at first second
    rw [kept] at first
    have sizes := staged.length_eq
    omega
  have reasons : self.reasonsOf candidates ~ self.reasonsOf others := perm.filterMap _
  rw [(self.firstStage_eq key others).1, (self.firstStage_eq key candidates).1,
    (self.firstStage_eq key others).2, (self.firstStage_eq key candidates).2, dropped]
  refine ⟨kept.symm, ?_⟩
  apply List.Perm.foldl_eq
  exact (reasons.append_right _).symm

variable (D : Type) [Analytic D] [Widens F D]

/-- The same candidates in another order give the same ranking, the same counts and the same
selection, or the same error. -/
theorem run_arrivalOrder {candidates others : List C} (perm : candidates.Perm others)
    (distinct : (candidates.map Candidate.id).Nodup) :
    (self.run D others).map Outcome.essence = (self.run D candidates).map Outcome.essence :=
  self.run_essence self.rejections D (fun key => (self.firstStage_perm key perm distinct).1)
    fun key => (self.firstStage_perm key perm distinct).2

end Engine

/-! ## Three candidates for two places -/

instance : Std.TransCmp (Scalar.totalCmp : Exact → Exact → Ordering) :=
  have _places := TopList.transCmp_on (compare : ℤ → ℤ → Ordering) Exact.place
  have _parts := TopList.transCmp_on (compare : ℚ → ℚ → Ordering) Exact.finitePart
  inferInstanceAs (Std.TransCmp (compareLex
    (fun left right : Exact => compare left.place right.place)
    fun left right => compare left.finitePart right.finitePart))

namespace Engine

/-- Double precision for a fixed budget, which computes nothing with it. -/
instance exactAnalytic : Analytic Exact where
  powf base _ := base
  ln value := value
  abs value := Exact.max value value.neg

instance exactWidens : Widens Exact Exact where
  widen value := value
  narrow value := value

/-- Candidates are their own identifiers. -/
instance numbered : Candidate UInt64 where
  id := .num

/-- Two of the candidates that are scored by their last bit, with a pool of two. -/
def parityEngine : Engine Exact UInt64 where
  scorers :=
    [{ id := "parity", scale := .unit, cost := .cheap
       score := fun n => some (Exact.fin (n % 2).toNat) }]
  unary := []
  setConstraints := []
  objective := none
  requirements := []
  cost := none
  fusion := .weightedSum []
  missing := .skip
  budget := .topK 2
  poolMultiplier := 1
  admission := none
  rejections := .keep
  threshold := none
  minFit := .fin 0
  batching := Batching.whole UInt64

theorem run_parityEngine :
    (parityEngine.run Exact [7, 4, 5, 3]).map Outcome.essence =
      (parityEngine.run Exact [3, 4, 5, 7]).map Outcome.essence :=
  run_arrivalOrder parityEngine Exact (by decide) (by decide)

end Engine

end AiCoreStack.Ranking
