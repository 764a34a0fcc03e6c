import AiCoreStack.Ranking.Budget
import AiCoreStack.Ranking.Select

/-!
# The engine

A run streams the candidates through the unary constraints and the cheap scorers
into a bounded heap over a slab of staged candidates.  The pool that is left goes
through the expensive scorers, the fusion, the threshold and the selection.
Whatever drops out is recorded with a reason.  Elapsed times are left out.
-/

namespace AiCoreStack.Ranking

open Foundation

/-! ## Evidence -/

/-- Why a candidate dropped out. -/
inductive RejectReason where
  | notScored (scorer : ScorerId)
  | unaryConstraint (constraint : ConstraintId)
  | setConstraint (constraint : ConstraintId)
  | belowThreshold
  | outranked
  | outOfPool
  deriving DecidableEq, Repr

/-- Numbers of rejections by reason, kept in `u64`. -/
structure RejectCounts where
  notScored : Nat := 0
  unaryConstraint : Nat := 0
  setConstraint : Nat := 0
  belowThreshold : Nat := 0
  outranked : Nat := 0
  outOfPool : Nat := 0
  deriving DecidableEq, Repr

namespace RejectCounts

def record (counts : RejectCounts) : RejectReason → RejectCounts
  | .notScored _ => { counts with notScored := counts.notScored + 1 }
  | .unaryConstraint _ => { counts with unaryConstraint := counts.unaryConstraint + 1 }
  | .setConstraint _ => { counts with setConstraint := counts.setConstraint + 1 }
  | .belowThreshold => { counts with belowThreshold := counts.belowThreshold + 1 }
  | .outranked => { counts with outranked := counts.outranked + 1 }
  | .outOfPool => { counts with outOfPool := counts.outOfPool + 1 }

def total (counts : RejectCounts) : Nat :=
  counts.notScored + counts.unaryConstraint + counts.setConstraint + counts.belowThreshold +
    counts.outranked + counts.outOfPool

end RejectCounts

/-- A candidate that dropped out, with its fused score if it had one. -/
structure Rejected (F C : Type) where
  candidate : C
  reason : RejectReason
  fused : Option F

/-- How many rejected candidates are kept. -/
inductive Rejections where
  | keep
  | count
  | sample (n : Nat)
  deriving DecidableEq, Repr

/-- A selected candidate with its evidence. -/
structure Ranked (F C : Type) where
  candidate : C
  rank : UInt32
  fused : F
  scores : ScoreSet F
  fusion : FusionTrace F
  constraints : List ConstraintId

/-- What is said about a selection. -/
structure Selection (F : Type) where
  exact : Bool
  guarantee : Option F
  poolSize : UInt32
  poolExhausted : Bool
  cutMargin : Option F

/-- How often a scorer was called and gave no value. -/
structure ScorerTrace where
  scorer : ScorerId
  calls : Nat
  missing : Nat
  deriving DecidableEq, Repr

structure RunTrace (F : Type) where
  inputCount : Nat
  poolCapacity : UInt32
  admissionScorer : Option ScorerId
  scorers : List ScorerTrace
  budget : Option (BudgetTrace F)

structure Outcome (F C : Type) where
  ranked : List (Ranked F C)
  rejected : List (Rejected F C)
  rejectedCounts : RejectCounts
  selection : Selection F
  trace : RunTrace F

/-- The rejections of a run so far. -/
structure RejectLog (F C : Type) where
  rejected : List (Rejected F C) := []
  counts : RejectCounts := {}

/-- `Engine::record`. -/
def RejectLog.record {F C : Type} (policy : Rejections) (log : RejectLog F C) (candidate : C)
    (reason : RejectReason) (fused : Option F) : RejectLog F C where
  counts := log.counts.record reason
  rejected :=
    if (match policy with
      | .keep => true
      | .count => false
      | .sample n => log.rejected.length < n) then
      log.rejected ++ [⟨candidate, reason, fused⟩]
    else log.rejected

/-! ## Configuration -/

/-- How the pool is cut into batches for the expensive scorers: one batch in the
default build, chunks in the parallel one. -/
structure Batching (C : Type) where
  split : List C → List (List C)
  flatten_split : ∀ candidates, (split candidates).flatten = candidates

/-- The default build. -/
def Batching.whole (C : Type) : Batching C where
  split candidates := [candidates]
  flatten_split := by simp

structure Engine (F C : Type) where
  scorers : List (Scorer F C)
  unary : List (UnaryConstraint C)
  setConstraints : List (SetConstraint C)
  objective : Option (SetObjective F C)
  requirements : List (Requirement C)
  cost : Option (C → UInt32)
  fusion : Fusion F
  missing : MissingPolicy F
  budget : Budget F
  poolMultiplier : UInt32
  admission : Option ScorerId
  rejections : Rejections
  threshold : Option F
  minFit : F
  batching : Batching C

/-- What the first stage cuts by. -/
inductive AdmissionKey where
  | scorer (index : Nat)
  | streamingFusion

/-- A candidate in the slab. -/
structure Staged (F C : Type) where
  candidate : C
  id : CandidateId
  scores : List (Option F)

namespace Engine

variable {F C : Type} [Scalar F] (self : Engine F C)

/-! ### Validation -/

def checkScorers (fusion : Fusion F) : List ScorerId → List (Scorer F C) → Option Error
  | _, [] => none
  | earlier, m :: rest =>
      if m.id ∈ earlier then some (.duplicateScorer m.id)
      else if fusion.accepts m.scale = false then
        some (.incompatibleScale m.id m.scale fusion.name)
      else checkScorers fusion (earlier ++ [m.id]) rest

def checkWeights : Option Error :=
  match self.fusion with
  | .weightedSum weights =>
      (weights.find? fun (id, _) => !self.scorers.any (·.id == id)).map fun (id, _) =>
        .unknownWeight id
  | _ => none

/-- The position of a scorer. -/
def position (id : ScorerId) : Option Nat := self.scorers.findIdx? (·.id == id)

def cheapPosition : Option Nat := self.scorers.findIdx? (·.cost == .cheap)

def checkAdmission : Option Error :=
  match self.admission with
  | some id =>
      match self.scorers.find? (·.id == id) with
      | none => some (.unknownAdmissionScorer id)
      | some m => if m.cost = .expensive then some (.expensiveAdmissionScorer id) else none
  | none =>
      if self.fusion.isRrf && !self.scorers.any (·.cost == .cheap) then some .noAdmissionScorer
      else none

def checkBudget : Option Error :=
  match self.budget with
  | .topK k => if k = 0 then some (.invalidBudget "TopK 는 1 이상이어야 한다") else none
  | .tailMass epsilon _ =>
      if Scalar.le (Scalar.lit 0) epsilon && Scalar.lt epsilon (Scalar.lit 1) then none
      else some (.invalidBudget "epsilon 은 0 이상 1 미만이어야 한다")
  | .tokens _ =>
      if self.cost.isNone then
        some (.invalidBudget "Tokens 예산은 Engine::cost 로 후보별 비용을 함께 받아야 한다")
      else none

def validate : Except Error Unit :=
  if self.scorers = [] then .error .noScorers
  else
    match ((checkScorers self.fusion [] self.scorers).or self.checkWeights).or
        (self.checkAdmission.or
          ((if self.poolMultiplier = 0 then some .invalidPoolMultiplier else none).or
            self.checkBudget)) with
    | some error => .error error
    | none => .ok ()

/-! ### First stage -/

/-- `usize`, with a saturating product. -/
def poolCapacity : Nat :=
  let k := match self.budget with
    | .topK k => k.toNat
    | .tailMass _ fallbackK => max fallbackK.toNat 1
    | .tokens max => max.toNat
  max (min (k * self.poolMultiplier.toNat) (2 ^ 64 - 1)) 1

def resolveAdmission : Except Failure AdmissionKey :=
  match self.admission with
  | some id => (expect (self.position id)).map .scorer
  | none =>
      if self.fusion.isRrf then (expect self.cheapPosition).map .scorer
      else .ok .streamingFusion

def admissionScorer : AdmissionKey → Option ScorerId
  | .scorer i => self.scorers[i]?.map (·.id)
  | .streamingFusion => none

/-- NaN counts as missing. -/
def sanitize (value : Option F) : Option F := value.filter fun x => !Scalar.isNan x

/-- The value of an axis after the missing policy. -/
def effective (raw : Option F) : Option F :=
  match raw, self.missing with
  | some value, _ => some value
  | none, .impute value => some value
  | none, _ => none

def weightOf (id : ScorerId) : F :=
  match self.fusion with
  | .weightedSum weights =>
      if weights.isEmpty then Scalar.lit 1
      else (weights.find? fun (k, _) => k == id).elim (Scalar.lit 0) Prod.snd
  | _ => Scalar.lit 1

/-- The sums of the streaming fusion: weighted values, weights, largest value, and
the number of axes used. -/
structure StreamSums (F : Type) where
  sum : F
  weightSum : F
  max : F
  used : Nat

/-- One axis of the streaming fusion. -/
def addAxis (sums : StreamSums F) (axis : Scorer F C × Option F) : StreamSums F :=
  if axis.1.cost = .cheap then
    match self.effective axis.2 with
    | some v =>
        { sum := Scalar.add sums.sum (Scalar.mul (self.weightOf axis.1.id) v)
          weightSum := Scalar.add sums.weightSum (self.weightOf axis.1.id)
          max := Scalar.max sums.max v
          used := sums.used + 1 }
    | none => sums
  else sums

/-- The key by which the first stage keeps a candidate. -/
def admissionValue (key : AdmissionKey) (scores : List (Option F)) : F :=
  match key with
  | .scorer i => (self.effective (scores.getD i none)).getD Scalar.negInfinity
  | .streamingFusion =>
      let sums := (self.scorers.zip scores).foldl self.addAxis
        ⟨Scalar.lit 0, Scalar.lit 0, Scalar.negInfinity, 0⟩
      if sums.used = 0 then Scalar.negInfinity
      else
        match self.fusion with
        | .max => sums.max
        | _ =>
            if Scalar.lt (Scalar.lit 0) sums.weightSum then Scalar.div sums.sum sums.weightSum
            else Scalar.lit 0

/-- The first unary constraint that a candidate fails. -/
def failedUnary (candidate : C) : Option ConstraintId :=
  (self.unary.find? fun c => !c.allows candidate).map (·.id)

def ScorerTrace.called (trace : ScorerTrace) (value : Option F) : ScorerTrace :=
  { trace with
    calls := trace.calls + 1
    missing := trace.missing + if value.isNone then 1 else 0 }

/-- Run the cheap scorers.  The result is a score for every axis, or the axis whose
missing value rejects the candidate. -/
def scoreCheap (candidate : C) : List (Scorer F C) → Except ScorerId (List (Option F))
  | [] => .ok []
  | m :: rest =>
      if m.cost = .cheap then
        if (sanitize (m.score candidate)).isNone && self.missing.isReject then .error m.id
        else (scoreCheap candidate rest).map (sanitize (m.score candidate) :: ·)
      else (scoreCheap candidate rest).map (none :: ·)

/-- What the cheap scorers leave in the records. -/
def traceCheap (candidate : C) : List (Scorer F C) → List ScorerTrace → List ScorerTrace
  | m :: rest, trace :: traces =>
      if m.cost = .cheap then
        if (sanitize (m.score candidate)).isNone && self.missing.isReject then
          ScorerTrace.called trace (sanitize (m.score candidate)) :: traces
        else
          ScorerTrace.called trace (sanitize (m.score candidate)) ::
            traceCheap candidate rest traces
      else trace :: traceCheap candidate rest traces
  | _, traces => traces

/-- State of the first stage.  `free` is a stack. -/
structure Stream (F C : Type) where
  heap : BoundedHeap F
  slab : List (Option (Staged F C)) := []
  free : List Nat := []
  log : RejectLog F C := {}
  stats : List ScorerTrace
  inputCount : Nat := 0

/-- Put a candidate into a free place of the slab, or at its end. -/
def place (staged : Staged F C) (slab : List (Option (Staged F C))) (free : List Nat) :
    Except Failure (List (Option (Staged F C)) × List Nat × Nat) :=
  match free with
  | i :: rest => if i < slab.length then .ok (slab.set i (some staged), rest, i) else .error .panic
  | [] => .ok (slab ++ [some staged], [], slab.length)

/-- `slab[i].take().expect(..)`. -/
def take (slab : List (Option (Staged F C))) (i : Nat) :
    Except Failure (Staged F C × List (Option (Staged F C))) :=
  (expect slab[i]?.join).map fun staged => (staged, slab.set i none)

/-- Take a candidate that lost its place out of the slab. -/
def expel (stream : Stream F C) (i : Nat) : Except Failure (Stream F C) :=
  (take stream.slab i).map fun (staged, slab) =>
    { stream with
      slab := slab
      free := i :: stream.free
      log := stream.log.record self.rejections staged.candidate .outOfPool none }

/-- Put a candidate into the slab and the heap. -/
def admitStaged (stream : Stream F C) (key : F) (staged : Staged F C) :
    Except Failure (Stream F C) :=
  (place staged stream.slab stream.free).bind fun (slab, free, index) =>
    (stream.heap.push ⟨key, staged.id, index⟩).bind fun (heap, admission) =>
      match admission with
      | .accepted none => .ok { stream with heap := heap, slab := slab, free := free }
      | .accepted (some evicted) =>
          self.expel { stream with heap := heap, slab := slab, free := free } evicted
      | .rejected => self.expel { stream with heap := heap, slab := slab, free := free } index

/-- One candidate of the stream. -/
def step [Candidate C] (key : AdmissionKey) (stream : Stream F C) (candidate : C) :
    Except Failure (Stream F C) :=
  match self.failedUnary candidate with
  | some id =>
      .ok { stream with
        inputCount := stream.inputCount + 1
        log := stream.log.record self.rejections candidate (.unaryConstraint id) none }
  | none =>
      match self.scoreCheap candidate self.scorers with
      | .error id =>
          .ok { stream with
            inputCount := stream.inputCount + 1
            stats := self.traceCheap candidate self.scorers stream.stats
            log := stream.log.record self.rejections candidate (.notScored id) none }
      | .ok scores =>
          self.admitStaged
            { stream with
              inputCount := stream.inputCount + 1
              stats := self.traceCheap candidate self.scorers stream.stats }
            (self.admissionValue key scores) ⟨candidate, Candidate.id candidate, scores⟩

def streamAll [Candidate C] (key : AdmissionKey) (stream : Stream F C) :
    List C → Except Failure (Stream F C)
  | [] => .ok stream
  | candidate :: rest =>
      (self.step key stream candidate).bind fun stream => streamAll key stream rest

/-- Take the staged candidates out of the slab, in the given order. -/
def collect (slab : List (Option (Staged F C))) : List Nat → Except Failure (List (Staged F C))
  | [] => .ok []
  | i :: rest =>
      (take slab i).bind fun (staged, slab) => (collect slab rest).map (staged :: ·)

/-! ### Expensive scorers -/

def checkBatch (scorer : ScorerId) (expected got : Nat) : Except Error Unit :=
  if expected = got then .ok () else .error (.batchLengthMismatch scorer expected got)

/-- The values of one expensive scorer, batch by batch. -/
def scoreBatches (m : Scorer F C) : List (List C) → Except Error (List (Option F))
  | [] => .ok []
  | part :: rest =>
      (checkBatch m.id part.length (m.scoreBatch part).length).bind fun _ =>
        (scoreBatches m rest).map (m.scoreBatch part ++ ·)

/-- All values of the expensive scorers, with the axis each belongs to. -/
def collectExpensive (refs : List C) :
    List (Scorer F C × Nat) → Except Error (List (Nat × List (Option F)))
  | [] => .ok []
  | (m, i) :: rest =>
      if m.cost = .expensive then
        (scoreBatches m (self.batching.split refs)).bind fun values =>
          (collectExpensive refs rest).map ((i, values) :: ·)
      else collectExpensive refs rest

/-- Write the values of one axis into the pool. -/
def absorbAxis (staged : List (Staged F C)) (axis : Nat × List (Option F)) : List (Staged F C) :=
  staged.zipWith (fun s v => { s with scores := s.scores.set axis.1 (sanitize v) }) axis.2

/-- What one axis leaves in the records. -/
def traceAxis (staged : List (Staged F C)) (stats : List ScorerTrace)
    (axis : Nat × List (Option F)) : List ScorerTrace :=
  stats.modify axis.1 fun trace =>
    { trace with
      calls := trace.calls + staged.length
      missing := trace.missing +
        (absorbAxis staged axis).countP fun s => (s.scores.getD axis.1 none).isNone }

def absorb (pool : List (Staged F C) × List ScorerTrace) (axis : Nat × List (Option F)) :
    List (Staged F C) × List ScorerTrace :=
  (absorbAxis pool.1 axis, traceAxis pool.1 pool.2 axis)

def scoreExpensive (staged : List (Staged F C)) (stats : List ScorerTrace) :
    Except Error (List (Staged F C) × List ScorerTrace) :=
  (self.collectExpensive (staged.map (·.candidate)) self.scorers.zipIdx).map fun collected =>
    collected.foldl absorb (staged, stats)

/-! ### Second stage -/

/-- The axis whose missing value rejects a candidate of the pool. -/
def missingAxis (s : Staged F C) : Option ScorerId :=
  if self.missing.isReject then
    (self.scorers.zip s.scores).findSome? fun (m, v) => if v.isNone then some m.id else none
  else none

/-- Split off what a test rejects, recording each of it. -/
def sift {α : Type} (policy : Rejections) (candidate : α → C)
    (reason : α → Option (RejectReason × Option F)) (log : RejectLog F C) :
    List α → List α × RejectLog F C
  | [] => ([], log)
  | item :: rest =>
      match reason item with
      | some (why, fused) =>
          sift policy candidate reason (log.record policy (candidate item) why fused) rest
      | none =>
          let (kept, log) := sift policy candidate reason log rest
          (item :: kept, log)

/-- Candidates of an axis in rank order: the largest value first. -/
def rankOrder (staged : List (Staged F C)) (axis : Nat) : List (Fin staged.length) :=
  ((List.finRange staged.length).filter fun i =>
    (self.effective ((staged.get i).scores.getD axis none)).isSome).insertionSort fun a b =>
      (Scalar.totalCmp
          ((self.effective ((staged.get b).scores.getD axis none)).getD (Scalar.lit 0))
          ((self.effective ((staged.get a).scores.getD axis none)).getD (Scalar.lit 0))).then
        ((staged.get a).id.cmp (staged.get b).id) ≠ .gt

/-- `rank as u32 + 1` of a candidate on an axis. -/
def rankOf (staged : List (Staged F C)) (axis : Nat) (i : Fin staged.length) : Option UInt32 :=
  ((self.rankOrder staged axis).idxOf? i).map fun rank => UInt32.ofNat rank + 1

/-- The weights of the axes that take part, for the weighted sum. -/
def weightSum (s : Staged F C) : F :=
  (self.scorers.zip s.scores).foldl (fun total (m, v) =>
    if (self.effective v).isSome then Scalar.add total (self.weightOf m.id) else total)
    (Scalar.lit 0)

def inputKind (raw : Option F) (value : F) : FusionInput F :=
  if raw.isSome then .value value else .imputed value

/-- The term of one axis. -/
def fuseTerm (s : Staged F C) (rank : Option UInt32) (m : Scorer F C) (raw : Option F) :
    FusionTerm F :=
  match self.fusion, self.effective raw with
  | _, none => ⟨m.id, .skipped, Scalar.lit 0, Scalar.lit 0⟩
  | .rrf k, some _ =>
      match rank with
      | some r =>
          ⟨m.id, .rank r, Scalar.lit 1,
            Scalar.div (Scalar.lit 1) (Scalar.add k (Scalar.ofNat r.toNat))⟩
      | none => ⟨m.id, .skipped, Scalar.lit 0, Scalar.lit 0⟩
  | .weightedSum _, some v =>
      let w := if Scalar.lt (Scalar.lit 0) (self.weightSum s) then
        Scalar.div (self.weightOf m.id) (self.weightSum s) else Scalar.lit 0
      ⟨m.id, inputKind raw v, w, Scalar.mul w v⟩
  | .max, some v => ⟨m.id, inputKind raw v, Scalar.lit 1, v⟩

/-- The trace of one candidate of the pool. -/
def fuse (staged : List (Staged F C)) (i : Fin staged.length) : FusionTrace F where
  method := self.fusion.method
  k := self.fusion.rrfK
  missing := self.missing
  terms := (self.scorers.zip (staged.get i).scores).zipIdx.map fun ((m, raw), axis) =>
    self.fuseTerm (staged.get i) (self.rankOf staged axis i) m raw

/-- The pool after the fusion, in the order of the staged candidates. -/
def fuseAll (staged : List (Staged F C)) : Pool F C :=
  (List.finRange staged.length).map fun i =>
    { candidate := (staged.get i).candidate
      id := (staged.get i).id
      scores := (staged.get i).scores
      fused := (self.fuse staged i).recompute
      trace := self.fuse staged i }

/-- Descending fused scores, then ascending identifiers. -/
def poolOrder (left right : PoolEntry F C) : Prop :=
  (Scalar.totalCmp right.fused left.fused).then (left.id.cmp right.id) ≠ .gt

instance : DecidableRel (poolOrder : PoolEntry F C → PoolEntry F C → Prop) :=
  fun _ _ => inferInstanceAs (Decidable (_ ≠ _))

section

variable (D : Type) [Analytic D] [Widens F D]

def resolveBudget (pool : Pool F C) : Option (BudgetTrace F) :=
  match self.budget with
  | .tailMass epsilon fallbackK =>
      let mass : List D := pool.map fun e => Widens.widen e.fused
      some (Budget.deriveBudget mass epsilon fallbackK self.minFit)
  | _ => none

/-- The count budget of the selection. -/
def selectionK (pool : Pool F C) (trace : Option (BudgetTrace F)) : Option Nat :=
  match self.budget with
  | .tokens _ => none
  | .topK k => some (trace.elim k.toNat (·.derivedK.toNat))
  | .tailMass _ _ => some (trace.elim pool.length (·.derivedK.toNat))

def selector (pool : Pool F C) : Selector F C where
  setConstraints := self.setConstraints
  objective := self.objective
  requirements := self.requirements
  k := self.selectionK pool (self.resolveBudget D pool)
  tokenBudget := match self.budget with
    | .tokens max => some max
    | _ => none
  cost := self.cost

end

/-! ### Assembly -/

/-- Split the pool by what was taken, recording the rest. -/
def dismiss {n : Nat} (chosen : Chosen F n) (entry : Fin n → PoolEntry F C)
    (log : RejectLog F C) : List (Fin n) × RejectLog F C :=
  sift self.rejections (fun i => (entry i).candidate)
    (fun i =>
      if chosen.selected.contains i then none
      else
        some (match chosen.blockedBy i with
          | some id => .setConstraint id
          | none => .outranked, some (entry i).fused))
    log (List.finRange n)

/-- Take the selected entries out of the kept ones, in the order of selection. -/
def takeRanked {α : Type} : List (Nat × α) → List Nat → Except Failure (List α)
  | _, [] => .ok []
  | kept, index :: rest =>
      (expect (kept.findIdx? (·.1 == index))).bind fun pos =>
        (expect kept[pos]?).bind fun (_, entry) =>
          (takeRanked (kept.eraseIdx pos) rest).map (entry :: ·)

def rankedOf (entry : PoolEntry F C) (rank : Nat) : Ranked F C where
  candidate := entry.candidate
  rank := UInt32.ofNat rank + 1
  fused := entry.fused
  scores := (self.scorers.zip entry.scores).map fun (m, v) => (m.id, v)
  fusion := entry.trace
  constraints := self.setConstraints.map (·.id)

def guarantee (repaired : Bool) : Bool × Option F :=
  guaranteeOf (structureOf self.objective) (matroidCount self.setConstraints)
    (self.setConstraints.length - matroidCount self.setConstraints) self.budget.isKnapsack repaired

/-- The pool that the selection sees, and the rejections up to there. -/
def poolOf (staged : List (Staged F C)) (log : RejectLog F C) : Pool F C × RejectLog F C :=
  let (survivors, log) := sift self.rejections (·.candidate)
    (fun s => (self.missingAxis s).map fun id => (.notScored id, none)) log staged
  let (pool, log) := sift self.rejections (·.candidate)
    (fun (e : PoolEntry F C) =>
      if self.threshold.any fun threshold => Scalar.lt e.fused threshold then
        some (.belowThreshold, some e.fused) else none)
    log (self.fuseAll survivors)
  (pool.insertionSort poolOrder, log)

/-- The outcome of a selection from the pool. -/
def assemble (pool : Pool F C) (chosen : Chosen F pool.length) (log : RejectLog F C)
    (poolSize : UInt32) (trace : RunTrace F) : Except Failure (Outcome F C) :=
  let (kept, log) := self.dismiss chosen pool.get log
  (takeRanked (kept.map fun i => (i.val, pool.get i)) (chosen.selected.map Fin.val)).map
    fun entries =>
      { ranked := entries.zipIdx.map fun (entry, rank) => self.rankedOf entry rank
        rejected := log.rejected
        rejectedCounts := log.counts
        selection :=
          { exact := (self.guarantee chosen.repaired).1
            guarantee := (self.guarantee chosen.repaired).2
            poolSize := poolSize
            poolExhausted := chosen.poolExhausted
            cutMargin := chosen.cutMargin.filter Scalar.isFinite }
        trace := trace }

section

variable (D : Type) [Analytic D] [Widens F D]

/-- The second stage, on the candidates that the first one left. -/
def finish (key : AdmissionKey) (stream : Stream F C) (staged : List (Staged F C)) :
    Except Failure (Outcome F C) :=
  ((self.scoreExpensive staged stream.stats).mapError .error).bind fun (staged, stats) =>
    let (pool, log) := self.poolOf staged stream.log
    (((self.selector D pool).run pool).mapError .error).bind fun chosen =>
      self.assemble pool chosen log (UInt32.ofNat stream.heap.heap.length)
        { inputCount := stream.inputCount
          poolCapacity := UInt32.ofNat self.poolCapacity
          admissionScorer := self.admissionScorer key
          scorers := stats
          budget := self.resolveBudget D pool }

/-- The state before the first candidate. -/
def Stream.start (capacity : Nat) (scorers : List (Scorer F C)) : Stream F C where
  heap := BoundedHeap.new capacity
  stats := scorers.map fun m => ⟨m.id, 0, 0⟩

/-- Rank the candidates. -/
def run [Candidate C] (candidates : List C) : Except Failure (Outcome F C) :=
  (self.validate.mapError .error).bind fun _ =>
    self.resolveAdmission.bind fun key =>
      (self.streamAll key (Stream.start self.poolCapacity self.scorers) candidates).bind
        fun stream =>
          (collect stream.slab stream.heap.intoSortedIndices).bind fun staged =>
            self.finish D key stream staged

end

end Engine

end AiCoreStack.Ranking
