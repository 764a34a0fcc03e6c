import AiCoreStack.Foundation.Scalar

/-!
# Candidates, scorers and score fusion

A candidate is known to the engine only through its identifier.  A scorer
declares the scale and the relative cost of its axis.  A fusion keeps a trace
from which the fused score is computed.  Scores are `f32` in the source and a
`Scalar` here.
-/

namespace AiCoreStack.Ranking

open Foundation

/-! ## Candidates -/

/-- Candidate identifier. -/
inductive CandidateId where
  | num (value : UInt64)
  | text (value : String)
  deriving DecidableEq, Repr

namespace CandidateId

/-- The derived order: numbers come before texts. -/
def cmp : CandidateId → CandidateId → Ordering
  | num left, num right => compare left right
  | num _, text _ => .lt
  | text _, num _ => .gt
  | text left, text right => compare left right

theorem cmp_swap (left right : CandidateId) : (cmp left right).swap = cmp right left := by
  cases left <;> cases right <;> simp [cmp, Std.OrientedCmp.eq_swap.symm]

theorem eq_of_cmp {left right : CandidateId} (equal : cmp left right = .eq) : left = right := by
  cases left <;> cases right <;> simp_all [cmp]

theorem cmp_trans {a b c : CandidateId} (left : (cmp a b).isLE) (right : (cmp b c).isLE) :
    (cmp a c).isLE := by
  cases a <;> cases b <;> cases c <;> simp_all [cmp]
  · exact Std.TransCmp.isLE_trans left right
  · exact Std.TransCmp.isLE_trans left right

instance : Std.TransCmp cmp where
  eq_swap := (cmp_swap _ _).symm
  isLE_trans := cmp_trans

end CandidateId

/-- What is ranked. -/
class Candidate (C : Type) where
  id : C → CandidateId

/-! ## Scorers -/

abbrev ScorerId := String

/-- Scale of an axis. -/
inductive ScoreScale where
  | unit
  | unbounded
  | rank
  deriving DecidableEq, Repr

/-- Relative cost of an axis.  Cheap axes run on every candidate, expensive ones
on the pool only. -/
inductive ScorerCost where
  | cheap
  | expensive
  deriving DecidableEq, Repr

/-- A scorer.  Identifier, scale and cost are read once, at registration. -/
structure Scorer (F C : Type) where
  id : ScorerId
  scale : ScoreScale
  cost : ScorerCost
  score : C → Option F
  scoreBatch : List C → List (Option F) := fun candidates => candidates.map score

/-- The scores of a candidate before fusion, in registration order. -/
abbrev ScoreSet (F : Type) := List (ScorerId × Option F)

/-! ## Fusion -/

/-- What happens to an axis without a value. -/
inductive MissingPolicy (F : Type) where
  | skip
  | impute (value : F)
  | reject
  deriving DecidableEq

/-- `missing == MissingPolicy::Reject`. -/
def MissingPolicy.isReject {F : Type} : MissingPolicy F → Bool
  | reject => true
  | _ => false

/-- How axes become one score. -/
inductive Fusion (F : Type) where
  | weightedSum (weights : List (ScorerId × F))
  | rrf (k : F)
  | max
  deriving DecidableEq

inductive FusionMethod where
  | weightedSum
  | rrf
  | max
  deriving DecidableEq, Repr

def FusionMethod.name : FusionMethod → String
  | weightedSum => "weighted_sum"
  | rrf => "rrf"
  | max => "max"

namespace Fusion

variable {F : Type}

def method : Fusion F → FusionMethod
  | weightedSum _ => .weightedSum
  | rrf _ => .rrf
  | max => .max

def name (fusion : Fusion F) : String := fusion.method.name

/-- Whether the fusion takes an axis of this scale. -/
def accepts (fusion : Fusion F) (scale : ScoreScale) : Bool :=
  match fusion with
  | rrf _ => true
  | weightedSum _ | max => scale = .unit

/-- `matches!(self.fusion, Fusion::Rrf { .. })`. -/
def isRrf : Fusion F → Bool
  | rrf _ => true
  | _ => false

/-- The `k` that a trace records. -/
def rrfK : Fusion F → Option F
  | rrf k => some k
  | _ => none

end Fusion

/-- What one axis put into the fusion. -/
inductive FusionInput (F : Type) where
  | value (value : F)
  | rank (rank : UInt32)
  | imputed (value : F)
  | skipped
  deriving DecidableEq

def FusionInput.isUsed {F : Type} : FusionInput F → Bool
  | skipped => false
  | _ => true

/-- The record of one axis. -/
structure FusionTerm (F : Type) where
  scorer : ScorerId
  input : FusionInput F
  weight : F
  contribution : F
  deriving DecidableEq

/-- How a score was fused, axis by axis in registration order. -/
structure FusionTrace (F : Type) where
  method : FusionMethod
  k : Option F
  missing : MissingPolicy F
  terms : List (FusionTerm F)
  deriving DecidableEq

namespace FusionTrace

variable {F : Type} [Scalar F]

/-- `fold(None, |acc, v| Some(acc.map_or(v, |a| a.max(v))))`. -/
def maxFold (values : List F) : Option F :=
  values.foldl (fun best value => some (best.elim value (fun b => Scalar.max b value))) none

theorem maxFold_cons (value : F) (rest : List F) :
    maxFold (value :: rest) = some (rest.foldl Scalar.max value) := by
  rw [maxFold, List.foldl_cons, Option.elim_none]
  induction rest generalizing value with
  | nil => rfl
  | cons next rest ih => exact ih (Scalar.max value next)

theorem maxFold_eq_none {values : List F} : maxFold values = none ↔ values = [] := by
  cases values with
  | nil => exact ⟨fun _ => rfl, fun _ => rfl⟩
  | cons value rest => simp [maxFold_cons]

/-- The fused score, from the record alone. -/
def recompute (trace : FusionTrace F) : F :=
  let used := (trace.terms.filter (·.input.isUsed)).map (·.contribution)
  match trace.method with
  | .weightedSum | .rrf => Scalar.sum used
  | .max => (maxFold used).getD (Scalar.lit 0)

end FusionTrace

/-! ## Errors -/

/-- Everything the engine can fail with. -/
inductive Error where
  | noScorers
  | duplicateScorer (scorer : ScorerId)
  | incompatibleScale (scorer : ScorerId) (scale : ScoreScale) (fusion : String)
  | unknownWeight (scorer : ScorerId)
  | unknownAdmissionScorer (scorer : ScorerId)
  | expensiveAdmissionScorer (scorer : ScorerId)
  | noAdmissionScorer
  | invalidBudget (message : String)
  | invalidPoolMultiplier
  | batchLengthMismatch (scorer : ScorerId) (expected got : Nat)
  | infeasibleRequirement (id : String) (needed available : Nat)
  deriving DecidableEq, Repr

/-- Why a run gave no result: an `expect` or an index that failed, or an error. -/
inductive Failure where
  | panic
  | error (error : Error)
  deriving DecidableEq, Repr

/-- `expect`. -/
def expect {α : Type} : Option α → Except Failure α
  | some value => .ok value
  | none => .error .panic

end AiCoreStack.Ranking
