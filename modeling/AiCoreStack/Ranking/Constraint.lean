import AiCoreStack.Ranking.Score

/-!
# Constraints, requirements and set objectives

A set constraint says whether a candidate may join a selection.  It can only
forbid, so lower bounds are requirements of their own.  The constraints the
engine provides are given first as the source computes them and then by the
condition they put on a whole set.
-/

namespace AiCoreStack.Ranking

open Foundation

abbrev ConstraintId := String

/-- A constraint on a single candidate. -/
structure UnaryConstraint (C : Type) where
  id : ConstraintId
  allows : C → Bool

/-- A constraint on joining a selection.  `isMatroid` is a declaration. -/
structure SetConstraint (C : Type) where
  id : ConstraintId
  admits : List C → C → Bool
  isMatroid : Bool

/-- A lower bound on the final set. -/
structure Requirement (C : Type) where
  id : ConstraintId
  satisfiedBy : C → Bool
  needed : Nat

/-! ## Built-in constraints -/

section

variable {C K : Type} [DecidableEq K]

/-- The loop of `MaxPerGroup::admits`: no more than `max` members of a group,
with `count` of them seen already. -/
def underCap (key : C → K) (max : Nat) (target : K) : Nat → List C → Bool
  | _, [] => true
  | count, s :: rest =>
      if key s = target then
        if max ≤ count + 1 then false else underCap key max target (count + 1) rest
      else underCap key max target count rest

/-- `MaxPerGroup::admits`. -/
def MaxPerGroup.admits (max : Nat) (key : C → K) (selected : List C) (candidate : C) : Bool :=
  if max = 0 then false else underCap key max (key candidate) 0 selected

/-- At most `max` members of each group. -/
def maxPerGroup (id : ConstraintId) (max : Nat) (key : C → K) : SetConstraint C where
  id := id
  admits := MaxPerGroup.admits max key
  isMatroid := true

theorem underCap_iff (key : C → K) (max : Nat) (target : K) {count : Nat}
    (room : count < max) (selected : List C) :
    underCap key max target count selected = true ↔
      selected.countP (key · = target) + count < max := by
  induction selected generalizing count with
  | nil => simpa [underCap] using room
  | cons s rest ih =>
      rw [underCap, List.countP_cons]
      by_cases same : key s = target
      · by_cases full : max ≤ count + 1
        · simp [same, full]
          omega
        · rw [if_pos same, if_neg full, ih (Nat.lt_of_not_le full)]
          simp only [same, decide_true, if_true]
          omega
      · simp [same, ih room]

theorem MaxPerGroup.admits_iff (max : Nat) (key : C → K) (selected : List C) (candidate : C) :
    MaxPerGroup.admits max key selected candidate = true ↔
      selected.countP (key · = key candidate) < max := by
  rw [MaxPerGroup.admits]
  by_cases none : max = 0
  · simp [none]
  · simpa [none] using underCap_iff key max (key candidate) (Nat.pos_of_ne_zero none) selected

end

variable {C : Type}

/-- At most `max` candidates in total. -/
def maxTotal (id : ConstraintId) (max : Nat) : SetConstraint C where
  id := id
  admits selected _ := selected.length < max
  isMatroid := true

/-- Costs that sum to at most `limit`, in `f64`. -/
def costBudget {D : Type} [Scalar D] (id : ConstraintId) (limit : D) (cost : C → D) :
    SetConstraint C where
  id := id
  admits selected candidate :=
    Scalar.le (Scalar.add (Scalar.sum (selected.map cost)) (cost candidate)) limit
  isMatroid := false

/-- The set constraints that the engine provides. -/
inductive BuiltIn (D C : Type) : Type 1 where
  | maxPerGroup {K : Type} [DecidableEq K] (id : ConstraintId) (max : Nat) (key : C → K)
  | maxTotal (id : ConstraintId) (max : Nat)
  | costBudget (id : ConstraintId) (limit : D) (cost : C → D)

namespace BuiltIn

variable {D : Type}

def toSetConstraint [Scalar D] : BuiltIn D C → SetConstraint C
  | maxPerGroup id max key => Ranking.maxPerGroup id max key
  | maxTotal id max => Ranking.maxTotal id max
  | costBudget id limit cost => Ranking.costBudget id limit cost

/-- What the constraint asks of a whole set. -/
def Holds [Scalar D] (constraint : BuiltIn D C) (members : List C) : Prop :=
  match constraint with
  | maxPerGroup _ max key => ∀ group, members.countP (key · = group) ≤ max
  | maxTotal _ max => members.length ≤ max
  | costBudget _ limit cost => Scalar.le (Scalar.sum (members.map cost)) limit = true

/-- The caps: partition and uniform matroids. -/
def IsCap : BuiltIn D C → Prop
  | maxPerGroup _ _ _ | maxTotal _ _ => True
  | costBudget _ _ _ => False

end BuiltIn

/-! ## Set objectives -/

/-- A set objective, through its marginal gains.  `isSubmodular` is a
declaration. -/
structure SetObjective (F C : Type) where
  marginalGain : List C → C → F
  isSubmodular : Bool

/-- The weight of the union of the keys that candidates cover. -/
structure Coverage (F C K : Type) where
  cover : C → List K
  weight : Option (K → F)

namespace Coverage

variable {F K : Type} [Scalar F] [DecidableEq K]

def weightOf (objective : Coverage F C K) (key : K) : F :=
  match objective.weight with
  | some weight => weight key
  | none => Scalar.lit 1

/-- The loop of `marginal_gain`, over the keys of the candidate with the keys
counted so far. -/
def gainLoop (objective : Coverage F C K) (covered : List K) : F → List K → List K → F
  | gain, _, [] => gain
  | gain, fresh, key :: rest =>
      if covered.contains key = false ∧ fresh.contains key = false then
        gainLoop objective covered (Scalar.add gain (objective.weightOf key)) (key :: fresh) rest
      else gainLoop objective covered gain fresh rest

def marginalGain (objective : Coverage F C K) (selected : List C) (candidate : C) : F :=
  gainLoop objective (selected.flatMap objective.cover) (Scalar.lit 0) []
    (objective.cover candidate)

def toSetObjective (objective : Coverage F C K) : SetObjective F C where
  marginalGain := objective.marginalGain
  isSubmodular := true

end Coverage

end AiCoreStack.Ranking
