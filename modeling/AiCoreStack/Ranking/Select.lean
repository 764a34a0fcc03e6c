import AiCoreStack.Ranking.Constraint

/-!
# Bounded heap and selection under constraints

The first stage keeps the best candidates of a stream in a bounded heap.  The
second stage selects from the pool greedily, under a count or a cost budget, and
repairs the selection when a requirement is not met.  Selected candidates are
positions of the pool.
-/

namespace AiCoreStack.Ranking

open Foundation

variable {F C : Type} [Scalar F]

/-! ## Bounded heap -/

/-- A place in the heap.  A larger key is better, then a smaller identifier. -/
structure Slot (F : Type) where
  key : F
  id : CandidateId
  index : Nat

def Slot.cmp (left right : Slot F) : Ordering :=
  (Scalar.totalCmp left.key right.key).then (right.id.cmp left.id)

/-- `BinaryHeap<Reverse<Slot>>`.  Its elements are listed from the worst to the
best.  The order of equal elements, which share key and identifier, is unspecified
in the source; here the one pushed last comes first. -/
abbrev SlotHeap (F : Type) := List (Slot F)

namespace SlotHeap

def push (slot : Slot F) (heap : SlotHeap F) : SlotHeap F :=
  List.orderedInsert (fun left right => left.cmp right ≠ .gt) slot heap

def peek (heap : SlotHeap F) : Option (Slot F) := heap.head?

def pop : SlotHeap F → Option (Slot F × SlotHeap F)
  | [] => none
  | worst :: rest => some (worst, rest)

end SlotHeap

structure BoundedHeap (F : Type) where
  capacity : Nat
  heap : SlotHeap F

/-- What became of a pushed candidate; an evicted one leaves its index. -/
inductive Admission where
  | accepted (evicted : Option Nat)
  | rejected

namespace BoundedHeap

def new (capacity : Nat) : BoundedHeap F := ⟨capacity, []⟩

def push (self : BoundedHeap F) (slot : Slot F) :
    Except Failure (BoundedHeap F × Admission) :=
  if self.heap.length < self.capacity then
    .ok ({ self with heap := SlotHeap.push slot self.heap }, .accepted none)
  else
    match SlotHeap.peek self.heap with
    | none => .ok (self, .rejected)
    | some worst =>
        if slot.cmp worst = .gt then
          (expect (SlotHeap.pop self.heap)).map fun (evicted, rest) =>
            ({ self with heap := SlotHeap.push slot rest }, .accepted (some evicted.index))
        else .ok (self, .rejected)

/-- The indices, best first. -/
def intoSortedIndices (self : BoundedHeap F) : List Nat :=
  (self.heap.insertionSort (fun left right => right.cmp left ≠ .gt)).map (·.index)

end BoundedHeap

/-! ## Selector -/

/-- A candidate of the pool. -/
structure PoolEntry (F C : Type) where
  candidate : C
  id : CandidateId
  scores : List (Option F)
  fused : F
  trace : FusionTrace F

abbrev Pool (F C : Type) := List (PoolEntry F C)

/-- What the engine hands to the selection.  Costs and the cost budget are `u32`
and are added up in `u64`. -/
structure Selector (F C : Type) where
  setConstraints : List (SetConstraint C)
  objective : Option (SetObjective F C)
  requirements : List (Requirement C)
  k : Option Nat
  tokenBudget : Option UInt32
  cost : Option (C → UInt32)

/-- Outcome of a selection from a pool of `n` candidates. -/
structure Chosen (F : Type) (n : Nat) where
  selected : List (Fin n)
  blockedBy : Fin n → Option ConstraintId
  poolExhausted : Bool
  repaired : Bool
  cutMargin : Option F

/-- One round of the scans for the best item: a later item has to be better. -/
def scanBest {ι : Type} (eligible : ι → Bool) (key : ι → F) (best : Option (ι × F)) (i : ι) :
    Option (ι × F) :=
  if eligible i then
    match best with
    | some (_, b) => if Scalar.le (key i) b then best else some (i, key i)
    | none => some (i, key i)
  else best

/-- The first eligible item with the largest key. -/
def firstBest {ι : Type} (eligible : ι → Bool) (key : ι → F) (items : List ι) :
    Option (ι × F) :=
  items.foldl (scanBest eligible key) none

namespace Selector

variable (self : Selector F C) (pool : Pool F C)

def refs (selected : List (Fin pool.length)) : List C :=
  selected.map fun i => (pool.get i).candidate

omit [Scalar F] in
def admitsAll (selected : List C) (candidate : C) : Bool :=
  self.setConstraints.all fun c => c.admits selected candidate

/-- Fused score plus the marginal gain of the objective. -/
def gain (selected : List C) (entry : PoolEntry F C) : F :=
  match self.objective with
  | some objective => Scalar.add entry.fused (objective.marginalGain selected entry.candidate)
  | none => entry.fused

def costOf (candidate : C) : UInt64 :=
  match self.cost with
  | some cost => (cost candidate).toUInt64
  | none => 0

/-! ### Count budgets -/

/-- The loop of `cardinality`.  `remaining` is `k - selected.len()`; the flag says
that no candidate could be added. -/
def cardinalityLoop (remaining : Nat) (taken : Fin pool.length → Bool)
    (selected : List (Fin pool.length)) : List (Fin pool.length) × Bool :=
  match remaining with
  | 0 => (selected, false)
  | remaining + 1 =>
      match firstBest
          (fun i => !taken i && self.admitsAll (refs pool selected) (pool.get i).candidate)
          (fun i => self.gain (refs pool selected) (pool.get i)) (List.finRange pool.length) with
      | some (i, _) =>
          cardinalityLoop remaining (Function.update taken i true) (selected ++ [i])
      | none => (selected, true)

def cardinality : Chosen F pool.length :=
  let requested := self.k.getD pool.length
  let (selected, exhausted) :=
    cardinalityLoop self pool (min requested pool.length) (fun _ => false) []
  { selected := selected
    blockedBy := fun _ => none
    poolExhausted := exhausted || selected.length < requested
    repaired := false
    cutMargin := none }

/-! ### Cost budgets -/

/-- Gain for its cost; a free candidate comes first. -/
def ratio (gain : F) (cost : UInt64) : F :=
  if cost = 0 then Scalar.infinity else Scalar.div gain (Scalar.ofNat cost.toNat)

/-- The key by which `greedy_pack` compares candidates. -/
def packKey (byRatio : Bool) (selected : List C) (entry : PoolEntry F C) : F :=
  if byRatio then ratio (self.gain selected entry) (self.costOf entry.candidate)
  else self.gain selected entry

/-- The loop of `greedy_pack`.  Every round takes a candidate, so `fuel` rounds
for a pool of that size are never exceeded. -/
def packLoop (limit : UInt64) (byRatio : Bool) (fuel : Nat) (taken : Fin pool.length → Bool)
    (selected : List (Fin pool.length)) (spent : UInt64) (value : F) :
    List (Fin pool.length) × F :=
  match fuel with
  | 0 => (selected, value)
  | fuel + 1 =>
      match firstBest
          (fun i => !taken i && !decide (spent + self.costOf (pool.get i).candidate > limit) &&
            self.admitsAll (refs pool selected) (pool.get i).candidate)
          (fun i => self.packKey byRatio (refs pool selected) (pool.get i))
          (List.finRange pool.length) with
      | some (i, _) =>
          packLoop limit byRatio fuel (Function.update taken i true) (selected ++ [i])
            (spent + self.costOf (pool.get i).candidate)
            (Scalar.add value (self.gain (refs pool selected) (pool.get i)))
      | none => (selected, value)

def greedyPack (limit : UInt64) (byRatio : Bool) : List (Fin pool.length) × F × Bool :=
  let (selected, value) :=
    packLoop self pool limit byRatio pool.length (fun _ => false) [] 0 (Scalar.lit 0)
  (selected, value, selected.length = pool.length)

/-- The best candidate that fits the budget alone. -/
def bestSingle (limit : UInt64) : Option (Fin pool.length × F) :=
  firstBest
    (fun i => !(decide (self.costOf (pool.get i).candidate > limit) ||
      !self.admitsAll [] (pool.get i).candidate))
    (fun i => self.gain [] (pool.get i)) (List.finRange pool.length)

/-- The better of the packings by ratio and by gain, with its value. -/
def bestPacking (limit : UInt64) : List (Fin pool.length) × F :=
  let (byRatio, valueRatio, _) := greedyPack self pool limit true
  let (byGain, valueGain, _) := greedyPack self pool limit false
  if Scalar.lt valueRatio valueGain then (byGain, valueGain) else (byRatio, valueRatio)

/-- The best of the three branches; the flag says that a single candidate won. -/
def bestBranch (limit : UInt64) : List (Fin pool.length) × Bool :=
  match bestSingle self pool limit with
  | some (i, gain) =>
      if Scalar.lt (bestPacking self pool limit).2 gain then ([i], true)
      else ((bestPacking self pool limit).1, false)
  | none => ((bestPacking self pool limit).1, false)

/-- `self.token_budget.unwrap_or(u32::MAX) as u64`. -/
def costLimit : UInt64 := (self.tokenBudget.getD (UInt32.ofNat (2 ^ 32 - 1))).toUInt64

def knapsack : Chosen F pool.length :=
  let (selected, isSingle) := bestBranch self pool self.costLimit
  { selected := selected
    blockedBy := fun _ => none
    poolExhausted := (greedyPack self pool self.costLimit true).2.2
    repaired := false
    cutMargin := if isSingle then some Scalar.nan else none }

/-! ### Requirements -/

/-- How many of a set satisfy a requirement. -/
def satisfying (req : Requirement C) (members : List (Fin pool.length)) : Nat :=
  members.countP fun i => req.satisfiedBy (pool.get i).candidate

/-- How many candidates of the pool satisfy a requirement. -/
def available (req : Requirement C) : Nat :=
  satisfying pool req (List.finRange pool.length)

/-- The first `count` requirements are met. -/
def requirementsMet (members : List (Fin pool.length)) (count : Nat) : Bool :=
  (self.requirements.take count).all fun req => req.needed ≤ satisfying pool req members

/-- Total cost, in `u64`. -/
def spentOn (cost : C → UInt32) (members : List (Fin pool.length)) : UInt64 :=
  (members.map fun i => (cost (pool.get i).candidate).toUInt64).sum

def withinCount (members : List (Fin pool.length)) : Bool :=
  self.k.all fun k => members.length ≤ k

def withinBudget (members : List (Fin pool.length)) : Bool :=
  match self.tokenBudget, self.cost with
  | some limit, some cost => spentOn pool cost members ≤ limit.toUInt64
  | _, _ => true

/-- Whether every member is admitted by the others. -/
def setIsFeasible (members : List (Fin pool.length)) : Bool :=
  self.withinCount pool members && self.withinBudget pool members &&
    (List.finRange members.length).all fun position =>
      self.admitsAll (refs pool (members.eraseIdx position))
        (pool.get (members.get position)).candidate

/-- Order of the candidates that may come in: the best fused score first. -/
def donorOrder (left right : Fin pool.length) : Prop :=
  (Scalar.totalCmp (pool.get right).fused (pool.get left).fused).then
    ((pool.get left).id.cmp (pool.get right).id) ≠ .gt

instance : DecidableRel (donorOrder pool) := fun _ _ => inferInstanceAs (Decidable (_ ≠ _))

/-- Order of the candidates that may go out: the worst fused score first. -/
def victimOrder (left right : Fin pool.length) : Prop :=
  (Scalar.totalCmp (pool.get left).fused (pool.get right).fused).then
    ((pool.get right).id.cmp (pool.get left).id) ≠ .gt

instance : DecidableRel (victimOrder pool) := fun _ _ => inferInstanceAs (Decidable (_ ≠ _))

def donors (req : Requirement C) (selected : List (Fin pool.length)) : List (Fin pool.length) :=
  ((List.finRange pool.length).filter fun i =>
    !selected.contains i && req.satisfiedBy (pool.get i).candidate).insertionSort (donorOrder pool)

def victims (req : Requirement C) (selected : List (Fin pool.length)) :
    List (Fin pool.length) :=
  (selected.filter fun i => !req.satisfiedBy (pool.get i).candidate).insertionSort
    (victimOrder pool)

/-- A trial set is taken when it is feasible and keeps the earlier requirements. -/
def accepts (reqIndex : Nat) (trial : List (Fin pool.length)) : Option (List (Fin pool.length)) :=
  if self.setIsFeasible pool trial && self.requirementsMet pool trial reqIndex then some trial
  else none

def hasRoom (selected : List (Fin pool.length)) : Bool :=
  self.k.any fun k => selected.length < k

/-- Bring one candidate in: into a free place, or for a member that goes out. -/
def tryDonor (reqIndex : Nat) (selected out : List (Fin pool.length))
    (donor : Fin pool.length) : Option (List (Fin pool.length)) :=
  (if self.hasRoom pool selected then self.accepts pool reqIndex (selected ++ [donor])
    else none).or
    (out.findSome? fun victim =>
      self.accepts pool reqIndex (selected.filter (· ≠ victim) ++ [donor]))

/-- One round of the repair of a requirement. -/
def repairStep (reqIndex : Nat) (req : Requirement C) (selected : List (Fin pool.length)) :
    Option (List (Fin pool.length)) :=
  (donors pool req selected).findSome?
    (self.tryDonor pool reqIndex selected (victims pool req selected))

def infeasible (req : Requirement C) : Error :=
  .infeasibleRequirement req.id req.needed (available pool req)

/-- The inner loop of `repair_requirements`.  Every round brings one more
satisfying candidate in, so `needed` rounds are never exceeded. -/
def repairLoop (reqIndex : Nat) (req : Requirement C) (fuel : Nat)
    (selected : List (Fin pool.length)) (repaired : Bool) :
    Except Error (List (Fin pool.length) × Bool) :=
  match fuel with
  | 0 => .ok (selected, repaired)
  | fuel + 1 =>
      if req.needed ≤ satisfying pool req selected then .ok (selected, repaired)
      else
        match self.repairStep pool reqIndex req selected with
        | some trial => repairLoop reqIndex req fuel trial true
        | none => .error (infeasible pool req)

/-- The outer loop of `repair_requirements`, from the requirement `reqIndex` on.  No inner loop
takes more rounds than the requirement needs candidates (`repairLoop_fuel`). -/
def repairFrom (reqIndex : Nat) (selected : List (Fin pool.length)) (repaired : Bool) :
    List (Requirement C) → Except Error (List (Fin pool.length) × Bool)
  | [] => .ok (selected, repaired)
  | req :: rest =>
      (self.repairLoop pool reqIndex req req.needed selected repaired).bind
        fun (selected, repaired) => repairFrom (reqIndex + 1) selected repaired rest

/-- The check that ends `repair_requirements`. -/
def checkRequirements (selected : List (Fin pool.length)) :
    List (Requirement C) → Except Error Unit
  | [] => .ok ()
  | req :: rest =>
      if satisfying pool req selected < req.needed then .error (infeasible pool req)
      else checkRequirements selected rest

def repairRequirements (selected : List (Fin pool.length)) :
    Except Error (List (Fin pool.length) × Bool) :=
  (self.repairFrom pool 0 selected false self.requirements).bind fun (selected, repaired) =>
    (checkRequirements pool selected self.requirements).map fun _ => (selected, repaired)

/-! ### What the selection reports -/

/-- Budget left beside `members`. -/
def remainingBudget (members : List (Fin pool.length)) : Option UInt64 :=
  self.tokenBudget.map fun limit =>
    let spent := (members.map fun i => self.costOf (pool.get i).candidate).sum
    if spent ≤ limit.toUInt64 then limit.toUInt64 - spent else 0

/-- The difference of the two values that competed for the last place. -/
def cutMargin (selected : List (Fin pool.length)) : Option F :=
  selected.getLast?.bind fun last =>
    let members := refs pool selected.dropLast
    let remaining := self.remainingBudget pool selected.dropLast
    let score (entry : PoolEntry F C) : F :=
      match remaining with
      | none => self.gain members entry
      | some _ => ratio (self.gain members entry) (self.costOf entry.candidate)
    let fits (entry : PoolEntry F C) : Bool :=
      remaining.all fun r => self.costOf entry.candidate ≤ r
    let rivals := (List.finRange pool.length).filter fun i =>
      !selected.contains i && fits (pool.get i) &&
        self.admitsAll members (pool.get i).candidate
    (FusionTrace.maxFold (rivals.map fun i => score (pool.get i))).map fun bestLeft =>
      Scalar.sub (score (pool.get last)) bestLeft

/-- The set constraint that keeps each candidate out of the final set. -/
def blockingReasons (selected : List (Fin pool.length)) (i : Fin pool.length) :
    Option ConstraintId :=
  if selected.contains i then none
  else
    (self.setConstraints.find? fun c =>
      !c.admits (refs pool selected) (pool.get i).candidate).map (·.id)

/-- Select under the constraints and the budget. -/
def run : Except Error (Chosen F pool.length) :=
  let chosen := if self.tokenBudget.isSome then self.knapsack pool else self.cardinality pool
  (self.repairRequirements pool chosen.selected).map fun (selected, repaired) =>
    { chosen with
      selected := selected
      repaired := repaired
      blockedBy := self.blockingReasons pool selected
      cutMargin := chosen.cutMargin.or (self.cutMargin pool selected) }

end Selector

/-! ## Guarantees -/

/-- Structure of the objective. -/
inductive Structure where
  | modular
  | submodular
  | unknown
  deriving DecidableEq, Repr

/-- What the greedy selection guarantees: optimality, or a factor. -/
def guaranteeOf (kind : Structure) (matroids nonMatroids : Nat) (knapsackBudget repaired : Bool) :
    Bool × Option F :=
  if repaired then (false, none)
  else if kind = .unknown ∨ 0 < nonMatroids then (false, none)
  else
    match kind, knapsackBudget, matroids with
    | .modular, false, 0 => (true, none)
    | .modular, false, 1 => (true, none)
    | .modular, false, p => (false, some (Scalar.div (Scalar.lit 1) (Scalar.ofNat p)))
    | .submodular, false, 0 => (false, some (Scalar.lit 0.63212056))
    | .submodular, false, 1 => (false, some (Scalar.lit 0.5))
    | .submodular, false, p => (false, some (Scalar.div (Scalar.lit 1) (Scalar.ofNat (p + 1))))
    | .modular, true, 0 => (false, some (Scalar.lit 0.5))
    | .submodular, true, 0 => (false, some (Scalar.lit 0.31606028))
    | _, _, _ => (false, none)

/-- The structure that a registered objective declares. -/
def structureOf : Option (SetObjective F C) → Structure
  | none => .modular
  | some objective => if objective.isSubmodular then .submodular else .unknown

/-- How many constraints declare a matroid. -/
def matroidCount (constraints : List (SetConstraint C)) : Nat :=
  constraints.countP (·.isMatroid)

/-- The guarantee that the engine reports for a selection. -/
def Selector.guarantee (self : Selector F C) (repaired : Bool) : Bool × Option F :=
  guaranteeOf (structureOf self.objective) (matroidCount self.setConstraints)
    (self.setConstraints.length - matroidCount self.setConstraints) self.tokenBudget.isSome
    repaired

end AiCoreStack.Ranking
