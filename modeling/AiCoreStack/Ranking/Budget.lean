import AiCoreStack.Foundation.Scalar

/-!
# Selection budgets

A count may be fixed, or derived from the mass of the fused scores: the exponent
of a power law is fitted to it, and the count is the smallest whose tail is within
the allowed mass.  A poor fit falls back to a fixed count.  Scores are `f32`, the
fit is computed in `f64`.
-/

namespace AiCoreStack.Ranking

open Foundation

/-- How many candidates are selected. -/
inductive Budget (F : Type) where
  | topK (k : UInt32)
  | tailMass (epsilon : F) (fallbackK : UInt32)
  | tokens (max : UInt32)
  deriving DecidableEq

def Budget.isKnapsack {F : Type} : Budget F → Bool
  | tokens _ => true
  | _ => false

/-- Why a derived count was dropped. -/
inductive FallbackReason where
  | poorFit
  | tooFewSamples
  | notAMassDistribution
  deriving DecidableEq, Repr

/-- How the count was found. -/
structure BudgetTrace (F : Type) where
  s : F
  fitQuality : F
  fallback : Bool
  reason : Option FallbackReason
  derivedK : UInt32
  deriving DecidableEq

namespace Budget

section Fit

variable {D : Type} [Analytic D]

/-- `(r as f64).powf(-s)`. -/
def rankMass (s : D) (r : Nat) : D :=
  Analytic.powf (Scalar.ofNat r) (Scalar.mul (Scalar.lit (-1)) s)

/-- `sum_{r=1..n} r^-s`. -/
def harmonic (s : D) (n : Nat) : D := Scalar.sum ((List.range' 1 n).map (rankMass s))

/-- The mean logarithm of the rank under the power law. -/
def modelStatistic (v : Nat) (s : D) : D :=
  let h := harmonic s v
  if Scalar.le h (Scalar.lit 0) then Scalar.lit 0
  else
    Scalar.div (Scalar.sum ((List.range' 1 v).map fun r =>
      Scalar.mul (rankMass s r) (Analytic.ln (Scalar.ofNat r)))) h

/-- `0.5 * (lo + hi)`. -/
def middle (lo hi : D) : D := Scalar.mul (Scalar.lit 0.5) (Scalar.add lo hi)

/-- The bisection, with the rounds left. -/
def bisect (statistic : D → D) (observed : D) : Nat → D → D → D
  | 0, lo, hi => middle lo hi
  | rounds + 1, lo, hi =>
      if Scalar.lt observed (statistic (middle lo hi)) then
        bisect statistic observed rounds (middle lo hi) hi
      else bisect statistic observed rounds lo (middle lo hi)

/-- Maximum-likelihood exponent of a power law, between 0.01 and 6. -/
def estimateExponent (mass : List D) : D :=
  let total := Scalar.sum mass
  let observed := Scalar.sum (mass.zipIdx.map fun (m, i) =>
    Scalar.mul (Scalar.div m total) (Analytic.ln (Scalar.ofNat (i + 1))))
  let lo : D := Scalar.lit 0.01
  let hi : D := Scalar.lit 6
  if Scalar.lt (modelStatistic mass.length lo) observed then lo
  else if Scalar.lt observed (modelStatistic mass.length hi) then hi
  else bisect (modelStatistic mass.length) observed 60 lo hi

/-- One minus the Kolmogorov-Smirnov distance. -/
def fitQuality (mass : List D) (s : D) : D :=
  let total := Scalar.sum mass
  let hAll := harmonic s mass.length
  if Scalar.le hAll (Scalar.lit 0) then Scalar.lit 0
  else
    let distance := mass.zipIdx.foldl (fun (empirical, model, d) (m, i) =>
      let empirical := Scalar.add empirical (Scalar.div m total)
      let model := Scalar.add model (Scalar.div (rankMass s (i + 1)) hAll)
      (empirical, model, Scalar.max d (Analytic.abs (Scalar.sub empirical model))))
      ((Scalar.lit 0 : D), (Scalar.lit 0 : D), (Scalar.lit 0 : D))
    Scalar.clamp (Scalar.sub (Scalar.lit 1) distance.2.2) (Scalar.lit 0) (Scalar.lit 1)

/-- The loop of `derive_k`, over the counts from `k` on. -/
def deriveKFrom (s all epsilon : D) (v : Nat) (head : D) : List Nat → UInt32
  | [] => UInt32.ofNat v
  | k :: rest =>
      let head := Scalar.add head (rankMass s k)
      if Scalar.le (Scalar.sub (Scalar.lit 1) (Scalar.div head all)) epsilon then UInt32.ofNat k
      else deriveKFrom s all epsilon v head rest

/-- The smallest count whose tail is within `epsilon`. -/
def deriveK (s : D) (v : Nat) (epsilon : D) : UInt32 :=
  if Scalar.le (harmonic s v) (Scalar.lit 0) then UInt32.ofNat v
  else deriveKFrom s (harmonic s v) epsilon v (Scalar.lit 0) (List.range' 1 v)

end Fit

variable {F D : Type} [Scalar F] [Analytic D] [Widens F D]

/-- A count without a fit. -/
def bail (fallbackK : UInt32) (reason : FallbackReason) : BudgetTrace F where
  s := Scalar.lit 0
  fitQuality := Scalar.lit 0
  fallback := true
  reason := some reason
  derivedK := fallbackK

/-- Derive a count from the mass, in descending order. -/
def deriveBudget (mass : List D) (epsilon : F) (fallbackK : UInt32) (minFit : F) :
    BudgetTrace F :=
  if mass.length < 10 then bail fallbackK .tooFewSamples
  else if mass.any fun m => !Scalar.isFinite m || Scalar.lt m (Scalar.lit 0) then
    bail fallbackK .notAMassDistribution
  else if Scalar.le (Scalar.sum mass) (Scalar.lit 0) then
    bail fallbackK .notAMassDistribution
  else
    let s := estimateExponent mass
    let fit : F := Widens.narrow (fitQuality mass s)
    if Scalar.lt fit minFit then
      { s := Widens.narrow s
        fitQuality := fit
        fallback := true
        reason := some .poorFit
        derivedK := fallbackK }
    else
      { s := Widens.narrow s
        fitQuality := fit
        fallback := false
        reason := none
        derivedK := deriveK s mass.length (Widens.widen epsilon) }

end Budget

end AiCoreStack.Ranking
