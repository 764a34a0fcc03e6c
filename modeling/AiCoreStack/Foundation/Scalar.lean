import Mathlib

/-!
# Machine floating point as a parameter

The programs modelled here compute with `f32` and `f64`.  A result proved for
every instance of `Scalar` holds of the machine arithmetic whatever it rounds to.
`Exact` is the instance in which finite values are rationals and nothing is
rounded; it has one zero and one NaN.
-/

namespace AiCoreStack.Foundation

/-- Operations of a floating-point type.  Comparisons are the partial ones;
`totalCmp` orders all values. -/
class Scalar (α : Type) where
  lit : ℚ → α
  ofNat : Nat → α
  nan : α
  infinity : α
  negInfinity : α
  add : α → α → α
  sub : α → α → α
  mul : α → α → α
  div : α → α → α
  lt : α → α → Bool
  le : α → α → Bool
  max : α → α → α
  min : α → α → α
  totalCmp : α → α → Ordering
  isNan : α → Bool
  isFinite : α → Bool

/-- Operations that only some of the sources use. -/
class Analytic (α : Type) extends Scalar α where
  powf : α → α → α
  ln : α → α
  abs : α → α

/-- Conversions between a narrow and a wide floating-point type. -/
class Widens (narrow wide : Type) where
  widen : narrow → wide
  narrow : wide → narrow

/-- What the partial comparisons of machine numbers satisfy, NaN included. -/
class LawfulCompare (α : Type) [Scalar α] : Prop where
  lt_irrefl : ∀ a : α, Scalar.lt a a = false
  le_of_lt : ∀ {a b : α}, Scalar.lt a b = true → Scalar.le a b = true
  lt_of_lt_of_le : ∀ {a b c : α}, Scalar.lt a b = true → Scalar.le b c = true →
    Scalar.lt a c = true

/-- Negative infinity is below every machine number that has something below it. -/
class LawfulBottom (α : Type) [Scalar α] : Prop extends LawfulCompare α where
  negInfinity_lt : ∀ {a b : α}, Scalar.lt a b = true → Scalar.lt Scalar.negInfinity b = true

/-- What machine numbers satisfy that are neither negative nor NaN. -/
class LawfulNonneg (α : Type) [Scalar α] : Prop extends LawfulCompare α where
  lit_nonneg : ∀ {q : ℚ}, 0 ≤ q → Scalar.le (Scalar.lit 0 : α) (Scalar.lit q) = true
  ofNat_nonneg : ∀ n : Nat, Scalar.le (Scalar.lit 0 : α) (Scalar.ofNat n) = true
  one_pos : Scalar.lt (Scalar.lit 0 : α) (Scalar.lit 1) = true
  add_nonneg : ∀ {a b : α}, Scalar.le (Scalar.lit 0) a = true → Scalar.le (Scalar.lit 0) b = true →
    Scalar.le (Scalar.lit 0) (Scalar.add a b) = true
  add_pos : ∀ {a b : α}, Scalar.le (Scalar.lit 0) a = true → Scalar.lt (Scalar.lit 0) b = true →
    Scalar.lt (Scalar.lit 0) (Scalar.add a b) = true
  recip_nonneg : ∀ {a : α}, Scalar.lt (Scalar.lit 0) a = true →
    Scalar.le (Scalar.lit 0) (Scalar.div (Scalar.lit 1) a) = true
  le_trans : ∀ {a b c : α}, Scalar.le a b = true → Scalar.le b c = true → Scalar.le a c = true
  lt_eq : ∀ {a b : α}, Scalar.le (Scalar.lit 0) a = true → Scalar.le (Scalar.lit 0) b = true →
    Scalar.lt a b = !Scalar.le b a

/-- What machine numbers satisfy whose division rounds to the nearest: the quotient of two
numbers that they hold exactly is on its own side of every literal. -/
class LawfulQuotient (α : Type) [Scalar α] : Prop extends LawfulCompare α where
  div_le_lit : ∀ {n m : Nat} {q : ℚ}, n ≤ 2 ^ 24 → 0 < m → m ≤ 2 ^ 24 → (n : ℚ) / m ≤ q →
    Scalar.le (Scalar.div (Scalar.ofNat n) (Scalar.ofNat m) : α) (Scalar.lit q) = true

namespace Scalar

variable {α : Type} [Scalar α]

/-- `iter().sum()`: additions from zero, in order. -/
def sum (values : List α) : α := values.foldl add (lit 0)

/-- `clamp`. -/
def clamp (value low high : α) : α :=
  if lt value low then low else if lt high value then high else value

/-- `partial_cmp(..).unwrap_or(Equal)`. -/
def cmpOrEq (left right : α) : Ordering :=
  if lt left right then .lt else if lt right left then .gt else .eq

end Scalar

/-- Extended rationals with a NaN. -/
inductive Exact where
  | negInf
  | fin (value : ℚ)
  | posInf
  | nan
  deriving DecidableEq

namespace Exact

def neg : Exact → Exact
  | negInf => posInf
  | fin value => fin (-value)
  | posInf => negInf
  | nan => nan

def add : Exact → Exact → Exact
  | nan, _ | _, nan | posInf, negInf | negInf, posInf => nan
  | posInf, _ | _, posInf => posInf
  | negInf, _ | _, negInf => negInf
  | fin left, fin right => fin (left + right)

/-- Infinity with the sign of a rational, NaN at zero. -/
def infOfSign (value : ℚ) : Exact :=
  if 0 < value then posInf else if value < 0 then negInf else nan

def mul : Exact → Exact → Exact
  | nan, _ | _, nan => nan
  | fin left, fin right => fin (left * right)
  | fin value, posInf | posInf, fin value => infOfSign value
  | fin value, negInf | negInf, fin value => infOfSign (-value)
  | posInf, posInf | negInf, negInf => posInf
  | posInf, negInf | negInf, posInf => negInf

def div : Exact → Exact → Exact
  | nan, _ | _, nan => nan
  | fin left, fin right => if right = 0 then infOfSign left else fin (left / right)
  | fin _, posInf | fin _, negInf => fin 0
  | posInf, fin value => if value < 0 then negInf else posInf
  | negInf, fin value => if value < 0 then posInf else negInf
  | posInf, posInf | posInf, negInf | negInf, posInf | negInf, negInf => nan

def lt : Exact → Exact → Bool
  | nan, _ | _, nan | posInf, _ | _, negInf => false
  | fin left, fin right => left < right
  | negInf, _ | _, posInf => true

def le : Exact → Exact → Bool
  | nan, _ | _, nan => false
  | negInf, _ | _, posInf => true
  | posInf, _ | _, negInf => false
  | fin left, fin right => left ≤ right

def max : Exact → Exact → Exact
  | nan, right => right
  | left, nan => left
  | left, right => if lt left right then right else left

def min : Exact → Exact → Exact
  | nan, right => right
  | left, nan => left
  | left, right => if lt right left then right else left

/-- Position of a value in the total order, NaN last. -/
def place : Exact → ℤ
  | negInf => 0
  | fin _ => 1
  | posInf => 2
  | nan => 3

/-- The finite part of a value, zero elsewhere. -/
def finitePart : Exact → ℚ
  | fin value => value
  | _ => 0

def totalCmp (left right : Exact) : Ordering :=
  (compare left.place right.place).then (compare left.finitePart right.finitePart)

instance : Scalar Exact where
  lit := fin
  ofNat n := fin n
  nan := nan
  infinity := posInf
  negInfinity := negInf
  add := add
  sub left right := add left right.neg
  mul := mul
  div := div
  lt := lt
  le := le
  max := max
  min := min
  totalCmp := totalCmp
  isNan value := value = nan
  isFinite
    | fin _ => true
    | _ => false

@[simp] theorem lt_fin (left right : ℚ) :
    Scalar.lt (fin left) (fin right) = decide (left < right) := rfl

@[simp] theorem le_fin (left right : ℚ) :
    Scalar.le (fin left) (fin right) = decide (left ≤ right) := rfl

@[simp] theorem add_fin (left right : ℚ) :
    Scalar.add (fin left) (fin right) = fin (left + right) := rfl

@[simp] theorem sub_fin (left right : ℚ) :
    Scalar.sub (fin left) (fin right) = fin (left - right) := by
  change fin (left + -right) = fin (left - right)
  rw [sub_eq_add_neg]

@[simp] theorem mul_fin (left right : ℚ) :
    Scalar.mul (fin left) (fin right) = fin (left * right) := rfl

theorem div_fin (left : ℚ) {right : ℚ} (nonzero : right ≠ 0) :
    Scalar.div (fin left) (fin right) = fin (left / right) := if_neg nonzero

@[simp] theorem max_fin (left right : ℚ) :
    Scalar.max (fin left) (fin right) = fin (Max.max left right) := by
  change (if decide (left < right) = true then fin right else fin left) = _
  by_cases below : left < right
  · rw [if_pos (decide_eq_true below), max_eq_right below.le]
  · rw [if_neg (by simpa using below), max_eq_left (not_lt.mp below)]

@[simp] theorem min_fin (left right : ℚ) :
    Scalar.min (fin left) (fin right) = fin (Min.min left right) := by
  change (if decide (right < left) = true then fin right else fin left) = _
  by_cases below : right < left
  · rw [if_pos (decide_eq_true below), min_eq_right below.le]
  · rw [if_neg (by simpa using below), min_eq_left (not_lt.mp below)]

@[simp] theorem max_negInf (value : ℚ) : Scalar.max negInf (fin value) = fin value := rfl

/-- The sum of finite values. -/
theorem foldl_add_fin (values : List ℚ) (start : ℚ) :
    (values.map fin).foldl Scalar.add (fin start) = fin (start + values.sum) := by
  induction values generalizing start with
  | nil => simp
  | cons value rest ih =>
      rw [List.map_cons, List.foldl_cons, add_fin, ih, List.sum_cons, add_assoc]

theorem add_right_comm (a b c : Exact) :
    Scalar.add (Scalar.add a b) c = Scalar.add (Scalar.add a c) b := by
  cases a <;> cases b <;> cases c <;> simp [Scalar.add, add]
  ring

/-- The order of the values does not show in an exact sum. -/
theorem sum_perm {values values' : List Exact} (perm : values.Perm values') :
    Scalar.sum values = Scalar.sum values' :=
  have : RightCommutative (Scalar.add : Exact → Exact → Exact) := ⟨add_right_comm⟩
  perm.foldl_eq _

/-- The largest of finite values. -/
theorem foldl_max_fin (values : List ℚ) (start : ℚ) :
    (values.map fin).foldl Scalar.max (fin start) = fin (values.foldl Max.max start) := by
  induction values generalizing start with
  | nil => rfl
  | cons value rest ih =>
      rw [List.map_cons, List.foldl_cons, max_fin, ih]
      rfl

@[simp] theorem lit_eq (value : ℚ) : (Scalar.lit value : Exact) = fin value := rfl

@[simp] theorem ofNat_eq (n : Nat) : (Scalar.ofNat n : Exact) = fin n := rfl

theorem le_refl {value : Exact} (number : value ≠ nan) : Scalar.le value value = true := by
  cases value <;> simp_all [Scalar.le, le]

theorem le_trans {a b c : Exact} (left : Scalar.le a b = true) (right : Scalar.le b c = true) :
    Scalar.le a c = true := by
  cases a <;> cases b <;> cases c <;> simp_all [Scalar.le, le]
  linarith

theorem lt_of_le_of_lt {a b c : Exact} (within : Scalar.le a b = true)
    (below : Scalar.lt b c = true) : Scalar.lt a c = true := by
  cases a <;> cases b <;> cases c <;> simp_all [Scalar.lt, lt, Scalar.le, le]
  linarith

theorem le_of_totalCmp {left right : ℚ}
    (ordered : Scalar.totalCmp (fin left) (fin right) ≠ .gt) :
    Scalar.le (fin left) (fin right) = true := by
  apply decide_eq_true
  by_contra above
  apply ordered
  change (compare (1 : ℤ) 1).then (compare left right) = .gt
  rw [compare_gt_iff_gt.mpr (not_le.mp above)]
  rfl

theorem le_of_not_le {a b : Exact} (numberA : a ≠ nan) (numberB : b ≠ nan)
    (above : Scalar.le a b = false) : Scalar.le b a = true := by
  cases a <;> cases b <;> simp_all [Scalar.le, le]
  linarith

instance : LawfulCompare Exact where
  lt_irrefl a := by cases a <;> simp [Scalar.lt, lt]
  le_of_lt {a b} below := by
    cases a <;> cases b <;> simp_all [Scalar.lt, lt, Scalar.le, le]
    linarith
  lt_of_lt_of_le {a b c} below within := by
    cases a <;> cases b <;> cases c <;> simp_all [Scalar.lt, lt, Scalar.le, le]
    linarith

instance : LawfulBottom Exact where
  negInfinity_lt {a b} below := by
    cases a <;> cases b <;> simp_all [Scalar.lt, lt, Scalar.negInfinity]

instance : LawfulQuotient Exact where
  div_le_lit {n m q} _ positive _ below := by
    have nonzero : (m : ℚ) ≠ 0 := Nat.cast_ne_zero.mpr positive.ne'
    rw [ofNat_eq, ofNat_eq, div_fin _ nonzero, lit_eq, le_fin]
    exact decide_eq_true below

instance : LawfulNonneg Exact where
  lit_nonneg nonneg := by simpa using nonneg
  ofNat_nonneg n := by simp
  one_pos := by simp
  add_nonneg {a b} nonneg nonneg' := by
    cases a <;> cases b <;> simp_all [Scalar.le, le, Scalar.add, add]
    linarith
  add_pos {a b} nonneg positive := by
    cases a <;> cases b <;> simp_all [Scalar.le, le, Scalar.lt, lt, Scalar.add, add]
    linarith
  recip_nonneg {a} positive := by
    cases a with
    | negInf => simp [Scalar.lt, lt] at positive
    | nan => simp [Scalar.lt, lt] at positive
    | posInf => simp [Scalar.le, le, Scalar.div, div]
    | fin value =>
        have above : 0 < value := by simpa using positive
        simp [Scalar.div, div, above.ne', above.le]
  le_trans := le_trans
  lt_eq {a b} nonneg nonneg' := by
    cases a <;> cases b <;> simp_all [Scalar.le, le, Scalar.lt, lt]
    rw [← decide_not, decide_eq_decide, not_le]

/-! ## Numbers that are not negative

They add up and compare like the non-negative rationals with a largest element, in which no sum
needs a case for infinity. -/

/-- A non-negative rational or infinity, as an exact number. -/
def ofExtended : WithTop ℚ≥0 → Exact
  | ⊤ => posInf
  | (q : ℚ≥0) => fin q

@[simp] theorem ofExtended_zero : ofExtended 0 = fin 0 := rfl

theorem ofExtended_add (a b : WithTop ℚ≥0) :
    ofExtended (a + b) = Scalar.add (ofExtended a) (ofExtended b) := by
  induction a with
  | top =>
      induction b with
      | top => rfl
      | coe b => rfl
  | coe a =>
      induction b with
      | top => rfl
      | coe b =>
          rw [← WithTop.coe_add]
          exact congrArg fin (NNRat.coe_add a b)

theorem le_ofExtended {a b : WithTop ℚ≥0} (below : a ≤ b) :
    Scalar.le (ofExtended a) (ofExtended b) = true := by
  induction b with
  | top =>
      induction a with
      | top => rfl
      | coe a => rfl
  | coe b =>
      induction a with
      | top => exact absurd below (by simp)
      | coe a => exact decide_eq_true (NNRat.coe_le_coe.mpr (WithTop.coe_le_coe.mp below))

theorem exists_extended {value : Exact} (nonneg : Scalar.le (Scalar.lit 0) value = true) :
    ∃ a, value = ofExtended a := by
  cases value with
  | negInf => simp [Scalar.le, le] at nonneg
  | fin q => exact ⟨WithTop.some ⟨q, by simpa using nonneg⟩, rfl⟩
  | posInf => exact ⟨⊤, rfl⟩
  | nan => simp [Scalar.le, le] at nonneg

theorem foldl_add_ofExtended (values : List (WithTop ℚ≥0)) (start : WithTop ℚ≥0) :
    (values.map ofExtended).foldl Scalar.add (ofExtended start) =
      ofExtended (start + values.sum) := by
  induction values generalizing start with
  | nil => simp
  | cons value rest ih =>
      rw [List.map_cons, List.foldl_cons, ← ofExtended_add, ih, List.sum_cons, add_assoc]

theorem sum_ofExtended (values : List (WithTop ℚ≥0)) :
    Scalar.sum (values.map ofExtended) = ofExtended values.sum := by
  have added := foldl_add_ofExtended values 0
  rwa [zero_add] at added

end Exact

end AiCoreStack.Foundation
