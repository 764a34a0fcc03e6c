import Mathlib

/-!
# Boxes

Model of `types.rs`: the pixel rectangle that every task of the pipeline passes on.
-/

namespace AiCoreStack.Ocr

/-- A rectangle in pixels; the origin is at the top left. -/
structure BBox where
  x : Nat
  y : Nat
  width : Nat
  height : Nat
  deriving DecidableEq, Repr

/-- Area in pixels. -/
def BBox.area (box : BBox) : Nat := box.width * box.height

/-- `u32` addition.  A sum that does not fit panics in a build with overflow checks, and wraps
in one without. -/
def addU32 (checks : Bool) (left right : Nat) : Option Nat :=
  if left + right < 2 ^ 32 then some (left + right)
  else if checks then none else some ((left + right) % 2 ^ 32)

theorem addU32_eq_some {checks : Bool} {left right : Nat} (fits : left + right < 2 ^ 32) :
    addU32 checks left right = some (left + right) := if_pos fits

theorem addU32_checked {left right : Nat} (beyond : 2 ^ 32 ≤ left + right) :
    addU32 true left right = none := by
  rw [addU32, if_neg (by omega), if_pos rfl]

/-- A box whose two far edges are `u32` coordinates. -/
structure BBox.Fits (box : BBox) : Prop where
  right : box.x + box.width < 2 ^ 32
  bottom : box.y + box.height < 2 ^ 32

instance (box : BBox) : Decidable box.Fits :=
  decidable_of_iff (box.x + box.width < 2 ^ 32 ∧ box.y + box.height < 2 ^ 32)
    ⟨fun both => ⟨both.1, both.2⟩, fun fits => ⟨fits.right, fits.bottom⟩⟩

end AiCoreStack.Ocr
