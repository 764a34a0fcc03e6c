import Mathlib

/-!
# Items placed on a line

Items that occupy an interval each.  Throwing out the items that lie strictly in
another one leaves pairwise separate items exactly when no two items overlap in
part.
-/

namespace AiCoreStack.Foundation

universe u v

/-- The two ends of every item's interval. -/
structure Placement (ι : Type u) (α : Type v) where
  start : ι → α
  stop : ι → α

namespace Placement

variable {ι : Type u} {α : Type v} [LinearOrder α] (place : Placement ι α)

/-- One item ends before the other one starts. -/
def Apart (a b : ι) : Prop := place.stop a ≤ place.start b ∨ place.stop b ≤ place.start a

/-- One item lies in the other one. -/
def Within (a b : ι) : Prop := place.start b ≤ place.start a ∧ place.stop a ≤ place.stop b

/-- The items overlap, and neither lies in the other. -/
def Crosses (a b : ι) : Prop := ¬ place.Apart a b ∧ ¬ place.Within a b ∧ ¬ place.Within b a

/-- The item lies strictly in one of the list. -/
def Covered (items : List ι) (a : ι) : Prop := ∃ b ∈ items, place.Within a b ∧ ¬ place.Within b a

variable {place} {items : List ι}

theorem Apart.symm {a b : ι} (apart : place.Apart a b) : place.Apart b a := Or.symm apart

instance : Std.Symm place.Apart := ⟨fun _ _ apart => apart.symm⟩

theorem Within.refl (a : ι) : place.Within a a := ⟨le_refl _, le_refl _⟩

theorem Crosses.symm {a b : ι} (crosses : place.Crosses a b) : place.Crosses b a :=
  ⟨fun apart => crosses.1 apart.symm, crosses.2.2, crosses.2.1⟩

/-- Items that lie in separate ones are separate. -/
theorem Apart.mono {a b c d : ι} (apart : place.Apart c d) (left : place.Within a c)
    (right : place.Within b d) : place.Apart a b := by
  rcases apart with order | order
  · exact .inl (left.2.trans (order.trans right.1))
  · exact .inr (right.2.trans (order.trans left.1))

theorem Within.not_apart {a b : ι} (within : place.Within a b)
    (positive : place.start a < place.stop a) : ¬ place.Apart a b := by
  rintro (order | order)
  · exact absurd positive (not_lt.mpr (order.trans within.1))
  · exact absurd positive (not_lt.mpr (within.2.trans order))

/-- Every item lies in one that no other one covers. -/
theorem exists_uncovered (place : Placement ι α) {a : ι} (member : a ∈ items) :
    ∃ b ∈ items, place.Within a b ∧ ¬ place.Covered items b := by
  let key : ι → αᵒᵈ × α := fun item => (OrderDual.toDual (place.start item), place.stop item)
  have within (b c : ι) : place.Within b c ↔ key b ≤ key c := Iff.rfl
  have finite : (Set.image key {item | item ∈ items}).Finite := (List.finite_toSet items).image key
  obtain ⟨top, above, ⟨b, inside, rfl⟩, maximal⟩ :=
    finite.exists_le_maximal (Set.mem_image_of_mem key member)
  refine ⟨b, inside, above, ?_⟩
  rintro ⟨c, inside', lies, strict⟩
  exact strict (maximal ⟨c, inside', rfl⟩ lies)

/-- Without partial overlaps the items that are not covered are separate. -/
theorem pairwise_apart_of_not_crosses {kept : List ι} (sub : kept.Sublist items)
    (uncovered : ∀ a ∈ kept, ¬ place.Covered items a)
    (distinct : items.Pairwise fun a b => ¬ (place.Within a b ∧ place.Within b a))
    (separate : ∀ a ∈ items, ∀ b ∈ items, ¬ place.Crosses a b) :
    kept.Pairwise place.Apart := by
  have keptDistinct := distinct.sublist sub
  rw [List.pairwise_iff_forall_sublist] at keptDistinct ⊢
  intro a b pair
  have inA : a ∈ kept := pair.subset (by simp)
  have inB : b ∈ kept := pair.subset (by simp)
  by_contra overlap
  have notWithin : ¬ place.Within a b := by
    intro lies
    exact uncovered a inA ⟨b, sub.subset inB, lies, fun back => keptDistinct pair ⟨lies, back⟩⟩
  have notWithin' : ¬ place.Within b a := by
    intro lies
    exact uncovered b inB ⟨a, sub.subset inA, lies, fun back => keptDistinct pair ⟨back, lies⟩⟩
  exact separate a (sub.subset inA) b (sub.subset inB) ⟨overlap, notWithin, notWithin'⟩

/-- A partial overlap that no single item covers survives. -/
theorem exists_overlap_of_crosses {a b : ι} (inA : a ∈ items) (inB : b ∈ items)
    (crosses : place.Crosses a b)
    (alone : ∀ c ∈ items, ¬ (place.Within a c ∧ place.Within b c)) :
    ∃ c ∈ items, ∃ d ∈ items, c ≠ d ∧ ¬ place.Covered items c ∧ ¬ place.Covered items d ∧
      ¬ place.Apart c d := by
  obtain ⟨c, inC, liesA, uncoveredC⟩ := exists_uncovered place inA
  obtain ⟨d, inD, liesB, uncoveredD⟩ := exists_uncovered place inB
  refine ⟨c, inC, d, inD, ?_, uncoveredC, uncoveredD, ?_⟩
  · rintro rfl
    exact alone c inC ⟨liesA, liesB⟩
  · intro apart
    exact crosses.1 (apart.mono liesA liesB)

end Placement

end AiCoreStack.Foundation
