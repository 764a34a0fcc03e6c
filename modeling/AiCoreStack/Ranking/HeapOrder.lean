import AiCoreStack.Ranking.ArrivalOrder

/-!
# The bounded heap against a sort

Slots pushed one after the other leave in the heap what a sort would put first: the larger key,
and the smaller identifier where keys are equal.  Every other slot is reported once, by the push
that takes its place or by its own.
-/

namespace AiCoreStack.Ranking

open Foundation

open scoped List

variable {F : Type} [Scalar F]

/-- The order of a ranking: the larger key, then the smaller identifier. -/
def Slot.Precedes (left right : Slot F) : Prop :=
  (Scalar.totalCmp right.key left.key).then (left.id.cmp right.id) ≠ .gt

instance : DecidableRel (Slot.Precedes (F := F)) :=
  fun _ _ => inferInstanceAs (Decidable (_ ≠ _))

/-- The index that leaves the heap, or does not get in. -/
def Admission.reported (index : Nat) : Admission → Option Nat
  | .accepted evicted => evicted
  | .rejected => some index

namespace BoundedHeap

/-- Push one slot after the other, and note what each push reports. -/
def pushAll (self : BoundedHeap F) : List (Slot F) → Except Failure (BoundedHeap F × List Nat)
  | [] => .ok (self, [])
  | slot :: rest =>
      (self.push slot).bind fun (next, admission) =>
        (next.pushAll rest).map fun (last, reports) =>
          (last, (admission.reported slot.index).toList ++ reports)

theorem pushAll_snoc (self : BoundedHeap F) (slots : List (Slot F)) (slot : Slot F) :
    self.pushAll (slots ++ [slot]) =
      (self.pushAll slots).bind fun (middle, reports) =>
        (middle.push slot).map fun (last, admission) =>
          (last, reports ++ (admission.reported slot.index).toList) := by
  induction slots generalizing self with
  | nil =>
      rw [List.nil_append, pushAll, pushAll]
      cases pushed : self.push slot with
      | error failure => simp [Except.bind, Except.map, pushed]
      | ok next => simp [Except.bind, Except.map, pushed, pushAll]
  | cons first rest ih =>
      rw [List.cons_append, pushAll, pushAll]
      cases self.push first with
      | error failure => rfl
      | ok next =>
          change Except.map _ (next.1.pushAll (rest ++ [slot])) = _
          rw [ih]
          change _ = (Except.map _ (next.1.pushAll rest)).bind _
          cases next.1.pushAll rest with
          | error failure => rfl
          | ok reached =>
              change Except.map _ (Except.map _ (reached.1.push slot)) = Except.map _ (reached.1.push slot)
              cases reached.1.push slot with
              | error failure => rfl
              | ok last => simp [Except.map, List.append_assoc]

/-- A push offers the slot to a bounded list. -/
theorem push_eq_offer (capacity : Nat) (held : List (Slot F)) (slot : Slot F) :
    ∃ admission, BoundedHeap.push ⟨capacity, held⟩ slot =
        .ok (⟨capacity, (TopList.offer Slot.cmp capacity held slot).1⟩, admission) ∧
      admission.reported slot.index =
        (TopList.offer Slot.cmp capacity held slot).2.map Slot.index := by
  rw [BoundedHeap.push, TopList.offer]
  dsimp only
  by_cases room : held.length < capacity
  · rw [if_pos room, if_pos room]
    exact ⟨.accepted none, rfl, rfl⟩
  · rw [if_neg room, if_neg room]
    cases held with
    | nil => exact ⟨.rejected, rfl, rfl⟩
    | cons worst rest =>
        rw [TopList.replaceWorst]
        dsimp only [SlotHeap.peek, List.head?_cons]
        by_cases better : slot.cmp worst = .gt
        · rw [if_pos better, if_pos better]
          exact ⟨.accepted (some worst.index), rfl, rfl⟩
        · rw [if_neg better, if_neg better]
          exact ⟨.rejected, rfl, rfl⟩

/-- A run of pushes is one of offers. -/
theorem pushAll_eq (capacity : Nat) (slots : List (Slot F)) :
    (new capacity).pushAll slots =
      .ok (⟨capacity, (TopList.run Slot.cmp capacity slots).1⟩,
        (TopList.run Slot.cmp capacity slots).2.map Slot.index) := by
  induction slots using List.reverseRecOn with
  | nil => rfl
  | append_singleton slots slot ih =>
      obtain ⟨admission, pushed, reported⟩ :=
        push_eq_offer capacity (TopList.run Slot.cmp capacity slots).1 slot
      rw [pushAll_snoc, ih, TopList.run_snoc]
      dsimp only [Except.bind]
      rw [pushed, Except.map, reported, List.map_append, Option.toList_map]

section Ordered

variable [Std.TransCmp (Scalar.totalCmp : F → F → Ordering)]

/-- The comparison of slots is an order. -/
instance : Std.TransCmp (Slot.cmp (F := F)) :=
  have _keys := TopList.transCmp_on (Scalar.totalCmp : F → F → Ordering) Slot.key
  have _ids := TopList.transCmp_on CandidateId.cmp (Slot.id (F := F))
  have _flipped := TopList.transCmp_flip fun left right : Slot F => left.id.cmp right.id
  inferInstanceAs (Std.TransCmp (compareLex
    (fun left right : Slot F => Scalar.totalCmp left.key right.key)
    fun left right => right.id.cmp left.id))

/-- Pushed slots with distinct identifiers never fail, leave the first `capacity` of the sorted
slots, which come out in this order, and the indices of the other ones are reported. -/
theorem pushAll_sorts (capacity : Nat) (slots : List (Slot F))
    (distinct : (slots.map Slot.id).Nodup) :
    ∃ heap reports, (new capacity).pushAll slots = .ok (heap, reports) ∧
      heap.heap ~ (slots.insertionSort Slot.Precedes).take capacity ∧
      heap.intoSortedIndices =
        ((slots.insertionSort Slot.Precedes).take capacity).map Slot.index ∧
      reports ~ ((slots.insertionSort Slot.Precedes).drop capacity).map Slot.index := by
  have apart : ∀ a ∈ slots, ∀ b ∈ slots, a.cmp b = .eq → a = b := by
    intro a inA b inB equal
    apply List.inj_on_of_nodup_map distinct inA inB
    exact (CandidateId.eq_of_cmp (Ordering.then_eq_eq.mp equal).2).symm
  obtain ⟨kept, dropped⟩ := TopList.run_eq_take capacity apart
  refine ⟨_, _, pushAll_eq capacity slots, ?_, ?_, ?_⟩
  · exact kept ▸ (List.reverse_perm _).symm
  · exact congrArg (List.map Slot.index) (TopList.run_insertionSort capacity apart)
  · exact dropped.map Slot.index

end Ordered

/-- Four slots, two of them with the same key. -/
def fourSlots : List (Slot Exact) :=
  [⟨.fin (1 / 2), .num 30, 0⟩, ⟨.fin (9 / 10), .num 2, 1⟩, ⟨.fin (1 / 2), .num 10, 2⟩,
    ⟨.fin (1 / 10), .num 1, 3⟩]

theorem pushAll_fourSlots :
    ∃ heap reports, (new 2).pushAll fourSlots = .ok (heap, reports) ∧
      heap.heap ~ (fourSlots.insertionSort Slot.Precedes).take 2 ∧
      heap.intoSortedIndices =
        ((fourSlots.insertionSort Slot.Precedes).take 2).map Slot.index ∧
      reports ~ ((fourSlots.insertionSort Slot.Precedes).drop 2).map Slot.index :=
  pushAll_sorts 2 fourSlots (by decide)

example : ((fourSlots.insertionSort Slot.Precedes).take 2).map Slot.index = [1, 2] := by decide +kernel

end BoundedHeap

end AiCoreStack.Ranking
