import Mathlib

/-!
# The best items of a stream

A bounded list keeps the best of the items it is offered, the worst of them first.  An item that
does not get in or has to leave is given back.  Among items that compare differently, what is
kept does not depend on the order in which they come.
-/

namespace AiCoreStack.Foundation.TopList

open scoped List

variable {α β : Type} (cmp : α → α → Ordering)

/-- The order from the worst to the best. -/
def Below (left right : α) : Prop := cmp left right ≠ .gt

instance : DecidableRel (Below cmp) := fun _ _ => inferInstanceAs (Decidable (_ ≠ _))

/-- Offer an item for the place of the worst one; what is given back comes second. -/
def replaceWorst (item : α) : List α → List α × Option α
  | [] => ([], some item)
  | worst :: rest =>
      if cmp item worst = .gt then (rest.orderedInsert (Below cmp) item, some worst)
      else (worst :: rest, some item)

/-- Offer an item to a list for `capacity` of them. -/
def offer (capacity : Nat) (held : List α) (item : α) : List α × Option α :=
  if held.length < capacity then (held.orderedInsert (Below cmp) item, none)
  else replaceWorst cmp item held

/-- Offer one item after the other: what is kept, and what was given back. -/
def run (capacity : Nat) (items : List α) : List α × List α :=
  items.foldl (fun (held, out) item =>
    ((offer cmp capacity held item).1, out ++ (offer cmp capacity held item).2.toList)) ([], [])

theorem run_snoc (capacity : Nat) (items : List α) (item : α) :
    run cmp capacity (items ++ [item]) =
      ((offer cmp capacity (run cmp capacity items).1 item).1,
        (run cmp capacity items).2 ++
          (offer cmp capacity (run cmp capacity items).1 item).2.toList) := by
  rw [run, List.foldl_append]
  rfl

/-! ## Nothing gets lost -/

theorem offer_perm (capacity : Nat) (held : List α) (item : α) :
    ((offer cmp capacity held item).1 ++ (offer cmp capacity held item).2.toList).Perm
      (item :: held) := by
  rw [offer]
  split
  next => simpa using List.perm_orderedInsert (Below cmp) item held
  next =>
    cases held with
    | nil => exact List.Perm.refl _
    | cons worst rest =>
        rw [replaceWorst]
        split
        next =>
          have inserted := (List.perm_orderedInsert (Below cmp) item rest).append_right [worst]
          exact inserted.trans ((List.perm_append_singleton worst rest).cons item)
        next => exact List.perm_append_singleton item (worst :: rest)

theorem run_perm (capacity : Nat) (items : List α) :
    ((run cmp capacity items).1 ++ (run cmp capacity items).2).Perm items := by
  induction items using List.reverseRecOn with
  | nil => exact List.Perm.refl _
  | append_singleton items item ih =>
      rw [run_snoc]
      have step := offer_perm cmp capacity (run cmp capacity items).1 item
      generalize offer cmp capacity (run cmp capacity items).1 item = next at step
      calc next.1 ++ ((run cmp capacity items).2 ++ next.2.toList)
        _ ~ next.1 ++ (next.2.toList ++ (run cmp capacity items).2) :=
            List.perm_append_comm.append_left _
        _ = next.1 ++ next.2.toList ++ (run cmp capacity items).2 := by rw [List.append_assoc]
        _ ~ item :: (run cmp capacity items).1 ++ (run cmp capacity items).2 :=
            step.append_right _
        _ ~ item :: items := ih.cons item
        _ ~ items ++ [item] := (List.perm_append_singleton item items).symm

theorem length_offer {capacity : Nat} {held : List α} (within : held.length ≤ capacity) (item : α) :
    (offer cmp capacity held item).1.length = min capacity (held.length + 1) := by
  rw [offer]
  split
  next room =>
    rw [List.orderedInsert_length]
    omega
  next full =>
    cases held with
    | nil =>
        simp at full
        simp [full, replaceWorst]
    | cons worst rest =>
        rw [List.length_cons] at full within
        rw [replaceWorst]
        split
        next =>
          rw [List.orderedInsert_length, List.length_cons]
          omega
        next =>
          rw [List.length_cons]
          omega

theorem length_run (capacity : Nat) (items : List α) :
    (run cmp capacity items).1.length = min capacity items.length := by
  induction items using List.reverseRecOn with
  | nil => simp [run]
  | append_singleton items item ih =>
      rw [run_snoc, length_offer cmp (by omega), ih, List.length_append, List.length_singleton]
      omega

/-- Lists of the same items under other names. -/
theorem offer_map (f : α → β) (other : β → β → Ordering) (same : ∀ a b, other (f a) (f b) = cmp a b)
    (capacity : Nat) (held : List α) (item : α) :
    offer other capacity (held.map f) (f item) =
      ((offer cmp capacity held item).1.map f, (offer cmp capacity held item).2.map f) := by
  have below (a b : α) : Below cmp a b ↔ Below other (f a) (f b) := by
    rw [Below, Below, same]
  have inserted (rest : List α) : (rest.map f).orderedInsert (Below other) (f item) =
      (rest.orderedInsert (Below cmp) item).map f :=
    (List.map_orderedInsert (Below cmp) (Below other) f rest item (fun a _ => below a item)
      (fun a _ => below item a)).symm
  rw [offer, offer, List.length_map]
  split
  next => rw [inserted, Option.map_none]
  next =>
    cases held with
    | nil => rfl
    | cons worst rest =>
        rw [List.map_cons, replaceWorst, replaceWorst, same]
        split
        next => rw [inserted, Option.map_some]
        next => rfl

/-! ## What is kept -/

section Lawful

variable [Std.TransCmp cmp]

instance : Std.Total (Below cmp) where
  total left right := by
    have swapped : cmp left right = (cmp right left).swap := Std.OrientedCmp.eq_swap
    rw [Below, Below, swapped]
    cases cmp right left <;> decide

instance : IsTrans α (Below cmp) where
  trans a b c left right := by
    have first : (cmp a b).isLE := Ordering.isLE_iff_ne_gt.mpr left
    have second : (cmp b c).isLE := Ordering.isLE_iff_ne_gt.mpr right
    exact Ordering.isLE_iff_ne_gt.mp (Std.TransCmp.isLE_trans first second)

/-- Items that compare by something else of theirs. -/
theorem transCmp_on (f : β → α) : Std.TransCmp fun left right : β => cmp (f left) (f right) where
  eq_swap {left right} :=
    (Std.OrientedCmp.eq_swap : cmp (f left) (f right) = (cmp (f right) (f left)).swap)
  isLE_trans {a _ c} first second :=
    (Std.TransCmp.isLE_trans first second : (cmp (f a) (f c)).isLE)

theorem transCmp_flip : Std.TransCmp fun left right : α => cmp right left where
  eq_swap {left right} := (Std.OrientedCmp.eq_swap : cmp right left = (cmp left right).swap)
  isLE_trans {a _ c} first second := (Std.TransCmp.isLE_trans second first : (cmp c a).isLE)

omit [Std.TransCmp cmp] in
theorem Below.of_gt [Std.OrientedCmp cmp] {better worse : α} (above : cmp better worse = .gt) :
    Below cmp worse better := by
  have swapped : cmp worse better = (cmp better worse).swap := Std.OrientedCmp.eq_swap
  rw [Below, swapped, above]
  decide

/-- What is kept is in order and above what was given back, and there is no room left once
something was given back. -/
structure Split (capacity : Nat) (held out : List α) : Prop where
  sorted : held.Pairwise (Below cmp)
  above : ∀ left ∈ out, ∀ right ∈ held, Below cmp left right
  full : out = [] ∨ capacity ≤ held.length

theorem Split.offer {capacity : Nat} {held out : List α} (split : Split cmp capacity held out)
    (item : α) :
    Split cmp capacity (offer cmp capacity held item).1
      (out ++ (offer cmp capacity held item).2.toList) := by
  rw [TopList.offer]
  split
  next room =>
    have empty : out = [] := split.full.resolve_right (by omega)
    subst empty
    exact ⟨split.sorted.orderedInsert item held, by simp, .inl rfl⟩
  next full =>
    cases held with
    | nil => exact ⟨List.Pairwise.nil, by simp [replaceWorst], .inr (by simpa [replaceWorst] using full)⟩
    | cons worst rest =>
        have sorted := List.pairwise_cons.mp split.sorted
        have beyond (left : α) (member : left ∈ out) : Below cmp left worst :=
          split.above left member worst List.mem_cons_self
        rw [replaceWorst]
        split
        next better =>
          have raised := Below.of_gt cmp better
          refine ⟨sorted.2.orderedInsert item rest, ?_, ?_⟩
          · intro left member right found
            have atLeast : Below cmp worst right := by
              rcases (List.mem_orderedInsert (Below cmp)).mp found with rfl | later
              · exact raised
              · exact sorted.1 right later
            rcases List.mem_append.mp member with earlier | last
            · exact trans_of (Below cmp) (beyond left earlier) atLeast
            · rw [Option.toList_some, List.mem_singleton] at last
              exact last ▸ atLeast
          · right
            rw [List.length_cons] at full
            rw [List.orderedInsert_length]
            omega
        next worse =>
          refine ⟨split.sorted, ?_, ?_⟩
          · intro left member right found
            rcases List.mem_append.mp member with earlier | last
            · exact split.above left earlier right found
            · rw [Option.toList_some, List.mem_singleton] at last
              rw [last]
              rcases List.mem_cons.mp found with rfl | later
              · exact worse
              · exact trans_of (Below cmp) worse (sorted.1 right later)
          · exact .inr (Nat.le_of_not_lt full)

theorem split_run (capacity : Nat) (items : List α) :
    Split cmp capacity (run cmp capacity items).1 (run cmp capacity items).2 := by
  induction items using List.reverseRecOn with
  | nil => exact ⟨List.Pairwise.nil, by simp [run], .inl rfl⟩
  | append_singleton items item ih =>
      rw [run_snoc]
      exact ih.offer cmp item

variable {cmp}

/-- A list in order is determined by its items when these compare differently. -/
theorem eq_of_sorted_perm {left right : List α}
    (distinct : ∀ a ∈ left, ∀ b ∈ left, cmp a b = .eq → a = b) (sorted : left.Pairwise (Below cmp))
    (other : right.Pairwise (Below cmp)) (perm : left.Perm right) : left = right := by
  apply List.Perm.eq_of_pairwise _ sorted other perm
  intro a b inLeft inRight below above
  apply distinct a inLeft b (perm.mem_iff.mpr inRight)
  have swapped : cmp b a = (cmp a b).swap := Std.OrientedCmp.eq_swap
  rw [Below, swapped] at above
  rw [Below] at below
  cases compared : cmp a b with
  | lt => simp [compared] at above
  | eq => rfl
  | gt => exact absurd compared below

/-- Sorting and filtering commute. -/
theorem filter_insertionSort {items : List α}
    (distinct : ∀ a ∈ items, ∀ b ∈ items, cmp a b = .eq → a = b) (p : α → Bool) :
    (items.filter p).insertionSort (Below cmp) = (items.insertionSort (Below cmp)).filter p := by
  apply @eq_of_sorted_perm α cmp
  · intro a inA b inB equal
    have within (item : α) (member : item ∈ (items.filter p).insertionSort (Below cmp)) :
        item ∈ items :=
      (List.mem_filter.mp ((List.mem_insertionSort (Below cmp)).mp member)).1
    exact distinct a (within a inA) b (within b inB) equal
  · exact List.pairwise_insertionSort (Below cmp) _
  · exact (List.pairwise_insertionSort (Below cmp) items).filter p
  · exact (List.perm_insertionSort (Below cmp) _).trans
      ((List.perm_insertionSort (Below cmp) items).filter p).symm

/-- What is kept is determined by the items when these compare differently. -/
theorem Split.held_eq {capacity : Nat} {held out held' out' : List α}
    (split : Split cmp capacity held out) (split' : Split cmp capacity held' out')
    (distinct : ∀ a ∈ held ++ out, ∀ b ∈ held ++ out, cmp a b = .eq → a = b)
    (perm : (held ++ out).Perm (held' ++ out')) (same : held.length = held'.length) :
    held = held' := by
  have whole {held out : List α} (split : Split cmp capacity held out) :
      (out.insertionSort (Below cmp) ++ held).Pairwise (Below cmp) ∧
        (out.insertionSort (Below cmp) ++ held).Perm (held ++ out) := by
    constructor
    · apply List.pairwise_append.mpr
      refine ⟨List.pairwise_insertionSort (Below cmp) out, split.sorted, ?_⟩
      intro left member right found
      exact split.above left ((List.mem_insertionSort (Below cmp)).mp member) right found
    · exact ((List.perm_insertionSort (Below cmp) out).append_right held).trans
        List.perm_append_comm
  obtain ⟨sorted, all⟩ := whole split
  obtain ⟨sorted', all'⟩ := whole split'
  have equal := eq_of_sorted_perm (fun a inA b inB => distinct a (all.mem_iff.mp inA) b (all.mem_iff.mp inB))
    sorted sorted' (all.trans (perm.trans all'.symm))
  exact List.append_inj_right' equal same

/-- What is kept are the first of all the items, the best of them first; what was given back
are the other ones. -/
theorem run_eq_take (capacity : Nat) {items : List α}
    (distinct : ∀ a ∈ items, ∀ b ∈ items, cmp a b = .eq → a = b) :
    (run cmp capacity items).1.reverse =
        (items.insertionSort fun left right => Below cmp right left).take capacity ∧
      (run cmp capacity items).2 ~
        (items.insertionSort fun left right => Below cmp right left).drop capacity := by
  have flipped := transCmp_flip cmp
  let down (left right : α) : Ordering := cmp right left
  have split := split_run cmp capacity items
  have perm := run_perm cmp capacity items
  have size := length_run cmp capacity items
  generalize (run cmp capacity items).1 = held at split perm size ⊢
  generalize (run cmp capacity items).2 = out at split perm ⊢
  -- the items in order: what is kept, then what was given back
  have whole : items.insertionSort (Below down) =
      held.reverse ++ out.insertionSort (Below down) := by
    apply @eq_of_sorted_perm α down
    · intro a inA b inB equal
      apply (distinct b _ a _ equal).symm
      · exact (List.mem_insertionSort (Below down)).mp inB
      · exact (List.mem_insertionSort (Below down)).mp inA
    · exact List.pairwise_insertionSort (Below down) items
    · apply List.pairwise_append.mpr
      refine ⟨List.pairwise_reverse.mpr split.sorted, List.pairwise_insertionSort (Below down) out, ?_⟩
      intro left inHeld right inOut
      exact split.above right ((List.mem_insertionSort (Below down)).mp inOut) left
        (List.mem_reverse.mp inHeld)
    · calc items.insertionSort (Below down)
        _ ~ items := List.perm_insertionSort (Below down) items
        _ ~ held ++ out := perm.symm
        _ ~ held.reverse ++ out.insertionSort (Below down) :=
            (List.reverse_perm held).symm.append (List.perm_insertionSort (Below down) out).symm
  change held.reverse = (items.insertionSort (Below down)).take capacity ∧
    out ~ (items.insertionSort (Below down)).drop capacity
  rw [whole]
  cases split.full with
  | inl none =>
      subst none
      have within : held.reverse.length ≤ capacity := by
        rw [List.length_reverse, size]
        exact min_le_left _ _
      simp [List.take_of_length_le within, List.drop_of_length_le within]
  | inr full =>
      have exactly : held.reverse.length = capacity := by
        rw [List.length_reverse]
        omega
      rw [← exactly, List.take_left, List.drop_left]
      exact ⟨rfl, (List.perm_insertionSort (Below down) out).symm⟩

/-- What is kept, in order, is the beginning of all the items in order. -/
theorem run_insertionSort (capacity : Nat) {items : List α}
    (distinct : ∀ a ∈ items, ∀ b ∈ items, cmp a b = .eq → a = b) :
    ((run cmp capacity items).1.insertionSort fun left right => Below cmp right left) =
      (items.insertionSort fun left right => Below cmp right left).take capacity := by
  have flipped := transCmp_flip cmp
  let down (left right : α) : Ordering := cmp right left
  have inItems (item : α)
      (member : item ∈ (run cmp capacity items).1.insertionSort (Below down)) : item ∈ items :=
    (run_perm cmp capacity items).mem_iff.mp
      (List.mem_append_left _ ((List.mem_insertionSort (Below down)).mp member))
  rw [← (run_eq_take capacity distinct).1]
  apply @eq_of_sorted_perm α down
  · intro a inA b inB equal
    exact (distinct b (inItems b inB) a (inItems a inA) equal).symm
  · exact List.pairwise_insertionSort (Below down) _
  · exact List.pairwise_reverse.mpr (split_run cmp capacity items).sorted
  · exact (List.perm_insertionSort _ _).trans (List.reverse_perm _).symm

/-- The order in which items come does not matter. -/
theorem run_eq_of_perm {capacity : Nat} {items other : List α}
    (distinct : ∀ a ∈ items, ∀ b ∈ items, cmp a b = .eq → a = b) (perm : items.Perm other) :
    (run cmp capacity items).1 = (run cmp capacity other).1 := by
  have first := run_perm cmp capacity items
  have second := run_perm cmp capacity other
  apply Split.held_eq (split_run cmp capacity items) (split_run cmp capacity other)
  · intro a inA b inB
    exact distinct a (first.mem_iff.mp inA) b (first.mem_iff.mp inB)
  · exact first.trans (perm.trans second.symm)
  · rw [length_run, length_run, perm.length_eq]

end Lawful

end AiCoreStack.Foundation.TopList
