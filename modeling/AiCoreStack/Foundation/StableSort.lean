import Mathlib

/-!
# Stable sorting and the order of the input

A stable sort by a total preorder keeps tied items in the order in which they come.  So two
arrangements of the same items sort to one list exactly when tied items come in one order.
-/

namespace AiCoreStack.Foundation.StableSort

open scoped List

variable {α : Type} {le : α → α → Bool}

/-- A comparison that is a total preorder on the items of a list. -/
structure PreordersOn (le : α → α → Bool) (items : List α) : Prop where
  trans : ∀ a ∈ items, ∀ b ∈ items, ∀ c ∈ items, le a b → le b c → le a c
  total : ∀ a ∈ items, ∀ b ∈ items, le a b || le b a

theorem PreordersOn.perm {items items' : List α} (on : PreordersOn le items)
    (perm : items.Perm items') : PreordersOn le items' where
  trans a inA b inB c inC :=
    on.trans a (perm.mem_iff.mpr inA) b (perm.mem_iff.mpr inB) c (perm.mem_iff.mpr inC)
  total a inA b inB := on.total a (perm.mem_iff.mpr inA) b (perm.mem_iff.mpr inB)

theorem mergeSort_congr {le' : α → α → Bool} {items : List α}
    (agree : ∀ a ∈ items, ∀ b ∈ items, le a b = le' a b) :
    items.mergeSort le = items.mergeSort le' := by
  have mapped := List.map_mergeSort (f := id) agree
  rwa [List.map_id, List.map_id] at mapped

section Within

variable [DecidableEq α]

/-- The comparison within a list, with everything else above it. -/
def within (le : α → α → Bool) (items : List α) (a b : α) : Bool :=
  decide (b ∉ items) || (decide (a ∈ items) && le a b)

theorem within_iff (items : List α) (a b : α) :
    within le items a b = true ↔ (b ∈ items → a ∈ items ∧ le a b = true) := by
  rw [within, Bool.or_eq_true, Bool.and_eq_true, decide_eq_true_eq, decide_eq_true_eq,
    imp_iff_not_or]

theorem within_trans {items : List α} (on : PreordersOn le items) (a b c : α)
    (first : within le items a b) (second : within le items b c) : within le items a c := by
  rw [within_iff] at first second ⊢
  intro inC
  have middle := second inC
  have outer := first middle.1
  exact ⟨outer.1, on.trans a outer.1 b middle.1 c inC outer.2 middle.2⟩

theorem within_total {items : List α} (on : PreordersOn le items) (a b : α) :
    within le items a b || within le items b a := by
  rw [Bool.or_eq_true, within_iff, within_iff]
  by_cases inA : a ∈ items
  · by_cases inB : b ∈ items
    · have either := on.total a inA b inB
      rw [Bool.or_eq_true] at either
      cases either with
      | inl below => exact .inl fun _ => ⟨inA, below⟩
      | inr above => exact .inr fun _ => ⟨inB, above⟩
    · exact .inl fun member => absurd member inB
  · exact .inr fun member => absurd member inA

theorem mergeSort_within (items : List α) :
    items.mergeSort le = items.mergeSort (within le items) := by
  apply mergeSort_congr
  intro a inA b inB
  simp [within, inA, inB]

end Within

/-- A sorted list. -/
theorem PreordersOn.pairwise_mergeSort {items : List α} (on : PreordersOn le items) :
    (items.mergeSort le).Pairwise fun a b => le a b = true := by
  classical
  rw [mergeSort_within]
  have sorted := List.pairwise_mergeSort (within_trans on) (within_total on) items
  apply sorted.imp_of_mem
  intro a b _ inB below
  rw [List.mem_mergeSort] at inB
  exact ((within_iff items a b).mp below inB).2

/-- Items in order stay in the order in which they come. -/
theorem PreordersOn.pair_sublist {items : List α} (on : PreordersOn le items) {a b : α}
    (below : le a b = true) (sub : [a, b] <+ items) : [a, b] <+ items.mergeSort le := by
  classical
  rw [mergeSort_within]
  apply List.pair_sublist_mergeSort (within_trans on) (within_total on) _ sub
  rw [within_iff]
  intro _
  exact ⟨sub.subset (by simp), below⟩

theorem pair_sublist_or {a b : α} (distinct : a ≠ b) {items : List α} (inA : a ∈ items)
    (inB : b ∈ items) : [a, b] <+ items ∨ [b, a] <+ items := by
  induction items with
  | nil => simp at inA
  | cons head rest ih =>
      by_cases isA : a = head
      · subst isA
        have later : b ∈ rest := by simpa [Ne.symm distinct] using inB
        exact .inl ((List.singleton_sublist.mpr later).cons_cons a)
      · have later : a ∈ rest := by simpa [isA] using inA
        by_cases isB : b = head
        · subst isB
          exact .inr ((List.singleton_sublist.mpr later).cons_cons b)
        · have both := ih later (by simpa [isB] using inB)
          exact both.imp (fun sub => sub.cons head) fun sub => sub.cons head

theorem not_both_orders {a b : α} {items : List α} (nodup : items.Nodup)
    (sub : [a, b] <+ items) (other : [b, a] <+ items) : False := by
  induction items with
  | nil => simp at sub
  | cons head rest ih =>
      rw [List.nodup_cons] at nodup
      rw [List.cons_sublist_cons'] at sub other
      rcases sub with sub | ⟨isA, later⟩
      · rcases other with other | ⟨isB, _⟩
        · exact ih nodup.2 sub other
        · exact nodup.1 (isB ▸ sub.subset (by simp))
      · rcases other with other | ⟨isB, later'⟩
        · exact nodup.1 (isA ▸ other.subset (by simp))
        · exact nodup.1 (isA ▸ later'.subset (by simp))

/-- The order of two items after sorting. -/
theorem PreordersOn.pair_sublist_mergeSort_iff {items : List α} (on : PreordersOn le items)
    (nodup : items.Nodup) {a b : α} (distinct : a ≠ b) (inA : a ∈ items) (inB : b ∈ items) :
    [a, b] <+ items.mergeSort le ↔ le a b = true ∧ (le b a = true → [a, b] <+ items) := by
  have sorted {x y : α} (sub : [x, y] <+ items.mergeSort le) : le x y = true :=
    List.pairwise_iff_forall_sublist.mp on.pairwise_mergeSort sub
  constructor
  · intro sub
    refine ⟨sorted sub, fun above => ?_⟩
    rcases pair_sublist_or distinct inA inB with kept | swapped
    · exact kept
    · have nodup' : (items.mergeSort le).Nodup := (List.mergeSort_perm items le).nodup_iff.mpr nodup
      exact (not_both_orders nodup' sub (on.pair_sublist above swapped)).elim
  · rintro ⟨below, tied⟩
    have same := List.mergeSort_perm items le
    rcases pair_sublist_or distinct (same.mem_iff.mpr inA) (same.mem_iff.mpr inB) with kept | swapped
    · exact kept
    · exact on.pair_sublist below (tied (sorted swapped))

/-- Two items come in the order of their images. -/
theorem pair_sublist_map_iff {β : Type} {f : α → β} {items : List α} (nodup : (items.map f).Nodup)
    {a b : α} (inA : a ∈ items) (inB : b ∈ items) :
    [f a, f b] <+ items.map f ↔ [a, b] <+ items := by
  constructor
  · intro sub
    obtain ⟨pair, sub', pairEq⟩ := List.sublist_map_iff.mp sub
    have two := congrArg List.length pairEq
    rw [List.length_map] at two
    obtain ⟨a', b', rfl⟩ := List.length_eq_two.mp two.symm
    rw [List.map_cons, List.map_singleton, List.cons_eq_cons, List.cons_eq_cons] at pairEq
    rw [List.inj_on_of_nodup_map nodup inA (sub'.subset (by simp)) pairEq.1,
      List.inj_on_of_nodup_map nodup inB (sub'.subset (by simp)) pairEq.2.1]
    exact sub'
  · intro sub
    exact sub.map f

/-- Two arrangements of the same items sort to one list exactly when tied items come in the
same order. -/
theorem mergeSort_eq_iff {items items' : List α} (on : PreordersOn le items)
    (nodup : items.Nodup) (perm : items.Perm items') :
    items.mergeSort le = items'.mergeSort le ↔
      ∀ a b, le a b → le b a → [a, b] <+ items → [a, b] <+ items' := by
  have on' := on.perm perm
  have sortedNodup := (List.mergeSort_perm items le).nodup_iff.mpr nodup
  have sortedNodup' := (List.mergeSort_perm items' le).nodup_iff.mpr (perm.nodup_iff.mp nodup)
  constructor
  · intro same a b below above sub
    have distinct : a ≠ b := by
      rintro rfl
      exact not_both_orders nodup sub sub
    have inA := perm.mem_iff.mp (sub.subset (by simp : a ∈ [a, b]))
    have inB := perm.mem_iff.mp (sub.subset (by simp : b ∈ [a, b]))
    apply (pair_sublist_or distinct inA inB).resolve_right
    intro swapped
    have kept := on.pair_sublist below sub
    rw [same] at kept
    exact not_both_orders sortedNodup' kept (on'.pair_sublist above swapped)
  · intro order
    have back (a b : α) (below : le a b) (above : le b a) (sub : [a, b] <+ items') :
        [a, b] <+ items := by
      have distinct : a ≠ b := by
        rintro rfl
        exact not_both_orders (perm.nodup_iff.mp nodup) sub sub
      have inA := perm.mem_iff.mpr (sub.subset (by simp : a ∈ [a, b]))
      have inB := perm.mem_iff.mpr (sub.subset (by simp : b ∈ [a, b]))
      apply (pair_sublist_or distinct inA inB).resolve_right
      intro swapped
      exact not_both_orders (perm.nodup_iff.mp nodup) sub (order b a above below swapped)
    have refined {arranged : List α} (preorders : PreordersOn le arranged)
        (distinct : (arranged.mergeSort le).Nodup)
        (orders : ∀ a b, le a b → le b a → [a, b] <+ arranged → [a, b] <+ items) :
        (arranged.mergeSort le).Pairwise fun a b => le a b ∧ (le b a → [a, b] <+ items) := by
      rw [List.pairwise_iff_forall_sublist]
      intro a b sub
      have below := List.pairwise_iff_forall_sublist.mp preorders.pairwise_mergeSort sub
      refine ⟨below, ?_⟩
      intro above
      apply orders a b below above
      have apart : a ≠ b := by
        rintro rfl
        exact not_both_orders distinct sub sub
      have inA := List.mem_mergeSort.mp (sub.subset (by simp : a ∈ [a, b]))
      have inB := List.mem_mergeSort.mp (sub.subset (by simp : b ∈ [a, b]))
      apply (pair_sublist_or apart inA inB).resolve_right
      intro swapped
      exact not_both_orders distinct sub (preorders.pair_sublist above swapped)
    apply List.Perm.eq_of_pairwise _ (refined on sortedNodup fun _ _ _ _ sub => sub)
      (refined on' sortedNodup' back)
    · exact (List.mergeSort_perm items le).trans (perm.trans (List.mergeSort_perm items' le).symm)
    · intro a b _ _ forth other
      exact absurd (other.2 forth.1) fun swapped =>
        not_both_orders nodup (forth.2 other.1) swapped

/-- Items that sort as they do in reverse are not tied. -/
theorem PreordersOn.eq_of_reverse {items : List α} (on : PreordersOn le items)
    (nodup : items.Nodup) (same : items.mergeSort le = items.reverse.mergeSort le) :
    ∀ a ∈ items, ∀ b ∈ items, le a b → le b a → a = b := by
  intro a inA b inB below above
  by_contra distinct
  have reversed := List.reverse_perm items
  have kept := (mergeSort_eq_iff on nodup reversed.symm).mp same
  have nodup' : items.reverse.Nodup := reversed.nodup_iff.mpr nodup
  rcases pair_sublist_or distinct inA inB with sub | sub
  · exact not_both_orders nodup' (kept a b below above sub) (by simpa using sub.reverse)
  · exact not_both_orders nodup' (kept b a above below sub) (by simpa using sub.reverse)

/-- Sorting forgets how items were arranged if no two of them are tied. -/
theorem PreordersOn.mergeSort_of_perm {items items' : List α} (on : PreordersOn le items)
    (nodup : items.Nodup) (perm : items.Perm items')
    (apart : ∀ a ∈ items, ∀ b ∈ items, le a b → le b a → a = b) :
    items.mergeSort le = items'.mergeSort le := by
  rw [mergeSort_eq_iff on nodup perm]
  intro a b below above sub
  have same := apart a (sub.subset (by simp)) b (sub.subset (by simp)) below above
  subst same
  exact (not_both_orders nodup sub sub).elim

/-! ## Sorting by a key -/

section Key

variable {β : Type} [LinearOrder β] {key : α → β} {relation : α → α → Prop}

/-- A stable sort that runs by evaluation. -/
def sortByKey (key : α → β) (items : List α) : List α :=
  items.insertionSort fun a b => key a ≤ key b

theorem sortByKey_perm (items : List α) : sortByKey key items ~ items :=
  List.perm_insertionSort _ items

@[simp] theorem mem_sortByKey {items : List α} {item : α} :
    item ∈ sortByKey key items ↔ item ∈ items := (sortByKey_perm items).mem_iff

theorem pairwise_orderedInsert {item : α} {items : List α}
    (sorted : items.Pairwise fun a b => key a ≤ key b ∧ (key a = key b → relation a b))
    (first : ∀ other ∈ items, relation item other) :
    (items.orderedInsert (fun a b => key a ≤ key b) item).Pairwise fun a b =>
      key a ≤ key b ∧ (key a = key b → relation a b) := by
  induction items with
  | nil => exact List.pairwise_singleton _ _
  | cons head rest ih =>
      obtain ⟨least, sorted'⟩ := List.pairwise_cons.mp sorted
      rw [List.orderedInsert_cons]
      split
      · next below =>
          refine List.pairwise_cons.mpr
            ⟨fun other member => ⟨?_, fun _ => first other member⟩, sorted⟩
          rcases List.mem_cons.mp member with rfl | member
          · exact below
          · exact below.trans (least other member).1
      · next above =>
          have above := lt_of_not_ge above
          refine List.pairwise_cons.mpr ⟨fun other member => ?_,
            ih sorted' fun other member => first other (List.mem_cons_of_mem _ member)⟩
          rcases (List.mem_orderedInsert _).mp member with rfl | member
          · exact ⟨above.le, fun tied => absurd tied above.ne⟩
          · exact least other member

variable (key) in
/-- Items with one key keep the order they come in. -/
theorem pairwise_sortByKey {items : List α} (arranged : items.Pairwise relation) :
    (sortByKey key items).Pairwise fun a b =>
      key a ≤ key b ∧ (key a = key b → relation a b) := by
  induction items with
  | nil => exact .nil
  | cons item rest ih =>
      obtain ⟨first, arranged⟩ := List.pairwise_cons.mp arranged
      exact pairwise_orderedInsert (ih arranged) fun other member =>
        first other (mem_sortByKey.mp member)

end Key

end AiCoreStack.Foundation.StableSort
