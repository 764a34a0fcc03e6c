import AiCoreStack.Foundation.CheckedBuffers

/-!
# Writes in any order

Threads that run side by side write into one buffer.  If no place is written twice, then the buffer
that they leave does not depend on the order of the writes.
-/

namespace AiCoreStack.Foundation

open scoped List

variable {α β : Type}

/-- An order in which the writes of threads happen. -/
structure Schedule where
  arrange : ∀ {α : Type}, List α → List α
  perm : ∀ {α : Type} (writes : List α), arrange writes ~ writes

/-- The order of the threads. -/
def Schedule.inOrder : Schedule where
  arrange writes := writes
  perm writes := List.Perm.refl writes

/-- Write values to their places.  A place outside the buffer fails. -/
def scatter (buffer : List α) (writes : List (Nat × α)) : Option (List α) :=
  writes.foldlM (fun buffer write =>
    if write.1 < buffer.length then some (buffer.set write.1 write.2) else none) buffer

/-- Each place is within a buffer of some length, and is written exactly once. -/
def WritesOnce (length : Nat) (writes : List (Nat × α)) : Prop :=
  writes.map Prod.fst ~ List.range length

theorem inside_set {buffer : List α} {writes : List (Nat × β)}
    (inside : ∀ write ∈ writes, write.1 < buffer.length) (i : Nat) (value : α) :
    ∀ write ∈ writes, write.1 < (buffer.set i value).length := by
  simpa only [List.length_set] using inside

theorem scatter_spec {buffer : List α} {writes : List (Nat × α)}
    (inside : ∀ write ∈ writes, write.1 < buffer.length) (distinct : (writes.map Prod.fst).Nodup) :
    ∃ after, scatter buffer writes = some after ∧ after.length = buffer.length ∧
      (∀ write ∈ writes, after[write.1]? = some write.2) ∧
      ∀ i, i ∉ writes.map Prod.fst → after[i]? = buffer[i]? := by
  induction writes generalizing buffer with
  | nil => exact ⟨buffer, rfl, rfl, by simp, fun _ _ => rfl⟩
  | cons write rest ih =>
      obtain ⟨first, later⟩ := List.forall_mem_cons.mp inside
      rw [List.map_cons, List.nodup_cons] at distinct
      obtain ⟨fresh, distinct⟩ := distinct
      obtain ⟨after, ran, long, written, kept⟩ := ih (inside_set later write.1 write.2) distinct
      refine ⟨after, ?_, by rw [long, List.length_set], ?_, ?_⟩
      · rw [scatter, List.foldlM_cons, if_pos first]
        exact ran
      · intro other member
        rcases List.mem_cons.mp member with rfl | member
        · rw [kept _ fresh, List.getElem?_set, if_pos rfl, if_pos first]
        · exact written other member
      · intro i outside
        rw [List.map_cons, List.mem_cons, not_or] at outside
        rw [kept i outside.2, List.getElem?_set, if_neg (Ne.symm outside.1)]

/-- Writes that fill the front of a buffer, in whatever order. -/
theorem scatter_once (buffer : List α) {writes arranged : List (Nat × α)} {length : Nat}
    (once : WritesOnce length writes) (perm : arranged ~ writes) (fits : length ≤ buffer.length)
    {value : Nat → α} (values : ∀ write ∈ writes, write.2 = value write.1) :
    ∃ after, scatter buffer arranged = some after ∧ after.length = buffer.length ∧
      after.take length = (List.range length).map value := by
  have places : arranged.map Prod.fst ~ List.range length := (perm.map Prod.fst).trans once
  have inside : ∀ write ∈ arranged, write.1 < buffer.length := by
    intro write member
    have place := places.mem_iff.mp (List.mem_map_of_mem member)
    exact (List.mem_range.mp place).trans_le fits
  obtain ⟨after, ran, long, written, -⟩ := scatter_spec inside
    (places.nodup_iff.mpr List.nodup_range)
  refine ⟨after, ran, long, List.ext_getElem? fun i => ?_⟩
  by_cases below : i < length
  · obtain ⟨write, member, rfl⟩ := List.mem_map.mp (places.mem_iff.mpr (List.mem_range.mpr below))
    rw [List.getElem?_take_of_lt below, written write member,
      values write (perm.mem_iff.mp member)]
    simp [below]
  · rw [List.getElem?_eq_none (by rw [List.length_take]; omega),
      List.getElem?_eq_none (by simpa using below)]

/-! ## Places of threads -/

/-- Nested loops in the other order. -/
theorem flatMap_swap {γ : Type} (items : List α) (others : List β) (f : α → β → List γ) :
    (items.flatMap fun a => others.flatMap fun b => f a b) ~
      others.flatMap fun b => items.flatMap fun a => f a b := by
  induction items with
  | nil => simp
  | cons item rest ih =>
      simp only [List.flatMap_cons]
      exact (ih.append_left _).trans (List.flatMap_append_perm others _ _)

/-- Threads that take the places with a stride of their number cover all places. -/
theorem strided_perm (width count : Nat) :
    ((List.range width).flatMap fun lid => (List.range count).map fun s => lid + width * s) ~
      List.range (count * width) := by
  induction count with
  | zero => simp
  | succ count ih =>
      have split (lid : Nat) : ((List.range (count + 1)).map fun s => lid + width * s) =
          ((List.range count).map fun s => lid + width * s) ++ [lid + width * count] := by
        rw [List.range_succ, List.map_append, List.map_singleton]
      have last : ((List.range width).flatMap fun lid => [lid + width * count]) =
          (List.range width).map (count * width + ·) := by
        rw [← List.flatMap_pure_eq_map]
        simp only [Nat.add_comm, Nat.mul_comm]
        rfl
      simp only [split]
      rw [Nat.succ_mul, List.range_add, ← last]
      exact (List.flatMap_append_perm _ _ _).symm.trans (ih.append_right _)

end AiCoreStack.Foundation
