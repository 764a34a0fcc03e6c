import Mathlib

/-!
# Flood fill

The invariant of a flood fill that marks a node when it goes on the stack, as a rule for each
step of the loop.  What is marked in front of a fill is closed under the edges of the graph; at
the end the fill has visited what its start reaches.
-/

namespace AiCoreStack.Foundation

open Relation

variable {α : Type} {edge : α → α → Prop} {start : α} {before marked : Set α}
variable {popped stack pending : List α}

/-- Nodes are marked when they go on the stack.  The pending nodes are still to be tried. -/
structure Flood (edge : α → α → Prop) (start : α) (before : Set α) (popped stack : List α)
    (marked : Set α) (pending : List α) : Prop where
  marked_iff : ∀ x, x ∈ marked ↔ x ∈ before ∨ x ∈ popped ++ stack
  fresh : ∀ x ∈ popped ++ stack, x ∉ before
  nodup : (popped ++ stack).Nodup
  reached : ∀ x ∈ popped ++ stack, ReflTransGen edge start x
  begun : start ∈ popped ++ stack
  closed : ∀ x ∈ popped, ∀ y, edge x y → y ∈ marked ∨ y ∈ pending

namespace Flood

variable (edge) in
theorem init (unmarked : start ∉ before) :
    Flood edge start before [] [start] (insert start before) [] where
  marked_iff x := by
    rw [Set.mem_insert_iff, List.nil_append, List.mem_singleton, or_comm]
  fresh x member := by
    obtain rfl := List.mem_singleton.mp member
    exact unmarked
  nodup := List.nodup_singleton start
  reached x member := by
    obtain rfl := List.mem_singleton.mp member
    exact .refl
  begun := List.mem_singleton_self start
  closed x member := absurd member List.not_mem_nil

/-- Take a node from the stack; its neighbours are to be tried. -/
theorem pop {node : α} (flood : Flood edge start before popped (node :: stack) marked [])
    (pending : List α) (targets : ∀ y, edge node y → y ∈ pending) :
    Flood edge start before (popped ++ [node]) stack marked pending := by
  have same : popped ++ [node] ++ stack = popped ++ node :: stack := by simp
  refine ⟨same ▸ flood.marked_iff, same ▸ flood.fresh, same ▸ flood.nodup, same ▸ flood.reached,
    same ▸ flood.begun, fun x member y follows => ?_⟩
  rcases List.mem_append.mp member with older | newest
  · exact .inl ((flood.closed x older y follows).resolve_right List.not_mem_nil)
  · obtain rfl := List.mem_singleton.mp newest
    exact .inr (targets y follows)

/-- A node that is marked, or that no edge leads to, is not tried again. -/
theorem skip {node : α} (flood : Flood edge start before popped stack marked (node :: pending))
    (done : node ∈ marked ∨ ∀ x, ¬ edge x node) :
    Flood edge start before popped stack marked pending := by
  refine { flood with closed := fun x member y follows => ?_ }
  rcases flood.closed x member y follows with inside | tried
  · exact .inl inside
  · rcases List.mem_cons.mp tried with rfl | later
    · exact .inl (done.resolve_right fun isolated => isolated x follows)
    · exact .inr later

/-- Put a node on the stack and mark it. -/
theorem push {node source : α}
    (flood : Flood edge start before popped stack marked (node :: pending))
    (unmarked : node ∉ marked) (inside : source ∈ popped) (follows : edge source node) :
    Flood edge start before popped (node :: stack) (insert node marked) pending := by
  have notBefore : node ∉ before := fun member =>
    unmarked ((flood.marked_iff node).mpr (.inl member))
  have notHeld : node ∉ popped ++ stack := fun member =>
    unmarked ((flood.marked_iff node).mpr (.inr member))
  have spread {x : α} : x ∈ popped ++ node :: stack ↔ x = node ∨ x ∈ popped ++ stack :=
    List.perm_middle.mem_iff.trans List.mem_cons
  refine ⟨fun x => ?_, fun x member => ?_, ?_, fun x member => ?_, spread.mpr (.inr flood.begun),
    fun x member y next => ?_⟩
  · rw [Set.mem_insert_iff, spread, flood.marked_iff]
    tauto
  · rcases spread.mp member with rfl | member
    · exact notBefore
    · exact flood.fresh x member
  · exact List.perm_middle.nodup_iff.mpr (List.nodup_cons.mpr ⟨notHeld, flood.nodup⟩)
  · rcases spread.mp member with rfl | member
    · exact (flood.reached source (List.mem_append_left _ inside)).tail follows
    · exact flood.reached x member
  · rcases flood.closed x member y next with held | tried
    · exact .inl (Set.mem_insert_of_mem _ held)
    · rcases List.mem_cons.mp tried with rfl | later
      · exact .inl (Set.mem_insert _ _)
      · exact .inr later

/-- When the stack is empty, the fill has visited what its start reaches. -/
theorem mem_popped_iff (flood : Flood edge start before popped [] marked [])
    (isolated : ∀ x y, edge x y → y ∈ before → x ∈ before) {x : α} :
    x ∈ popped ↔ ReflTransGen edge start x := by
  have all := List.append_nil popped
  constructor
  · intro member
    exact flood.reached x (all.symm ▸ member)
  · intro reaches
    induction reaches with
    | refl => exact all ▸ flood.begun
    | @tail y z _ follows ih =>
        have held := (flood.closed y ih z follows).resolve_right List.not_mem_nil
        rcases (flood.marked_iff z).mp held with old | new
        · exact absurd (isolated y z follows old) (flood.fresh y (List.mem_append_left _ ih))
        · exact all ▸ new

/-- A fill visits no more nodes than there are. -/
theorem length_le (flood : Flood edge start before popped stack marked pending) (nodes : List α)
    (bounded : ∀ x ∈ popped ++ stack, x ∈ nodes) :
    popped.length + stack.length ≤ nodes.length := by
  rw [← List.length_append]
  exact (List.subperm_of_subset flood.nodup bounded).length_le

end Flood

end AiCoreStack.Foundation
