import Mathlib

/-!
# Pieces of a list

A list can be cut at some of its items, and each part of it again at others.  Without the second
cut as many pieces come out exactly when no part has two of them that are not empty.  Texts
joined by a separator are determined by the whole when each shows where it ends.
-/

namespace AiCoreStack.Foundation.Pieces

variable {α β : Type}

/-- Cutting what is read off a list is reading off what the list is cut into. -/
theorem splitOnP_filterMap {f : α → Option β} {cuts : β → Bool} {marks : α → Bool}
    (same : ∀ a, marks a = (f a).any cuts) (list : List α) :
    (list.filterMap f).splitOnP cuts = (list.splitOnP marks).map (List.filterMap f) := by
  induction list with
  | nil => rfl
  | cons a rest ih =>
      obtain ⟨part, parts, split⟩ := List.exists_cons_of_ne_nil (List.splitOnP_ne_nil marks rest)
      rw [split, List.map_cons] at ih
      rw [List.filterMap_cons, List.splitOnP_cons_eq_if_modifyHead, same, split]
      cases read : f a with
      | none => simpa [read] using ih
      | some b =>
          dsimp only
          rw [List.splitOnP_cons_eq_if_modifyHead, ih, Option.any_some]
          cases cuts b <;> simp [read]

/-- Cutting at items that nothing is read off loses nothing. -/
theorem flatten_splitOnP_filterMap {f : α → Option β} {marks : α → Bool}
    (silent : ∀ a, marks a = true → f a = none) (list : List α) :
    ((list.splitOnP marks).map (List.filterMap f)).flatten = list.filterMap f := by
  induction list with
  | nil => rfl
  | cons a rest ih =>
      obtain ⟨part, parts, split⟩ := List.exists_cons_of_ne_nil (List.splitOnP_ne_nil marks rest)
      rw [split, List.map_cons, List.flatten_cons] at ih
      rw [List.splitOnP_cons_eq_if_modifyHead, split, List.filterMap_cons, ← ih]
      cases marked : marks a with
      | true => simp [silent a marked]
      | false => cases read : f a <;> simp [read]

/-! ## Joined pieces -/

/-- The pieces that are not empty. -/
def filled (pieces : List (List α)) : List (List α) := pieces.filter fun piece => !piece.isEmpty

theorem filled_append (pieces pieces' : List (List α)) :
    filled (pieces ++ pieces') = filled pieces ++ filled pieces' := List.filter_append ..

theorem flatten_filled (pieces : List (List α)) : (filled pieces).flatten = pieces.flatten := by
  induction pieces with
  | nil => rfl
  | cons piece rest ih =>
      rw [filled, List.filter_cons]
      split
      next => rw [List.flatten_cons, List.flatten_cons, ← filled, ih]
      next empty =>
        have isNil : piece = [] := by simpa using empty
        rw [← filled, ih, isNil]
        rfl

theorem filled_single_eq_nil {piece : List α} : filled [piece] = [] ↔ piece = [] := by
  cases piece <;> simp [filled]

theorem length_filled_single (piece : List α) : (filled [piece]).length ≤ 1 :=
  List.length_filter_le _ _

/-- A single piece is what joining leaves. -/
theorem filled_flatten {pieces : List (List α)} (single : (filled pieces).length ≤ 1) :
    filled [pieces.flatten] = filled pieces := by
  rw [← flatten_filled]
  cases kept : filled pieces with
  | nil => rfl
  | cons piece rest =>
      rw [kept, List.length_cons] at single
      obtain rfl := List.eq_nil_of_length_eq_zero (Nat.le_zero.mp (Nat.le_of_succ_le_succ single))
      have nonempty : piece ∈ filled pieces := by simp [kept]
      rw [List.flatten_singleton, filled]
      exact List.filter_cons_of_pos (List.mem_filter.mp nonempty).2

theorem length_filled_flatten_le (pieces : List (List α)) :
    (filled [pieces.flatten]).length ≤ (filled pieces).length := by
  by_cases single : (filled pieces).length ≤ 1
  · exact (congrArg List.length (filled_flatten single)).le
  · have one := length_filled_single pieces.flatten
    omega

/-- Nothing is left of pieces that are all empty, joined or apart. -/
theorem filled_flatten_eq_nil_iff {pieces : List (List α)} :
    filled [pieces.flatten] = [] ↔ filled pieces = [] := by
  rw [filled_single_eq_nil, List.flatten_eq_nil_iff, filled, List.filter_eq_nil_iff]
  simp

/-- Joining the pieces of each group leaves as many exactly when no group has two of them. -/
theorem length_joined_iff (groups : List (List (List α))) :
    (groups.flatMap fun pieces => filled [pieces.flatten]).length =
        (groups.flatMap filled).length ↔
      ∀ pieces ∈ groups, (filled pieces).length ≤ 1 := by
  induction groups with
  | nil => simp
  | cons pieces rest ih =>
      have within := length_filled_flatten_le pieces
      have others : (rest.flatMap fun pieces => filled [pieces.flatten]).length ≤
          (rest.flatMap filled).length := by
        rw [List.length_flatMap, List.length_flatMap]
        exact List.sum_le_sum fun group _ => length_filled_flatten_le group
      rw [List.flatMap_cons, List.flatMap_cons, List.length_append, List.length_append,
        List.forall_mem_cons, ← ih]
      constructor
      · intro same
        have one := length_filled_single pieces.flatten
        omega
      · rintro ⟨single, same⟩
        rw [filled_flatten single, same]

/-- Reading off each group. -/
theorem filled_map (read : β → List α) (items : List β) :
    filled (items.map read) = items.flatMap fun item => filled [read item] := by
  induction items with
  | nil => rfl
  | cons item rest ih =>
      rw [List.map_cons, ← List.singleton_append, filled_append, ih, List.flatMap_cons]

/-- Empty pieces that stay empty can be left out before. -/
theorem filled_map_filled {read : List β → List α} (empty : read [] = []) (pieces : List (List β)) :
    filled ((filled pieces).map read) = filled (pieces.map read) := by
  induction pieces with
  | nil => rfl
  | cons piece rest ih =>
      rw [← List.singleton_append, filled_append, List.map_append, filled_append, ih,
        List.map_append, filled_append]
      cases piece with
      | nil => simp [filled, empty]
      | cons a piece => rfl

/-- Groups of single pieces are what joining leaves. -/
theorem joined_eq {groups : List (List (List α))}
    (single : ∀ pieces ∈ groups, (filled pieces).length ≤ 1) :
    (groups.flatMap fun pieces => filled [pieces.flatten]) = groups.flatMap filled :=
  List.flatMap_congr fun pieces member => filled_flatten (single pieces member)

theorem joined_eq_nil_iff {groups : List (List (List α))} :
    (groups.flatMap fun pieces => filled [pieces.flatten]) = [] ↔ groups.flatMap filled = [] := by
  rw [List.flatMap_eq_nil_iff, List.flatMap_eq_nil_iff]
  exact forall₂_congr fun pieces _ => filled_flatten_eq_nil_iff

/-! ## Separators -/

/-- What can stand behind a part: nothing, or a separator. -/
def Follows (separator rest : List α) : Prop := rest = [] ∨ separator <+: rest

/-- Items whose texts show where they end are determined by the whole. -/
theorem intercalate_injective {separator : List α} (nonempty : separator ≠ [])
    {render : β → List α} {Valid : β → Prop}
    (ends : ∀ {item item' : β} {rest rest' : List α}, Valid item → Valid item' →
      Follows separator rest → Follows separator rest' →
      render item ++ rest = render item' ++ rest' → item = item')
    {items items' : List β} (present : items ≠ []) (present' : items' ≠ [])
    (valid : ∀ item ∈ items, Valid item) (valid' : ∀ item ∈ items', Valid item)
    (same : separator.intercalate (items.map render) = separator.intercalate (items'.map render)) :
    items = items' := by
  have stands (tail : List α) : Follows separator (separator ++ tail) :=
    .inr (List.prefix_append _ _)
  have closed : Follows separator [] := .inl rfl
  -- one item is not several
  have single {item item' : β} {next : List α} (first : Valid item) (first' : Valid item')
      (whole : render item ++ [] = render item' ++ (separator ++ next)) : False := by
    obtain rfl := ends first first' closed (stands _) whole
    have empty := List.append_cancel_left whole
    simp [nonempty] at empty
  induction items generalizing items' with
  | nil => exact absurd rfl present
  | cons item rest ih =>
      obtain ⟨item', rest', rfl⟩ := List.exists_cons_of_ne_nil present'
      have first := valid item List.mem_cons_self
      have first' := valid' item' List.mem_cons_self
      cases rest with
      | nil =>
          cases rest' with
          | nil =>
              have whole : render item ++ [] = render item' ++ [] := by simpa using same
              rw [ends first first' closed closed whole]
          | cons second' rest' =>
              rw [List.map_singleton, List.map_cons, List.map_cons, List.intercalate_singleton,
                ← List.append_nil (render item), List.intercalate_cons_cons, List.append_assoc]
                at same
              exact (single first first' same).elim
      | cons second rest =>
          cases rest' with
          | nil =>
              rw [List.map_singleton, List.map_cons, List.map_cons, List.intercalate_singleton,
                ← List.append_nil (render item'), List.intercalate_cons_cons, List.append_assoc]
                at same
              exact (single first' first same.symm).elim
          | cons second' rest' =>
              rw [List.map_cons, List.map_cons, List.map_cons, List.map_cons,
                List.intercalate_cons_cons, List.intercalate_cons_cons, List.append_assoc,
                List.append_assoc] at same
              obtain rfl := ends first first' (stands _) (stands _) same
              have others := List.append_cancel_left (List.append_cancel_left same)
              rw [ih (by simp) (by simp) (fun item member => valid item (.tail _ member))
                (fun item member => valid' item (.tail _ member)) others]

end AiCoreStack.Foundation.Pieces
