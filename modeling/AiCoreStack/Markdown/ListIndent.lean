import AiCoreStack.Markdown.Renderer

/-!
# Nesting of rendered lists

A line belongs to the item above it when it starts at the content of that item or less than
four columns behind it.  `render_list` indents by two columns for each depth, so sublists keep their
nesting exactly below bullets: behind an ordered marker the content starts at the third column or
later.
-/

namespace AiCoreStack.Markdown

open AiCoreStack.Foundation

/-! ## Columns -/

/-- The number of blanks at the start of a line. -/
def leadingBlanks (line : List Char) : Nat := (line.takeWhile (· == ' ')).length

/-- The column behind the marker of an item and one blank. -/
def contentColumn (line : List Char) : Nat :=
  leadingBlanks line + ((line.dropWhile (· == ' ')).takeWhile (· != ' ')).length + 1

/-- A line is read as part of an item. -/
def BelongsTo (line item : List Char) : Prop :=
  contentColumn item ≤ leadingBlanks line ∧ leadingBlanks line < contentColumn item + 4

/-- The line of an item, with the line of the item it is nested in. -/
structure ItemLine where
  text : List Char
  parent : Option (List Char)

/-- The line that an item starts with. -/
def itemText (ordered : Bool) (index depth : Nat) (content : List Inline) : List Char :=
  indent depth ++ marker ordered index ++ ' ' :: renderInlines content ++ ['\n']

mutual

def itemLines (parent : Option (List Char)) (ordered : Bool) (index depth : Nat) :
    ListItem → List ItemLine
  | .mk content sublist =>
      ⟨itemText ordered index depth content, parent⟩ ::
        sublistLines (itemText ordered index depth content) (depth + 1) sublist

def sublistLines (parent : List Char) (depth : Nat) : Option NestedList → List ItemLine
  | none => []
  | some (.mk ordered items) => itemLinesFrom (some parent) ordered 0 depth items

def itemLinesFrom (parent : Option (List Char)) (ordered : Bool) (index depth : Nat) :
    List ListItem → List ItemLine
  | [] => []
  | item :: rest =>
      itemLines parent ordered index depth item ++
        itemLinesFrom parent ordered (index + 1) depth rest

end

/-- The lines of a list, item by item. -/
def listLines (ordered : Bool) (items : List ListItem) (depth : Nat) : List ItemLine :=
  itemLinesFrom none ordered 0 depth items

mutual

theorem flatMap_itemLines (parent : Option (List Char)) (ordered : Bool) (index depth : Nat) :
    (item : ListItem) →
    (itemLines parent ordered index depth item).flatMap ItemLine.text =
      renderItem ordered index depth item
  | .mk content sublist => by
      rw [itemLines, List.flatMap_cons, flatMap_sublistLines, renderItem, itemText]
      simp only [List.append_assoc, List.singleton_append]

theorem flatMap_sublistLines (parent : List Char) (depth : Nat) :
    (sublist : Option NestedList) →
    (sublistLines parent depth sublist).flatMap ItemLine.text = renderSublist depth sublist
  | none => by rw [sublistLines, renderSublist, List.flatMap_nil]
  | some (.mk ordered items) => by
      rw [sublistLines, renderSublist]
      exact flatMap_itemLinesFrom _ ordered 0 depth items

theorem flatMap_itemLinesFrom (parent : Option (List Char)) (ordered : Bool) (index depth : Nat) :
    (items : List ListItem) →
    (itemLinesFrom parent ordered index depth items).flatMap ItemLine.text =
      renderListFrom ordered index depth items
  | [] => by rw [itemLinesFrom, renderListFrom, List.flatMap_nil]
  | item :: rest => by
      rw [itemLinesFrom, renderListFrom, List.flatMap_append, flatMap_itemLines,
        flatMap_itemLinesFrom]

end

/-- What is rendered is the lines of the items. -/
theorem flatMap_listLines (ordered : Bool) (items : List ListItem) (depth : Nat) :
    (listLines ordered items depth).flatMap ItemLine.text = renderList ordered items depth :=
  flatMap_itemLinesFrom none ordered 0 depth items

/-! ## Columns of an item -/

/-- A marker has no blanks and is not empty. -/
theorem marker_solid (ordered : Bool) (index : Nat) : ∀ c ∈ marker ordered index, c ≠ ' ' := by
  cases ordered with
  | false =>
      intro c member
      obtain rfl := List.mem_singleton.mp member
      decide
  | true =>
      intro c member
      rcases List.mem_append.mp member with digit | point
      · rintro rfl
        exact notMem_toDigits (by decide) (index + 1) digit
      · obtain rfl := List.mem_singleton.mp point
        decide

theorem length_marker (ordered : Bool) (index : Nat) :
    (marker ordered index).length =
      if ordered then (Nat.toDigits 10 (index + 1)).length + 1 else 1 := by
  cases ordered with
  | false => rfl
  | true => exact List.length_append

theorem marker_ne_nil (ordered : Bool) (index : Nat) : marker ordered index ≠ [] := by
  rw [← List.length_pos_iff_ne_nil, length_marker]
  split <;> omega

section Item

variable (ordered : Bool) (index depth : Nat) (content : List Inline)

theorem takeWhile_itemText :
    (itemText ordered index depth content).takeWhile (· == ' ') = indent depth ∧
      (itemText ordered index depth content).dropWhile (· == ' ') =
        marker ordered index ++ ' ' :: (renderInlines content ++ ['\n']) := by
  have blanks : ∀ c ∈ indent depth, (c == ' ') = true := by
    intro c member
    rw [(List.mem_replicate.mp member).2]
    rfl
  have parts : itemText ordered index depth content =
      indent depth ++ (marker ordered index ++ ' ' :: (renderInlines content ++ ['\n'])) := by
    simp only [itemText, List.append_assoc, List.cons_append]
  have solid := marker_solid ordered index
  rw [parts, List.takeWhile_append_of_pos blanks, List.dropWhile_append_of_pos blanks]
  cases front : marker ordered index with
  | nil => exact absurd front (marker_ne_nil ordered index)
  | cons c rest =>
      have start : (c == ' ') = false := by
        rw [beq_eq_false_iff_ne]
        exact solid c (by rw [front]; exact List.mem_cons_self)
      simp [start]

theorem leadingBlanks_itemText :
    leadingBlanks (itemText ordered index depth content) = 2 * depth := by
  rw [leadingBlanks, (takeWhile_itemText ordered index depth content).1, indent,
    List.length_replicate]

theorem contentColumn_itemText :
    contentColumn (itemText ordered index depth content) =
      2 * depth + (marker ordered index).length + 1 := by
  have solid : ∀ c ∈ marker ordered index, (c != ' ') = true :=
    fun c member => bne_iff_ne.mpr (marker_solid ordered index c member)
  rw [contentColumn, leadingBlanks_itemText, (takeWhile_itemText ordered index depth content).2,
    List.takeWhile_append_of_pos solid, List.takeWhile_cons, if_neg (by decide), List.append_nil]

end Item

/-! ## Lists -/

/-- Every line of a nested item belongs to the item it is nested in. -/
def KeepsNesting (lines : List ItemLine) : Prop :=
  ∀ line ∈ lines, ∀ parent ∈ line.parent, BelongsTo line.text parent

mutual

/-- Only bullets have items nested in them. -/
def itemBulleted (ordered : Bool) : ListItem → Bool
  | .mk _ sublist => sublistBulleted ordered sublist

def sublistBulleted (ordered : Bool) : Option NestedList → Bool
  | none => true
  | some (.mk inner items) => (items.isEmpty || !ordered) && itemsBulleted inner items

def itemsBulleted (ordered : Bool) : List ListItem → Bool
  | [] => true
  | item :: rest => itemBulleted ordered item && itemsBulleted ordered rest

end

theorem keepsNesting_append (left right : List ItemLine) :
    KeepsNesting (left ++ right) ↔ KeepsNesting left ∧ KeepsNesting right :=
  List.forall_mem_append

theorem keepsNesting_cons (line : ItemLine) (lines : List ItemLine) :
    KeepsNesting (line :: lines) ↔
      (∀ parent ∈ line.parent, BelongsTo line.text parent) ∧ KeepsNesting lines :=
  List.forall_mem_cons

/-- The item above, if any, takes the lines of a depth. -/
def Hosts (parent : Option (List Char)) (depth : Nat) : Prop :=
  ∀ item ∈ parent, contentColumn item ≤ 2 * depth ∧ 2 * depth < contentColumn item + 4

theorem hosts_itemText (ordered : Bool) (index depth : Nat) (content : List Inline) :
    Hosts (some (itemText ordered index depth content)) (depth + 1) ↔ ordered = false := by
  have digits : 0 < (Nat.toDigits 10 (index + 1)).length :=
    List.length_pos_iff_ne_nil.mpr Nat.toDigits_ne_nil
  have column := contentColumn_itemText ordered index depth content
  rw [length_marker] at column
  simp only [Hosts, Option.mem_some_iff, forall_eq', column]
  cases ordered with
  | false =>
      simp only [Bool.false_eq_true, if_false, iff_true]
      omega
  | true =>
      simp only [if_true, Bool.true_eq_false, iff_false]
      omega

mutual

theorem keepsNesting_item (parent : Option (List Char)) (ordered : Bool) (index depth : Nat) :
    (item : ListItem) →
    (KeepsNesting (itemLines parent ordered index depth item) ↔
      Hosts parent depth ∧ itemBulleted ordered item = true)
  | .mk content sublist => by
      rw [itemLines, keepsNesting_cons, keepsNesting_sublist, itemBulleted]
      simp only [BelongsTo, leadingBlanks_itemText, Hosts]

theorem keepsNesting_sublist (ordered : Bool) (index depth : Nat) (content : List Inline) :
    (sublist : Option NestedList) →
    (KeepsNesting (sublistLines (itemText ordered index depth content) (depth + 1) sublist) ↔
      sublistBulleted ordered sublist = true)
  | none => by
      rw [sublistLines, sublistBulleted]
      exact iff_of_true (fun _ member => absurd member List.not_mem_nil) rfl
  | some (.mk inner items) => by
      rw [sublistLines, keepsNesting_items, hosts_itemText, sublistBulleted]
      simp

theorem keepsNesting_items (parent : Option (List Char)) (ordered : Bool) (index depth : Nat) :
    (items : List ListItem) →
    (KeepsNesting (itemLinesFrom parent ordered index depth items) ↔
      (items = [] ∨ Hosts parent depth) ∧ itemsBulleted ordered items = true)
  | [] => by
      rw [itemLinesFrom, itemsBulleted]
      exact iff_of_true (fun _ member => absurd member List.not_mem_nil) ⟨.inl rfl, rfl⟩
  | item :: rest => by
      rw [itemLinesFrom, keepsNesting_append, keepsNesting_item, keepsNesting_items, itemsBulleted,
        Bool.and_eq_true]
      constructor
      · rintro ⟨⟨hosts, here⟩, -, later⟩
        exact ⟨.inr hosts, here, later⟩
      · rintro ⟨none | hosts, here, later⟩
        · exact absurd none (List.cons_ne_nil item rest)
        · exact ⟨⟨hosts, here⟩, .inr hosts, later⟩

end

/-- The items of a list keep their nesting exactly when only bullets have items nested in them. -/
theorem keepsNesting_iff (ordered : Bool) (items : List ListItem) (depth : Nat) :
    KeepsNesting (listLines ordered items depth) ↔ itemsBulleted ordered items = true := by
  rw [listLines, keepsNesting_items]
  exact and_iff_right (.inr fun _ absent => absurd absent (by simp))

/-- A bullet below the first item of an ordered list is indented by two columns, and the content of
that item starts at the third. -/
theorem not_keepsNesting_ordered :
    ¬ KeepsNesting (listLines true
      [.mk [.text "a".toList] (some (.mk false [.mk [.text "b".toList] none]))] 0) := by
  intro keeps
  have nested := keeps ⟨"  - b\n".toList, some "1. a\n".toList⟩ (by
    simp only [listLines, itemLinesFrom, itemLines, sublistLines, List.append_nil]
    exact List.mem_cons_of_mem _ List.mem_cons_self) _ rfl
  exact absurd nested.1 (by decide)

end AiCoreStack.Markdown
