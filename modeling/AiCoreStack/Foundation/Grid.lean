import AiCoreStack.Foundation.Words

/-!
# Grids

Ragged rows of cells, some of them blank.  A box is an interval of rows and one of columns; the
least box that holds every cell with ink is the bounding box, and cutting it out moves no such
cell relative to another.
-/

namespace AiCoreStack.Foundation.Grid

/-! ## Boxes -/

/-- Intervals of rows and of columns, without their upper ends. -/
@[ext] structure Box where
  top : Nat
  bottom : Nat
  left : Nat
  right : Nat
  deriving DecidableEq, Repr

namespace Box

instance : PartialOrder Box where
  le box outer := outer.top ≤ box.top ∧ box.bottom ≤ outer.bottom ∧
    outer.left ≤ box.left ∧ box.right ≤ outer.right
  le_refl box := ⟨le_rfl, le_rfl, le_rfl, le_rfl⟩
  le_trans _ _ _ inner outer :=
    ⟨outer.1.trans inner.1, inner.2.1.trans outer.2.1, outer.2.2.1.trans inner.2.2.1,
      inner.2.2.2.trans outer.2.2.2⟩
  le_antisymm _ _ inner outer :=
    Box.ext (outer.1.antisymm inner.1) (inner.2.1.antisymm outer.2.1)
      (outer.2.2.1.antisymm inner.2.2.1) (inner.2.2.2.antisymm outer.2.2.2)

theorem le_def {box outer : Box} :
    box ≤ outer ↔ outer.top ≤ box.top ∧ box.bottom ≤ outer.bottom ∧
      outer.left ≤ box.left ∧ box.right ≤ outer.right := Iff.rfl

/-- The rows from 0 on and the columns from 0 on. -/
def ofSize (height width : Nat) : Box := ⟨0, height, 0, width⟩

/-- Every marked place is inside the box. -/
def Holds (box : Box) (marked : Nat → Nat → Prop) : Prop :=
  ∀ i j, marked i j → (box.top ≤ i ∧ i < box.bottom) ∧ box.left ≤ j ∧ j < box.right

/-- The smallest box that holds the marked places. -/
def Bounds (box : Box) (marked : Nat → Nat → Prop) : Prop :=
  IsLeast {outer : Box | outer.Holds marked} box

/-- A box that holds everything and has something in each of its borders is the smallest. -/
theorem Holds.bounds {box : Box} {marked : Nat → Nat → Prop} (holds : box.Holds marked)
    (top : ∃ j, marked box.top j) (bottom : ∃ i j, i + 1 = box.bottom ∧ marked i j)
    (left : ∃ i, marked i box.left) (right : ∃ i j, j + 1 = box.right ∧ marked i j) :
    box.Bounds marked := by
  refine ⟨holds, ?_⟩
  intro outer outerHolds
  obtain ⟨_, atTop⟩ := top
  obtain ⟨_, _, isBottom, atBottom⟩ := bottom
  obtain ⟨_, atLeft⟩ := left
  obtain ⟨_, _, isRight, atRight⟩ := right
  rw [le_def, ← isBottom, ← isRight]
  exact ⟨(outerHolds _ _ atTop).1.1, (outerHolds _ _ atBottom).1.2,
    (outerHolds _ _ atLeft).2.1, (outerHolds _ _ atRight).2.2⟩

/-- Bounding boxes move with what they bound. -/
theorem Bounds.shift {box : Box} {marked moved : Nat → Nat → Prop} (bounds : box.Bounds marked)
    (same : ∀ i j, marked i j ↔ box.top ≤ i ∧ box.left ≤ j ∧ moved (i - box.top) (j - box.left)) :
    (ofSize (box.bottom - box.top) (box.right - box.left)).Bounds moved := by
  have origin {i j : Nat} (there : moved i j) : marked (box.top + i) (box.left + j) := by
    rw [same, Nat.add_sub_cancel_left, Nat.add_sub_cancel_left]
    exact ⟨Nat.le_add_right _ _, Nat.le_add_right _ _, there⟩
  constructor
  · intro i j there
    have inside := bounds.1 _ _ (origin there)
    dsimp only [ofSize]
    omega
  · intro outer outerHolds
    have shifted : Box.Holds ⟨box.top + outer.top, box.top + outer.bottom,
        box.left + outer.left, box.left + outer.right⟩ marked := by
      intro i j here
      obtain ⟨below, beside, there⟩ := (same i j).mp here
      have inside := outerHolds _ _ there
      dsimp only
      omega
    have least := le_def.mp (bounds.2 shifted)
    rw [le_def]
    dsimp only [ofSize] at least ⊢
    omega

end Box

/-! ## Cells -/

section Cells

variable {α : Type} (blank : α → Bool) (fill : α)

/-- The cell at a place. -/
def cell (grid : List (List α)) (i j : Nat) : Option α := grid[i]?.bind fun row => row[j]?

/-- The place of a cell that is not blank. -/
def Inked (grid : List (List α)) (i j : Nat) : Prop := ∃ c ∈ cell grid i j, blank c = false

/-- The length of the longest row. -/
def width (grid : List (List α)) : Nat := (grid.map List.length).max?.getD 0

/-- Fill each row up to the length of the longest. -/
def pad (grid : List (List α)) : List (List α) := grid.map (List.rightpad (width grid) fill)

/-- The part inside a box. -/
def cut (box : Box) (grid : List (List α)) : List (List α) :=
  (grid.extract box.top box.bottom).map fun row => row.extract box.left box.right

theorem mem_cell {grid : List (List α)} {i j : Nat} {c : α} :
    c ∈ cell grid i j ↔ ∃ row, grid[i]? = some row ∧ row[j]? = some c := by
  rw [Option.mem_def, cell, Option.bind_eq_some_iff]

theorem inked_append {blank : α → Bool} {front rows : List (List α)} {i j : Nat} :
    Inked blank (front ++ rows) i j ↔
      Inked blank front i j ∨ front.length ≤ i ∧ Inked blank rows (i - front.length) j := by
  by_cases within : i < front.length
  · rw [Inked, cell, List.getElem?_append_left within]
    exact ⟨.inl, fun cases => cases.resolve_right fun behind => absurd within (by omega)⟩
  · have behind := Nat.not_lt.mp within
    rw [Inked, cell, List.getElem?_append_right behind]
    constructor
    · exact fun inked => .inr ⟨behind, inked⟩
    · rintro (⟨c, here, _⟩ | ⟨_, inked⟩)
      · obtain ⟨row, held, _⟩ := mem_cell.mp here
        exact absurd (List.getElem?_eq_some_iff.mp held).1 within
      · exact inked

theorem not_inked {blank : α → Bool} {rows : List (List α)}
    (blanks : ∀ row ∈ rows, row.all blank = true) (i j : Nat) : ¬Inked blank rows i j := by
  rintro ⟨c, here, present⟩
  obtain ⟨row, held, inRow⟩ := mem_cell.mp here
  have isBlank := List.all_eq_true.mp (blanks row (List.mem_of_getElem? held)) c
    (List.mem_of_getElem? inRow)
  rw [present] at isBlank
  exact absurd isBlank (by decide)

theorem length_le_width {grid : List (List α)} {row : List α} (member : row ∈ grid) :
    row.length ≤ width grid := by
  have lengths : row.length ∈ grid.map List.length := List.mem_map_of_mem member
  cases greatest : (grid.map List.length).max? with
  | none =>
      rw [List.max?_eq_none_iff.mp greatest] at lengths
      exact absurd lengths List.not_mem_nil
  | some most =>
      rw [width, greatest]
      exact (List.max?_eq_some_iff.mp greatest).2 _ lengths

theorem width_le {grid : List (List α)} {w : Nat} (short : ∀ row ∈ grid, row.length ≤ w) :
    width grid ≤ w := by
  rw [width]
  cases greatest : (grid.map List.length).max? with
  | none => exact Nat.zero_le w
  | some most =>
      obtain ⟨row, member, rfl⟩ := List.mem_map.mp (List.max?_mem greatest)
      exact short row member

/-- Rows filled up to the width are equally long. -/
theorem length_rightpad_width {grid : List (List α)} (row : List α)
    (member : row ∈ grid.map (List.rightpad (width grid) fill)) : row.length = width grid := by
  obtain ⟨short, inGrid, rfl⟩ := List.mem_map.mp member
  rw [List.length_rightpad, Nat.max_eq_left (length_le_width inGrid)]

/-- Filling up writes blanks only. -/
theorem mem_cell_rightpad {blank : α → Bool} {fill : α} (blanks : blank fill = true)
    {grid : List (List α)} {w i j : Nat} {c : α} (present : blank c = false) :
    c ∈ cell (grid.map (List.rightpad w fill)) i j ↔ c ∈ cell grid i j := by
  have kept (row : List α) : (List.rightpad w fill row)[j]? = some c ↔ row[j]? = some c := by
    rw [List.rightpad, List.getElem?_append]
    split
    next => rfl
    next beyond =>
      rw [List.getElem?_eq_none (Nat.not_lt.mp beyond)]
      constructor
      · intro filled
        have isFill := List.eq_of_mem_replicate (List.mem_of_getElem? filled)
        rw [isFill, blanks] at present
        exact absurd present (by decide)
      · exact fun absent => absurd absent (by simp)
  simp only [mem_cell, List.getElem?_map, Option.map_eq_some_iff]
  constructor
  · rintro ⟨_, ⟨row, held, rfl⟩, inRow⟩
    exact ⟨row, held, (kept row).mp inRow⟩
  · rintro ⟨row, held, inRow⟩
    exact ⟨_, ⟨row, held, rfl⟩, (kept row).mpr inRow⟩

theorem getElem?_extract {β : Type} (items : List β) (start stop k : Nat) :
    (items.extract start stop)[k]? = if start + k < stop then items[start + k]? else none := by
  rw [List.extract_eq_take_drop, List.getElem?_take, List.getElem?_drop]
  simp only [Nat.lt_sub_iff_add_lt']

theorem getElem?_rightpad {w k : Nat} (inside : k < w) (row : List α) :
    (List.rightpad w fill row)[k]? = some (row.getD k fill) := by
  rw [List.rightpad, List.getElem?_append, List.getD_eq_getElem?_getD]
  split
  next held => simp [held]
  next beyond =>
    rw [List.getElem?_replicate, if_pos (by omega), List.getElem?_eq_none (Nat.not_lt.mp beyond)]
    rfl

/-- How far a row is filled up does not show in front of the shorter end. -/
theorem extract_rightpad {w w' start stop : Nat} (within : stop ≤ w) (longer : w ≤ w')
    (row : List α) :
    (List.rightpad w fill row).extract start stop =
      (List.rightpad w' fill row).extract start stop := by
  apply List.ext_getElem?
  intro k
  rw [getElem?_extract, getElem?_extract]
  split
  next inside =>
    rw [getElem?_rightpad fill (inside.trans_le within),
      getElem?_rightpad fill (inside.trans_le (within.trans longer))]
  next => rfl

/-- Filling up moves no cell. -/
theorem inked_rightpad {blank : α → Bool} {fill : α} (blanks : blank fill = true)
    {grid : List (List α)} {w i j : Nat} :
    Inked blank (grid.map (List.rightpad w fill)) i j ↔ Inked blank grid i j := by
  constructor
  · exact fun ⟨c, here, present⟩ => ⟨c, (mem_cell_rightpad blanks present).mp here, present⟩
  · exact fun ⟨c, here, present⟩ => ⟨c, (mem_cell_rightpad blanks present).mpr here, present⟩

theorem cell_cut (box : Box) (grid : List (List α)) (i j : Nat) :
    cell (cut box grid) i j =
      if box.top + i < box.bottom ∧ box.left + j < box.right then
        cell grid (box.top + i) (box.left + j)
      else none := by
  rw [cell, cut, List.getElem?_map, getElem?_extract]
  by_cases inside : box.top + i < box.bottom
  · rw [if_pos inside, cell]
    cases grid[box.top + i]? with
    | none => simp
    | some row =>
        rw [Option.map_some, Option.bind_some, getElem?_extract]
        simp only [inside, true_and, Option.bind_some]
  · rw [if_neg inside, if_neg fun both => inside both.1]
    rfl

/-- In the bounding box each cell with ink stands where it stood, counted from the corner. -/
theorem mem_cell_cut {blank : α → Bool} {grid : List (List α)} {box : Box}
    (holds : box.Holds (Inked blank grid)) {i j : Nat} {c : α} (present : blank c = false) :
    c ∈ cell grid i j ↔
      box.top ≤ i ∧ box.left ≤ j ∧ c ∈ cell (cut box grid) (i - box.top) (j - box.left) := by
  rw [cell_cut]
  constructor
  · intro here
    obtain ⟨⟨below, above⟩, beside, before⟩ := holds i j ⟨c, here, present⟩
    refine ⟨below, beside, ?_⟩
    rw [Nat.add_sub_of_le below, Nat.add_sub_of_le beside, if_pos ⟨above, before⟩]
    exact here
  · rintro ⟨below, beside, here⟩
    rw [Nat.add_sub_of_le below, Nat.add_sub_of_le beside] at here
    split at here
    next => exact here
    next => exact absurd here (by simp)

/-- What a bounding box cuts out is bounded by all of itself. -/
theorem bounds_cut {blank : α → Bool} {grid : List (List α)} {box : Box}
    (bounds : box.Bounds (Inked blank grid)) :
    (Box.ofSize (box.bottom - box.top) (box.right - box.left)).Bounds
      (Inked blank (cut box grid)) := by
  apply bounds.shift
  intro i j
  constructor
  · rintro ⟨c, here, present⟩
    obtain ⟨below, beside, there⟩ := (mem_cell_cut bounds.1 present).mp here
    exact ⟨below, beside, c, there, present⟩
  · rintro ⟨below, beside, c, there, present⟩
    exact ⟨c, (mem_cell_cut bounds.1 present).mpr ⟨below, beside, there⟩, present⟩

theorem holds_ofSize {blank : α → Bool} (grid : List (List α)) :
    (Box.ofSize grid.length (width grid)).Holds (Inked blank grid) := by
  rintro i j ⟨c, here, _⟩
  obtain ⟨row, held, inRow⟩ := mem_cell.mp here
  have inside := (List.getElem?_eq_some_iff.mp inRow).1
  exact ⟨⟨Nat.zero_le i, (List.getElem?_eq_some_iff.mp held).1⟩, Nat.zero_le j,
    inside.trans_le (length_le_width (List.mem_of_getElem? held))⟩

/-- What a bounding box cuts out of the filled grid is a rectangle of the size of the box. -/
theorem length_cut_pad {blank : α → Bool} {grid : List (List α)} {box : Box}
    (bounds : box.Bounds (Inked blank grid)) :
    (cut box (pad fill grid)).length = box.bottom - box.top ∧
      ∀ row ∈ cut box (pad fill grid), row.length = box.right - box.left := by
  obtain ⟨_, bottom, _, right⟩ := Box.le_def.mp (bounds.2 (holds_ofSize grid))
  dsimp only [Box.ofSize] at bottom right
  have part {β : Type} {items : List β} {start stop : Nat} (inside : stop ≤ items.length) :
      (items.extract start stop).length = stop - start := by
    rw [List.extract_eq_take_drop, List.length_take, List.length_drop]
    omega
  constructor
  · rw [cut, List.length_map, part]
    rwa [pad, List.length_map]
  · intro row member
    obtain ⟨whole, inside, rfl⟩ := List.mem_map.mp member
    rw [List.extract_eq_take_drop] at inside
    have even := length_rightpad_width fill whole
      (List.mem_of_mem_drop (List.mem_of_mem_take inside))
    exact part (even.symm ▸ right)

/-- A rectangle needs no filling up. -/
theorem pad_of_even {grid : List (List α)} {w : Nat} (even : ∀ row ∈ grid, row.length = w) :
    pad fill grid = grid := by
  have narrow : width grid ≤ w := width_le fun row member => (even row member).le
  conv_rhs => rw [← List.map_id grid]
  apply List.map_congr_left
  intro row member
  rw [List.rightpad, Nat.sub_eq_zero_of_le (narrow.trans (even row member).ge),
    List.replicate_zero, List.append_nil, id]

/-- A box around the whole of a rectangle cuts nothing off. -/
theorem cut_ofSize {grid : List (List α)} {w : Nat} (even : ∀ row ∈ grid, row.length = w) :
    cut (Box.ofSize grid.length w) grid = grid := by
  have rows : grid.extract 0 grid.length = grid := by simp
  rw [cut, Box.ofSize, rows]
  conv_rhs => rw [← List.map_id grid]
  apply List.map_congr_left
  intro row member
  simp [← even row member]

end Cells

end AiCoreStack.Foundation.Grid
