import AiCoreStack.Foundation.Grid
import AiCoreStack.Markdown.Xml

/-!
# Sheets

Model of `trim_grid` of `xlsx.rs`: the used range of a sheet loses the empty rows and columns at
its borders.  Every index into a row is checked; `none` stands for a panic.
-/

namespace AiCoreStack.Markdown.Xlsx

open AiCoreStack.Foundation AiCoreStack.Foundation.Grid

/-- `c.trim().is_empty()` -/
def cellEmpty (c : List Char) : Bool := (trim isWhitespace c).isEmpty

/-- `row_empty` -/
def rowEmpty (r : List (List Char)) : Bool := r.all cellEmpty

/-- `grid.iter().all(|r| r[j].trim().is_empty())` -/
def columnEmpty (grid : List (List (List Char))) (j : Nat) : Option Bool :=
  grid.allM fun r => r[j]?.map cellEmpty

/-- The loop over `left`; the first number is `width - left`. -/
def moveLeft (grid : List (List (List Char))) : Nat → Nat → Option Nat
  | 0, left => some left
  | room + 1, left => do
      if ← columnEmpty grid left then moveLeft grid room (left + 1) else some left

/-- The loop over `right`, down to `left`. -/
def moveRight (grid : List (List (List Char))) (left : Nat) : Nat → Option Nat
  | 0 => some 0
  | right + 1 =>
      if right + 1 > left then do
        if ← columnEmpty grid right then moveRight grid left right else some (right + 1)
      else some (right + 1)

/-- `r[left..right].to_vec()` -/
def sliceRow (left right : Nat) (r : List (List Char)) : Option (List (List Char)) :=
  if left ≤ right ∧ right ≤ r.length then some (r.extract left right) else none

/-- Drop the empty rows and columns at the borders. -/
def trimGrid (grid : List (List (List Char))) : Option (List (List (List Char))) :=
  let rows := trim rowEmpty grid
  if rows.isEmpty then some rows
  else do
    let w := width rows
    let rows := rows.map (List.rightpad w [])
    let left ← moveLeft rows w 0
    let right ← moveRight rows left w
    if left = 0 ∧ right = w then some rows
    else rows.mapM (sliceRow left right)

/-! ## Columns -/

/-- A column without a cell that has something in it. -/
def BlankColumn (grid : List (List (List Char))) (j : Nat) : Prop :=
  ∀ i, ¬Inked cellEmpty grid i j

theorem not_blankColumn {grid : List (List (List Char))} {j : Nat} :
    ¬BlankColumn grid j ↔ ∃ i, Inked cellEmpty grid i j := by
  rw [BlankColumn, not_forall_not]

/-- Where every row reaches it, a column can be looked at. -/
theorem columnEmpty_total {grid : List (List (List Char))} {j : Nat}
    (inside : ∀ r ∈ grid, j < r.length) :
    ∃ answer, columnEmpty grid j = some answer ∧ (answer = true ↔ BlankColumn grid j) := by
  induction grid with
  | nil => exact ⟨true, rfl, by simp [BlankColumn, Inked, cell]⟩
  | cons r rest ih =>
      obtain ⟨reached, others⟩ := List.forall_mem_cons.mp inside
      obtain ⟨answer, looked, meaning⟩ := ih others
      have first : r[j]?.map cellEmpty = some (cellEmpty r[j]) := by
        rw [List.getElem?_eq_getElem reached, Option.map_some]
      have split : BlankColumn (r :: rest) j ↔ cellEmpty r[j] = true ∧ BlankColumn rest j := by
        constructor
        · intro blank
          constructor
          · by_contra present
            exact blank 0 ⟨r[j], by simp [cell, reached], by simpa using present⟩
          · rintro i ⟨c, here, present⟩
            exact blank (i + 1) ⟨c, by simpa [cell] using here, present⟩
        · rintro ⟨empty, blank⟩ i ⟨c, here, present⟩
          cases i with
          | zero =>
              obtain rfl : r[j] = c := by simpa [cell, reached] using here
              exact absurd empty (by simp [present])
          | succ i => exact blank i ⟨c, by simpa [cell] using here, present⟩
      rw [columnEmpty, List.allM, first]
      cases empty : cellEmpty r[j] with
      | true => exact ⟨answer, looked, by rw [split, meaning, empty]; simp⟩
      | false => exact ⟨false, rfl, by rw [split, empty]; simp⟩

/-- The first loop stops at the first column with something in it. -/
theorem moveLeft_stops {grid : List (List (List Char))} {w : Nat}
    (even : ∀ r ∈ grid, r.length = w) {room left : Nat} (fits : left + room = w) :
    ∃ stop, moveLeft grid room left = some stop ∧ left ≤ stop ∧ stop ≤ w ∧
      (∀ j, left ≤ j → j < stop → BlankColumn grid j) ∧
      (stop < w → ¬BlankColumn grid stop) := by
  induction room generalizing left with
  | zero => exact ⟨left, rfl, le_rfl, by omega, fun j _ _ => by omega, fun _ => by omega⟩
  | succ room ih =>
      have inside (r : List (List Char)) (member : r ∈ grid) : left < r.length := by
        rw [even r member]
        omega
      obtain ⟨answer, looked, meaning⟩ := columnEmpty_total inside
      cases answer with
      | true =>
          obtain ⟨stop, moved, after, within, blank, stopped⟩ := @ih (left + 1) (by omega)
          refine ⟨stop, ?_, by omega, within, ?_, stopped⟩
          · rw [moveLeft, looked]
            exact moved
          · intro j after before
            rcases Nat.eq_or_lt_of_le after with rfl | later
            · exact meaning.mp rfl
            · exact blank j later before
      | false =>
          refine ⟨left, ?_, le_rfl, by omega, fun j _ _ => by omega, fun _ blank => ?_⟩
          · rw [moveLeft, looked]
            rfl
          · exact absurd (meaning.mpr blank) (by decide)

/-- The second loop stops behind the last column with something in it. -/
theorem moveRight_stops {grid : List (List (List Char))} {w left : Nat}
    (even : ∀ r ∈ grid, r.length = w) {right : Nat} (ordered : left ≤ right) (fits : right ≤ w) :
    ∃ stop, moveRight grid left right = some stop ∧ left ≤ stop ∧ stop ≤ right ∧
      (∀ j, stop ≤ j → j < right → BlankColumn grid j) ∧
      (left < stop → ∃ j, j + 1 = stop ∧ ¬BlankColumn grid j) := by
  induction right with
  | zero => exact ⟨0, rfl, ordered, le_rfl, fun j _ _ => by omega, fun _ => by omega⟩
  | succ right ih =>
      have inside (r : List (List Char)) (member : r ∈ grid) : right < r.length := by
        rw [even r member]
        omega
      obtain ⟨answer, looked, meaning⟩ := columnEmpty_total inside
      rw [moveRight]
      split
      next onward =>
        cases answer with
        | true =>
            obtain ⟨stop, moved, after, within, blank, stopped⟩ := ih (by omega) (by omega)
            refine ⟨stop, ?_, after, by omega, ?_, stopped⟩
            · rw [looked]
              exact moved
            · intro j after before
              rcases Nat.eq_or_lt_of_le (Nat.le_of_lt_succ before) with rfl | earlier
              · exact meaning.mp rfl
              · exact blank j after earlier
        | false =>
            refine ⟨right + 1, ?_, ordered, le_rfl, fun j _ _ => by omega, fun _ => ?_⟩
            · rw [looked]
              rfl
            · exact ⟨right, rfl, fun blank => absurd (meaning.mpr blank) (by decide)⟩
      next stopped =>
        exact ⟨right + 1, rfl, ordered, le_rfl, fun j _ _ => by omega, fun _ => by omega⟩

/-- Cutting rows that are long enough does not fail. -/
theorem mapM_sliceRow {rows : List (List (List Char))} {left right : Nat} (ordered : left ≤ right)
    (long : ∀ r ∈ rows, right ≤ r.length) :
    rows.mapM (sliceRow left right) = some (rows.map fun r => r.extract left right) := by
  induction rows with
  | nil => rfl
  | cons r rows ih =>
      rw [List.forall_mem_cons] at long
      rw [List.mapM_cons, sliceRow, if_pos ⟨ordered, long.1⟩, ih long.2]
      rfl

/-- The columns from the first to the last that has something in it. -/
structure KeptColumns (rows : List (List (List Char))) (w left right : Nat) : Prop where
  ordered : left ≤ right
  within : right ≤ w
  first : ¬BlankColumn rows left
  last : ∃ j, j + 1 = right ∧ ¬BlankColumn rows j
  between : ∀ j, ¬BlankColumn rows j → left ≤ j ∧ j < right

/-- Filling rows up leaves their columns as they are. -/
theorem KeptColumns.of_rightpad {rows : List (List (List Char))} {w n left right : Nat}
    (kept : KeptColumns (rows.map (List.rightpad n [])) w left right) :
    KeptColumns rows w left right := by
  have same : BlankColumn (rows.map (List.rightpad n [])) = BlankColumn rows := by
    funext j
    exact propext (forall_congr' fun i => not_congr (inked_rightpad rfl))
  obtain ⟨ordered, within, first, last, between⟩ := kept
  rw [same] at first
  simp only [same] at last between
  exact ⟨ordered, within, first, last, between⟩

/-- In a rectangle with something in it the loops find the columns to keep. -/
theorem exists_keptColumns {rows : List (List (List Char))} {w : Nat}
    (even : ∀ r ∈ rows, r.length = w) {i j : Nat} (present : Inked cellEmpty rows i j) :
    ∃ left right, moveLeft rows w 0 = some left ∧ moveRight rows left w = some right ∧
      KeptColumns rows w left right := by
  have inside {j : Nat} (inked : ¬BlankColumn rows j) : j < w := by
    obtain ⟨i, c, here, _⟩ := not_blankColumn.mp inked
    obtain ⟨r, held, inRow⟩ := mem_cell.mp here
    rw [← even r (List.mem_of_getElem? held)]
    exact (List.getElem?_eq_some_iff.mp inRow).1
  obtain ⟨left, movedLeft, _, leftWithin, blankLeft, stopLeft⟩ :=
    moveLeft_stops even (Nat.zero_add w)
  obtain ⟨right, movedRight, ordered, within, blankRight, stopRight⟩ :=
    moveRight_stops even leftWithin le_rfl
  have between (j : Nat) (inked : ¬BlankColumn rows j) : left ≤ j ∧ j < right := by
    constructor
    · by_contra before
      exact inked (blankLeft j (Nat.zero_le j) (Nat.not_le.mp before))
    · by_contra beyond
      exact inked (blankRight j (Nat.not_lt.mp beyond) (inside inked))
  have around := between j (not_blankColumn.mpr ⟨i, present⟩)
  exact ⟨left, right, movedLeft, movedRight, ordered, within, stopLeft (by omega),
    stopRight (by omega), between⟩

/-! ## The bounding box -/

theorem rowEmpty_eq_false {r : List (List Char)} :
    rowEmpty r = false ↔ ∃ c ∈ r, cellEmpty c = false := by
  simp [rowEmpty]

theorem trim_rowEmpty_eq_nil_iff {grid : List (List (List Char))} :
    trim rowEmpty grid = [] ↔ ∀ r ∈ grid, rowEmpty r = true := by
  rw [trim_eq_nil_iff, ink_eq_zero_iff]

/-- A sheet with nothing in it becomes the empty grid. -/
theorem trimGrid_of_empty {grid : List (List (List Char))}
    (empty : ∀ r ∈ grid, rowEmpty r = true) : trimGrid grid = some [] := by
  rw [trimGrid, trim_rowEmpty_eq_nil_iff.mpr empty]
  rfl

/-- The rows of a grid from a row on. -/
structure KeptRows (grid rows : List (List (List Char))) (top : Nat) : Prop where
  members : ∀ r ∈ rows, r ∈ grid
  extracted : ∀ f : List (List Char) → List (List Char),
    (grid.map f).extract top (top + rows.length) = rows.map f
  moved : ∀ i j, Inked cellEmpty grid i j ↔ top ≤ i ∧ Inked cellEmpty rows (i - top) j

theorem KeptRows.inked {grid rows : List (List (List Char))} {top i j : Nat}
    (kept : KeptRows grid rows top) (inked : Inked cellEmpty rows i j) :
    Inked cellEmpty grid (top + i) j :=
  (kept.moved _ j).mpr ⟨Nat.le_add_right top i, by rwa [Nat.add_sub_cancel_left]⟩

/-- The rows that are dropped have nothing in them. -/
theorem exists_keptRows (grid : List (List (List Char))) :
    ∃ top, KeptRows grid (trim rowEmpty grid) top := by
  obtain ⟨front, back, whole, frontEmpty, backEmpty⟩ := exists_append_trim rowEmpty grid
  generalize trim rowEmpty grid = rows at whole
  subst whole
  refine ⟨front.length, fun r member => by simp [member], fun f => by simp, ?_⟩
  intro i j
  rw [List.append_assoc, inked_append, inked_append]
  have noneBefore := not_inked frontEmpty
  have noneBehind := not_inked backEmpty
  simp only [noneBefore, noneBehind, and_false, or_false, false_or]

/-- The rows that are kept begin and end with one that has something in it. -/
theorem rows_edges {rows grid : List (List (List Char))} (trimmed : trim rowEmpty grid = rows)
    (present : rows ≠ []) :
    (∃ j, Inked cellEmpty rows 0 j) ∧ ∃ i j, i + 1 = rows.length ∧ Inked cellEmpty rows i j := by
  have tight := trimmed ▸ tight_trim rowEmpty grid
  have inked {r : List (List Char)} {i : Nat} (held : rows[i]? = some r)
      (full : rowEmpty r = false) : ∃ j, Inked cellEmpty rows i j := by
    obtain ⟨c, member, hasText⟩ := rowEmpty_eq_false.mp full
    obtain ⟨j, inRow⟩ := List.mem_iff_getElem?.mp member
    exact ⟨j, c, mem_cell.mpr ⟨r, held, inRow⟩, hasText⟩
  constructor
  · apply inked (r := rows.head present)
    · rw [← List.head?_eq_getElem?, List.head?_eq_some_head]
    · exact tight.head _ (List.head?_eq_some_head present)
  · obtain ⟨j, last⟩ := inked (r := rows.getLast present) (i := rows.length - 1)
      (by rw [← List.getLast?_eq_getElem?, List.getLast?_eq_some_getLast])
      (tight.last _ (List.getLast?_eq_some_getLast present))
    exact ⟨rows.length - 1, j, Nat.sub_add_cancel (List.length_pos_iff.mpr present), last⟩

section Kept

variable {grid rows : List (List (List Char))} {top w left right : Nat}

/-- The kept rows and columns are the smallest box around everything in the sheet. -/
theorem bounds_of_kept (keptRows : KeptRows grid rows top)
    (edges : (∃ j, Inked cellEmpty rows 0 j) ∧
      ∃ i j, i + 1 = rows.length ∧ Inked cellEmpty rows i j)
    (keptColumns : KeptColumns rows w left right) :
    Box.Bounds ⟨top, top + rows.length, left, right⟩ (Inked cellEmpty grid) := by
  obtain ⟨⟨j, first⟩, ⟨i, k, atEnd, last⟩⟩ := edges
  apply Box.Holds.bounds
  · intro i j inked
    obtain ⟨below, there⟩ := (keptRows.moved i j).mp inked
    obtain ⟨r, held, _⟩ := mem_cell.mp there.choose_spec.1
    have inside := (List.getElem?_eq_some_iff.mp held).1
    exact ⟨⟨below, by dsimp only; omega⟩, keptColumns.between j (not_blankColumn.mpr ⟨_, there⟩)⟩
  · exact ⟨j, keptRows.inked first⟩
  · exact ⟨top + i, k, by dsimp only; omega, keptRows.inked last⟩
  · obtain ⟨i, inked⟩ := not_blankColumn.mp keptColumns.first
    exact ⟨top + i, keptRows.inked inked⟩
  · obtain ⟨l, isRight, column⟩ := keptColumns.last
    obtain ⟨i, inked⟩ := not_blankColumn.mp column
    exact ⟨top + i, l, isRight, keptRows.inked inked⟩

/-- Filling up to the width of the kept rows or to that of the whole sheet is the same. -/
theorem cut_pad_of_kept (keptRows : KeptRows grid rows top) (within : right ≤ width rows) :
    cut ⟨top, top + rows.length, left, right⟩ (pad [] grid) =
      (rows.map (List.rightpad (width rows) [])).map fun r => r.extract left right := by
  have narrower : width rows ≤ width grid :=
    width_le fun r member => length_le_width (keptRows.members r member)
  rw [cut, pad, keptRows.extracted, List.map_map, List.map_map]
  exact List.map_congr_left fun r _ => (extract_rightpad [] within narrower r).symm

end Kept

/-- A sheet with something in it is cut to its bounding box. -/
theorem trimGrid_of_present {grid : List (List (List Char))}
    (present : ∃ i j, Inked cellEmpty grid i j) :
    ∃ box : Box, box.Bounds (Inked cellEmpty grid) ∧
      trimGrid grid = some (cut box (pad [] grid)) := by
  replace present : trim rowEmpty grid ≠ [] := by
    rw [Ne, trim_rowEmpty_eq_nil_iff]
    exact fun empty => not_inked empty _ _ present.choose_spec.choose_spec
  obtain ⟨top, keptRows⟩ := exists_keptRows grid
  have edges := rows_edges rfl present
  rw [trimGrid]
  dsimp only
  generalize trim rowEmpty grid = rows at *
  have even : ∀ r ∈ rows.map (List.rightpad (width rows) []), r.length = width rows :=
    length_rightpad_width []
  obtain ⟨left, right, movedLeft, movedRight, keptColumns⟩ :=
    exists_keptColumns even ((inked_rightpad rfl).mpr edges.1.choose_spec)
  refine ⟨⟨top, top + rows.length, left, right⟩,
    bounds_of_kept keptRows edges keptColumns.of_rightpad, ?_⟩
  rw [if_neg (by simpa using present), movedLeft, Option.bind_eq_bind, Option.bind_some,
    movedRight, Option.bind_some, cut_pad_of_kept keptRows keptColumns.within]
  split
  next whole =>
    rw [whole.1, whole.2]
    conv_lhs => rw [← List.map_id (rows.map _)]
    congr 1
    apply List.map_congr_left
    intro r member
    simp [even r member]
  next =>
    exact mapM_sliceRow keptColumns.ordered fun r member =>
      (even r member).symm ▸ keptColumns.within

/-- What is left of a sheet: the part inside the smallest box around everything in it, where
each cell with something in it stands as before. -/
structure Trims (grid trimmed : List (List (List Char))) (box : Box) : Prop where
  bounds : box.Bounds (Inked cellEmpty grid)
  restricted : trimmed = cut box (pad [] grid)
  height : trimmed.length = box.bottom - box.top
  even : ∀ r ∈ trimmed, r.length = box.right - box.left
  kept : ∀ i j c, cellEmpty c = false → (cell grid i j = some c ↔
    box.top ≤ i ∧ box.left ≤ j ∧ cell trimmed (i - box.top) (j - box.left) = some c)

theorem inked_pad (grid : List (List (List Char))) :
    Inked cellEmpty (pad [] grid) = Inked cellEmpty grid := by
  funext i j
  exact propext (inked_rightpad rfl)

theorem trims_cut {grid : List (List (List Char))} {box : Box}
    (bounds : box.Bounds (Inked cellEmpty grid)) : Trims grid (cut box (pad [] grid)) box where
  bounds := bounds
  restricted := rfl
  height := (length_cut_pad [] bounds).1
  even := (length_cut_pad [] bounds).2
  kept i j c present := by
    have holds : box.Holds (Inked cellEmpty (pad [] grid)) := (inked_pad grid).symm ▸ bounds.1
    exact (mem_cell_rightpad rfl present).symm.trans (mem_cell_cut holds present)

/-- What is left loses nothing more. -/
theorem Trims.again {grid trimmed : List (List (List Char))} {box : Box}
    (trims : Trims grid trimmed box) (present : ∃ i j, Inked cellEmpty grid i j) :
    trimGrid trimmed = some trimmed := by
  have whole : (Box.ofSize (box.bottom - box.top) (box.right - box.left)).Bounds
      (Inked cellEmpty trimmed) := by
    rw [trims.restricted]
    exact bounds_cut (inked_pad grid ▸ trims.bounds)
  obtain ⟨i, j, c, here, hasText⟩ := present
  have there := ((trims.kept i j c hasText).mp here).2.2
  obtain ⟨box', bounds', cutAgain⟩ := trimGrid_of_present ⟨_, _, c, there, hasText⟩
  rw [cutAgain, bounds'.unique whole, pad_of_even [] trims.even, ← trims.height,
    cut_ofSize trims.even]

/-- A sheet is blank and nothing is left of it, or its bounding box is left. -/
theorem trimGrid_cases (grid : List (List (List Char))) :
    (∀ r ∈ grid, rowEmpty r = true) ∧ trimGrid grid = some [] ∨
      (∃ i j, Inked cellEmpty grid i j) ∧
        ∃ box trimmed, trimGrid grid = some trimmed ∧ Trims grid trimmed box := by
  by_cases empty : ∀ r ∈ grid, rowEmpty r = true
  · exact .inl ⟨empty, trimGrid_of_empty empty⟩
  · have present : ∃ i j, Inked cellEmpty grid i j := by
      by_contra nowhere
      push Not at nowhere
      apply empty
      intro r member
      by_contra full
      obtain ⟨c, inRow, hasText⟩ := rowEmpty_eq_false.mp (by simpa using full)
      obtain ⟨i, atRow⟩ := List.mem_iff_getElem?.mp member
      obtain ⟨j, atColumn⟩ := List.mem_iff_getElem?.mp inRow
      exact nowhere i j ⟨c, mem_cell.mpr ⟨r, atRow, atColumn⟩, hasText⟩
    obtain ⟨box, bounds, cutOut⟩ := trimGrid_of_present present
    exact .inr ⟨present, box, _, cutOut, trims_cut bounds⟩

/-- Trimming a sheet never fails.  It leaves the empty grid when every cell is blank and the
bounding box of the others otherwise, and a second time it changes nothing. -/
theorem trimGrid_trims (grid : List (List (List Char))) :
    ∃ trimmed, trimGrid grid = some trimmed ∧
      (trimmed = [] ↔ ∀ r ∈ grid, ∀ c ∈ r, cellEmpty c = true) ∧
      (trimmed ≠ [] → ∃ box, Trims grid trimmed box) ∧
      trimGrid trimmed = some trimmed := by
  have allBlank : (∀ r ∈ grid, ∀ c ∈ r, cellEmpty c = true) ↔ ∀ r ∈ grid, rowEmpty r = true := by
    simp only [rowEmpty, List.all_eq_true]
  rw [allBlank]
  rcases trimGrid_cases grid with ⟨empty, nothing⟩ | ⟨present, box, trimmed, ran, trims⟩
  · exact ⟨[], nothing, iff_of_true rfl empty, fun present => absurd rfl present,
      trimGrid_of_empty (by simp)⟩
  · refine ⟨trimmed, ran, ?_, fun _ => ⟨box, trims⟩, trims.again present⟩
    obtain ⟨i, j, c, here, hasText⟩ := present
    apply iff_of_false
    · rintro rfl
      have there := ((trims.kept i j c hasText).mp here).2.2
      exact absurd there (by simp [cell])
    · exact fun empty => not_inked empty i j ⟨c, here, hasText⟩

/-- Ragged rows with a border of blanks. -/
example :
    trimGrid ["".toList :: [], [[], "a".toList], [" ".toList, [], "b".toList, []], []] =
      some [["a".toList, []], [[], "b".toList]] := by
  decide +kernel

end AiCoreStack.Markdown.Xlsx
