import AiCoreStack.Foundation.Words
import AiCoreStack.Markdown.PdfText

/-!
# Lines and rows

A page is cut into lines for its paragraphs and into rows for its tables.  Both gather the same
characters, and the cells of a row hold the words of the line: a gap that ends a cell is wider than
a gap that ends a word.
-/

namespace AiCoreStack.Markdown.Pdf

open AiCoreStack.Foundation

/-! ## Sizes -/

/-- The median of positive sizes is positive. -/
theorem median_pos {values : List ℚ} (nonempty : values ≠ [])
    (positive : ∀ value ∈ values, 0 < value) : 0 < median values := by
  have same : (sortBy id values).Perm values := List.mergeSort_perm values _
  have inside : values.length / 2 < (sortBy id values).length := by
    rw [same.length_eq]
    exact Nat.div_lt_self (List.length_pos_iff.mpr nonempty) (by decide)
  rw [median, List.getD_eq_getElem _ _ inside]
  exact positive _ (same.mem_iff.mp (List.getElem_mem inside))

/-! ## Words -/

/-- The blank between two words, unless there is one. -/
def separator (gap : Bool) (text : List Char) : List Char :=
  if gap ∧ text.getLast? ≠ some ' ' then [' '] else []

/-- What follows a separated text does not change its words. -/
theorem words_separator (text suffix : List Char) :
    words isWhitespace (text ++ separator true text ++ suffix) =
      words isWhitespace text ++ words isWhitespace suffix := by
  rw [separator]
  split
  next => rw [List.append_assoc, List.singleton_append, words_append_cons rfl]
  next closed =>
    have last : text.getLast? = some ' ' := by simpa using closed
    obtain ⟨front, rfl⟩ := List.getLast?_eq_some_iff.mp last
    rw [List.append_nil, words_snoc rfl, List.append_assoc, List.singleton_append,
      words_append_cons rfl]

/-- The words of the cells. -/
def cellWords (cells : List Cell) : List (List Char) :=
  cells.flatMap fun cell => words isWhitespace cell.text

/-- The text of a line and a row that is being cut into cells, after the same characters: whatever
follows, the words of the line are those of the cells and of the open cell. -/
structure Agrees (line : List Char × Option ℚ) (row : Cells) : Prop where
  stop : line.2 = row.prevEnd
  kept : ∀ suffix, words isWhitespace (line.1 ++ suffix) =
    cellWords row.cells ++ words isWhitespace (row.cur ++ suffix)
  full : ∀ cell ∈ row.cells, words isWhitespace cell.text ≠ []

theorem cellWords_pushCell (row : Cells) :
    cellWords row.pushCell.cells = cellWords row.cells ++ words isWhitespace row.cur := by
  simp only [Cells.pushCell]
  split
  next blank => rw [(collapse_eq_nil_iff row.cur).mp blank, List.append_nil]
  next =>
    rw [cellWords, List.flatMap_append, List.flatMap_singleton, words_collapse]
    rfl

theorem full_pushCell {row : Cells} (full : ∀ cell ∈ row.cells, words isWhitespace cell.text ≠ []) :
    ∀ cell ∈ row.pushCell.cells, words isWhitespace cell.text ≠ [] := by
  simp only [Cells.pushCell]
  split
  next => exact full
  next present =>
    intro cell member
    rcases List.mem_append.mp member with before | last
    · exact full cell before
    · rw [List.mem_singleton.mp last, words_collapse]
      exact fun none => present ((collapse_eq_nil_iff row.cur).mpr none)

/-- A character that is taken into a line. -/
def takeText (size : ℚ) (line : List Char × Option ℚ) (c : CharBox) : List Char × Option ℚ :=
  (line.1 ++ separator (line.2.any fun stop => stop + 1 / 10 * size < c.x) line.1 ++ c.ch,
    some (c.x + c.adv))

theorem lineText_eq (size : ℚ) (chars : List CharBox) :
    lineText size chars = chars.foldl (takeText size) ([], none) := rfl

variable {size : ℚ}

/-- The gap in front of a character ends a word of the line when it ends a word or the cell of the
row. -/
theorem Agrees.separate {line : List Char × Option ℚ} {row : Cells} (agrees : Agrees line row)
    (positive : 0 < size) (c : CharBox) :
    Agrees (line.1 ++ separator (line.2.any fun stop => stop + 1 / 10 * size < c.x) line.1, line.2)
      (row.separate size c) := by
  have closed : words isWhitespace line.1 =
      cellWords row.cells ++ words isWhitespace row.cur := by
    simpa using agrees.kept []
  rw [agrees.stop, Cells.separate]
  cases known : row.prevEnd with
  | none =>
      have nothing : separator ((none : Option ℚ).any fun stop => stop + 1 / 10 * size < c.x)
          line.1 = [] := rfl
      rw [nothing, List.append_nil]
      exact ⟨known.symm, agrees.kept, agrees.full⟩
  | some right =>
      dsimp only [Option.any_some]
      by_cases word : 1 / 10 * size < c.x - right
      · have gap : decide (right + 1 / 10 * size < c.x) = true := decide_eq_true (by linarith)
        rw [gap]
        by_cases wide : 12 / 10 * size < c.x - right
        · rw [if_pos wide]
          refine ⟨known.symm, fun suffix => ?_, full_pushCell agrees.full⟩
          rw [words_separator, cellWords_pushCell, closed]
          rfl
        · rw [if_neg wide]
          have spaced : (if 1 / 10 * size < c.x - right ∧ row.cur.getLast? ≠ some ' ' then
              { row with cur := row.cur ++ [' '], prevEnd := some right } else row) =
                { row with cur := row.cur ++ separator true row.cur } := by
            simp only [word, separator, true_and, ← known]
            split
            · rfl
            · rw [List.append_nil]
          rw [spaced]
          refine ⟨known.symm, fun suffix => ?_, agrees.full⟩
          rw [words_separator, closed, words_separator, List.append_assoc]
      · -- no word ends, and no cell either
        have gap : decide (right + 1 / 10 * size < c.x) = false :=
          decide_eq_false (by linarith)
        have narrow : ¬ 12 / 10 * size < c.x - right := by linarith
        have nothing : separator false line.1 = [] := if_neg (by simp)
        rw [gap, nothing, List.append_nil, if_neg narrow, if_neg (fun both => word both.1)]
        exact ⟨known.symm, agrees.kept, agrees.full⟩

theorem Agrees.take {line : List Char × Option ℚ} {row : Cells} (agrees : Agrees line row)
    (positive : 0 < size) (c : CharBox) : Agrees (takeText size line c) (row.take size c) := by
  have separated := agrees.separate positive c
  refine ⟨rfl, fun suffix => ?_, separated.full⟩
  simp only [takeText, Cells.take, List.append_assoc]
  simpa only [List.append_assoc] using separated.kept (c.ch ++ suffix)

theorem agrees_foldl (positive : 0 < size) (chars : List CharBox) :
    Agrees (lineText size chars) (chars.foldl (Cells.take size) {}) := by
  have run {line : List Char × Option ℚ} {row : Cells} (agrees : Agrees line row) :
      Agrees (chars.foldl (takeText size) line) (chars.foldl (Cells.take size) row) := by
    induction chars generalizing line row with
    | nil => exact agrees
    | cons c chars ih => exact ih (agrees.take positive c)
  rw [lineText_eq]
  exact run ⟨rfl, fun _ => rfl, fun _ absent => absurd absent List.not_mem_nil⟩

/-! ## Rows -/

/-- What a line and a row have in common. -/
structure Extract where
  text : List Char
  y0 : ℚ
  y1 : ℚ
  size : ℚ
  deriving DecidableEq

def Line.extract (line : Line) : Extract := ⟨line.text, line.y0, line.y1, line.size⟩

def Row.extract (row : Row) : Extract := ⟨row.text, row.y0, row.y1, row.size⟩

/-- The same characters make the same line and the same row, or neither. -/
theorem buildRow_buildLine {chars : List CharBox} (sized : ∀ c ∈ chars, 0 < c.size) :
    (buildRow chars).map Row.extract = (buildLine chars).map Line.extract := by
  have same : (sortBy CharBox.x chars).Perm chars := List.mergeSort_perm chars _
  rw [buildRow, buildLine]
  cases sorted : sortBy CharBox.x chars with
  | nil => rfl
  | cons first rest =>
      have positive : 0 < median ((first :: rest).map CharBox.size) := by
        apply median_pos (by simp)
        rw [List.forall_mem_map]
        intro c member
        exact sized c (same.mem_iff.mp (by rw [sorted]; exact member))
      simp only
      generalize median ((first :: rest).map CharBox.size) = size at positive
      have agrees := agrees_foldl positive (first :: rest)
      generalize (first :: rest).foldl (Cells.take size) {} = row at agrees
      have kept : words isWhitespace (lineText size (first :: rest)).1 =
          cellWords row.pushCell.cells := by
        rw [cellWords_pushCell]
        simpa using agrees.kept []
      have full := full_pushCell agrees.full
      generalize row.pushCell.cells = cells at kept full
      have text : collapse ([' '].intercalate (cells.map Cell.text)) =
          collapse (lineText size (first :: rest)).1 := by
        rw [collapse, words_intercalate rfl, collapse, kept, List.flatMap_map]
        rfl
      have blank : cells = [] ↔ collapse (lineText size (first :: rest)).1 = [] := by
        rw [collapse_eq_nil_iff, kept, cellWords, List.flatMap_eq_nil_iff]
        constructor
        · rintro rfl cell absent
          exact absurd absent List.not_mem_nil
        · intro none
          rw [List.eq_nil_iff_forall_not_mem]
          exact fun cell member => full cell member (none cell member)
      by_cases empty : cells = []
      · rw [if_pos empty, if_pos (blank.mp empty)]
        rfl
      · rw [if_neg empty, if_neg fun none => empty (blank.mpr none)]
        simp only [Option.map_some, Row.extract, Line.extract, Row.text, text]

section Gathering

variable {α β γ : Type} {left : List CharBox → Option α} {right : List CharBox → Option β}
  {leftView : α → γ} {rightView : β → γ}

/-- Two gathers that are at the same place. -/
structure Together (leftView : α → γ) (rightView : β → γ) (holds : CharBox → Prop)
    (first : Gather α) (second : Gather β) : Prop where
  done : first.done.map leftView = second.done.map rightView
  bucket : first.bucket = second.bucket
  yRef : first.yRef = second.yRef
  sizeRef : first.sizeRef = second.sizeRef
  held : ∀ c ∈ second.bucket, holds c

variable {holds : CharBox → Prop}

theorem Together.take {first : Gather α} {second : Gather β}
    (together : Together leftView rightView holds first second)
    (same : ∀ chars, (∀ c ∈ chars, holds c) →
      (left chars).map leftView = (right chars).map rightView) {c : CharBox} (held : holds c) :
    Together leftView rightView holds (first.take left c) (second.take right c) := by
  obtain ⟨done, bucket, yRef, sizeRef, before⟩ := together
  simp only [Gather.take, bucket, yRef, sizeRef]
  split
  · refine ⟨done, rfl, rfl, rfl, ?_⟩
    exact List.forall_mem_append.mpr ⟨before, List.forall_mem_singleton.mpr held⟩
  · refine ⟨?_, rfl, rfl, rfl, List.forall_mem_singleton.mpr held⟩
    rw [List.map_append, List.map_append, done, ← Option.toList_map, ← Option.toList_map,
      same _ before]

/-- Gathering gives the same when every line does. -/
theorem gatherBy_congr
    (same : ∀ chars, (∀ c ∈ chars, holds c) →
      (left chars).map leftView = (right chars).map rightView)
    {chars : List CharBox} (held : ∀ c ∈ chars, holds c) :
    (gatherBy left chars).map leftView = (gatherBy right chars).map rightView := by
  have perm : (sortBy2 CharBox.y CharBox.x chars).Perm chars := List.mergeSort_perm chars _
  rw [gatherBy, gatherBy]
  cases sorted : sortBy2 CharBox.y CharBox.x chars with
  | nil => rfl
  | cons c rest =>
      have members : ∀ d ∈ c :: rest, holds d := by
        intro d member
        exact held d (perm.mem_iff.mp (by rw [sorted]; exact member))
      have run (taken : List CharBox) (taking : ∀ d ∈ taken, holds d) {first : Gather α}
          {second : Gather β} (together : Together leftView rightView holds first second) :
          Together leftView rightView holds (taken.foldl (Gather.take left) first)
            (taken.foldl (Gather.take right) second) := by
        induction taken generalizing first second with
        | nil => exact together
        | cons d taken ih =>
            obtain ⟨here, later⟩ := List.forall_mem_cons.mp taking
            exact ih later (together.take same here)
      have start : Together leftView rightView holds { yRef := c.y, sizeRef := c.size }
          { yRef := c.y, sizeRef := c.size } :=
        ⟨rfl, rfl, rfl, rfl, fun _ absent => absurd absent List.not_mem_nil⟩
      have final := run (c :: rest) members start
      simp only
      rw [List.map_append, List.map_append, final.done, ← Option.toList_map, ← Option.toList_map,
        final.bucket, same _ final.held]

end Gathering

/-- Rows and lines of a page agree in number, order, text, height and size. -/
theorem groupRows_groupLines (chars : List CharBox) (sized : ∀ c ∈ chars, 0 < c.size) :
    (groupRows chars).map Row.extract = (groupLines chars).map Line.extract :=
  gatherBy_congr (fun _ held => buildRow_buildLine held) sized

/-- Two cells on a line. -/
def twoCells : List CharBox :=
  [⟨0, 0, 10, 5, ['a']⟩, ⟨100, 0, 12, 5, ['b']⟩]

theorem groupRows_groupLines_twoCells :
    (groupRows twoCells).map Row.extract = (groupLines twoCells).map Line.extract :=
  groupRows_groupLines twoCells (by simp [twoCells])

end AiCoreStack.Markdown.Pdf
