import AiCoreStack.Foundation.Delimiter
import AiCoreStack.Foundation.Words
import AiCoreStack.Markdown.Renderer

/-!
# Reading a table back

A rendered table against a reader that cuts its lines at the pipes that are not escaped.
The renderer escapes pipes and leaves backslashes alone, so a cell that already has an
escaped pipe is cut in two.
-/

namespace AiCoreStack.Markdown

open AiCoreStack.Foundation

/-! ## The reader -/

/-- Pipes delimit columns and a backslash escapes a pipe. -/
def pipe : Delimiter Char := ⟨'|', '\\', by decide⟩

/-- The cells of a line: cut at the pipes that are not escaped, trimmed and unescaped. -/
def readCells (line : List Char) : List (List Char) :=
  (pipe.fields line).map fun cell => pipe.unprotect (trim isWhitespace cell)

/-- The text of the optional caption. -/
def captionText (caption : Option (List Char)) : List Char :=
  match caption with
  | some caption => "**".toList ++ escapeInline caption ++ "**\n\n".toList
  | none => []

/-- The collapsed cells of a row with empty cells up to the number of columns. -/
def collapsedRow (row : List (List Char)) (colCount : Nat) : List (List Char) :=
  (padRow row colCount).map collapse

/-- Behind the caption of a table stand a header line, a delimiter line and one line for
each row, and the reader finds the cells of the table in them. -/
def ReadsBack (table : Table) : Prop :=
  ∃ body header delimiter rows,
    renderTable table = captionText table.caption ++ body ∧
      lines body = header :: delimiter :: rows ∧
      readCells header = collapsedRow table.headers (columnCount table) ∧
      readCells delimiter = List.replicate (columnCount table) "---".toList ∧
      rows.map readCells = table.rows.map fun row => collapsedRow row (columnCount table)

/-! ## One line -/

theorem blank_ne_pipe : ' ' ≠ pipe.separator := by decide

theorem blank_ne_backslash : ' ' ≠ pipe.escape := by decide

theorem renderRow_eq {cells : List (List Char)} (nonempty : cells ≠ []) :
    renderRow (cells.map pipe.protect) = pipe.line ' ' cells ++ ['\n'] := by
  have joined (first : List Char) (rest : List (List Char)) :
      " | ".toList.intercalate ((first :: rest).map pipe.protect) ++ " |".toList =
        pipe.protect first ++ " |".toList ++
          rest.flatMap fun field => pipe.pad ' ' field ++ [pipe.separator] := by
    induction rest generalizing first with
    | nil => simp
    | cons next rest ih =>
        rw [List.map_cons, List.map_cons, List.intercalate_cons_cons, ← List.map_cons,
          List.append_assoc, ih, List.flatMap_cons]
        simp [Delimiter.pad, pipe]
  obtain ⟨first, rest, rfl⟩ := List.exists_cons_of_ne_nil nonempty
  have parts : " |\n".toList = " |".toList ++ ['\n'] := rfl
  rw [renderRow, parts, ← List.append_assoc, List.append_assoc "| ".toList, joined, Delimiter.line,
    List.flatMap_cons]
  simp [Delimiter.pad, pipe]

theorem tight_protect {text : List Char} (tight : Tight isWhitespace text) :
    Tight isWhitespace (pipe.protect text) := by
  constructor
  · intro c first
    cases text with
    | nil => exact absurd first (by simp)
    | cons d rest =>
        rw [Delimiter.protect_cons] at first
        split at first
        · obtain rfl := Option.some.inj first
          rfl
        · obtain rfl := Option.some.inj first
          exact tight.head d rfl
  · intro c final
    rcases List.eq_nil_or_concat text with rfl | ⟨front, d, rfl⟩
    · exact absurd final (by simp)
    · have last := tight.last d (by simp)
      rw [List.concat_eq_append, Delimiter.protect_append, Delimiter.protect_cons,
        Delimiter.protect_nil, List.append_nil] at final
      split at final
      next separates =>
        rw [List.getLast?_append_of_ne_nil _ (by simp)] at final
        obtain rfl := Option.some.inj final
        rfl
      · rw [List.getLast?_append_of_ne_nil _ (by simp)] at final
        obtain rfl := Option.some.inj final
        exact last

/-- The reader finds the cells of a line exactly when it cuts none of them. -/
theorem readCells_line {cells : List (List Char)}
    (tight : ∀ cell ∈ cells, Tight isWhitespace cell) :
    readCells (pipe.line ' ' cells) = cells ↔ ∀ cell ∈ cells, pipe.Clean cell := by
  constructor
  · intro read
    have same := congrArg List.length read
    rw [readCells, List.length_map] at same
    exact (pipe.length_fields_line blank_ne_pipe blank_ne_backslash cells).mp same
  · intro clean
    rw [readCells, pipe.fields_line_of_clean blank_ne_pipe blank_ne_backslash clean, List.map_map]
    have read (cell : List Char) (member : cell ∈ cells) :
        pipe.unprotect (trim isWhitespace (pipe.pad ' ' cell)) = cell := by
      rw [Delimiter.pad, trim_between rfl (tight_protect (tight cell member)),
        pipe.unprotect_protect]
    exact (List.map_congr_left read).trans (List.map_id' cells)

/-! ## Cells as they are written -/

theorem clean_append_blank {c : Char} (blank : isWhitespace c = true) (left right : List Char) :
    pipe.Clean (left ++ c :: right) ↔ pipe.Clean left ∧ pipe.Clean right := by
  apply pipe.clean_append_cons
  · rintro rfl
    exact absurd blank (by decide)
  · rintro rfl
    exact absurd blank (by decide)

theorem clean_words (text : List Char) :
    (∀ word ∈ words isWhitespace text, pipe.Clean word) ↔ pipe.Clean text := by
  induction text using blank_induction isWhitespace with
  | whole text solid =>
      rw [words_of_solid solid]
      cases text with
      | nil => simp
      | cons c text => simp
  | cut front c rest solid blank ih =>
      rw [words_append_cons blank, List.forall_mem_append, ih, clean_append_blank blank,
        words_of_solid solid]
      cases front with
      | nil => simp
      | cons c text => simp

theorem clean_intercalate (parts : List (List Char)) :
    pipe.Clean ([' '].intercalate parts) ↔ ∀ part ∈ parts, pipe.Clean part := by
  induction parts with
  | nil => simp
  | cons part parts ih =>
      cases parts with
      | nil => simp
      | cons next rest =>
          rw [List.intercalate_cons_cons, List.append_assoc, List.singleton_append,
            clean_append_blank rfl, ih]
          exact List.forall_mem_cons.symm

/-- Collapsing moves no backslash to or from a pipe. -/
theorem clean_collapse (text : List Char) : pipe.Clean (collapse text) ↔ pipe.Clean text := by
  rw [collapse, clean_intercalate, clean_words]

theorem clean_collapsedRow (row : List (List Char)) (colCount : Nat) :
    (∀ cell ∈ collapsedRow row colCount, pipe.Clean cell) ↔ ∀ cell ∈ row, pipe.Clean cell := by
  have filled : ∀ cell ∈ List.replicate (colCount - row.length) ([] : List Char),
      pipe.Clean cell := by
    intro cell member
    rw [List.eq_of_mem_replicate member]
    exact pipe.clean_nil
  rw [collapsedRow, List.forall_mem_map]
  simp only [clean_collapse, padRow, List.forall_mem_append]
  exact and_iff_left filled

theorem tight_collapsedRow {row : List (List Char)} {colCount : Nat} :
    ∀ cell ∈ collapsedRow row colCount, Tight isWhitespace cell := by
  rw [collapsedRow, List.forall_mem_map]
  exact fun cell _ => tight_collapse cell

theorem readCells_collapsedRow (row : List (List Char)) (colCount : Nat) :
    readCells (pipe.line ' ' (collapsedRow row colCount)) = collapsedRow row colCount ↔
      ∀ cell ∈ row, pipe.Clean cell := by
  rw [readCells_line tight_collapsedRow, clean_collapsedRow]

theorem readCells_delimiter (colCount : Nat) :
    readCells (pipe.line ' ' (List.replicate colCount "---".toList)) =
      List.replicate colCount "---".toList := by
  have each (good : List Char → Prop) (holds : good "---".toList) :
      ∀ cell ∈ List.replicate colCount "---".toList, good cell := by
    intro cell member
    rwa [List.eq_of_mem_replicate member]
  have solid : Solid isWhitespace "---".toList := by
    intro c member
    have dash : c = '-' := by simpa using member
    rw [dash]
    rfl
  rw [readCells_line (each _ solid.tight)]
  exact each _ (by decide)

/-! ## The table -/

/-- The lines behind the caption. -/
def tableLines (table : Table) : List (List Char) :=
  pipe.line ' ' (collapsedRow table.headers (columnCount table)) ::
    pipe.line ' ' (List.replicate (columnCount table) "---".toList) ::
    table.rows.map fun row => pipe.line ' ' (collapsedRow row (columnCount table))

theorem length_collapsedRow (row : List (List Char)) (colCount : Nat) :
    (collapsedRow row colCount).length = max row.length colCount := by
  simp only [collapsedRow, padRow, List.length_map, List.length_append, List.length_replicate]
  omega

theorem renderRow_cells {row : List (List Char)} {colCount : Nat} (columns : colCount ≠ 0) :
    renderRow ((padRow row colCount).map escapeCell) =
      pipe.line ' ' (collapsedRow row colCount) ++ ['\n'] := by
  have nonempty : collapsedRow row colCount ≠ [] := by
    rw [← List.length_pos_iff, length_collapsedRow]
    omega
  rw [← renderRow_eq nonempty, collapsedRow, List.map_map]
  rfl

theorem renderRow_delimiter {colCount : Nat} (columns : colCount ≠ 0) :
    renderRow (List.replicate colCount "---".toList) =
      pipe.line ' ' (List.replicate colCount "---".toList) ++ ['\n'] := by
  rw [← renderRow_eq (by simpa using columns), List.map_replicate]
  rfl

theorem renderTable_eq (table : Table) (columns : columnCount table ≠ 0) :
    renderTable table =
      captionText table.caption ++ (tableLines table).flatMap fun line => line ++ ['\n'] := by
  have rows : (table.rows.flatMap fun row =>
        renderRow ((padRow row (columnCount table)).map escapeCell)) =
      (table.rows.map fun row => pipe.line ' ' (collapsedRow row (columnCount table))).flatMap
        fun line => line ++ ['\n'] := by
    simp only [renderRow_cells columns, List.flatMap_map]
  rw [tableLines, List.flatMap_cons, List.flatMap_cons, ← rows, ← renderRow_cells columns,
    ← renderRow_delimiter columns]
  unfold renderTable
  rw [if_neg columns, List.append_assoc, List.append_assoc]
  rfl

/-- No line is broken by a cell. -/
theorem lines_tableLines (table : Table) :
    lines ((tableLines table).flatMap fun line => line ++ ['\n']) = tableLines table := by
  have flat (cells : List (List Char)) (spaces : ∀ cell ∈ cells, '\n' ∉ cell) :
      '\n' ∉ pipe.line ' ' cells := by
    intro member
    rcases pipe.mem_line member with pipes | escapes | blank | ⟨cell, here, inside⟩
    · exact absurd pipes (by decide)
    · exact absurd escapes (by decide)
    · exact absurd blank (by decide)
    · exact spaces cell here inside
  have collapsed (row : List (List Char)) :
      ∀ cell ∈ collapsedRow row (columnCount table), '\n' ∉ cell := by
    rw [collapsedRow, List.forall_mem_map]
    intro cell _ member
    exact absurd (eq_space_of_mem_collapse member rfl) (by decide)
  have dashes : ∀ cell ∈ List.replicate (columnCount table) "---".toList, '\n' ∉ cell := by
    intro cell member
    rw [List.eq_of_mem_replicate member]
    decide
  apply lines_flatMap
  · simp only [tableLines, List.forall_mem_cons, List.forall_mem_map]
    exact ⟨flat _ (collapsed _), flat _ dashes, fun row _ => flat _ (collapsed row)⟩
  · simp only [tableLines, List.forall_mem_cons, List.forall_mem_map, Delimiter.getLast?_line]
    exact ⟨by decide, by decide, fun _ _ => by decide⟩

theorem forall_cells (table : Table) :
    (∀ cell ∈ table.headers ++ table.rows.flatten, pipe.Clean cell) ↔
      (∀ cell ∈ table.headers, pipe.Clean cell) ∧
        ∀ row ∈ table.rows, ∀ cell ∈ row, pipe.Clean cell := by
  simp only [List.forall_mem_append, List.mem_flatten, forall_exists_index, and_imp]
  exact and_congr_right' ⟨fun all row here cell => all cell row here,
    fun all cell row here => all row here cell⟩

/-- A table is read back exactly when none of its cells has a pipe directly behind an odd
number of backslashes. -/
theorem readsBack_iff (table : Table) (columns : columnCount table ≠ 0) :
    ReadsBack table ↔ ∀ cell ∈ table.headers ++ table.rows.flatten, pipe.Clean cell := by
  rw [forall_cells]
  constructor
  · rintro ⟨body, header, delimiter, rows, written, cut, readHeader, -, readRows⟩
    rw [renderTable_eq table columns, List.append_cancel_left_eq] at written
    rw [← written, lines_tableLines, tableLines] at cut
    obtain ⟨rfl, later⟩ := List.cons.inj cut
    obtain ⟨-, rfl⟩ := List.cons.inj later
    rw [List.map_map, List.map_inj_left] at readRows
    exact ⟨(readCells_collapsedRow _ _).mp readHeader,
      fun row member => (readCells_collapsedRow row _).mp (readRows row member)⟩
  · rintro ⟨headers, rows⟩
    refine ⟨_, _, _, _, renderTable_eq table columns, lines_tableLines table,
      (readCells_collapsedRow _ _).mpr headers, readCells_delimiter _, ?_⟩
    rw [List.map_map, List.map_inj_left]
    exact fun row member => (readCells_collapsedRow row _).mpr (rows row member)

/-- A table with a short row, blanks and a pipe behind two backslashes. -/
def ragged : Table where
  headers := ["a|b".toList, "c\\\\|d".toList]
  rows := [[" x\ny ".toList], []]

theorem readsBack_ragged : columnCount ragged ≠ 0 ∧ ReadsBack ragged :=
  ⟨by decide, (readsBack_iff ragged (by decide)).mpr (by decide)⟩

/-- A table with a pipe behind one backslash. -/
def escapedCell : Table where
  headers := ["a\\|b".toList]
  rows := []

/-- The header is read as two cells. -/
theorem not_readsBack_escapedCell : columnCount escapedCell ≠ 0 ∧ ¬ ReadsBack escapedCell := by
  refine ⟨by decide, ?_⟩
  rintro ⟨body, header, delimiter, rows, written, cut, readHeader, -, -⟩
  have whole : renderTable escapedCell = body := written
  have first : (lines (renderTable escapedCell)).head? = some header := by
    rw [whole, cut]
    rfl
  obtain rfl : "| a\\\\|b |".toList = header := Option.some.inj first
  exact absurd readHeader (by decide)

end AiCoreStack.Markdown
