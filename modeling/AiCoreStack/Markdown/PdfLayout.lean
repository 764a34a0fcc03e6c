import AiCoreStack.Markdown.Content

/-!
# Reconstructing the layout of PDF pages

Model of `parsers/pdf_layout.rs` behind the collection of the characters, with exact
rational arithmetic.  A minimum or maximum that starts at the largest or smallest number
starts with the first value here, and a number that may be undefined is an `Option`.
-/

namespace AiCoreStack.Markdown.Pdf

open AiCoreStack.Foundation

/-- A character on a page, with coordinates from the top. -/
structure CharBox where
  x : ℚ
  y : ℚ
  size : ℚ
  adv : ℚ
  ch : List Char

structure Line where
  text : List Char
  x0 : ℚ
  y0 : ℚ
  x1 : ℚ
  y1 : ℚ
  size : ℚ
  deriving Inhabited

structure Cell where
  x0 : ℚ
  text : List Char

structure Row where
  y0 : ℚ
  y1 : ℚ
  size : ℚ
  cells : List Cell
  deriving Inhabited

/-! ## Numbers -/

def total (a b : ℚ) : Ordering := compare a b

/-- Sort by a key. -/
def sortBy {α : Type} (key : α → ℚ) (items : List α) : List α :=
  items.mergeSort fun a b => (total (key a) (key b)).isLE

/-- Sort by a key, and by another one where it is the same. -/
def sortBy2 {α : Type} (key second : α → ℚ) (items : List α) : List α :=
  items.mergeSort fun a b => ((total (key a) (key b)).then (total (second a) (second b))).isLE

def median (values : List ℚ) : ℚ := (sortBy id values).getD (values.length / 2) 0

def mean (values : List ℚ) : ℚ := if values = [] then 0 else values.sum / values.length

/-- The nearest integer, away from zero in the middle between two. -/
def roundAway (x : ℚ) : ℤ := if 0 ≤ x then ⌊x + 1 / 2⌋ else -⌊-x + 1 / 2⌋

def roundHalf (x : ℚ) : ℚ := roundAway (x * 2) / 2

def least {α : Type} (key : α → ℚ) (first : α) (rest : List α) : ℚ :=
  rest.foldl (fun value item => min value (key item)) (key first)

def greatest {α : Type} (key : α → ℚ) (first : α) (rest : List α) : ℚ :=
  rest.foldl (fun value item => max value (key item)) (key first)

/-! ## Grouping characters

`group_lines` and `group_rows` gather the characters of a page in the same way; they differ
in what they build from the characters of one line. -/

structure Gather (β : Type) where
  done : List β := []
  bucket : List CharBox := []
  yRef : ℚ
  sizeRef : ℚ

/-- Take a character into the open line, or open another one. -/
def Gather.take {β : Type} (build : List CharBox → Option β) (gather : Gather β) (c : CharBox) :
    Gather β :=
  let tol := 6 / 10 * max gather.sizeRef c.size
  if |c.y - gather.yRef| ≤ tol then
    { gather with
      bucket := gather.bucket ++ [c]
      yRef := (gather.yRef * gather.bucket.length + c.y) / (gather.bucket.length + 1)
      sizeRef := max gather.sizeRef c.size }
  else
    { done := gather.done ++ (build gather.bucket).toList
      bucket := [c]
      yRef := c.y
      sizeRef := c.size }

def gatherBy {β : Type} (build : List CharBox → Option β) (chars : List CharBox) : List β :=
  match sortBy2 CharBox.y CharBox.x chars with
  | [] => []
  | first :: rest =>
      let gather := (first :: rest).foldl (Gather.take build) { yRef := first.y, sizeRef := first.size }
      gather.done ++ (build gather.bucket).toList

/-- The text of a line and the right end of its last character. -/
def lineText (size : ℚ) (chars : List CharBox) : List Char × Option ℚ :=
  chars.foldl (fun (text, prevEnd) c =>
    let gap := prevEnd.any (fun stop => stop + 1 / 10 * size < c.x) ∧ text.getLast? ≠ some ' '
    (text ++ (if gap then [' '] else []) ++ c.ch, some (c.x + c.adv))) ([], none)

/-- `build_line`. -/
def buildLine (chars : List CharBox) : Option Line :=
  match sortBy CharBox.x chars with
  | [] => none
  | first :: rest =>
      let size := median ((first :: rest).map CharBox.size)
      let text := collapse (lineText size (first :: rest)).1
      if text = [] then none
      else some
        { text
          x0 := least CharBox.x first rest
          y0 := least CharBox.y first rest
          x1 := greatest (fun c => c.x + c.adv) first rest
          y1 := greatest (fun c => c.y + c.size) first rest
          size }

/-- `group_lines`. -/
def groupLines (chars : List CharBox) : List Line := gatherBy buildLine chars

/-- A row that is being cut into cells. -/
structure Cells where
  cells : List Cell := []
  cur : List Char := []
  cx0 : Option ℚ := none
  prevEnd : Option ℚ := none

/-- `push_cell`. -/
def Cells.pushCell (row : Cells) : Cells :=
  let text := collapse row.cur
  { row with
    cells := if text = [] then row.cells else row.cells ++ [⟨row.cx0.getD 0, text⟩]
    cur := []
    cx0 := none }

/-- What the gap in front of a character does: it ends the cell, or it separates words. -/
def Cells.separate (size : ℚ) (row : Cells) (c : CharBox) : Cells :=
  match row.prevEnd with
  | none => row
  | some stop =>
      if 12 / 10 * size < c.x - stop then row.pushCell
      else if 1 / 10 * size < c.x - stop ∧ row.cur.getLast? ≠ some ' ' then
        { row with cur := row.cur ++ [' '] }
      else row

def Cells.take (size : ℚ) (row : Cells) (c : CharBox) : Cells :=
  let row := row.separate size c
  { row with
    cx0 := some (row.cx0.getD c.x)
    cur := row.cur ++ c.ch
    prevEnd := some (c.x + c.adv) }

/-- `build_row`. -/
def buildRow (chars : List CharBox) : Option Row :=
  match sortBy CharBox.x chars with
  | [] => none
  | first :: rest =>
      let size := median ((first :: rest).map CharBox.size)
      let row := ((first :: rest).foldl (Cells.take size) {}).pushCell
      if row.cells = [] then none
      else some
        { y0 := least CharBox.y first rest
          y1 := greatest (fun c => c.y + c.size) first rest
          size
          cells := row.cells }

/-- `group_rows`. -/
def groupRows (chars : List CharBox) : List Row := gatherBy buildRow chars

/-- `Row::text`. -/
def Row.text (row : Row) : List Char := collapse ([' '].intercalate (row.cells.map Cell.text))

/-! ## Headings -/

/-- Count a size. -/
def countSize (counts : List (ℚ × Nat)) (size : ℚ) : List (ℚ × Nat) :=
  match counts.findIdx? fun entry => |entry.1 - size| < 1 / 100 with
  | some i => counts.modify i fun entry => (entry.1, entry.2 + 1)
  | none => counts ++ [(size, 1)]

/-- `mode_size`: the size that occurs most often, the smallest of several. -/
def modeSize (sizes : List ℚ) : ℚ :=
  match sizes.foldl countSize [] with
  | [] => 10
  | first :: rest =>
      (rest.foldl (fun best entry =>
        if (compare best.2 entry.2).then (total entry.1 best.1) = .gt then best else entry) first).1

/-- `heading_tiers`: the sizes above that of the body, the largest first. -/
def headingTiers (sizes : List ℚ) (body : ℚ) : List ℚ :=
  let tiers := sizes.foldl (fun tiers size =>
    if body * (112 / 100) < size ∧ !tiers.any (fun tier => |tier - size| < 1 / 100) then
      tiers ++ [size]
    else tiers) []
  tiers.mergeSort fun a b => (total b a).isLE

/-- `heading_level`. -/
def headingLevel (size body : ℚ) (tiers : List ℚ) : Option UInt8 :=
  let rounded := roundHalf size
  if rounded ≤ body * (112 / 100) ∨ tiers = [] then none
  else
    let rank := tiers.countP fun tier => rounded + 1 / 4 < tier
    some (UInt8.ofNat (min (rank + 1) 6))

/-! ## Reading order -/

/-- The widest gap between intervals that are read from the left. -/
structure Gutter where
  curEnd : ℚ
  bestGap : ℚ := 0
  bestSplit : Option ℚ := none

def Gutter.take (gutter : Gutter) (interval : ℚ × ℚ) : Gutter :=
  let gap := interval.1 - gutter.curEnd
  let found := if gutter.bestGap < gap then
      { gutter with bestGap := gap, bestSplit := some (gutter.curEnd + gap / 2) }
    else gutter
  { found with curEnd := if gutter.curEnd < interval.2 then interval.2 else gutter.curEnd }

/-- `split_columns`. -/
def splitColumns (idx : List Nat) (lines : List Line) (minGap : ℚ) : Option (List Nat × List Nat) :=
  match sortBy Prod.fst (idx.map fun i => ((lines.getD i default).x0, (lines.getD i default).x1)) with
  | [] => none
  | first :: rest =>
      let gutter := rest.foldl Gutter.take { curEnd := first.2 }
      match gutter.bestSplit with
      | none => none
      | some split =>
          if gutter.bestGap < minGap then none
          else
            let isLeft (i : Nat) : Bool :=
              ((lines.getD i default).x0 + (lines.getD i default).x1) / 2 < split
            let left := idx.filter isLeft
            let right := idx.filter fun i => !isLeft i
            if left = [] ∨ right = [] then none else some (left, right)

/-- The columns of a page are parts of it. -/
theorem splitColumns_perm {idx : List Nat} {lines : List Line} {minGap : ℚ}
    {left right : List Nat} (cut : splitColumns idx lines minGap = some (left, right)) :
    (left ++ right).Perm idx ∧ left ≠ [] ∧ right ≠ [] := by
  rw [splitColumns] at cut
  split at cut
  · cases cut
  · simp only at cut
    split at cut
    · cases cut
    · split at cut
      · cases cut
      · split at cut
        · cases cut
        next full =>
          obtain ⟨leftFull, rightFull⟩ := not_or.mp full
          obtain ⟨rfl, rfl⟩ := Prod.mk.inj (Option.some.inj cut)
          exact ⟨List.filter_append_perm _ idx, leftFull, rightFull⟩

/-- Both columns have fewer lines. -/
theorem splitColumns_length {idx : List Nat} {lines : List Line} {minGap : ℚ}
    {left right : List Nat} (cut : splitColumns idx lines minGap = some (left, right)) :
    left.length < idx.length ∧ right.length < idx.length := by
  obtain ⟨same, leftFull, rightFull⟩ := splitColumns_perm cut
  have whole := same.length_eq
  have leftLong := List.length_pos_iff.mpr leftFull
  have rightLong := List.length_pos_iff.mpr rightFull
  rw [List.length_append] at whole
  omega

/-- `cut`: the columns one after the other, a single one from the top. -/
def cut (lines : List Line) (med : ℚ) (idx : List Nat) : List Nat :=
  if idx.length ≤ 1 then idx
  else
    match known : splitColumns idx lines (med * (15 / 10)) with
    | some (left, right) => cut lines med left ++ cut lines med right
    | none =>
        sortBy2 (fun i => (lines.getD i default).y0) (fun i => (lines.getD i default).x0) idx
termination_by idx.length
decreasing_by
  · exact (splitColumns_length known).1
  · exact (splitColumns_length known).2

/-- `xy_cut_order`. -/
def xyCutOrder (lines : List Line) : List Nat :=
  cut lines (median (sortBy id (lines.map Line.size))) (List.range lines.length)

/-! ## Paragraphs -/

/-- `flush`: put the open paragraph out, unless it is blank. -/
def flush (para : List (List Char)) (out : List Block) : List Block :=
  if para = [] then out
  else
    let text := collapse ([' '].intercalate para)
    if text = [] then out else out ++ [.paragraph [.text text]]

/-- A page that is being put together from lines. -/
structure Assembly where
  para : List (List Char) := []
  last : Option Nat := none
  out : List Block

/-- Whether a line opens a paragraph behind another line. -/
def opensParagraph (line prev : Line) : Bool :=
  let gap := line.y0 - prev.y1
  let sizeChange := prev.size * (25 / 100) < |line.size - prev.size|
  7 / 10 * line.size < gap ∨ gap < -(5 / 10) * line.size ∨ sizeChange

def Assembly.take (lines : List Line) (body : ℚ) (tiers : List ℚ) (state : Assembly) (i : Nat) :
    Assembly :=
  let line := lines.getD i default
  match headingLevel line.size body tiers with
  | some level =>
      { para := [], last := none, out := flush state.para state.out ++ [.heading level line.text] }
  | none =>
      if state.last.any fun p => opensParagraph line (lines.getD p default) then
        { para := [line.text], last := some i, out := flush state.para state.out }
      else { state with para := state.para ++ [line.text], last := some i }

def assemble (lines : List Line) (order : List Nat) (body : ℚ) (tiers : List ℚ) (out : List Block) :
    List Block :=
  let state := order.foldl (Assembly.take lines body tiers) { out }
  flush state.para state.out

/-! ## Tables -/

/-- The column whose centre is nearest to a cell, with its distance. -/
def nearest (x : ℚ) (best : Nat × Option ℚ) (entry : ℚ × Nat) : Nat × Option ℚ :=
  let distance := |entry.1 - x|
  if best.2.all fun found => distance < found then (entry.2, some distance) else best

/-- `nearest_col`; every distance is a number, so there is a result. -/
def nearestCol (cols : List ℚ) (x : ℚ) : Nat := (cols.zipIdx.foldl (nearest x) (0, none)).1

/-- Columns that are being gathered from the left ends of cells. -/
structure Columns where
  cols : List ℚ := []
  group : List ℚ

def Columns.take (tol : ℚ) (columns : Columns) (x : ℚ) : Columns :=
  if x - columns.group.getLastD 0 ≤ tol then { columns with group := columns.group ++ [x] }
  else { cols := columns.cols ++ [mean columns.group], group := [x] }

/-- Whether the cells of a row stand in columns of their own. -/
def rowFits (cols : List ℚ) (tol : ℚ) : List Cell → List Nat → Bool
  | [], _ => true
  | cell :: rest, used =>
      let k := nearestCol cols cell.x0
      if tol < |cols.getD k 0 - cell.x0| ∨ k ∈ used then false else rowFits cols tol rest (k :: used)

/-- The tolerance of the columns of some rows. -/
def tolerance (rows : List Row) : ℚ := 15 / 10 * median (rows.map Row.size)

/-- `infer_columns`. -/
def inferColumns (rows : List Row) : Option (List ℚ) :=
  match sortBy id (rows.flatMap fun row => row.cells.map Cell.x0) with
  | [] => none
  | first :: rest =>
      let columns := rest.foldl (Columns.take (tolerance rows)) { group := [first] }
      let cols := columns.cols ++ [mean columns.group]
      if cols.length < 2 then none
      else if rows.all fun row => rowFits cols (tolerance rows) row.cells [] then some cols
      else none

/-- Put a text into a cell of a row. -/
def putText (cells : List (List Char)) (k : Nat) (text : List Char) : List (List Char) :=
  cells.modify k fun cell => if cell = [] then text else cell ++ [' '] ++ text

/-- Put the cells of a row into the columns. -/
def fillRow (cols : List ℚ) (tol : ℚ) : List Cell → List (List Char) → Option (List (List Char))
  | [], cells => some cells
  | cell :: rest, cells =>
      let k := nearestCol cols cell.x0
      if tol < |cols.getD k 0 - cell.x0| then none
      else fillRow cols tol rest (putText cells k cell.text)

/-- `build_table`: the first row is the header. -/
def buildTable (rows : List Row) (cols : List ℚ) : Option Table := do
  let grid ← rows.mapM fun row =>
    fillRow cols (tolerance rows) row.cells (List.replicate cols.length [])
  match grid with
  | headers :: second :: rest =>
      if cols.length < 2 then none else some { headers, rows := second :: rest }
  | _ => none

/-- The rows of a table. -/
structure Region where
  start : Nat
  stop : Nat
  cols : List ℚ

/-- The end of the rows from some row on that stand close together and have several
cells. -/
def regionEnd (rows : List Row) (j : Nat) : Nat :=
  if inside : j < rows.length then
    let row := rows.get ⟨j, inside⟩
    if 2 ≤ row.cells.length ∧ row.y0 - (rows.getD (j - 1) default).y1 < 15 / 10 * row.size then
      regionEnd rows (j + 1)
    else j
  else j
termination_by rows.length - j

/-- The rows from one row up to another. -/
def slice (rows : List Row) (start stop : Nat) : List Row := (rows.take stop).drop start

/-- The table that starts at a row, if there is one. -/
def regionAt (rows : List Row) (i : Nat) : Option Region :=
  if 2 ≤ (rows.getD i default).cells.length then
    let j := regionEnd rows (i + 1)
    if 2 ≤ j - i then (inferColumns (slice rows i j)).map fun cols => ⟨i, j, cols⟩ else none
  else none

theorem le_regionEnd (rows : List Row) (j : Nat) : j ≤ regionEnd rows j := by
  induction j using regionEnd.induct rows with
  | case1 j inside row close ih =>
      rw [regionEnd, dif_pos inside, if_pos close]
      omega
  | case2 j inside row apart =>
      rw [regionEnd, dif_pos inside, if_neg apart]
  | case3 j outside => rw [regionEnd, dif_neg outside]

theorem regionAt_start {rows : List Row} {i : Nat} {region : Region}
    (found : regionAt rows i = some region) :
    region.start = i ∧ region.stop = regionEnd rows (i + 1) := by
  rw [regionAt] at found
  split at found
  · simp only at found
    split at found
    · obtain ⟨cols, -, rfl⟩ := Option.map_eq_some_iff.mp found
      exact ⟨rfl, rfl⟩
    · cases found
  · cases found

/-- `find_table_regions`, from some row on. -/
def regionsFrom (rows : List Row) (i : Nat) : List Region :=
  if i < rows.length then
    match known : regionAt rows i with
    | some region => region :: regionsFrom rows region.stop
    | none => regionsFrom rows (i + 1)
  else []
termination_by rows.length - i
decreasing_by
  · have stop := (regionAt_start known).2
    have later := le_regionEnd rows (i + 1)
    omega
  · omega

/-- `find_table_regions`. -/
def findTableRegions (rows : List Row) : List Region := regionsFrom rows 0

/-- A page that is being put together from rows and tables. -/
structure Page where
  para : List (List Char) := []
  out : List Block := []

/-- A row outside tables: a heading, or text of a paragraph. -/
def Page.takeRow (body : ℚ) (tiers : List ℚ) (page : Page) (row : Row) : Page :=
  let text := row.text
  if text = [] then page
  else
    match headingLevel row.size body tiers with
    | some level => { para := [], out := flush page.para page.out ++ [.heading level text] }
    | none => { page with para := page.para ++ [text] }

def Page.takeTable (page : Page) (table : Option Table) : Page where
  para := []
  out := flush page.para page.out ++ (table.map Block.table).toList

/-- The loop over the rows of a page with tables. -/
def pageLoop (rows : List Row) (body : ℚ) (tiers : List ℚ) (i : Nat) (regions : List Region)
    (page : Page) : Page :=
  if i < rows.length then
    match regions with
    | [] => pageLoop rows body tiers (i + 1) [] (page.takeRow body tiers (rows.getD i default))
    | region :: rest =>
        if region.start = i then
          pageLoop rows body tiers region.stop rest
            (page.takeTable (buildTable (slice rows region.start region.stop) region.cols))
        else
          pageLoop rows body tiers (i + 1) (region :: rest)
            (page.takeRow body tiers (rows.getD i default))
  else page
termination_by (regions.length, rows.length - i)

def isTable : Block → Bool
  | .table _ => true
  | _ => false

/-- `table_aware_page`: the blocks of a page that has a table. -/
def tableAwarePage (chars : List CharBox) (body : ℚ) (tiers : List ℚ) : Option (List Block) :=
  let rows := groupRows chars
  if rows.length < 2 then none
  else
    let regions := findTableRegions rows
    if regions.length = 0 then none
    else
      let page := pageLoop rows body tiers 0 regions {}
      let out := flush page.para page.out
      if out.any isTable then some out else none

/-! ## Documents -/

/-- The blocks of a page. -/
def pageBlocks (body : ℚ) (tiers : List ℚ) (chars : List CharBox) (out : List Block) : List Block :=
  let lines := groupLines chars
  if lines.length = 0 then out
  else
    let out := if out.length = 0 then out else out ++ [.pageBreak]
    match tableAwarePage chars body tiers with
    | some blocks => out ++ blocks
    | none => assemble lines (xyCutOrder lines) body tiers out

/-- `layout_blocks`, behind the collection of the characters. -/
def layoutBlocks (pages : List (List CharBox)) : List Block :=
  let sizes := (pages.flatMap groupLines).map fun line => roundHalf line.size
  if sizes = [] then []
  else
    let body := modeSize sizes
    let tiers := headingTiers sizes body
    pages.foldl (fun out chars => pageBlocks body tiers chars out) []

end AiCoreStack.Markdown.Pdf
