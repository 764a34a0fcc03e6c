import AiCoreStack.Markdown.PdfLayout

/-!
# What reconstructing PDF pages keeps

The characters of a page are sorted, gathered into lines and cells, ordered and put into
paragraphs, headings and tables.  Every step keeps their ink.
-/

namespace AiCoreStack.Markdown.Pdf

open AiCoreStack.Foundation

/-- The ink of characters. -/
def charsInk (chars : List CharBox) : Multiset Char := (chars.map fun c => inkOf c.ch).sum

/-- The ink of some texts. -/
def textsInk (texts : List (List Char)) : Multiset Char := (texts.map inkOf).sum

@[simp] theorem textsInk_nil : textsInk [] = 0 := rfl

@[simp] theorem textsInk_append (left right : List (List Char)) :
    textsInk (left ++ right) = textsInk left + textsInk right := by
  simp [textsInk]

@[simp] theorem textsInk_singleton (text : List Char) : textsInk [text] = inkOf text := by
  simp [textsInk]

theorem charsInk_append (left right : List CharBox) :
    charsInk (left ++ right) = charsInk left + charsInk right := by
  simp [charsInk]

theorem charsInk_singleton (c : CharBox) : charsInk [c] = inkOf c.ch := by
  simp [charsInk]

theorem charsInk_cons (c : CharBox) (chars : List CharBox) :
    charsInk (c :: chars) = inkOf c.ch + charsInk chars := by
  simp [charsInk]

theorem charsInk_perm {left right : List CharBox} (same : left.Perm right) :
    charsInk left = charsInk right :=
  (same.map _).sum_eq

/-! ## Lines and cells -/

section Gathering

variable {β : Type} {build : List CharBox → Option β} {inkβ : β → Multiset Char}

/-- The ink of what has been gathered. -/
def Gather.ink (inkβ : β → Multiset Char) (gather : Gather β) : Multiset Char :=
  (gather.done.map inkβ).sum + charsInk gather.bucket

variable (keeps : ∀ bucket, ((build bucket).toList.map inkβ).sum = charsInk bucket)

include keeps

theorem Gather.ink_take (gather : Gather β) (c : CharBox) :
    (gather.take build c).ink inkβ = gather.ink inkβ + inkOf c.ch := by
  simp only [Gather.take]
  split
  · rw [Gather.ink, Gather.ink, charsInk_append, charsInk_singleton, add_assoc]
  · rw [Gather.ink, Gather.ink, List.map_append, List.sum_append, keeps, charsInk_singleton]

theorem Gather.ink_foldl (gather : Gather β) (chars : List CharBox) :
    (chars.foldl (Gather.take build) gather).ink inkβ = gather.ink inkβ + charsInk chars := by
  induction chars generalizing gather with
  | nil => exact (add_zero _).symm
  | cons c chars ih => rw [List.foldl_cons, ih, Gather.ink_take keeps, charsInk_cons, add_assoc]

/-- Gathering characters keeps their ink. -/
theorem ink_gatherBy (chars : List CharBox) :
    ((gatherBy build chars).map inkβ).sum = charsInk chars := by
  have sorted : charsInk (sortBy2 CharBox.y CharBox.x chars) = charsInk chars :=
    charsInk_perm (List.mergeSort_perm chars _)
  rw [gatherBy, ← sorted]
  cases sortBy2 CharBox.y CharBox.x chars with
  | nil => rfl
  | cons first rest =>
      have gathered := Gather.ink_foldl keeps { yRef := first.y, sizeRef := first.size } (first :: rest)
      simp only [List.map_append, List.sum_append, keeps]
      exact gathered.trans (zero_add _)

end Gathering

theorem inkOf_lineText (size : ℚ) (chars : List CharBox) :
    inkOf (lineText size chars).1 = charsInk chars := by
  have step (chars : List CharBox) (state : List Char × Option ℚ) :
      inkOf (chars.foldl (fun state c =>
        let gap := state.2.any (fun stop => stop + 1 / 10 * size < c.x) ∧
          state.1.getLast? ≠ some ' '
        (state.1 ++ (if gap then [' '] else []) ++ c.ch, some (c.x + c.adv))) state).1 =
      inkOf state.1 + charsInk chars := by
    induction chars generalizing state with
    | nil => exact (add_zero _).symm
    | cons c chars ih =>
        rw [List.foldl_cons, ih, charsInk_cons, ← add_assoc]
        simp only [inkOf_append]
        split <;> simp
  exact (step chars ([], none)).trans (zero_add _)

/-- A line has the ink of its characters. -/
theorem ink_buildLine (chars : List CharBox) :
    ((buildLine chars).toList.map fun line => inkOf line.text).sum = charsInk chars := by
  have sorted : charsInk (sortBy CharBox.x chars) = charsInk chars :=
    charsInk_perm (List.mergeSort_perm chars _)
  rw [buildLine, ← sorted]
  cases sortBy CharBox.x chars with
  | nil => rfl
  | cons first rest =>
      simp only
      rw [← inkOf_lineText (median ((first :: rest).map CharBox.size)), ← inkOf_collapse]
      split
      next blank => rw [blank]; rfl
      next => simp

/-- The ink of a row that is being cut into cells. -/
def Cells.ink (row : Cells) : Multiset Char := textsInk (row.cells.map Cell.text) + inkOf row.cur

theorem Cells.ink_pushCell (row : Cells) : row.pushCell.ink = row.ink := by
  simp only [Cells.ink, pushCell, inkOf_nil, add_zero]
  rw [← inkOf_collapse row.cur]
  split
  next blank => rw [blank, inkOf_nil, add_zero]
  next => simp

theorem Cells.ink_separate (size : ℚ) (row : Cells) (c : CharBox) :
    (row.separate size c).ink = row.ink := by
  rw [separate]
  split
  · rfl
  · split
    · exact row.ink_pushCell
    · split
      · simp [Cells.ink]
      · rfl

theorem Cells.ink_take (size : ℚ) (row : Cells) (c : CharBox) :
    (row.take size c).ink = row.ink + inkOf c.ch := by
  rw [← row.ink_separate size c]
  simp only [Cells.ink, take, inkOf_append, add_assoc]

theorem Cells.ink_foldl (size : ℚ) (row : Cells) (chars : List CharBox) :
    (chars.foldl (Cells.take size) row).ink = row.ink + charsInk chars := by
  induction chars generalizing row with
  | nil => exact (add_zero _).symm
  | cons c chars ih => rw [List.foldl_cons, ih, Cells.ink_take, charsInk_cons, add_assoc]

def Row.ink (row : Row) : Multiset Char := textsInk (row.cells.map Cell.text)

/-- A row has the ink of its characters. -/
theorem ink_buildRow (chars : List CharBox) :
    ((buildRow chars).toList.map Row.ink).sum = charsInk chars := by
  have sorted : charsInk (sortBy CharBox.x chars) = charsInk chars :=
    charsInk_perm (List.mergeSort_perm chars _)
  rw [buildRow, ← sorted]
  cases sortBy CharBox.x chars with
  | nil => rfl
  | cons first rest =>
      simp only
      have cells := Cells.ink_foldl (median ((first :: rest).map CharBox.size)) {} (first :: rest)
      rw [← Cells.ink_pushCell] at cells
      have whole : textsInk ((((first :: rest).foldl
          (Cells.take (median ((first :: rest).map CharBox.size))) {}).pushCell).cells.map Cell.text) =
            charsInk (first :: rest) := by
        exact (add_zero _).symm.trans (cells.trans (zero_add _))
      rw [← whole]
      split
      next empty => rw [empty]; rfl
      next => simp [Row.ink]

theorem ink_groupLines (chars : List CharBox) :
    ((groupLines chars).map fun line => inkOf line.text).sum = charsInk chars :=
  ink_gatherBy ink_buildLine chars

theorem ink_groupRows (chars : List CharBox) :
    ((groupRows chars).map Row.ink).sum = charsInk chars :=
  ink_gatherBy ink_buildRow chars

theorem inkOf_rowText (row : Row) : inkOf row.text = row.ink := by
  rw [Row.text, inkOf_collapse, inkOf_join, Row.ink, textsInk]

/-! ## Reading order -/

/-- The recursive cut visits every line once. -/
theorem cut_perm (lines : List Line) (med : ℚ) (idx : List Nat) : (cut lines med idx).Perm idx := by
  induction idx using cut.induct lines med with
  | case1 idx short => rw [cut, if_pos short]
  | case2 idx long left right known ihLeft ihRight =>
      rw [cut, if_neg long]
      split
      next left' right' known' =>
        obtain ⟨rfl, rfl⟩ := Prod.mk.inj (Option.some.inj (known.symm.trans known'))
        exact (ihLeft.append ihRight).trans (splitColumns_perm known).1
      next known' => exact absurd (known.symm.trans known') (by simp)
  | case3 idx long known =>
      rw [cut, if_neg long]
      split
      next left' right' known' => exact absurd (known.symm.trans known') (by simp)
      next => exact List.mergeSort_perm idx _

theorem xyCutOrder_perm (lines : List Line) :
    (xyCutOrder lines).Perm (List.range lines.length) :=
  cut_perm lines _ _

/-! ## Paragraphs -/

theorem blocksInk_flush (para : List (List Char)) (out : List Block) :
    blocksInk (flush para out) = blocksInk out + textsInk para := by
  simp only [flush]
  split
  next empty => simp [empty]
  next =>
    rw [textsInk, ← inkOf_join, ← inkOf_collapse]
    split
    next blank => rw [blank, inkOf_nil, add_zero]
    next => simp [Block.ink]

def Assembly.ink (state : Assembly) : Multiset Char := blocksInk state.out + textsInk state.para

theorem Assembly.ink_take (lines : List Line) (body : ℚ) (tiers : List ℚ) (state : Assembly)
    (i : Nat) :
    (state.take lines body tiers i).ink = state.ink + inkOf (lines.getD i default).text := by
  simp only [take]
  split
  · simp [Assembly.ink, blocksInk_flush, Block.ink]
  · split
    · simp [Assembly.ink, blocksInk_flush]
    · simp [Assembly.ink, add_assoc]

/-- The blocks of a page hold the ink of its lines, in whatever order these come. -/
theorem blocksInk_assemble (lines : List Line) (order : List Nat) (body : ℚ) (tiers : List ℚ)
    (out : List Block) :
    blocksInk (assemble lines order body tiers out) =
      blocksInk out + (order.map fun i => inkOf (lines.getD i default).text).sum := by
  have step (order : List Nat) (state : Assembly) :
      (order.foldl (Assembly.take lines body tiers) state).ink =
        state.ink + (order.map fun i => inkOf (lines.getD i default).text).sum := by
    induction order generalizing state with
    | nil => exact (add_zero _).symm
    | cons i order ih =>
        rw [List.foldl_cons, ih, Assembly.ink_take, List.map_cons, List.sum_cons, add_assoc]
  rw [assemble, blocksInk_flush]
  exact (step order { out }).trans (congrArg (· + _) (add_zero _))

theorem sum_range_lines (lines : List Line) :
    ((List.range lines.length).map fun i => inkOf (lines.getD i default).text).sum =
      (lines.map fun line => inkOf line.text).sum := by
  congr 1
  apply List.ext_getElem
  · simp
  · intro i left right
    simp at left
    simp [left]

/-! ## Tables -/

theorem nearest_index (x : ℚ) (entries : List (ℚ × Nat)) (best : Nat × Option ℚ) :
    (entries.foldl (nearest x) best).1 = best.1 ∨
      ∃ entry ∈ entries, (entries.foldl (nearest x) best).1 = entry.2 := by
  induction entries generalizing best with
  | nil => exact .inl rfl
  | cons entry entries ih =>
      rw [List.foldl_cons]
      rcases ih (nearest x best entry) with same | ⟨later, member, found⟩
      · rw [same, nearest]
        split
        · exact .inr ⟨entry, List.mem_cons_self, rfl⟩
        · exact .inl rfl
      · exact .inr ⟨later, List.mem_cons_of_mem entry member, found⟩

/-- The nearest column is one of the columns. -/
theorem nearestCol_lt {cols : List ℚ} (full : cols ≠ []) (x : ℚ) :
    nearestCol cols x < cols.length := by
  rw [nearestCol]
  rcases nearest_index x cols.zipIdx (0, none) with same | ⟨entry, member, found⟩
  · rw [same]
    exact List.length_pos_iff.mpr full
  · rw [found]
    simpa using List.snd_lt_of_mem_zipIdx member

theorem rowInk_putText {cells : List (List Char)} {k : Nat} (inside : k < cells.length)
    (text : List Char) : rowInk (putText cells k text) = rowInk cells + inkOf text := by
  rw [putText]
  induction cells generalizing k with
  | nil => simp at inside
  | cons cell cells ih =>
      cases k with
      | zero =>
          rw [List.modify_zero_cons]
          simp only [rowInk, List.map_cons, List.sum_cons]
          split
          next empty =>
            rw [empty, inkOf_nil, zero_add, add_comm]
          next =>
            rw [inkOf_append, inkOf_append, inkOf_space, add_zero, add_right_comm]
      | succ k =>
          rw [List.modify_succ_cons]
          have later := ih (Nat.lt_of_succ_lt_succ inside)
          simp only [rowInk, List.map_cons, List.sum_cons] at later ⊢
          rw [later, add_assoc]

/-- A row whose cells stand in columns of their own is put into the columns with all its
ink. -/
theorem fillRow_of_fits {cols : List ℚ} (full : cols ≠ []) {tol : ℚ} {cells : List Cell}
    {used : List Nat} (fits : rowFits cols tol cells used = true) {filled : List (List Char)}
    (wide : filled.length = cols.length) :
    ∃ row, fillRow cols tol cells filled = some row ∧
      rowInk row = rowInk filled + textsInk (cells.map Cell.text) := by
  induction cells generalizing used filled with
  | nil => exact ⟨filled, rfl, by simp⟩
  | cons cell cells ih =>
      rw [rowFits] at fits
      split at fits
      · cases fits
      next within =>
        obtain ⟨near, -⟩ := not_or.mp within
        have inside : nearestCol cols cell.x0 < filled.length := wide ▸ nearestCol_lt full cell.x0
        have stillWide : (putText filled (nearestCol cols cell.x0) cell.text).length =
            cols.length := by
          rw [putText, List.length_modify, wide]
        obtain ⟨row, put, ink⟩ := ih fits stillWide
        refine ⟨row, ?_, ?_⟩
        · rw [fillRow]
          simp only [if_neg near, put]
        · rw [ink, rowInk_putText inside, List.map_cons, add_assoc]
          simp [textsInk]

theorem inferColumns_fits {rows : List Row} {cols : List ℚ} (inferred : inferColumns rows = some cols) :
    2 ≤ cols.length ∧ ∀ row ∈ rows, rowFits cols (tolerance rows) row.cells [] = true := by
  rw [inferColumns] at inferred
  split at inferred
  · cases inferred
  · simp only at inferred
    split at inferred
    · cases inferred
    next wide =>
      split at inferred
      next fits =>
        obtain rfl := Option.some.inj inferred
        exact ⟨Nat.le_of_not_lt wide, List.all_eq_true.mp fits⟩
      next => cases inferred

/-- The rows of a table are put into the columns with all their ink. -/
theorem fillRows_of_fits {cols : List ℚ} (full : cols ≠ []) {tol : ℚ} {rows : List Row}
    (fits : ∀ row ∈ rows, rowFits cols tol row.cells [] = true) :
    ∃ grid, rows.mapM (fun row => fillRow cols tol row.cells (List.replicate cols.length [])) =
        some grid ∧
      grid.length = rows.length ∧ rowsInk grid = (rows.map Row.ink).sum := by
  have blank : rowInk (List.replicate cols.length []) = 0 := by
    simp [rowInk]
  induction rows with
  | nil => exact ⟨[], rfl, rfl, rfl⟩
  | cons row rows ih =>
      obtain ⟨cells, put, ink⟩ := fillRow_of_fits full (fits row List.mem_cons_self)
        (List.length_replicate ..)
      obtain ⟨grid, filled, long, rest⟩ := ih fun other later => fits other (List.mem_cons_of_mem row later)
      refine ⟨cells :: grid, ?_, by simp [long], ?_⟩
      · rw [List.mapM_cons, put, filled]
        rfl
      · rw [rowsInk_cons, ink, blank, zero_add, rest, List.map_cons, List.sum_cons]
        rfl

/-- A table that was accepted is built, with all the ink of its rows. -/
theorem buildTable_of_inferColumns {rows : List Row} {cols : List ℚ}
    (inferred : inferColumns rows = some cols) (several : 2 ≤ rows.length) :
    ∃ table, buildTable rows cols = some table ∧ table.ink = (rows.map Row.ink).sum := by
  obtain ⟨wide, fits⟩ := inferColumns_fits inferred
  have full : cols ≠ [] := by
    rintro rfl
    simp at wide
  obtain ⟨grid, filled, long, ink⟩ := fillRows_of_fits full fits
  match grid, long with
  | [], long => simp at long; omega
  | [_], long => simp at long; omega
  | headers :: second :: rest, _ =>
      refine ⟨{ headers, rows := second :: rest }, ?_, ?_⟩
      · rw [buildTable, filled]
        exact if_neg (Nat.not_lt.mpr wide)
      · rw [← ink, Table.ink, rowsInk_cons]
        exact add_zero _

/-! ## Regions -/

theorem regionEnd_le {rows : List Row} {j : Nat} (inside : j ≤ rows.length) :
    regionEnd rows j ≤ rows.length := by
  induction j using regionEnd.induct rows with
  | case1 j within row close ih =>
      rw [regionEnd, dif_pos within, if_pos close]
      exact ih within
  | case2 j within row apart => rwa [regionEnd, dif_pos within, if_neg apart]
  | case3 j outside => rwa [regionEnd, dif_neg outside]

/-- Regions from some row on: they follow each other inside the page, have at least two
rows, and their columns have been accepted. -/
def RegionsFrom (rows : List Row) : Nat → List Region → Prop
  | _, [] => True
  | i, region :: rest =>
      i ≤ region.start ∧ region.start + 2 ≤ region.stop ∧ region.stop ≤ rows.length ∧
        inferColumns (slice rows region.start region.stop) = some region.cols ∧
        RegionsFrom rows region.stop rest

theorem RegionsFrom.mono {rows : List Row} {i j : Nat} (earlier : i ≤ j) {regions : List Region}
    (valid : RegionsFrom rows j regions) : RegionsFrom rows i regions := by
  cases regions with
  | nil => trivial
  | cons region rest => exact ⟨earlier.trans valid.1, valid.2⟩

theorem regionAt_valid {rows : List Row} {i : Nat} (inside : i < rows.length) {region : Region}
    (found : regionAt rows i = some region) :
    region.start = i ∧ region.start + 2 ≤ region.stop ∧ region.stop ≤ rows.length ∧
      inferColumns (slice rows region.start region.stop) = some region.cols := by
  have bound : regionEnd rows (i + 1) ≤ rows.length := regionEnd_le inside
  rw [regionAt] at found
  split at found
  · simp only at found
    split at found
    next several =>
      obtain ⟨cols, inferred, rfl⟩ := Option.map_eq_some_iff.mp found
      exact ⟨rfl, by simp only; omega, bound, inferred⟩
    · cases found
  · cases found

theorem regionsFrom_valid (rows : List Row) (i : Nat) :
    RegionsFrom rows i (regionsFrom rows i) := by
  induction i using regionsFrom.induct rows with
  | case1 i inside region known ih =>
      obtain ⟨start, several, bound, inferred⟩ := regionAt_valid inside known
      rw [regionsFrom, if_pos inside]
      split
      next region' known' =>
        obtain rfl := Option.some.inj (known.symm.trans known')
        exact ⟨start.ge, several, bound, inferred, ih⟩
      next known' => exact absurd (known.symm.trans known') (by simp)
  | case2 i inside known ih =>
      rw [regionsFrom, if_pos inside]
      split
      next region' known' => exact absurd (known.symm.trans known') (by simp)
      next => exact ih.mono (Nat.le_succ i)
  | case3 i outside =>
      rw [regionsFrom, if_neg outside]
      trivial

/-! ## Pages -/

def Page.ink (page : Page) : Multiset Char := blocksInk page.out + textsInk page.para

theorem Page.ink_takeRow (body : ℚ) (tiers : List ℚ) (page : Page) (row : Row) :
    (page.takeRow body tiers row).ink = page.ink + row.ink := by
  rw [← inkOf_rowText]
  simp only [takeRow]
  split
  next empty => rw [empty, inkOf_nil, add_zero]
  next =>
    split
    · simp [Page.ink, blocksInk_flush, Block.ink]
    · simp [Page.ink, add_assoc]

theorem Page.ink_takeTable (page : Page) (table : Table) :
    (page.takeTable (some table)).ink = page.ink + table.ink := by
  simp [Page.ink, takeTable, blocksInk_flush, Block.ink]

theorem slice_append_drop (rows : List Row) {start stop : Nat} (ordered : start ≤ stop)
    (inside : stop ≤ rows.length) : slice rows start stop ++ rows.drop stop = rows.drop start := by
  conv_rhs => rw [← List.take_append_drop stop rows]
  rw [List.drop_append_of_le_length (by simp [ordered, inside]), slice]

theorem length_slice (rows : List Row) {start stop : Nat} (inside : stop ≤ rows.length) :
    (slice rows start stop).length = stop - start := by
  rw [slice, List.length_drop, List.length_take, Nat.min_eq_left inside]

/-- The rows of a page keep their ink, those of tables and the others. -/
theorem ink_pageLoop (rows : List Row) (body : ℚ) (tiers : List ℚ) (i : Nat)
    (regions : List Region) (page : Page) (valid : RegionsFrom rows i regions) :
    (pageLoop rows body tiers i regions page).ink =
      page.ink + ((rows.drop i).map Row.ink).sum := by
  have rowStep (i : Nat) (inside : i < rows.length) :
      ((rows.drop i).map Row.ink).sum =
        (rows.getD i default).ink + ((rows.drop (i + 1)).map Row.ink).sum := by
    rw [List.drop_eq_getElem_cons inside, List.map_cons, List.sum_cons,
      List.getD_eq_getElem rows default inside]
  induction i, regions, page using pageLoop.induct rows body tiers with
  | case1 i page inside ih =>
      rw [pageLoop, if_pos inside, ih trivial, Page.ink_takeRow, rowStep i inside, add_assoc]
  | case2 page region rest inside ih =>
      obtain ⟨-, several, bound, inferred, later⟩ := valid
      have long : 2 ≤ (slice rows region.start region.stop).length := by
        rw [length_slice rows bound]
        omega
      obtain ⟨table, built, ink⟩ := buildTable_of_inferColumns inferred long
      rw [pageLoop, if_pos inside]
      simp only [if_true]
      have joined : slice rows region.start region.stop ++ rows.drop region.stop =
          rows.drop region.start := slice_append_drop rows (by omega) bound
      rw [ih later, built, Page.ink_takeTable, ink, add_assoc, ← joined, List.map_append,
        List.sum_append]
  | case3 i page inside region rest apart ih =>
      rw [pageLoop, if_pos inside]
      simp only [if_neg apart]
      have next : RegionsFrom rows (i + 1) (region :: rest) :=
        ⟨Nat.lt_of_le_of_ne valid.1 (Ne.symm apart), valid.2⟩
      rw [ih next, Page.ink_takeRow, rowStep i inside, add_assoc]
  | case4 i regions page outside =>
      rw [pageLoop.eq_def, if_neg outside, List.drop_eq_nil_of_le (Nat.le_of_not_lt outside)]
      exact (add_zero _).symm

/-- A page with tables keeps its ink. -/
theorem blocksInk_tableAwarePage {chars : List CharBox} {body : ℚ} {tiers : List ℚ}
    {blocks : List Block} (tabled : tableAwarePage chars body tiers = some blocks) :
    blocksInk blocks = charsInk chars := by
  rw [tableAwarePage] at tabled
  simp only at tabled
  split at tabled
  · cases tabled
  · split at tabled
    · cases tabled
    · split at tabled
      · obtain rfl := Option.some.inj tabled
        have ink := ink_pageLoop (groupRows chars) body tiers 0 _ {}
          (regionsFrom_valid (groupRows chars) 0)
        rw [blocksInk_flush, ← ink_groupRows chars]
        exact ink.trans (zero_add _)
      · cases tabled

/-- The blocks of a page alone. -/
def pagePart (body : ℚ) (tiers : List ℚ) (chars : List CharBox) : List Block :=
  (tableAwarePage chars body tiers).getD
    (assemble (groupLines chars) (xyCutOrder (groupLines chars)) body tiers [])

/-- A page keeps its ink, with tables or without. -/
theorem blocksInk_pagePart (body : ℚ) (tiers : List ℚ) (chars : List CharBox) :
    blocksInk (pagePart body tiers chars) = charsInk chars := by
  rw [pagePart]
  cases tabled : tableAwarePage chars body tiers with
  | some blocks => exact blocksInk_tableAwarePage tabled
  | none =>
      rw [Option.getD_none, blocksInk_assemble, blocksInk_nil, zero_add, ← ink_groupLines chars,
        ← sum_range_lines]
      exact ((xyCutOrder_perm _).map _).sum_eq

/-! ## Documents -/

/-- Whether some blocks stand on one page. -/
def OnePage (blocks : List Block) : Prop := ∀ block ∈ blocks, block ≠ .pageBreak

theorem OnePage.append {left right : List Block} (first : OnePage left) (second : OnePage right) :
    OnePage (left ++ right) := by
  intro block member
  rcases List.mem_append.mp member with inLeft | inRight
  · exact first block inLeft
  · exact second block inRight

theorem OnePage.singleton {block : Block} (other : block ≠ .pageBreak) : OnePage [block] := by
  intro found member
  rwa [List.mem_singleton.mp member]

theorem OnePage.flush {out : List Block} (page : OnePage out) (para : List (List Char)) :
    OnePage (flush para out) := by
  simp only [Pdf.flush]
  split
  · exact page
  · split
    · exact page
    · exact page.append (.singleton (by simp))

theorem onePage_assemble (lines : List Line) (order : List Nat) (body : ℚ) (tiers : List ℚ) :
    OnePage (assemble lines order body tiers []) := by
  have step (order : List Nat) (state : Assembly) (page : OnePage state.out) :
      OnePage (order.foldl (Assembly.take lines body tiers) state).out := by
    induction order generalizing state with
    | nil => exact page
    | cons i order ih =>
        apply ih
        simp only [Assembly.take]
        split
        · exact (page.flush _).append (.singleton (by simp))
        · split
          · exact page.flush _
          · exact page
  exact (step order { out := [] } (by simp [OnePage])).flush _

theorem onePage_pageLoop (rows : List Row) (body : ℚ) (tiers : List ℚ) (i : Nat)
    (regions : List Region) (page : Page) (one : OnePage page.out) :
    OnePage (pageLoop rows body tiers i regions page).out := by
  have rowStep (page : Page) (one : OnePage page.out) (row : Row) :
      OnePage (page.takeRow body tiers row).out := by
    simp only [Page.takeRow]
    split
    · exact one
    · split
      · exact (one.flush _).append (.singleton (by simp))
      · exact one
  induction i, regions, page using pageLoop.induct rows body tiers with
  | case1 i page inside ih =>
      rw [pageLoop, if_pos inside]
      exact ih (rowStep page one _)
  | case2 page region rest inside ih =>
      rw [pageLoop, if_pos inside]
      simp only [if_true]
      apply ih
      refine (one.flush _).append fun block member => ?_
      obtain ⟨table, -, rfl⟩ := by simpa using member
      simp
  | case3 i page inside region rest apart ih =>
      rw [pageLoop, if_pos inside]
      simp only [if_neg apart]
      exact ih (rowStep page one _)
  | case4 i regions page outside => rwa [pageLoop.eq_def, if_neg outside]

theorem onePage_pagePart (body : ℚ) (tiers : List ℚ) (chars : List CharBox) :
    OnePage (pagePart body tiers chars) := by
  rw [pagePart]
  cases tabled : tableAwarePage chars body tiers with
  | none => exact onePage_assemble _ _ body tiers
  | some blocks =>
      rw [tableAwarePage] at tabled
      simp only at tabled
      split at tabled
      · cases tabled
      · split at tabled
        · cases tabled
        · split at tabled
          · obtain rfl := Option.some.inj tabled
            exact (onePage_pageLoop _ body tiers 0 _ {} (by simp [OnePage])).flush _
          · cases tabled

theorem flush_append (para : List (List Char)) (before out : List Block) :
    flush para (before ++ out) = before ++ flush para out := by
  simp only [flush]
  split
  · rfl
  · split
    · rfl
    · exact List.append_assoc ..

/-- A page is put behind the pages before it as it is. -/
theorem assemble_append (lines : List Line) (order : List Nat) (body : ℚ) (tiers : List ℚ)
    (before : List Block) :
    assemble lines order body tiers before = before ++ assemble lines order body tiers [] := by
  have step (order : List Nat) (state : Assembly) :
      order.foldl (Assembly.take lines body tiers) { state with out := before ++ state.out } =
        { order.foldl (Assembly.take lines body tiers) state with
          out := before ++ (order.foldl (Assembly.take lines body tiers) state).out } := by
    induction order generalizing state with
    | nil => rfl
    | cons i order ih =>
        rw [List.foldl_cons, List.foldl_cons, ← ih]
        congr 1
        simp only [Assembly.take, flush_append]
        split
        · rw [List.append_assoc]
        · split <;> rfl
  have whole := step order { out := [] }
  rw [List.append_nil] at whole
  rw [assemble, whole, flush_append]
  rfl

theorem mem_gatherBy {β : Type} {build : List CharBox → Option β} {chars : List CharBox} {item : β}
    (member : item ∈ gatherBy build chars) : ∃ bucket, build bucket = some item := by
  have step (chars : List CharBox) (gather : Gather β)
      (known : ∀ item ∈ gather.done, ∃ bucket, build bucket = some item) :
      ∀ item ∈ (chars.foldl (Gather.take build) gather).done,
        ∃ bucket, build bucket = some item := by
    induction chars generalizing gather with
    | nil => exact known
    | cons c chars ih =>
        apply ih
        simp only [Gather.take]
        split
        · exact known
        · intro item later
          rcases List.mem_append.mp later with earlier | built
          · exact known item earlier
          · exact ⟨gather.bucket, Option.mem_toList.mp built⟩
  rw [gatherBy] at member
  split at member
  · cases member
  · rcases List.mem_append.mp member with earlier | built
    · exact step _ _ (by simp) item earlier
    · exact ⟨_, Option.mem_toList.mp built⟩

/-- No line is blank. -/
theorem inkOf_line_ne_zero {chars : List CharBox} {line : Line} (member : line ∈ groupLines chars) :
    inkOf line.text ≠ 0 := by
  obtain ⟨bucket, built⟩ := mem_gatherBy member
  rw [buildLine] at built
  split at built
  · cases built
  · simp only at built
    split at built
    · cases built
    next full =>
      obtain rfl := Option.some.inj built
      rw [collapse_eq_nil] at full
      rwa [inkOf_collapse]

/-- A page with lines has blocks. -/
theorem pagePart_ne_nil (body : ℚ) (tiers : List ℚ) {chars : List CharBox}
    (full : groupLines chars ≠ []) : pagePart body tiers chars ≠ [] := by
  intro empty
  have nothing := blocksInk_pagePart body tiers chars
  rw [empty, blocksInk_nil, ← ink_groupLines, eq_comm, List.sum_eq_zero_iff] at nothing
  obtain ⟨line, member⟩ := List.exists_mem_of_ne_nil _ full
  exact inkOf_line_ne_zero member (nothing _ (List.mem_map_of_mem member))

/-- The blocks of a page, none for a page without lines. -/
def pageOrNothing (body : ℚ) (tiers : List ℚ) (chars : List CharBox) : List Block :=
  if groupLines chars = [] then [] else pagePart body tiers chars

theorem blocksInk_pageOrNothing (body : ℚ) (tiers : List ℚ) (chars : List CharBox) :
    blocksInk (pageOrNothing body tiers chars) = charsInk chars := by
  rw [pageOrNothing]
  split
  next empty =>
    rw [← ink_groupLines, empty]
    rfl
  next => exact blocksInk_pagePart body tiers chars

theorem onePage_pageOrNothing (body : ℚ) (tiers : List ℚ) (chars : List CharBox) :
    OnePage (pageOrNothing body tiers chars) := by
  rw [pageOrNothing]
  split
  · simp [OnePage]
  · exact onePage_pagePart body tiers chars

/-- Pages that are not empty, with page breaks between them. -/
def joinPages (parts : List (List Block)) : List Block :=
  [Block.pageBreak].intercalate (parts.filter fun part => part.length ≠ 0)

theorem intercalate_snoc {α : Type} (separator last : List α) (parts : List (List α)) :
    separator.intercalate (parts ++ [last]) =
      if parts = [] then last else separator.intercalate parts ++ separator ++ last := by
  induction parts with
  | nil => simp
  | cons part parts ih =>
      cases parts with
      | nil => simp
      | cons next rest =>
          rw [List.cons_append, List.cons_append, List.intercalate_cons_cons, ← List.cons_append, ih]
          simp [List.intercalate_cons_cons]

theorem joinPages_eq_nil {parts : List (List Block)} (empty : joinPages parts = []) :
    (parts.filter fun part => part.length ≠ 0) = [] := by
  rw [joinPages] at empty
  cases found : parts.filter fun part => part.length ≠ 0 with
  | nil => rfl
  | cons part rest =>
      have full : part.length ≠ 0 := by
        have member : part ∈ parts.filter fun part => part.length ≠ 0 := by
          rw [found]
          exact List.mem_cons_self
        simpa using (List.mem_filter.mp member).2
      rw [found] at empty
      cases rest with
      | nil => simp_all
      | cons next rest => simp [List.intercalate_cons_cons] at empty

/-- A further page. -/
theorem joinPages_snoc (parts : List (List Block)) {part : List Block} (full : part ≠ []) :
    joinPages (parts ++ [part]) =
      (if joinPages parts = [] then [] else joinPages parts ++ [.pageBreak]) ++ part := by
  have kept : [part].filter (fun part => part.length ≠ 0) = [part] := by
    simp [full]
  rw [joinPages, List.filter_append, kept, intercalate_snoc]
  split
  next none' =>
    rw [if_pos]
    · rfl
    · rw [joinPages, none']
      rfl
  next some' =>
    rw [if_neg fun empty => some' (joinPages_eq_nil empty)]
    rfl

theorem joinPages_snoc_nil (parts : List (List Block)) : joinPages (parts ++ [[]]) = joinPages parts := by
  rw [joinPages, joinPages, List.filter_append]
  exact congrArg _ (List.append_nil _)

theorem pageBlocks_eq (body : ℚ) (tiers : List ℚ) {chars : List CharBox}
    (full : groupLines chars ≠ []) (out : List Block) :
    pageBlocks body tiers chars out =
      (if out = [] then [] else out ++ [.pageBreak]) ++ pagePart body tiers chars := by
  have start : (if out.length = 0 then out else out ++ [.pageBreak]) =
      if out = [] then [] else out ++ [.pageBreak] := by
    cases out with
    | nil => rfl
    | cons first rest => rfl
  simp only [pageBlocks, pagePart]
  rw [if_neg (by simpa using full), start]
  cases tableAwarePage chars body tiers with
  | some blocks => rfl
  | none => exact assemble_append _ _ body tiers _

/-- The pages stand one behind the other. -/
theorem foldl_pageBlocks (body : ℚ) (tiers : List ℚ) (pages : List (List CharBox)) :
    pages.foldl (fun out chars => pageBlocks body tiers chars out) [] =
      joinPages (pages.map (pageOrNothing body tiers)) := by
  induction pages using List.reverseRecOn with
  | nil => rfl
  | append_singleton pages chars ih =>
      rw [List.foldl_append, ih, List.map_append]
      change pageBlocks body tiers chars _ = joinPages (_ ++ [pageOrNothing body tiers chars])
      rcases em (groupLines chars = []) with empty | full
      · rw [pageOrNothing, if_pos empty, joinPages_snoc_nil, pageBlocks]
        exact if_pos (by rw [empty]; rfl)
      · rw [pageOrNothing, if_neg full, joinPages_snoc _ (pagePart_ne_nil body tiers full),
          pageBlocks_eq body tiers full]

/-- The regions of a page follow each other. -/
theorem RegionsFrom.ordered {rows : List Row} {i : Nat} {regions : List Region}
    (valid : RegionsFrom rows i regions) :
    (∀ region ∈ regions, i ≤ region.start ∧ region.start + 2 ≤ region.stop ∧
      region.stop ≤ rows.length ∧
      inferColumns (slice rows region.start region.stop) = some region.cols) ∧
    regions.Pairwise fun earlier later => earlier.stop ≤ later.start := by
  induction regions generalizing i with
  | nil => simp
  | cons region rest ih =>
      obtain ⟨start, several, bound, inferred, later⟩ := valid
      obtain ⟨inside, ordered⟩ := ih later
      constructor
      · intro found member
        rcases List.mem_cons.mp member with rfl | behind
        · exact ⟨start, several, bound, inferred⟩
        · obtain ⟨after, rest⟩ := inside found behind
          exact ⟨by omega, rest⟩
      · exact List.pairwise_cons.mpr ⟨fun found behind => (inside found behind).1, ordered⟩

/-- Reconstructing the layout keeps every character of every page once and on its page;
the reading order is a permutation of the lines; the tables of a page are disjoint and in
order, and every one that was accepted is built. -/
theorem layoutBlocks_keeps :
    (∀ pages : List (List CharBox), ∃ parts,
      List.Forall₂ (fun chars part => blocksInk part = charsInk chars ∧ OnePage part) pages parts ∧
        layoutBlocks pages = joinPages parts) ∧
    (∀ lines : List Line, (xyCutOrder lines).Perm (List.range lines.length)) ∧
    (∀ rows : List Row,
      (findTableRegions rows).Pairwise (fun earlier later => earlier.stop ≤ later.start) ∧
      ∀ region ∈ findTableRegions rows, region.start < region.stop ∧ region.stop ≤ rows.length ∧
        (buildTable (slice rows region.start region.stop) region.cols).isSome) := by
  refine ⟨fun pages => ?_, xyCutOrder_perm, fun rows => ?_⟩
  · rw [layoutBlocks]
    simp only
    split
    next empty =>
      -- no page has a line, so no page has a character that is not blank
      have noLines (chars : List CharBox) (page : chars ∈ pages) : groupLines chars = [] :=
        List.flatMap_eq_nil_iff.mp (List.map_eq_nil_iff.mp empty) chars page
      refine ⟨pages.map fun _ => [], ?_, by simp [joinPages]⟩
      rw [List.forall₂_map_right_iff]
      refine List.forall₂_same.mpr fun chars page => ⟨?_, by simp [OnePage]⟩
      rw [← ink_groupLines, noLines chars page]
      rfl
    next =>
      refine ⟨_, ?_, foldl_pageBlocks _ _ pages⟩
      rw [List.forall₂_map_right_iff]
      exact List.forall₂_same.mpr fun chars _ =>
        ⟨blocksInk_pageOrNothing _ _ chars, onePage_pageOrNothing _ _ chars⟩
  · obtain ⟨valid, ordered⟩ := (regionsFrom_valid rows 0).ordered
    refine ⟨ordered, fun region member => ?_⟩
    obtain ⟨-, several, bound, inferred⟩ := valid region member
    have long : 2 ≤ (slice rows region.start region.stop).length := by
      rw [length_slice rows bound]
      omega
    obtain ⟨table, built, -⟩ := buildTable_of_inferColumns inferred long
    exact ⟨by omega, bound, by rw [built]; rfl⟩

end AiCoreStack.Markdown.Pdf
