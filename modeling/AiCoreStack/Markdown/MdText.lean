import AiCoreStack.Foundation.Runs
import AiCoreStack.Markdown.MdState

/-!
# What folding Markdown events keeps

Where the text of a Markdown file goes.  Every event accounts for its text: it stands in
the blocks or in one of the buffers, or the event drops it.
-/

namespace AiCoreStack.Markdown.Md

open AiCoreStack.Foundation

/-! ## Buffers -/

/-- The ink of a code block, a link or an image that is open. -/
def bufferInk {β : Type} (buffer : Option (β × List Char)) : Multiset Char :=
  (buffer.map fun pair => inkOf pair.2).getD 0

@[simp] theorem bufferInk_none {β : Type} : bufferInk (none : Option (β × List Char)) = 0 := rfl

@[simp] theorem bufferInk_some {β : Type} (pair : β × List Char) :
    bufferInk (some pair) = inkOf pair.2 :=
  rfl

namespace ListBuild

def ink (build : ListBuild) : Multiset Char :=
  itemsInk build.items + inlinesInk build.cur + sublistInk build.curSublist

/-- The ink of the open item. -/
def openInk (build : ListBuild) : Multiset Char :=
  inlinesInk build.cur + sublistInk build.curSublist

theorem ink_endItem (build : ListBuild) : build.endItem.ink = build.ink := by
  simp only [endItem]
  split
  next empty =>
    obtain ⟨blank, single⟩ := empty
    rw [Option.isNone_iff_eq_none] at single
    simp [ink, (trim_plain_eq_nil_iff build.cur).mp blank, single, sublistInk]
  next =>
    simp only [ink, itemsInk_append, itemsInk_singleton, inlinesInk_nil, sublistInk, add_zero,
      add_assoc]

end ListBuild

/-- The ink of the lists that are open. -/
def listsInk (lists : List ListBuild) : Multiset Char := (lists.map ListBuild.ink).sum

@[simp] theorem listsInk_nil : listsInk [] = 0 := rfl

@[simp] theorem listsInk_cons (build : ListBuild) (lists : List ListBuild) :
    listsInk (build :: lists) = build.ink + listsInk lists := by
  simp [listsInk]

theorem listsInk_withList {change : ListBuild → ListBuild} (keeps : ∀ build, (change build).ink = build.ink)
    (lists : List ListBuild) : listsInk (withList change lists) = listsInk lists := by
  cases lists with
  | nil => rfl
  | cons build lists => rw [withList, listsInk_cons, keeps, listsInk_cons]

/-- The ink of the open item of the innermost list. -/
def openItemInk (lists : List ListBuild) : Multiset Char :=
  (lists.head?.map ListBuild.openInk).getD 0

/-- The ink of the sublist that the end of the innermost list replaces. -/
def formerSublistInk : List ListBuild → Multiset Char
  | _ :: parent :: _ => sublistInk parent.curSublist
  | _ => 0

theorem listsInk_clearItem (lists : List ListBuild) :
    listsInk (withList (fun build => { build with cur := [], curSublist := none }) lists) +
      openItemInk lists = listsInk lists := by
  cases lists with
  | nil => rfl
  | cons build lists =>
      simp only [withList, listsInk_cons, ListBuild.ink, openItemInk, ListBuild.openInk,
        List.head?_cons, Option.map_some, Option.getD_some, inlinesInk_nil, sublistInk, add_zero]
      abel

namespace TableBuild

def ink (table : TableBuild) : Multiset Char :=
  rowInk table.headers + rowsInk table.rows + rowInk table.curRow + inkOf table.cell

@[simp] theorem ink_new : ({} : TableBuild).ink = 0 := rfl

theorem ink_endCell (table : TableBuild) : table.endCell.ink = table.ink := by
  simp [ink, endCell, add_assoc]

theorem ink_endHead (table : TableBuild) :
    table.endHead.ink + rowInk table.headers = table.ink := by
  simp only [ink, endHead, rowInk_nil, add_zero]
  abel

theorem ink_endRow (table : TableBuild) : table.endRow.ink = table.ink := by
  rw [endRow]
  split
  · rfl
  · simp [ink, add_assoc]

end TableBuild

/-- The ink of a part of the open table. -/
def tableInk (part : TableBuild → Multiset Char) (table : Option TableBuild) : Multiset Char :=
  (table.map part).getD 0

@[simp] theorem tableInk_none (part : TableBuild → Multiset Char) : tableInk part none = 0 := rfl

@[simp] theorem tableInk_some (part : TableBuild → Multiset Char) (table : TableBuild) :
    tableInk part (some table) = part table :=
  rfl

@[simp] theorem tableInk_zero (table : Option TableBuild) : tableInk (fun _ => 0) table = 0 := by
  cases table <;> rfl

/-- A change of a table that drops a part of it. -/
theorem tableInk_map {change : TableBuild → TableBuild} {part : TableBuild → Multiset Char}
    (law : ∀ table, (change table).ink + part table = table.ink) (table : Option TableBuild) :
    tableInk TableBuild.ink (table.map change) + tableInk part table =
      tableInk TableBuild.ink table := by
  cases table with
  | none => rfl
  | some table => exact law table

/-! ## Events -/

/-- The text of an event: of `Text` and `Code` events, and the box of a task. -/
def taken : Event → Multiset Char
  | .text text => inkOf text
  | .code text => inkOf text
  | .taskListMarker checked => inkOf (MdState.mark checked)
  | _ => 0

/-- The text of a file. -/
def eventsInk (events : List Event) : Multiset Char := (events.map taken).sum

namespace MdState

/-- The text that a state holds. -/
def content (state : MdState) : Multiset Char :=
  blocksInk state.blocks + inlinesInk state.inline + bufferInk state.code + bufferInk state.link +
    bufferInk state.image + listsInk state.lists + tableInk TableBuild.ink state.table

/-- The text that the start of an element drops. -/
def droppedStart (state : MdState) : Tag → Multiset Char
  | .heading _ => if state.blocked then inlinesInk state.inline else 0
  | .codeBlock _ => bufferInk state.code
  | .item => openItemInk state.lists
  | .link _ => bufferInk state.link
  | .image _ => bufferInk state.image
  | .table => tableInk TableBuild.ink state.table
  | .tableHead => tableInk (fun table => rowInk table.curRow) state.table
  | .tableRow => tableInk (fun table => rowInk table.curRow) state.table
  | .tableCell => tableInk (fun table => inkOf table.cell) state.table
  | _ => 0

/-- The text that the end of an element drops. -/
def droppedEnd (state : MdState) : TagEnd → Multiset Char
  | .list => openItemInk state.lists + formerSublistInk state.lists
  | .tableHead => tableInk (fun table => rowInk table.headers) state.table
  | .table => tableInk (fun table => rowInk table.curRow + inkOf table.cell) state.table
  | _ => 0

/-- The text that an event drops. -/
def dropped (state : MdState) : Event → Multiset Char
  | .start tag => state.droppedStart tag
  | .finish tag => state.droppedEnd tag
  | _ => 0

theorem content_pushBlock (state : MdState) (block : Block) :
    (state.pushBlock block).content = state.content + block.ink := by
  simp only [content, pushBlock, blocksInk_append, blocksInk_singleton]
  abel

/-- The open paragraph becomes a block, or it is blank. -/
theorem content_takeInline (state : MdState) (block : Block)
    (same : block.ink = inlinesInk state.inline) :
    content { state.pushBlock block with inline := [] } = state.content := by
  simp only [content, pushBlock, blocksInk_append, blocksInk_singleton, same, inlinesInk_nil,
    add_zero]

theorem content_clearInline (state : MdState) :
    content { state with inline := [] } + inlinesInk state.inline = state.content := by
  simp only [content, inlinesInk_nil, add_zero]
  abel

theorem content_flushParagraph (state : MdState) : state.flushParagraph.content = state.content := by
  rw [flushParagraph]
  split
  · rfl
  · split
    next blank =>
      rw [← content_clearInline state, (trim_plain_eq_nil_iff state.inline).mp blank, add_zero]
    next => exact content_takeInline state _ rfl

theorem content_pushInline (state : MdState) (inline : Inline) :
    (state.pushInline inline).content = state.content + inline.ink := by
  rw [pushInline]
  cases grid : state.table with
  | some table =>
      have text : inkOf (plain [inline]) = inline.ink := by
        rw [inkOf_plain, inlinesInk_cons, inlinesInk_nil, add_zero]
      simp only [content, grid, tableInk_some, TableBuild.ink, inkOf_append, text, add_assoc]
  | none =>
      cases open' : state.lists with
      | nil =>
          simp only [content, grid, open', inlinesInk_append, inlinesInk_cons, inlinesInk_nil]
          abel
      | cons build lists =>
          simp only [content, grid, open', withList, listsInk_cons, ListBuild.ink,
            inlinesInk_append, inlinesInk_cons, inlinesInk_nil]
          abel

theorem ink_styled (state : MdState) (text : List Char) : (state.styled text).ink = inkOf text := by
  simp only [styled]
  split <;> split <;> split <;> rfl

theorem content_text (state : MdState) (text : List Char) :
    (state.text text).content = state.content + inkOf text := by
  rw [MdState.text]
  split
  next lang buffer known =>
    simp only [content, known, bufferInk_some, inkOf_append]
    abel
  next url buffer _ known =>
    simp only [content, known, bufferInk_some, inkOf_append]
    abel
  next url alt _ _ known =>
    simp only [content, known, bufferInk_some, inkOf_append]
    abel
  next => rw [content_pushInline, ink_styled]

/-- A change of the table alone. -/
theorem content_table (state : MdState) {change : TableBuild → TableBuild}
    {part : TableBuild → Multiset Char}
    (law : ∀ table, (change table).ink + part table = table.ink) :
    content { state with table := state.table.map change } + tableInk part state.table =
      state.content := by
  simp only [content]
  rw [add_assoc, tableInk_map law]

theorem inline_flushParagraph (state : MdState) :
    inlinesInk state.flushParagraph.inline = if state.blocked then inlinesInk state.inline else 0 := by
  rw [flushParagraph]
  split
  · rfl
  · split <;> rfl

theorem code_flushParagraph (state : MdState) : state.flushParagraph.code = state.code := by
  rw [flushParagraph]
  split
  · rfl
  · split <;> rfl

theorem balance_start (state : MdState) (tag : Tag) :
    (state.start tag).content + state.droppedStart tag = state.content := by
  cases tag with
  | heading level =>
      rw [droppedStart, ← inline_flushParagraph, ← content_flushParagraph state]
      exact content_clearInline state.flushParagraph
  | codeBlock kind =>
      rw [droppedStart, ← code_flushParagraph, ← content_flushParagraph state]
      simp only [start, content, bufferInk_some, inkOf_nil, add_zero]
      abel
  | blockQuote =>
      rw [droppedStart, add_zero, ← content_flushParagraph state]
      · rfl
      all_goals simp
  | list first =>
      rw [droppedStart, add_zero, ← content_flushParagraph state]
      · simp only [start, content, listsInk_cons, ListBuild.ink, itemsInk_nil, inlinesInk_nil,
          sublistInk, zero_add]
      all_goals simp
  | item =>
      simp only [start, droppedStart, content]
      rw [add_right_comm, add_assoc _ (listsInk _), listsInk_clearItem]
  | link destUrl =>
      simp only [start, droppedStart, content, bufferInk_some, inkOf_nil, add_zero]
      abel
  | image destUrl =>
      simp only [start, droppedStart, content, bufferInk_some, inkOf_nil, add_zero]
      abel
  | table => simp only [start, droppedStart, content, tableInk_some, TableBuild.ink_new, add_zero]
  | tableHead | tableRow =>
      apply content_table
      intro table
      simp only [TableBuild.ink, rowInk_nil, add_zero]
      abel
  | tableCell =>
      apply content_table
      intro table
      simp only [TableBuild.ink, inkOf_nil, add_zero]
  | _ => exact add_zero _

theorem content_endHeading (state : MdState) : state.endHeading.content = state.content := by
  simp only [endHeading]
  split
  next blank =>
    have nothing : inlinesInk state.inline = 0 := by
      rw [← inkOf_plain, ← inkOf_collapse, blank, inkOf_nil]
    rw [← content_clearInline state, nothing, add_zero]
    rfl
  next =>
    apply content_takeInline { state with heading := none }
    exact (inkOf_collapse _).trans (inkOf_plain _)

theorem content_endParagraph (state : MdState) : state.endParagraph.content = state.content := by
  rw [endParagraph]
  cases open' : state.lists with
  | nil =>
      simp only
      split
      · split
        · rfl
        · simp [content, open']
      · exact content_flushParagraph state
  | cons build lists =>
      have keeps (build : ListBuild) :
          (if build.cur = [] then build else { build with cur := build.cur ++ [.text [' ']] }).ink =
            build.ink := by
        split
        · rfl
        · simp [ListBuild.ink]
      simp only [content, open', listsInk_withList keeps]

theorem content_endBlockQuote (state : MdState) : state.endBlockQuote.content = state.content := by
  simp only [endBlockQuote]
  split
  next blank =>
    rw [← content_clearInline state, (trim_plain_eq_nil_iff state.inline).mp blank, add_zero]
    rfl
  next => exact content_takeInline { state with inQuote := false } _ rfl

theorem content_endCodeBlock (state : MdState) : state.endCodeBlock.content = state.content := by
  rw [endCodeBlock]
  cases known : state.code with
  | none => rfl
  | some pair =>
      have trimmed : inkOf (pair.2.rdropWhile (· = '\n')) = inkOf pair.2 := by
        apply ink_rdropWhile
        intro c feed
        rw [of_decide_eq_true feed]
        rfl
      simp only [content, pushBlock, known, blocksInk_append, blocksInk_singleton, Block.ink,
        trimmed, bufferInk_none, bufferInk_some, add_zero]
      abel

theorem content_endList (state : MdState) :
    state.endList.content + (openItemInk state.lists + formerSublistInk state.lists) =
      state.content := by
  rw [endList]
  match open' : state.lists with
  | [] => simp [openItemInk, formerSublistInk]
  | [build] =>
      simp only [openItemInk, ListBuild.openInk, formerSublistInk, List.head?_cons, Option.map_some,
        Option.getD_some, add_zero]
      split
      next empty =>
        simp only [content, open', listsInk_cons, listsInk_nil, ListBuild.ink, empty, itemsInk_nil,
          zero_add, add_zero]
        abel
      next =>
        simp only [content, pushBlock, open', listsInk_cons, listsInk_nil, ListBuild.ink,
          blocksInk_append, blocksInk_singleton, Block.ink, add_zero]
        abel
  | build :: parent :: lists =>
      simp only [content, open', listsInk_cons, ListBuild.ink, openItemInk, ListBuild.openInk,
        formerSublistInk, List.head?_cons, Option.map_some, Option.getD_some, sublistInk]
      abel

theorem content_endLink (state : MdState) : state.endLink.content = state.content := by
  rw [endLink]
  cases known : state.link with
  | none => rfl
  | some pair =>
      have closed : content { state with link := none } + inkOf (trim isWhitespace pair.2) =
          state.content := by
        simp only [content, known, bufferInk_none, bufferInk_some, inkOf_trim, add_zero]
        abel
      simp only
      split
      next blank => rw [← closed, blank, inkOf_nil, add_zero]
      next =>
        rw [content_pushInline, ← closed]
        rfl

theorem content_endImage (state : MdState) : state.endImage.content = state.content := by
  rw [endImage]
  cases known : state.image with
  | none => rfl
  | some pair =>
      have closed : content { state with image := none } + inkOf pair.2 = state.content := by
        simp only [content, known, bufferInk_none, bufferInk_some, add_zero]
        abel
      cases grid : state.table with
      | some table =>
          rw [← closed]
          simp only [content, grid, tableInk_some, TableBuild.ink, inkOf_append, add_assoc]
      | none =>
          rw [grid] at closed
          simp only
          rw [content_pushBlock, content_flushParagraph]
          exact closed

theorem content_endTable (state : MdState) :
    state.endTable.content +
        tableInk (fun table => rowInk table.curRow + inkOf table.cell) state.table =
      state.content := by
  rw [endTable]
  cases grid : state.table with
  | none => exact add_zero _
  | some table =>
      simp only [content, pushBlock, grid, blocksInk_append, blocksInk_singleton, Block.ink,
        Table.ink, tableInk_none, tableInk_some, TableBuild.ink, Option.map_none, Option.getD_none,
        add_zero]
      abel

theorem balance_end (state : MdState) (tag : TagEnd) :
    (state.finish tag).content + state.droppedEnd tag = state.content := by
  cases tag with
  | heading => exact (add_zero _).trans (content_endHeading state)
  | paragraph => exact (add_zero _).trans (content_endParagraph state)
  | blockQuote => exact (add_zero _).trans (content_endBlockQuote state)
  | codeBlock => exact (add_zero _).trans (content_endCodeBlock state)
  | list => exact content_endList state
  | item =>
      simp only [finish, droppedEnd, content, listsInk_withList ListBuild.ink_endItem, add_zero]
  | link => exact (add_zero _).trans (content_endLink state)
  | image => exact (add_zero _).trans (content_endImage state)
  | tableCell =>
      have law (table : TableBuild) : table.endCell.ink + 0 = table.ink :=
        (add_zero _).trans table.ink_endCell
      have changed := content_table state law
      rwa [tableInk_zero] at changed
  | tableHead => exact content_table state TableBuild.ink_endHead
  | tableRow =>
      have law (table : TableBuild) : table.endRow.ink + 0 = table.ink :=
        (add_zero _).trans table.ink_endRow
      have changed := content_table state law
      rwa [tableInk_zero] at changed
  | table => exact content_endTable state
  | _ => exact add_zero _

/-- Every event accounts for its text. -/
theorem balance (state : MdState) (event : Event) :
    (state.handle event).content + state.dropped event = state.content + taken event := by
  cases event with
  | start tag => exact (balance_start state tag).trans (add_zero _).symm
  | finish tag => exact (balance_end state tag).trans (add_zero _).symm
  | text text => exact (add_zero _).trans (content_text state text)
  | code text =>
      simp only [handle, dropped, taken, add_zero]
      split
      · exact content_text state text
      · exact content_pushInline state _
  | softBreak => exact (add_zero _).trans (content_text state _)
  | hardBreak => exact (add_zero _).trans (content_pushInline state _)
  | rule =>
      simp only [handle, dropped, taken, add_zero]
      rw [content_pushBlock, content_flushParagraph]
      exact add_zero _
  | taskListMarker checked => exact (add_zero _).trans (content_pushInline state _)
  | other => rfl

/-- The text that is not put out at the end of a file. -/
def left (state : MdState) : Multiset Char :=
  (if state.blocked then inlinesInk state.inline else 0) + bufferInk state.code +
    bufferInk state.link + bufferInk state.image + listsInk state.lists +
    tableInk TableBuild.ink state.table

/-- At the end everything but what is left stands in the blocks. -/
theorem flushParagraph_blocks (state : MdState) :
    blocksInk state.flushParagraph.blocks + state.left = state.content := by
  have flushed := content_flushParagraph state
  have code := code_flushParagraph state
  have rest : state.flushParagraph.link = state.link ∧ state.flushParagraph.image = state.image ∧
      state.flushParagraph.lists = state.lists ∧ state.flushParagraph.table = state.table := by
    rw [flushParagraph]
    split
    · exact ⟨rfl, rfl, rfl, rfl⟩
    · split <;> exact ⟨rfl, rfl, rfl, rfl⟩
  obtain ⟨link, image, lists, table⟩ := rest
  rw [← flushed, content, code, link, image, lists, table, inline_flushParagraph, left]
  abel

/-! ## Files -/

/-- Whether the start of an element drops no text.  A heading does not start behind text of
a quote around it; nothing starts behind text of an element of its kind that is open. -/
def KeepsStart (state : MdState) : Tag → Prop
  | .heading _ => state.blocked = true → inlinesInk state.inline = 0
  | .codeBlock _ => bufferInk state.code = 0
  | .item => openItemInk state.lists = 0
  | .link _ => bufferInk state.link = 0
  | .image _ => bufferInk state.image = 0
  | .table => tableInk TableBuild.ink state.table = 0
  | .tableHead => tableInk (fun table => rowInk table.curRow) state.table = 0
  | .tableRow => tableInk (fun table => rowInk table.curRow) state.table = 0
  | .tableCell => tableInk (fun table => inkOf table.cell) state.table = 0
  | _ => True

/-- Whether the end of an element drops no text.  A list does not end behind text of an
item that is open, nor in an item that has another sublist with text; a table has one head
and ends behind its last row. -/
def KeepsEnd (state : MdState) : TagEnd → Prop
  | .list => openItemInk state.lists = 0 ∧ formerSublistInk state.lists = 0
  | .tableHead => tableInk (fun table => rowInk table.headers) state.table = 0
  | .table => tableInk (fun table => rowInk table.curRow + inkOf table.cell) state.table = 0
  | _ => True

/-- Whether an event drops no text. -/
def Keeps (state : MdState) : Event → Prop
  | .start tag => state.KeepsStart tag
  | .finish tag => state.KeepsEnd tag
  | _ => True

theorem keeps_iff (state : MdState) (event : Event) :
    state.dropped event = 0 ↔ state.Keeps event := by
  cases event with
  | start tag => cases tag <;> simp [dropped, droppedStart, Keeps, KeepsStart]
  | finish tag => cases tag <;> simp [dropped, droppedEnd, Keeps, KeepsEnd]
  | _ => simp [dropped, Keeps]

end MdState

/-- The state in front of the rest of a file. -/
def run (events : List Event) : MdState := events.foldl MdState.handle {}

theorem takenAlong_taken (state : MdState) (events : List Event) :
    takenAlong MdState.handle (fun _ => taken) state events = eventsInk events := by
  induction events generalizing state with
  | nil => rfl
  | cons event events ih =>
      rw [takenAlong, ih, eventsInk, eventsInk, List.map_cons, List.sum_cons]

/-- The blocks of a file hold all its text exactly when no event drops text and nothing is
left in a buffer at the end. -/
theorem fold_keeps_iff (events : List Event) :
    blocksInk (parse events) = eventsInk events ↔
      (∀ before event after, events = before ++ event :: after → (run before).Keeps event) ∧
        (run events).left = 0 := by
  have kept := kept_eq_takenAlong_iff MdState.balance {} events
    (MdState.flushParagraph_blocks (run events))
  have nothing : MdState.content {} = 0 := rfl
  rw [takenAlong_taken, nothing, zero_add] at kept
  rw [parse]
  simp only [← MdState.keeps_iff]
  exact kept

/-- The events of a list with some items. -/
def listOf (items : List (List Event)) : List Event :=
  .start (.list none) :: items.flatMap (fun item => .start .item :: item ++ [.finish .item]) ++
    [.finish .list]

/-- An item with two sublists. -/
def twoSublists : List Event :=
  listOf [.text ['a'] :: listOf [[.text ['b']]] ++ listOf [[.text ['c']]]]

/-- The first of two sublists of an item is lost. -/
theorem not_fold_keeps_twoSublists :
    ¬ blocksInk (parse twoSublists) = eventsInk twoSublists := by
  have text : eventsInk twoSublists = {'a', 'b', 'c'} := by
    rfl
  rw [text]
  decide

end AiCoreStack.Markdown.Md
