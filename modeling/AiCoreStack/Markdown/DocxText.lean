import AiCoreStack.Markdown.Docx

/-!
# What a DOCX body keeps

Where the text of a DOCX body goes.  Every iteration of the loop accounts for the text it
reads: it stands in the blocks, in the pending list, in the runs or in an open table, or
the iteration drops it.
-/

namespace AiCoreStack.Markdown.Docx

open AiCoreStack.Foundation

/-- The text elements. -/
def isText (name : String) : Bool := Element.ofName name = .t

namespace State

/-- The text that a state holds. -/
def content (state : State) : Multiset Char :=
  blocksInk (written state.blocks) + itemsInk state.pendingList + inlinesInk state.runs +
    tablesInk state.tables

/-- The text that an iteration drops. -/
def dropped (state : State) : Event → Multiset Char
  | .start tag =>
      match Element.ofName tag.name with
      | .p => inlinesInk state.runs
      | .tc => openCellInk state.tables
      | _ => 0
  | .finish name =>
      match Element.ofName name with
      | .tbl => unfinishedInk state.tables + nestedHeaderInk state.tables
      | _ => 0
  | _ => 0

@[simp] theorem content_flushPending (state : State) : state.flushPending.content = state.content := by
  rw [flushPending]
  split
  · rfl
  · simp [content, written, Block.ink, add_assoc]

@[simp] theorem runs_flushPending (state : State) : state.flushPending.runs = state.runs := by
  rw [flushPending]
  split <;> rfl

@[simp] theorem tables_flushPending (state : State) : state.flushPending.tables = state.tables := by
  rw [flushPending]
  split <;> rfl

/-- A further block. -/
theorem content_push (state : State) (block : Block) (text : Bool)
    (kind : written [block] = if text then [block] else []) :
    content { state with blocks := state.blocks ++ [block] } =
      state.content + if text then block.ink else 0 := by
  simp only [content, written_append, kind, blocksInk_append]
  cases text with
  | true =>
      simp only [if_true, blocksInk_singleton]
      abel
  | false => simp

theorem ink_styled (state : State) (text : List Char) : (state.styled text).ink = inkOf text := by
  simp only [styled]
  split <;> split <;> split <;> rfl

theorem content_pushText (state : State) (text : List Char) (inline : Inline)
    (same : inline.ink = inkOf text) :
    (state.pushText text inline).content = state.content + inkOf text := by
  rw [pushText]
  cases open' : state.tables with
  | nil =>
      simp only [content, inlinesInk_append, inlinesInk_cons, inlinesInk_nil, same, open', add_zero]
      abel
  | cons ctx tables =>
      simp only [content, tablesInk_push, open']
      abel

theorem content_pushBreak (state : State) : state.pushBreak.content = state.content := by
  rw [pushBreak]
  cases open' : state.tables with
  | nil => simp [content, open']
  | cons ctx tables => simp [content, tablesInk_push, open']

theorem content_emitImage (package : Package) (state : State) (tag : Tag) :
    (state.emitImage package tag).content = state.content := by
  rw [emitImage]
  split
  · rfl
  · split
    · rw [content_push _ _ false rfl, content_flushPending]
      simp
    · rfl

theorem content_setProperty (state : State) (tag : Tag) :
    (state.setProperty tag).content = state.content := by
  rw [setProperty]
  split
  · split <;> rfl
  · rfl
  · split <;> rfl
  · split <;> rfl
  · split <;> rfl
  · rfl

/-- The runs of a paragraph become a block, or they are blank. -/
theorem content_emitParagraph (package : Package) (state : State) (runs : List Inline) :
    (state.emitParagraph package runs).content = state.content + inlinesInk runs := by
  have block (state : State) (block : Block) (kind : written [block] = [block])
      (same : block.ink = inlinesInk runs) :
      (if trim isWhitespace (plain runs) = [] then state
        else { state with blocks := state.blocks ++ [block] }).content =
          state.content + inlinesInk runs := by
    split
    next blank => rw [(trim_plain_eq_nil_iff runs).mp blank, add_zero]
    next => rw [content_push _ _ true kind, if_pos rfl, same]
  simp only [emitParagraph]
  split
  · rw [block _ (.heading _ _) rfl (inkOf_plain runs), content_flushPending]
  · split
    · split
      next empty => simp [empty]
      next =>
        simp only [content, itemsInk_append, itemsInk_singleton, sublistInk]
        abel
    · rw [block _ (.paragraph _) rfl rfl, content_flushPending]

theorem runs_emitParagraph (package : Package) (state : State) (runs : List Inline) :
    (state.emitParagraph package runs).runs = state.runs := by
  simp only [emitParagraph]
  split
  · split <;> simp
  · split
    · split <;> rfl
    · split <;> simp

theorem content_endParagraph (package : Package) (state : State) :
    (state.endParagraph package).content = state.content := by
  rw [endParagraph]
  cases open' : state.tables with
  | nil =>
      have emitted := content_emitParagraph package state state.runs
      have kept := runs_emitParagraph package state state.runs
      simp only [content] at emitted ⊢
      rw [kept] at emitted
      simp only [inlinesInk_nil, add_zero]
      have split : ∀ a b c d : Multiset Char, a + b + c + d = a + b + d + c := by
        intro a b c d
        abel
      rw [split] at emitted
      exact add_right_cancel emitted
  | cons ctx tables =>
      simp only [content, open', tablesInk_withTable TableCtx.ink_endParagraph]

theorem content_endTable (state : State) :
    state.endTable.content + (unfinishedInk state.tables + nestedHeaderInk state.tables) =
      state.content := by
  rw [endTable]
  match open' : state.tables with
  | [] => simp [unfinishedInk, nestedHeaderInk]
  | [ctx] =>
      have flushed := content_flushPending state
      simp only [content, runs_flushPending, tables_flushPending, open'] at flushed ⊢
      simp only [written_append, blocksInk_append, tablesInk_nil, tablesInk_cons,
        unfinishedInk, nestedHeaderInk, List.head?_cons, Option.map_some, Option.getD_some] at flushed ⊢
      rw [← flushed]
      have table : blocksInk (written [Block.table ctx.intoTable]) = rowsInk ctx.rows := by
        rw [← TableCtx.ink_intoTable]
        exact blocksInk_singleton _
      rw [table, TableCtx.ink]
      abel
  | ctx :: parent :: tables =>
      simp only [content, open', tablesInk_cons, TableCtx.ink_absorb, unfinishedInk, nestedHeaderInk,
        List.head?_cons, Option.map_some, Option.getD_some, TableCtx.ink_rows ctx]
      abel

theorem balance_start (package : Package) (state : State) (tag : Tag) :
    (state.startElement package tag).content + state.dropped (.start tag) = state.content := by
  rw [startElement, dropped]
  cases Element.ofName tag.name with
  | p =>
      simp only [content, inlinesInk_nil, add_zero]
      abel
  | tc =>
      simp only [content]
      rw [add_assoc, tablesInk_clearCell]
  | tbl => simp [content]
  | blip => rw [content_emitImage, add_zero]
  | r | rPr | t | drawing => exact add_zero _
  | _ => rw [content_setProperty, add_zero]

theorem content_emptyElement (package : Package) (state : State) (tag : Tag) :
    (state.emptyElement package tag).content = state.content := by
  rw [emptyElement]
  cases Element.ofName tag.name with
  | br => exact content_pushBreak state
  | tab =>
      have blank : inkOf ['\t'] = 0 := rfl
      rw [content_pushText state ['\t'] _ rfl, blank, add_zero]
  | blip => exact content_emitImage package state tag
  | _ => exact content_setProperty state tag

theorem balance_end (package : Package) (state : State) (name : String) :
    (state.endElement package name).content + state.dropped (.finish name) = state.content := by
  rw [endElement, dropped]
  cases Element.ofName name with
  | tbl => exact content_endTable state
  | p => rw [content_endParagraph, add_zero]
  | tc => simp only [content, tablesInk_withTable TableCtx.ink_endCell, add_zero]
  | tr => simp only [content, tablesInk_withTable TableCtx.ink_endRow, add_zero]
  | _ => exact add_zero _

/-- Every iteration accounts for the text it reads. -/
theorem balance (package : Package) (state : State) (event : Event) :
    (state.handle package event).content + state.dropped event =
      state.content + captured state.inText event := by
  cases event with
  | start tag => exact (balance_start package state tag).trans (add_zero _).symm
  | empty tag => exact congrArg (· + 0) (content_emptyElement package state tag)
  | text text =>
      simp only [handle, dropped, captured, add_zero]
      split
      · exact content_pushText state text _ (ink_styled state text)
      · exact (add_zero _).symm
  | finish name => exact (balance_end package state name).trans (add_zero _).symm
  | cdata text => rfl
  | other => rfl

/-! ## The text flag -/

theorem inText_flushPending (state : State) : state.flushPending.inText = state.inText := by
  rw [flushPending]
  split <;> rfl

theorem inText_emitImage (package : Package) (state : State) (tag : Tag) :
    (state.emitImage package tag).inText = state.inText := by
  rw [emitImage]
  split
  · rfl
  · split
    · exact inText_flushPending state
    · rfl

theorem inText_setProperty (state : State) (tag : Tag) :
    (state.setProperty tag).inText = state.inText := by
  rw [setProperty]
  split
  · split <;> rfl
  · rfl
  · split <;> rfl
  · split <;> rfl
  · split <;> rfl
  · rfl

theorem inText_pushText (state : State) (text : List Char) (inline : Inline) :
    (state.pushText text inline).inText = state.inText := by
  rw [pushText]
  split <;> rfl

theorem inText_endTable (state : State) : state.endTable.inText = state.inText := by
  rw [endTable]
  split
  · rfl
  · exact inText_flushPending state
  · rfl

theorem inText_endParagraph (package : Package) (state : State) :
    (state.endParagraph package).inText = state.inText := by
  rw [endParagraph]
  split
  · simp only [emitParagraph]
    split
    · split <;> exact inText_flushPending state
    · split
      · split <;> rfl
      · split <;> exact inText_flushPending state
  · rfl

theorem inText_startElement (package : Package) (state : State) (tag : Tag) :
    (state.startElement package tag).inText = (isText tag.name || state.inText) := by
  rw [startElement, isText]
  cases Element.ofName tag.name with
  | blip => exact inText_emitImage package state tag
  | p | r | rPr | t | tbl | drawing | tc => rfl
  | _ => exact inText_setProperty state tag

theorem inText_emptyElement (package : Package) (state : State) (tag : Tag) :
    (state.emptyElement package tag).inText = state.inText := by
  rw [emptyElement]
  cases Element.ofName tag.name with
  | br =>
      simp only [pushBreak]
      split <;> rfl
  | tab => exact inText_pushText state _ _
  | blip => exact inText_emitImage package state tag
  | _ => exact inText_setProperty state tag

theorem inText_endElement (package : Package) (state : State) (name : String) :
    (state.endElement package name).inText = (!isText name && state.inText) := by
  rw [endElement, isText]
  cases Element.ofName name with
  | tbl => exact inText_endTable state
  | p => exact inText_endParagraph package state
  | _ => rfl

/-- Text is collected only inside a text element. -/
theorem inText_handle (package : Package) (state : State) (event : Event) (depth : Nat)
    (inside : state.inText = true → 0 < depth)
    (collects : (state.handle package event).inText = true) :
    0 < depthAfter isText depth event := by
  cases event with
  | start tag => exact depthAfter_start inside (inText_startElement package state tag) collects
  | empty tag => exact inside ((inText_emptyElement package state tag).symm.trans collects)
  | text text =>
      rw [handle] at collects
      split at collects
      next flag => exact inside flag
      next => exact inside collects
  | finish name => exact depthAfter_finish inside (inText_endElement package state name) collects
  | cdata text => exact inside collects
  | other => exact inside collects

end State

/-! ## Bodies -/

/-- The state in front of the rest of a body. -/
def run (package : Package) (events : List Event) : State := events.foldl (State.handle package) {}

/-- Whether an iteration drops no text: a paragraph does not start behind text of a
paragraph that has not ended, nor a cell behind text of a cell that has not ended; a table
ends behind its last row, and the first row of a table inside a cell is blank; and text
inside a text element is collected and in no CDATA section. -/
def Keeps (state : State) (depth : Nat) : Event → Prop
  | .start tag =>
      (Element.ofName tag.name = .p → inlinesInk state.runs = 0) ∧
        (Element.ofName tag.name = .tc → openCellInk state.tables = 0)
  | .finish name =>
      Element.ofName name = .tbl →
        unfinishedInk state.tables = 0 ∧ nestedHeaderInk state.tables = 0
  | .text text => 0 < depth → state.inText = false → inkOf text = 0
  | .cdata text => 0 < depth → inkOf text = 0
  | _ => True

theorem keeps_iff (state : State) (depth : Nat) (event : Event) :
    state.dropped event = 0 ∧ missed state.inText depth event = 0 ↔ Keeps state depth event := by
  cases event with
  | start tag =>
      rw [State.dropped, Keeps, missed]
      · cases Element.ofName tag.name <;> simp
      · simp
      · simp
  | finish name =>
      rw [State.dropped, Keeps, missed]
      · cases Element.ofName name <;> simp
      · simp
      · simp
  | text text => simp [State.dropped, Keeps, missed]
  | cdata text => simp [State.dropped, Keeps, missed]
  | empty tag => simp [State.dropped, Keeps, missed]
  | other => simp [State.dropped, Keeps, missed]

/-- The body parser keeps all the text inside text elements exactly when no iteration
drops text and no text is left in an open paragraph or table at the end. -/
theorem parseBody_keeps_iff (package : Package) (events : List Event) :
    ∃ blocks, parseBody package (events.map .event) = .ok blocks ∧
      (blocksInk (written blocks) = textInk isText events ↔
        (∀ before event after, events = before ++ event :: after →
          Keeps (run package before) (before.foldl (depthAfter isText) 0) event) ∧
        inlinesInk (run package events).runs = 0 ∧ tablesInk (run package events).tables = 0) := by
  refine ⟨(run package events).flushPending.blocks, ?_, ?_⟩
  · rw [parseBody, readEvents_events]
    rfl
  have result : blocksInk (written (run package events).flushPending.blocks) +
      (inlinesInk (run package events).runs + tablesInk (run package events).tables) =
        (run package events).content := by
    rw [← State.content_flushPending, State.content, State.runs_flushPending,
      State.tables_flushPending]
    have flushed : (run package events).flushPending.pendingList = [] := by
      rw [State.flushPending]
      split
      next empty => exact empty
      next => rfl
    rw [flushed, itemsInk_nil, add_zero, add_assoc]
  have kept := kept_eq_textInk_iff (State.balance package) (State.inText_handle package) rfl
    events result
  have nothing : State.content {} = 0 := rfl
  rw [nothing, zero_add] at kept
  rw [kept]
  simp only [keeps_iff, add_eq_zero]
  rfl

/-- A table with one cell. -/
def oneCell (content : List Event) : List Event :=
  Event.element "w:tbl" (Event.element "w:tr" (Event.element "w:tc" content))

/-- A table with one row inside a cell. -/
def nestedTable : List Event :=
  oneCell (oneCell (Event.element "w:p" (Event.element "w:r" (Event.element "w:t" [.text ['x']]))))

/-- The text of the first row of a nested table is lost. -/
theorem not_parseBody_keeps_nestedTable :
    ¬ ∃ blocks, parseBody ⟨fun _ => none, fun _ => none⟩ (nestedTable.map .event) = .ok blocks ∧
      blocksInk (written blocks) = textInk isText nestedTable := by
  have text : textInk isText nestedTable = {'x'} := by
    rfl
  rintro ⟨blocks, parsed, kept⟩
  rw [parseBody, readEvents_events] at parsed
  obtain rfl := Except.ok.inj parsed
  rw [text] at kept
  exact absurd kept (by decide)

end AiCoreStack.Markdown.Docx
