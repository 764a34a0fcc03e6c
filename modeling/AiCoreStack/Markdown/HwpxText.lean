import AiCoreStack.Markdown.Hwpx

/-!
# What an HWPX section keeps

Where the text of a section goes.  One buffer holds the text of a paragraph; it is emptied
by the next paragraph that starts, not by the one that ends.  So a run is traced with the
part of the buffer that has been put out already and the part that has not.
-/

namespace AiCoreStack.Markdown.Hwpx

open AiCoreStack.Foundation

/-- The text elements. -/
def isText (name : String) : Bool := Element.ofName name = .t

/-- A state with the text elements that are open and with its buffer cut in two: the text
that has been put out as a paragraph, and the text behind it. -/
structure Traced where
  state : State
  depth : Nat
  printed : List Char
  fresh : List Char
  split : state.paraText = printed ++ fresh

/-- The parts of the buffer behind an event. -/
def partsAfter (state : State) (printed fresh : List Char) : Event → List Char × List Char
  | .start tag => if Element.ofName tag.name = .p then ([], []) else (printed, fresh)
  | .empty tag => if Element.ofName tag.name = .p then ([], []) else (printed, fresh)
  | .text text =>
      if state.inText = true ∧ state.tables = [] then (printed, fresh ++ text) else (printed, fresh)
  | .finish name =>
      if Element.ofName name = .p ∧ state.tables = [] then (printed ++ fresh, [])
      else (printed, fresh)
  | .cdata _ => (printed, fresh)
  | .other => (printed, fresh)

section Section

variable (styles : Styles) (images : ImageMap)

theorem paraText_pushImage (state : State) (tag : Tag) :
    (state.pushImage images tag).paraText = state.paraText := by
  rw [State.pushImage]
  split
  · split <;> rfl
  · rfl

theorem paraText_emitParagraph (state : State) :
    (state.emitParagraph styles).paraText = state.paraText := by
  simp only [State.emitParagraph]
  split
  · rfl
  · split <;> rfl

theorem paraText_openElement {state : State} {printed fresh : List Char}
    (split : state.paraText = printed ++ fresh) (tag : Tag) :
    (state.openElement images tag).paraText =
      (if Element.ofName tag.name = .p then (([], []) : List Char × List Char)
        else (printed, fresh)).1 ++
      (if Element.ofName tag.name = .p then (([], []) : List Char × List Char)
        else (printed, fresh)).2 := by
  rw [← paraText_pushImage images state tag] at split
  rw [State.openElement]
  cases Element.ofName tag.name with
  | p => rfl
  | _ => exact split

theorem paraText_handle {state : State} {printed fresh : List Char}
    (split : state.paraText = printed ++ fresh) (event : Event) :
    (state.handle styles images event).paraText =
      (partsAfter state printed fresh event).1 ++ (partsAfter state printed fresh event).2 := by
  cases event with
  | start tag => exact paraText_openElement images split tag
  | empty tag => exact paraText_openElement images split tag
  | text text =>
      simp only [State.handle, partsAfter, State.pushText]
      cases flag : state.inText with
      | false => simpa using split
      | true =>
          cases open' : state.tables with
          | nil => simp [split]
          | cons ctx tables => simpa using split
  | finish name =>
      simp only [State.handle, partsAfter, State.endElement]
      cases Element.ofName name with
      | p =>
          simp only [State.endParagraph, true_and]
          cases open' : state.tables with
          | nil => simpa [paraText_emitParagraph] using split
          | cons ctx tables => simpa using split
      | tbl =>
          simp only [State.endTable]
          split <;> simpa using split
      | _ => simpa using split
  | cdata _ => exact split
  | other => exact split

/-- One iteration of the loop, traced. -/
def Traced.step (traced : Traced) (event : Event) : Traced where
  state := traced.state.handle styles images event
  depth := depthAfter isText traced.depth event
  printed := (partsAfter traced.state traced.printed traced.fresh event).1
  fresh := (partsAfter traced.state traced.printed traced.fresh event).2
  split := paraText_handle styles images traced.split event

/-- The trace of a section up to some event. -/
def trace (blocks : List Block) (events : List Event) : Traced :=
  events.foldl (Traced.step styles images) ⟨{ blocks }, 0, [], [], rfl⟩

theorem trace_snoc (blocks : List Block) (events : List Event) (event : Event) :
    trace styles images blocks (events ++ [event]) =
      (trace styles images blocks events).step styles images event := by
  rw [trace, List.foldl_append]
  rfl

theorem trace_state (blocks : List Block) (events : List Event) :
    (trace styles images blocks events).state =
      events.foldl (State.handle styles images) { blocks } := by
  induction events using List.reverseRecOn with
  | nil => rfl
  | append_singleton events event ih =>
      rw [trace_snoc, List.foldl_append, ← ih]
      rfl

theorem trace_depth (blocks : List Block) (events : List Event) :
    (trace styles images blocks events).depth = events.foldl (depthAfter isText) 0 := by
  induction events using List.reverseRecOn with
  | nil => rfl
  | append_singleton events event ih =>
      rw [trace_snoc, List.foldl_append, ← ih]
      rfl

end Section

namespace Traced

/-- The text that a trace holds. -/
def content (traced : Traced) : Multiset Char :=
  blocksInk (written traced.state.blocks) + inkOf traced.fresh + tablesInk traced.state.tables

/-- The text that a tag drops when it opens an element. -/
def droppedOpen (traced : Traced) (tag : Tag) : Multiset Char :=
  match Element.ofName tag.name with
  | .p => inkOf traced.fresh
  | .tc => openCellInk traced.state.tables
  | _ => 0

/-- The text that an iteration drops. -/
def dropped (traced : Traced) : Event → Multiset Char
  | .start tag => traced.droppedOpen tag
  | .empty tag => traced.droppedOpen tag
  | .finish name =>
      match Element.ofName name with
      | .tbl => unfinishedInk traced.state.tables + nestedHeaderInk traced.state.tables
      | _ => 0
  | _ => 0

/-- The text that an iteration puts out a second time. -/
def repeated (traced : Traced) : Event → Multiset Char
  | .finish name =>
      if Element.ofName name = .p ∧ traced.state.tables = [] then inkOf traced.printed else 0
  | _ => 0

/-- The text outside text elements that is collected. -/
def stray (traced : Traced) : Event → Multiset Char
  | .text text => if traced.depth = 0 ∧ traced.state.inText = true then inkOf text else 0
  | _ => 0

variable (styles : Styles) (images : ImageMap)

theorem written_pushImage (state : State) (tag : Tag) :
    written (state.pushImage images tag).blocks = written state.blocks := by
  rw [State.pushImage]
  split
  · split
    · rw [written_append]
      exact List.append_nil _
    · rfl
  · rfl

theorem tables_pushImage (state : State) (tag : Tag) :
    (state.pushImage images tag).tables = state.tables := by
  rw [State.pushImage]
  split
  · split <;> rfl
  · rfl

theorem inkOf_emitParagraph (state : State) :
    blocksInk (written (state.emitParagraph styles).blocks) =
      blocksInk (written state.blocks) + inkOf state.paraText := by
  simp only [State.emitParagraph]
  split
  next blank =>
    rw [← inkOf_collapse, blank, inkOf_nil, add_zero]
  next =>
    split
    · rw [written_append, blocksInk_append, ← inkOf_collapse state.paraText]
      exact congrArg _ (blocksInk_singleton _)
    · rw [written_append, blocksInk_append, ← inkOf_collapse state.paraText]
      refine congrArg _ ((blocksInk_singleton _).trans ?_)
      rw [Block.ink, inlinesInk_cons, inlinesInk_nil, add_zero, Inline.ink_text]

theorem tables_emitParagraph (state : State) : (state.emitParagraph styles).tables = state.tables := by
  simp only [State.emitParagraph]
  split
  · rfl
  · split <;> rfl

theorem inkOf_endTable (state : State) :
    blocksInk (written state.endTable.blocks) + tablesInk state.endTable.tables +
        (unfinishedInk state.tables + nestedHeaderInk state.tables) =
      blocksInk (written state.blocks) + tablesInk state.tables := by
  rw [State.endTable]
  match open' : state.tables with
  | [] => simp [open', unfinishedInk, nestedHeaderInk]
  | [ctx] =>
      have table : blocksInk (written [Block.table ctx.intoTable]) = rowsInk ctx.rows := by
        rw [← TableCtx.ink_intoTable]
        exact blocksInk_singleton _
      simp only [written_append, blocksInk_append, table, tablesInk_nil, tablesInk_cons,
        TableCtx.ink, unfinishedInk, nestedHeaderInk, List.head?_cons, Option.map_some,
        Option.getD_some]
      abel
  | ctx :: parent :: tables =>
      simp only [tablesInk_cons, TableCtx.ink_absorb, unfinishedInk, nestedHeaderInk,
        List.head?_cons, Option.map_some, Option.getD_some, TableCtx.ink_rows ctx]
      abel

theorem balance_open (traced : Traced) (tag : Tag) :
    blocksInk (written (traced.state.openElement images tag).blocks) +
        inkOf (if Element.ofName tag.name = .p then (([], []) : List Char × List Char)
          else (traced.printed, traced.fresh)).2 +
        tablesInk (traced.state.openElement images tag).tables + traced.droppedOpen tag =
      traced.content := by
  have blocks := written_pushImage images traced.state tag
  have tables := tables_pushImage images traced.state tag
  rw [State.openElement, droppedOpen, content]
  cases Element.ofName tag.name with
  | p =>
      simp only [blocks, tables, if_true, inkOf_nil, add_zero]
      abel
  | tc =>
      simp only [blocks, tables, reduceCtorEq, if_false]
      rw [add_assoc, tablesInk_clearCell]
  | tbl => simp [blocks, tables]
  | t | tr | other => simp only [blocks, tables, reduceCtorEq, if_false, add_zero]

theorem balance_end (traced : Traced) (name : String) :
    (traced.step styles images (.finish name)).content + traced.dropped (.finish name) =
      traced.content + traced.repeated (.finish name) := by
  simp only [step, content, dropped, repeated, State.handle, State.endElement, partsAfter]
  cases Element.ofName name with
  | p =>
      simp only [State.endParagraph, true_and]
      cases open' : traced.state.tables with
      | nil =>
          simp only [if_true, inkOf_emitParagraph, tables_emitParagraph, open', traced.split,
            inkOf_append, inkOf_nil, tablesInk_nil, add_zero]
          abel
      | cons ctx tables =>
          simp [tablesInk_withTable TableCtx.ink_endParagraph]
  | tbl =>
      have ended := inkOf_endTable traced.state
      simp only [reduceCtorEq, false_and, if_false, add_zero]
      rw [add_right_comm (blocksInk (written traced.state.blocks)), ← ended]
      abel
  | tc => simp [tablesInk_withTable TableCtx.ink_endCell]
  | tr => simp [tablesInk_withTable TableCtx.ink_endRow]
  | t | other => simp

/-- Every iteration accounts for the text it reads and for the text it puts out again. -/
theorem balance (traced : Traced) (event : Event) :
    (traced.step styles images event).content + traced.dropped event =
      traced.content + (captured traced.state.inText event + traced.repeated event) := by
  cases event with
  | start tag => exact (balance_open images traced tag).trans (add_zero _).symm
  | empty tag => exact (balance_open images traced tag).trans (add_zero _).symm
  | text text =>
      simp only [step, content, dropped, repeated, captured, State.handle, partsAfter, add_zero]
      cases flag : traced.state.inText with
      | false => simp
      | true =>
          simp only [State.pushText, if_true, true_and]
          cases open' : traced.state.tables with
          | nil => simp [add_assoc]
          | cons ctx tables =>
              simp only [reduceCtorEq, if_false, tablesInk_push]
              abel
  | finish name =>
      rw [balance_end]
      exact congrArg _ (zero_add _).symm
  | cdata text => rfl
  | other => rfl

theorem captured_add_missed_eq (traced : Traced) (event : Event) :
    captured traced.state.inText event + missed traced.state.inText traced.depth event =
      textTaken traced.depth event + traced.stray event := by
  cases event with
  | text text =>
      simp only [captured, missed, textTaken, stray]
      cases traced.state.inText with
      | true =>
          cases traced.depth with
          | zero => simp
          | succ depth => simp
      | false => simp
  | cdata text => exact (zero_add _).trans (add_zero _).symm
  | _ => rfl

/-! ## Sections -/

/-- Whether an iteration collects text inside text elements only and puts out no text a
second time: no paragraph ends outside tables while the buffer still holds the text of a
paragraph that ended inside it. -/
def Once (traced : Traced) : Event → Prop
  | .text text => traced.depth = 0 → traced.state.inText = true → inkOf text = 0
  | .finish name =>
      Element.ofName name = .p → traced.state.tables = [] → inkOf traced.printed = 0
  | _ => True

/-- Whether a tag that opens an element drops no text: no paragraph starts behind text of
a paragraph around it, and no cell behind text of a cell that has not ended. -/
def KeepsOpen (traced : Traced) (tag : Tag) : Prop :=
  (Element.ofName tag.name = .p → inkOf traced.fresh = 0) ∧
    (Element.ofName tag.name = .tc → openCellInk traced.state.tables = 0)

/-- Whether an iteration drops no text: a table ends behind its last row, the first row of
a table inside a cell is blank, and text inside a text element is collected and in no CDATA
section. -/
def Keeps (traced : Traced) : Event → Prop
  | .start tag => traced.KeepsOpen tag
  | .empty tag => traced.KeepsOpen tag
  | .finish name =>
      Element.ofName name = .tbl →
        unfinishedInk traced.state.tables = 0 ∧ nestedHeaderInk traced.state.tables = 0
  | .text text => 0 < traced.depth → traced.state.inText = false → inkOf text = 0
  | .cdata text => 0 < traced.depth → inkOf text = 0
  | .other => True

theorem once_iff (traced : Traced) (event : Event) :
    traced.Once event ↔ traced.repeated event = 0 ∧ traced.stray event = 0 := by
  cases event <;> simp [Once, repeated, stray]

theorem keepsOpen_iff (traced : Traced) (tag : Tag) :
    traced.KeepsOpen tag ↔ traced.droppedOpen tag = 0 := by
  rw [KeepsOpen, droppedOpen]
  cases Element.ofName tag.name <;> simp

theorem keeps_iff (traced : Traced) (event : Event) :
    traced.Keeps event ↔
      traced.dropped event + missed traced.state.inText traced.depth event = 0 := by
  rw [add_eq_zero]
  cases event with
  | start tag | empty tag => simp [Keeps, dropped, missed, keepsOpen_iff]
  | finish name =>
      simp only [Keeps, dropped, missed]
      cases Element.ofName name <;> simp
  | text text => simp [Keeps, dropped, missed]
  | cdata text => simp [Keeps, dropped, missed]
  | other => simp [Keeps, dropped, missed]

end Traced

section Section

variable (styles : Styles) (images : ImageMap)

theorem blocks_handle (state : State) (event : Event) :
    state.blocks <+: (state.handle styles images event).blocks := by
  have opened (tag : Tag) : state.blocks <+: (state.openElement images tag).blocks := by
    have image : state.blocks <+: (state.pushImage images tag).blocks := by
      rw [State.pushImage]
      split
      · split
        · exact List.prefix_append _ _
        · exact List.prefix_rfl
      · exact List.prefix_rfl
    rw [State.openElement]
    cases Element.ofName tag.name <;> exact image
  cases event with
  | start tag => exact opened tag
  | empty tag => exact opened tag
  | text text =>
      simp only [State.handle, State.pushText]
      split
      · split <;> exact List.prefix_rfl
      · exact List.prefix_rfl
  | finish name =>
      rw [State.handle, State.endElement]
      cases Element.ofName name with
      | p =>
          simp only [State.endParagraph, State.emitParagraph]
          split
          · split
            · exact List.prefix_rfl
            · split <;> exact List.prefix_append _ _
          · exact List.prefix_rfl
      | tbl =>
          simp only [State.endTable]
          split
          · exact List.prefix_rfl
          · exact List.prefix_append _ _
          · exact List.prefix_rfl
      | _ => exact List.prefix_rfl
  | cdata _ | other => exact List.prefix_rfl

/-- A section only adds blocks. -/
theorem blocks_trace (blocks : List Block) (events : List Event) :
    blocks <+: (trace styles images blocks events).state.blocks := by
  induction events using List.reverseRecOn with
  | nil => exact List.prefix_rfl
  | append_singleton events event ih =>
      rw [trace_snoc]
      exact ih.trans (blocks_handle styles images _ event)

/-- What the iterations take in is the text inside text elements, if each of them collects
such text only and puts out no text a second time. -/
theorem takenAlong_trace {blocks : List Block} {events : List Event}
    (once : ∀ before event after, events = before ++ event :: after →
      (trace styles images blocks before).Once event) :
    takenAlong (Traced.step styles images)
        (fun traced event => captured traced.state.inText event + traced.repeated event +
          missed traced.state.inText traced.depth event)
        ⟨{ blocks }, 0, [], [], rfl⟩ events =
      textInk isText events := by
  apply takenAlong_congr
  intro before event after split
  obtain ⟨single, inside⟩ := (Traced.once_iff _ event).mp (once before event after split)
  have same := Traced.captured_add_missed_eq (trace styles images blocks before) event
  rw [inside, add_zero] at same
  rw [trace] at single
  rw [single, add_zero, ← trace_depth styles images blocks]
  exact same

/-- A section in which text is collected inside text elements only, and no text is put out
a second time, keeps all the text inside text elements exactly when no iteration drops text
and no text is left in an open paragraph or table at the end. -/
theorem parseSection_keeps_iff (blocks : List Block) (events : List Event)
    (once : ∀ before event after, events = before ++ event :: after →
      (trace styles images blocks before).Once event) :
    ∃ added, parseSection styles images blocks (events.map .event) = .ok (blocks ++ added) ∧
      (blocksInk (written added) = textInk isText events ↔
        (∀ before event after, events = before ++ event :: after →
          (trace styles images blocks before).Keeps event) ∧
        inkOf (trace styles images blocks events).fresh = 0 ∧
        tablesInk (trace styles images blocks events).state.tables = 0) := by
  obtain ⟨added, whole⟩ := blocks_trace styles images blocks events
  refine ⟨added, ?_, ?_⟩
  · rw [parseSection, readEvents_events, whole, trace_state]
    rfl
  have law (traced : Traced) (event : Event) :
      (traced.step styles images event).content +
          (traced.dropped event + missed traced.state.inText traced.depth event) =
        traced.content + (captured traced.state.inText event + traced.repeated event +
          missed traced.state.inText traced.depth event) := by
    rw [← add_assoc, Traced.balance, add_assoc]
  have result : blocksInk (written (blocks ++ added)) +
      (inkOf (trace styles images blocks events).fresh +
        tablesInk (trace styles images blocks events).state.tables) =
      (events.foldl (Traced.step styles images) ⟨{ blocks }, 0, [], [], rfl⟩).content := by
    rw [whole, ← add_assoc]
    rfl
  have kept := kept_eq_takenAlong_iff law ⟨{ blocks }, 0, [], [], rfl⟩ events result
  have start : Traced.content ⟨{ blocks }, 0, [], [], rfl⟩ = blocksInk (written blocks) := by
    simp [Traced.content]
  rw [takenAlong_trace styles images once, start, written_append, blocksInk_append,
    add_right_inj] at kept
  rw [kept]
  simp only [Traced.keeps_iff, add_eq_zero]
  rfl

end Section

/-- A paragraph with a piece of text. -/
def paragraph (text : List Char) (behind : List Event) : List Event :=
  Event.element "hp:p" (Event.element "hp:run" (Event.element "hp:t" [.text text] ++ behind))

/-- A table of one cell. -/
def oneCell (content : List Event) : List Event :=
  Event.element "hp:tbl" (Event.element "hp:tr" (Event.element "hp:tc" content))

/-- The parser keeps the text of a single paragraph. -/
theorem parseSection_keeps_paragraph :
    ∃ added, parseSection (fun _ => none) (fun _ => none) []
        ((paragraph ['x'] []).map .event) = .ok ([] ++ added) ∧
      (blocksInk (written added) = textInk isText (paragraph ['x'] []) ↔
        (∀ before event after, paragraph ['x'] [] = before ++ event :: after →
          (trace (fun _ => none) (fun _ => none) [] before).Keeps event) ∧
        inkOf (trace (fun _ => none) (fun _ => none) [] (paragraph ['x'] [])).fresh = 0 ∧
        tablesInk (trace (fun _ => none) (fun _ => none) [] (paragraph ['x'] [])).state.tables = 0) := by
  apply parseSection_keeps_iff
  simp only [paragraph, Event.element, List.cons_append, List.nil_append, forall_split_cons]
  refine ⟨trivial, trivial, trivial, ?_, ?_, ?_, ?_, forall_split_nil⟩
  · intro outside
    exact absurd outside (by decide)
  · intro paragraph
    exact absurd paragraph (by decide)
  · intro paragraph
    exact absurd paragraph (by decide)
  · intro _ _
    rfl

/-- A table behind text of its paragraph. -/
def textThenTable : List Event := paragraph ['x'] (oneCell (paragraph ['y'] []))

/-- The text in front of a table in a paragraph is lost. -/
theorem not_parseSection_keeps_textThenTable :
    ¬ ∃ added, parseSection (fun _ => none) (fun _ => none) [] (textThenTable.map .event) =
        .ok ([] ++ added) ∧
      blocksInk (written added) = textInk isText textThenTable := by
  have text : textInk isText textThenTable = {'x', 'y'} := by
    rfl
  rintro ⟨added, parsed, kept⟩
  rw [parseSection, readEvents_events] at parsed
  obtain rfl := Except.ok.inj parsed
  rw [text] at kept
  exact absurd kept (by decide)

end AiCoreStack.Markdown.Hwpx
