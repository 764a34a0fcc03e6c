import AiCoreStack.Markdown.Pptx

/-!
# What a PPTX slide keeps

Where the text of a slide goes.  A paragraph becomes a block only if its plain text is not
blank, and a title keeps its plain text alone; but the plain text of a run that is both
bold and italic is empty.
-/

namespace AiCoreStack.Markdown.Pptx

open AiCoreStack.Foundation

/-- The text elements. -/
def isText (name : String) : Bool := Element.ofName name = .t

/-- The text that `plain_text` does not see: under two levels of formatting. -/
def buried : Inline → List Char
  | .bold (.text _) => []
  | .italic (.text _) => []
  | .strike (.text _) => []
  | .bold inner => inner.plain
  | .italic inner => inner.plain
  | .strike inner => inner.plain
  | _ => []

/-- The ink that `plain_text` does not see. -/
def buriedInk (runs : List Inline) : Multiset Char := (runs.map fun run => inkOf (buried run)).sum

theorem inkOf_shallow_add_buried (run : Inline) :
    inkOf (shallow run) + inkOf (buried run) = run.ink := by
  cases run with
  | bold inner | italic inner | strike inner => cases inner <;> simp [shallow, buried, Inline.ink, Inline.plain]
  | _ => simp [shallow, buried, Inline.ink, Inline.plain]

/-- The text of a paragraph is its plain text and the text that `plain_text` does not see. -/
theorem inkOf_plainText_add_buriedInk (runs : List Inline) :
    inkOf (plainText runs) + buriedInk runs = inlinesInk runs := by
  induction runs with
  | nil => rfl
  | cons run runs ih =>
      have first := inkOf_shallow_add_buried run
      simp only [plainText, List.flatMap_cons, inkOf_append, buriedInk, List.map_cons, List.sum_cons,
        inlinesInk_cons] at ih ⊢
      rw [← ih, ← first]
      abel

namespace State

/-- The text that a state holds. -/
def content (state : State) : Multiset Char :=
  blocksInk (written state.blocks) + inlinesInk state.runs + tablesInk state.tables

/-- Whether the end of a paragraph keeps its plain text alone. -/
def Flattens (state : State) : Prop :=
  state.tables = [] ∧ (trim isWhitespace (plainText state.runs) = [] ∨ state.isTitleShape = true)

instance (state : State) : Decidable state.Flattens := inferInstanceAs (Decidable (_ ∧ _))

/-- The text that an iteration drops. -/
def dropped (state : State) : Event → Multiset Char
  | .start tag =>
      match Element.ofName tag.name with
      | .p => inlinesInk state.runs
      | .tr => openRowInk state.tables
      | .tc => openCellInk state.tables
      | _ => 0
  | .finish name =>
      match Element.ofName name with
      | .tbl => unfinishedInk state.tables
      | .p => if state.Flattens then buriedInk state.runs else 0
      | _ => 0
  | _ => 0

theorem ink_styled (state : State) (text : List Char) : (state.styled text).ink = inkOf text := by
  simp only [styled]
  split <;> split <;> rfl

theorem content_pushText (state : State) (text : List Char) :
    (state.pushText text).content = state.content + inkOf text := by
  rw [pushText]
  cases open' : state.tables with
  | nil =>
      simp only [content, inlinesInk_append, inlinesInk_cons, inlinesInk_nil, ink_styled, open',
        tablesInk_nil, add_zero, add_assoc]
  | cons ctx tables => simp only [content, tablesInk_push, open', add_assoc]

theorem content_pushBreak (state : State) : state.pushBreak.content = state.content := by
  rw [pushBreak]
  cases open' : state.tables with
  | nil => simp [content, open']
  | cons ctx tables => simp [content, tablesInk_push, open']

theorem content_pushImage (images : ImageMap) (state : State) (tag : Tag) :
    (state.pushImage images tag).content = state.content := by
  rw [pushImage]
  split
  · rfl
  · split
    · have image (alt : List Char) (data : ImageData) : written [.image alt data] = [] := rfl
      simp only [content, written_append, image, List.append_nil]
    · rfl

theorem content_endTable (state : State) :
    state.endTable.content + unfinishedInk state.tables = state.content := by
  rw [endTable]
  cases open' : state.tables with
  | nil => exact add_zero _
  | cons ctx tables =>
      have table : blocksInk (written [Block.table ctx.intoTable]) = rowsInk ctx.rows := by
        rw [← TableCtx.ink_intoTable]
        exact blocksInk_singleton _
      simp only [content, written_append, blocksInk_append, table, unfinishedInk, open',
        tablesInk_cons, TableCtx.ink, List.head?_cons, Option.map_some, Option.getD_some]
      abel

theorem content_endParagraph (state : State) :
    state.endParagraph.content + (if state.Flattens then buriedInk state.runs else 0) =
      state.content := by
  have whole := inkOf_plainText_add_buriedInk state.runs
  rw [endParagraph]
  cases open' : state.tables with
  | cons ctx tables =>
      have within : ¬ state.Flattens := by simp [Flattens, open']
      simp only [if_neg within, content, open', tablesInk_withTable TableCtx.ink_endParagraph,
        add_zero]
  | nil =>
      simp only
      split
      next blank =>
        rw [if_pos ⟨open', .inl blank⟩]
        rw [trim_eq_nil] at blank
        simp only [content, ← whole, blank, open', inlinesInk_nil, tablesInk_nil, add_zero, zero_add]
      next some' =>
        split
        next title =>
          have heading : blocksInk (written [.heading 2 (plainText state.runs)]) =
              inkOf (plainText state.runs) := blocksInk_singleton _
          rw [if_pos ⟨open', .inr title⟩]
          simp only [content, written_append, blocksInk_append, heading, ← whole, open',
            inlinesInk_nil, tablesInk_nil, add_zero, add_assoc]
        next plain' =>
          have paragraph : blocksInk (written [.paragraph state.runs]) = inlinesInk state.runs :=
            blocksInk_singleton _
          have styled : ¬ state.Flattens := by simp [Flattens, some', plain']
          rw [if_neg styled]
          simp only [content, written_append, blocksInk_append, paragraph, open',
            inlinesInk_nil, tablesInk_nil, add_zero]

theorem balance_start (images : ImageMap) (state : State) (tag : Tag) :
    (state.startElement images tag).content + state.dropped (.start tag) = state.content := by
  rw [startElement, dropped]
  cases Element.ofName tag.name with
  | p =>
      simp only [content, inlinesInk_nil, add_zero]
      abel
  | tr =>
      simp only [content]
      rw [add_assoc, tablesInk_clearRow]
  | tc =>
      simp only [content]
      rw [add_assoc, tablesInk_clearCell]
  | tbl => simp [content]
  | blip => rw [content_pushImage, add_zero]
  | _ => exact add_zero _

theorem content_emptyElement (images : ImageMap) (state : State) (tag : Tag) :
    (state.emptyElement images tag).content = state.content := by
  rw [emptyElement]
  cases Element.ofName tag.name with
  | ph =>
      simp only
      split <;> rfl
  | br => exact content_pushBreak state
  | blip => exact content_pushImage images state tag
  | _ => rfl

theorem balance_end (state : State) (name : String) :
    (state.endElement name).content + state.dropped (.finish name) = state.content := by
  rw [endElement, dropped]
  cases Element.ofName name with
  | tbl => exact content_endTable state
  | p => exact content_endParagraph state
  | tc => simp only [content, tablesInk_withTable TableCtx.ink_endCell, add_zero]
  | tr => simp only [content, tablesInk_withTable TableCtx.ink_endRow, add_zero]
  | _ => exact add_zero _

/-- Every iteration accounts for the text it reads. -/
theorem balance (images : ImageMap) (state : State) (event : Event) :
    (state.handle images event).content + state.dropped event =
      state.content + captured state.inText event := by
  cases event with
  | start tag => exact (balance_start images state tag).trans (add_zero _).symm
  | empty tag => exact congrArg (· + 0) (content_emptyElement images state tag)
  | text text =>
      simp only [handle, dropped, captured, add_zero]
      split
      · exact content_pushText state text
      · exact (add_zero _).symm
  | finish name => exact (balance_end state name).trans (add_zero _).symm
  | cdata _ => rfl
  | other => rfl

/-! ## The text flag -/

theorem inText_pushImage (images : ImageMap) (state : State) (tag : Tag) :
    (state.pushImage images tag).inText = state.inText := by
  rw [pushImage]
  split
  · rfl
  · split <;> rfl

theorem inText_startElement (images : ImageMap) (state : State) (tag : Tag) :
    (state.startElement images tag).inText = (isText tag.name || state.inText) := by
  rw [startElement, isText]
  cases Element.ofName tag.name with
  | blip => exact inText_pushImage images state tag
  | _ => rfl

theorem inText_emptyElement (images : ImageMap) (state : State) (tag : Tag) :
    (state.emptyElement images tag).inText = state.inText := by
  rw [emptyElement]
  cases Element.ofName tag.name with
  | ph =>
      simp only
      split <;> rfl
  | br =>
      simp only [pushBreak]
      split <;> rfl
  | blip => exact inText_pushImage images state tag
  | _ => rfl

theorem inText_endElement (state : State) (name : String) :
    (state.endElement name).inText = (!isText name && state.inText) := by
  rw [endElement, isText]
  cases Element.ofName name with
  | tbl =>
      simp only [endTable]
      split <;> rfl
  | p =>
      simp only [endParagraph]
      split
      · split
        · rfl
        · split <;> rfl
      · rfl
  | _ => rfl

/-- Text is collected only inside a text element. -/
theorem inText_handle (images : ImageMap) (state : State) (event : Event) (depth : Nat)
    (inside : state.inText = true → 0 < depth)
    (collects : (state.handle images event).inText = true) :
    0 < depthAfter isText depth event := by
  cases event with
  | start tag => exact depthAfter_start inside (inText_startElement images state tag) collects
  | empty tag => exact inside ((inText_emptyElement images state tag).symm.trans collects)
  | text text =>
      rw [handle] at collects
      split at collects
      next flag => exact inside flag
      next => exact inside collects
  | finish name => exact depthAfter_finish inside (inText_endElement state name) collects
  | cdata text => exact inside collects
  | other => exact inside collects

end State

/-! ## Slides -/

/-- The state in front of the rest of a slide. -/
def run (images : ImageMap) (blocks : List Block) (events : List Event) : State :=
  events.foldl (State.handle images) { blocks }

/-- Whether an iteration drops no text: a paragraph does not start behind text of a
paragraph that has not ended, nor a row or a cell behind text of one that has not ended; a
table ends behind its last row; a paragraph outside tables that is a title, or whose plain
text is blank, has no text that is both bold and italic; and text inside a text element is
collected and in no CDATA section. -/
def Keeps (state : State) (depth : Nat) : Event → Prop
  | .start tag =>
      (Element.ofName tag.name = .p → inlinesInk state.runs = 0) ∧
        (Element.ofName tag.name = .tr → openRowInk state.tables = 0) ∧
        (Element.ofName tag.name = .tc → openCellInk state.tables = 0)
  | .finish name =>
      (Element.ofName name = .tbl → unfinishedInk state.tables = 0) ∧
        (Element.ofName name = .p → state.Flattens → buriedInk state.runs = 0)
  | .text text => 0 < depth → state.inText = false → inkOf text = 0
  | .cdata text => 0 < depth → inkOf text = 0
  | _ => True

theorem keeps_iff (state : State) (depth : Nat) (event : Event) :
    state.dropped event = 0 ∧ missed state.inText depth event = 0 ↔ Keeps state depth event := by
  cases event with
  | start tag =>
      rw [State.dropped, Keeps, missed]
      · cases Element.ofName tag.name <;> simp
      · simp
      · simp
  | finish name =>
      rw [State.dropped, Keeps, missed]
      · cases Element.ofName name <;> simp
      · simp
      · simp
  | text text => simp [State.dropped, Keeps, missed]
  | cdata text => simp [State.dropped, Keeps, missed]
  | empty tag => simp [State.dropped, Keeps, missed]
  | other => simp [State.dropped, Keeps, missed]

theorem blocks_handle (images : ImageMap) (state : State) (event : Event) :
    state.blocks <+: (state.handle images event).blocks := by
  have image (tag : Tag) : state.blocks <+: (state.pushImage images tag).blocks := by
    rw [State.pushImage]
    split
    · exact List.prefix_rfl
    · split
      · exact List.prefix_append _ _
      · exact List.prefix_rfl
  cases event with
  | start tag =>
      rw [State.handle, State.startElement]
      cases Element.ofName tag.name with
      | blip => exact image tag
      | _ => exact List.prefix_rfl
  | empty tag =>
      rw [State.handle, State.emptyElement]
      cases Element.ofName tag.name with
      | ph =>
          simp only
          split <;> exact List.prefix_rfl
      | br =>
          simp only [State.pushBreak]
          split <;> exact List.prefix_rfl
      | blip => exact image tag
      | _ => exact List.prefix_rfl
  | text text =>
      simp only [State.handle, State.pushText]
      split
      · split <;> exact List.prefix_rfl
      · exact List.prefix_rfl
  | finish name =>
      rw [State.handle, State.endElement]
      cases Element.ofName name with
      | tbl =>
          simp only [State.endTable]
          split
          · exact List.prefix_rfl
          · exact List.prefix_append _ _
      | p =>
          simp only [State.endParagraph]
          split
          · split
            · exact List.prefix_rfl
            · split <;> exact List.prefix_append _ _
          · exact List.prefix_rfl
      | _ => exact List.prefix_rfl
  | cdata _ | other => exact List.prefix_rfl

/-- A slide only adds blocks. -/
theorem blocks_run (images : ImageMap) (blocks : List Block) (events : List Event) :
    blocks <+: (run images blocks events).blocks := by
  induction events using List.reverseRecOn with
  | nil => exact List.prefix_rfl
  | append_singleton events event ih =>
      rw [run, List.foldl_append]
      exact ih.trans (blocks_handle images _ event)

/-- The slide parser keeps all the text inside text elements exactly when no iteration
drops text and no text is left in an open paragraph or table at the end. -/
theorem parseSlide_keeps_iff (images : ImageMap) (blocks : List Block) (events : List Event) :
    ∃ added, parseSlide images blocks (events.map .event) = .ok (blocks ++ added) ∧
      (blocksInk (written added) = textInk isText events ↔
        (∀ before event after, events = before ++ event :: after →
          Keeps (run images blocks before) (before.foldl (depthAfter isText) 0) event) ∧
        inlinesInk (run images blocks events).runs = 0 ∧
        tablesInk (run images blocks events).tables = 0) := by
  obtain ⟨added, whole⟩ := blocks_run images blocks events
  refine ⟨added, ?_, ?_⟩
  · rw [parseSlide, readEvents_events, whole]
    rfl
  have result : blocksInk (written (blocks ++ added)) +
      (inlinesInk (run images blocks events).runs + tablesInk (run images blocks events).tables) =
        (run images blocks events).content := by
    rw [whole, State.content, add_assoc]
  have kept := kept_eq_textInk_iff (State.balance images) (State.inText_handle images) rfl
    events result
  have start : State.content { blocks } = blocksInk (written blocks) := by
    simp [State.content]
  rw [start, written_append, blocksInk_append, add_right_inj] at kept
  rw [kept]
  simp only [keeps_iff, add_eq_zero]
  rfl

/-- A paragraph with one run that is both bold and italic. -/
def boldItalic : List Event :=
  Event.element "a:p" (Event.element "a:r"
    (.empty ⟨"a:rPr", [("b", some ['1']), ("i", some ['1'])]⟩ ::
      Event.element "a:t" [.text ['x']]))

/-- A paragraph whose text is both bold and italic is lost. -/
theorem not_parseSlide_keeps_boldItalic :
    ¬ ∃ added, parseSlide (fun _ => none) [] (boldItalic.map .event) = .ok ([] ++ added) ∧
      blocksInk (written added) = textInk isText boldItalic := by
  have text : textInk isText boldItalic = {'x'} := by
    rfl
  rintro ⟨added, parsed, kept⟩
  rw [parseSlide, readEvents_events] at parsed
  obtain rfl := Except.ok.inj parsed
  rw [text] at kept
  exact absurd kept (by decide)

end AiCoreStack.Markdown.Pptx
