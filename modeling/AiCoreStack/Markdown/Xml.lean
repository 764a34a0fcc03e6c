import AiCoreStack.Foundation.Runs
import AiCoreStack.Markdown.Content

/-!
# XML events

What the parsers for Office formats see of an XML part: the events of the reader, with the
text of a `Text` event unescaped.  The three formats build tables in the same way, and
their loops read until the end of the part or an error.
-/

namespace AiCoreStack.Markdown

open AiCoreStack.Foundation

/-- Errors of a parser. -/
inductive ParseError where
  | io (detail : List Char)
  | container (format : String) (detail : List Char)
  | markup (format : String) (detail : List Char)
  | encoding (format : String) (detail : List Char)
  | unsupported (format : String) (detail : List Char)
  deriving DecidableEq, Repr

/-! ## Events -/

/-- A start tag or an empty-element tag.  A value that cannot be unescaped is `none`. -/
structure Tag where
  name : String
  attributes : List (String × Option (List Char)) := []

/-- `attr_val`: the first value of an attribute that can be unescaped. -/
def Tag.attrVal (tag : Tag) (key : String) : Option (List Char) :=
  tag.attributes.findSome? fun (name, value) => if name = key then value else none

/-- The events of the reader.  The text of a CDATA section comes as it is.  Comments,
declarations and the like are `other`. -/
inductive Event where
  | start (tag : Tag)
  | empty (tag : Tag)
  | text (text : List Char)
  | cdata (text : List Char)
  | finish (name : String)
  | other

/-- The events of an element without attributes. -/
def Event.element (name : String) (children : List Event) : List Event :=
  .start ⟨name, []⟩ :: children ++ [.finish name]

/-- What a call of `read_event` gives: an event, an error, or a text event that cannot be
unescaped. -/
inductive Delivered where
  | event (event : Event)
  | broken (message : List Char)
  | garbled (message : List Char)

/-- The loop over the events of a part.  Text is unescaped only where it is collected. -/
def readEvents {σ : Type} (inText : σ → Bool) (handle : σ → Event → σ)
    (readError textError : List Char → ParseError) (state : σ) :
    List Delivered → Except ParseError σ
  | [] => .ok state
  | .event event :: rest => readEvents inText handle readError textError (handle state event) rest
  | .broken message :: _ => .error (readError message)
  | .garbled message :: rest =>
      if inText state then .error (textError message)
      else readEvents inText handle readError textError state rest

/-- Events that are delivered faithfully are all handled. -/
theorem readEvents_events {σ : Type} {inText : σ → Bool} {handle : σ → Event → σ}
    {readError textError : List Char → ParseError} (state : σ) (events : List Event) :
    readEvents inText handle readError textError state (events.map .event) =
      .ok (events.foldl handle state) := by
  induction events generalizing state with
  | nil => rfl
  | cons event events ih => exact ih (handle state event)

/-! ## Text elements -/

/-- How many text elements are open behind an event. -/
def depthAfter (isText : String → Bool) (depth : Nat) : Event → Nat
  | .start tag => if isText tag.name then depth + 1 else depth
  | .finish name => if isText name then depth - 1 else depth
  | _ => depth

/-- The ink of the text that is read inside text elements. -/
def textTaken (depth : Nat) : Event → Multiset Char
  | .text text => if 0 < depth then inkOf text else 0
  | .cdata text => if 0 < depth then inkOf text else 0
  | _ => 0

/-- The ink of the text inside the text elements of a part. -/
def textInk (isText : String → Bool) (events : List Event) : Multiset Char :=
  takenAlong (depthAfter isText) textTaken 0 events

/-! ## Collecting text

A parser collects text while a flag is set, from the start tag of a text element to the
next end tag of one.  It collects no CDATA section. -/

section Collecting

variable {σ : Type} {handle : σ → Event → σ} {inText : σ → Bool} {isText : String → Bool}
variable {content : σ → Multiset Char} {dropped : σ → Event → Multiset Char}

/-- The text that is collected. -/
def captured (inText : Bool) : Event → Multiset Char
  | .text text => if inText then inkOf text else 0
  | _ => 0

/-- The text inside text elements that is not collected. -/
def missed (inText : Bool) (depth : Nat) : Event → Multiset Char
  | .text text => if 0 < depth ∧ inText = false then inkOf text else 0
  | .cdata text => if 0 < depth then inkOf text else 0
  | _ => 0

/-- A start tag that leaves the flag set stands inside a text element. -/
theorem depthAfter_start {flag flag' : Bool} {depth : Nat} {tag : Tag}
    (inside : flag = true → 0 < depth) (sets : flag' = (isText tag.name || flag))
    (collects : flag' = true) : 0 < depthAfter isText depth (.start tag) := by
  rw [depthAfter]
  cases opens : isText tag.name with
  | true => simp
  | false => simpa using inside (by simpa [opens, sets] using collects)

/-- An end tag that leaves the flag set stands inside a text element. -/
theorem depthAfter_finish {flag flag' : Bool} {depth : Nat} {name : String}
    (inside : flag = true → 0 < depth) (clears : flag' = (!isText name && flag))
    (collects : flag' = true) : 0 < depthAfter isText depth (.finish name) := by
  obtain ⟨other, set⟩ := Bool.and_eq_true_iff.mp (clears.symm.trans collects)
  rw [depthAfter, if_neg (by simpa using other)]
  exact inside set

/-- The parser and the depth side by side. -/
def withDepth (handle : σ → Event → σ) (isText : String → Bool) (state : σ × Nat)
    (event : Event) : σ × Nat :=
  (handle state.1 event, depthAfter isText state.2 event)

theorem foldl_withDepth (state : σ) (depth : Nat) (events : List Event) :
    events.foldl (withDepth handle isText) (state, depth) =
      (events.foldl handle state, events.foldl (depthAfter isText) depth) := by
  induction events generalizing state depth with
  | nil => rfl
  | cons event events ih => exact ih _ _

theorem captured_add_missed {flag : Bool} {depth : Nat} (inside : flag = true → 0 < depth)
    (event : Event) : captured flag event + missed flag depth event = textTaken depth event := by
  cases event with
  | text text =>
      cases flag with
      | true => simp [captured, missed, textTaken, inside rfl]
      | false => simp [captured, missed, textTaken]
  | cdata text => exact zero_add _
  | _ => rfl

theorem takenAlong_withDepth
    (flag : ∀ state event depth, (inText state = true → 0 < depth) →
      inText (handle state event) = true → 0 < depthAfter isText depth event)
    (state : σ) (depth : Nat) (inside : inText state = true → 0 < depth) (events : List Event) :
    takenAlong (withDepth handle isText)
        (fun state event => captured (inText state.1) event + missed (inText state.1) state.2 event)
        (state, depth) events =
      takenAlong (depthAfter isText) textTaken depth events := by
  induction events generalizing state depth with
  | nil => rfl
  | cons event events ih =>
      rw [takenAlong, takenAlong, captured_add_missed inside]
      exact congrArg _ (ih _ _ (flag state event depth inside))

/-- What a parser puts out is the text inside text elements exactly when no iteration
drops text or misses any, and nothing is left behind.  It starts with what other parts
gave. -/
theorem kept_eq_textInk_iff
    (balance : ∀ state event,
      content (handle state event) + dropped state event =
        content state + captured (inText state) event)
    (flag : ∀ state event depth, (inText state = true → 0 < depth) →
      inText (handle state event) = true → 0 < depthAfter isText depth event)
    {start : σ} (outside : inText start = false)
    (events : List Event) {kept left : Multiset Char}
    (result : kept + left = content (events.foldl handle start)) :
    kept = content start + textInk isText events ↔
      (∀ before event after, events = before ++ event :: after →
        dropped (before.foldl handle start) event = 0 ∧
          missed (inText (before.foldl handle start)) (before.foldl (depthAfter isText) 0) event =
            0) ∧
        left = 0 := by
  have law (state : σ × Nat) (event : Event) :
      content (withDepth handle isText state event).1 +
          (dropped state.1 event + missed (inText state.1) state.2 event) =
        content state.1 + (captured (inText state.1) event +
          missed (inText state.1) state.2 event) := by
    rw [← add_assoc, withDepth, balance, add_assoc]
  have whole : kept + left =
      content (events.foldl (withDepth handle isText) (start, 0)).1 := by
    rw [foldl_withDepth, result]
  have runs := @kept_eq_takenAlong_iff _ _ _ _ (fun state => content state.1) _ _ law (start, 0)
    events _ _ whole
  rw [takenAlong_withDepth flag start 0 (by simp [outside]) events] at runs
  rw [textInk, runs]
  simp only [foldl_withDepth, add_eq_zero]

end Collecting

/-! ## Tables -/

/-- A table that is being read. -/
structure TableCtx where
  rows : List (List (List Char)) := []
  curRow : List (List Char) := []
  cellBuf : List Char := []

namespace TableCtx

/-- The first row is the header. -/
def intoTable (ctx : TableCtx) : Table where
  headers := ctx.rows.headD []
  rows := ctx.rows.tail

def ink (ctx : TableCtx) : Multiset Char := rowsInk ctx.rows + rowInk ctx.curRow + inkOf ctx.cellBuf

/-- Close the open cell. -/
def endCell (ctx : TableCtx) : TableCtx :=
  { ctx with curRow := ctx.curRow ++ [collapse ctx.cellBuf], cellBuf := [] }

/-- Close the open row. -/
def endRow (ctx : TableCtx) : TableCtx :=
  { ctx with rows := ctx.rows ++ [ctx.curRow], curRow := [] }

/-- Add text to the open cell. -/
def push (ctx : TableCtx) (text : List Char) : TableCtx :=
  { ctx with cellBuf := ctx.cellBuf ++ text }

/-- A blank between the paragraphs of a cell. -/
def endParagraph (ctx : TableCtx) : TableCtx :=
  if ctx.cellBuf ≠ [] ∧ ctx.cellBuf.getLast? ≠ some ' ' then ctx.push [' '] else ctx

/-- Take the rows of a nested table into the open cell, as plain text. -/
def absorb (ctx : TableCtx) (table : Table) : TableCtx :=
  table.rows.foldl (fun ctx row => ctx.push ([' '].intercalate row ++ [' '])) ctx

@[simp] theorem ink_new : ({} : TableCtx).ink = 0 := rfl

@[simp] theorem ink_push (ctx : TableCtx) (text : List Char) :
    (ctx.push text).ink = ctx.ink + inkOf text := by
  simp [ink, push, add_assoc]

@[simp] theorem ink_endCell (ctx : TableCtx) : ctx.endCell.ink = ctx.ink := by
  simp [ink, endCell, add_assoc]

@[simp] theorem ink_endRow (ctx : TableCtx) : ctx.endRow.ink = ctx.ink := by
  simp [ink, endRow, add_assoc]

@[simp] theorem ink_endParagraph (ctx : TableCtx) : ctx.endParagraph.ink = ctx.ink := by
  rw [endParagraph]
  split
  · rw [ink_push]
    exact add_zero _
  · rfl

@[simp] theorem ink_absorb (ctx : TableCtx) (table : Table) :
    (ctx.absorb table).ink = ctx.ink + rowsInk table.rows := by
  rw [absorb]
  generalize table.rows = rows
  induction rows generalizing ctx with
  | nil => simp
  | cons row rows ih =>
      rw [List.foldl_cons, ih, ink_push, rowsInk_cons, inkOf_append, inkOf_space, add_zero,
        inkOf_join, add_assoc]
      rfl

theorem ink_intoTable (ctx : TableCtx) : ctx.intoTable.ink = rowsInk ctx.rows := by
  rw [intoTable, Table.ink]
  cases ctx.rows with
  | nil => rfl
  | cons row rows => simp

/-- The ink of a table that is being read, with its first row apart. -/
theorem ink_rows (ctx : TableCtx) :
    ctx.ink = rowInk ctx.intoTable.headers + rowsInk ctx.intoTable.rows + rowInk ctx.curRow +
      inkOf ctx.cellBuf := by
  rw [ink, ← ink_intoTable, Table.ink]
  exact congrArg (· + _ + _) (add_zero _)

end TableCtx

/-- The ink of the tables that are open. -/
def tablesInk (tables : List TableCtx) : Multiset Char := (tables.map TableCtx.ink).sum

@[simp] theorem tablesInk_nil : tablesInk [] = 0 := rfl

@[simp] theorem tablesInk_cons (ctx : TableCtx) (tables : List TableCtx) :
    tablesInk (ctx :: tables) = ctx.ink + tablesInk tables := by
  simp [tablesInk]

/-- Change the innermost open table, if there is one. -/
def withTable (change : TableCtx → TableCtx) : List TableCtx → List TableCtx
  | [] => []
  | ctx :: tables => change ctx :: tables

theorem tablesInk_withTable {change : TableCtx → TableCtx} (keeps : ∀ ctx, (change ctx).ink = ctx.ink)
    (tables : List TableCtx) : tablesInk (withTable change tables) = tablesInk tables := by
  cases tables with
  | nil => rfl
  | cons ctx tables => rw [withTable, tablesInk_cons, keeps, tablesInk_cons]

/-- The ink of the open cell of the innermost table. -/
def openCellInk (tables : List TableCtx) : Multiset Char :=
  (tables.head?.map fun ctx => inkOf ctx.cellBuf).getD 0

/-- The ink of the open row of the innermost table. -/
def openRowInk (tables : List TableCtx) : Multiset Char :=
  (tables.head?.map fun ctx => rowInk ctx.curRow).getD 0

/-- The ink of the innermost table that stands in no finished row. -/
def unfinishedInk (tables : List TableCtx) : Multiset Char :=
  (tables.head?.map fun ctx => rowInk ctx.curRow + inkOf ctx.cellBuf).getD 0

/-- The ink of the first row of the innermost table, if it stands inside another table. -/
def nestedHeaderInk : List TableCtx → Multiset Char
  | ctx :: _ :: _ => rowInk ctx.intoTable.headers
  | _ => 0

theorem tablesInk_clearCell (tables : List TableCtx) :
    tablesInk (withTable (fun ctx => { ctx with cellBuf := [] }) tables) + openCellInk tables =
      tablesInk tables := by
  cases tables with
  | nil => rfl
  | cons ctx tables =>
      simp only [withTable, tablesInk_cons, TableCtx.ink, openCellInk, List.head?_cons,
        Option.map_some, Option.getD_some, inkOf_nil, add_zero]
      abel

theorem tablesInk_clearRow (tables : List TableCtx) :
    tablesInk (withTable (fun ctx => { ctx with curRow := [] }) tables) + openRowInk tables =
      tablesInk tables := by
  cases tables with
  | nil => rfl
  | cons ctx tables =>
      simp only [withTable, tablesInk_cons, TableCtx.ink, openRowInk, List.head?_cons,
        Option.map_some, Option.getD_some, rowInk_nil, add_zero]
      abel

theorem tablesInk_push (ctx : TableCtx) (tables : List TableCtx) (text : List Char) :
    tablesInk (withTable (·.push text) (ctx :: tables)) =
      tablesInk (ctx :: tables) + inkOf text := by
  simp only [withTable, tablesInk_cons, TableCtx.ink_push]
  abel

end AiCoreStack.Markdown
