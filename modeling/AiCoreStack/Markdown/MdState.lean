import AiCoreStack.Markdown.Content

/-!
# Folding Markdown events

Model of `MdState` in `parsers/markdown.rs`: the events of the Markdown reader are folded
into blocks.  The list stack has the innermost list first, and the counters of the
formatting are unbounded.
-/

namespace AiCoreStack.Markdown.Md

open AiCoreStack.Foundation

inductive CodeBlockKind where
  | indented
  | fenced (info : List Char)

/-- The start of an element. -/
inductive Tag where
  | paragraph
  | heading (level : UInt8)
  | blockQuote
  | codeBlock (kind : CodeBlockKind)
  | list (start : Option Nat)
  | item
  | table
  | tableHead
  | tableRow
  | tableCell
  | emphasis
  | strong
  | strikethrough
  | link (destUrl : List Char)
  | image (destUrl : List Char)
  | other

/-- The end of an element. -/
inductive TagEnd where
  | paragraph
  | heading
  | blockQuote
  | codeBlock
  | list
  | item
  | table
  | tableHead
  | tableRow
  | tableCell
  | emphasis
  | strong
  | strikethrough
  | link
  | image
  | other

/-- The events of the reader.  HTML, footnotes and formulas are `other`. -/
inductive Event where
  | start (tag : Tag)
  | finish (tag : TagEnd)
  | text (text : List Char)
  | code (text : List Char)
  | softBreak
  | hardBreak
  | rule
  | taskListMarker (checked : Bool)
  | other

structure ListBuild where
  ordered : Bool
  items : List ListItem := []
  cur : List Inline := []
  curSublist : Option NestedList := none

structure TableBuild where
  headers : List (List Char) := []
  rows : List (List (List Char)) := []
  curRow : List (List Char) := []
  cell : List Char := []
  inHead : Bool := false

structure MdState where
  blocks : List Block := []
  inline : List Inline := []
  bold : Nat := 0
  italic : Nat := 0
  strike : Nat := 0
  heading : Option UInt8 := none
  inQuote : Bool := false
  code : Option (Option (List Char) × List Char) := none
  link : Option (List Char × List Char) := none
  image : Option (List Char × List Char) := none
  lists : List ListBuild := []
  table : Option TableBuild := none

/-- Change the innermost list, if there is one. -/
def withList (change : ListBuild → ListBuild) : List ListBuild → List ListBuild
  | [] => []
  | build :: lists => change build :: lists

/-- Close an item, unless it is empty. -/
def ListBuild.endItem (build : ListBuild) : ListBuild :=
  let closed := { build with cur := [], curSublist := none }
  if trim isWhitespace (plain build.cur) = [] ∧ build.curSublist.isNone then closed
  else { closed with items := build.items ++ [.mk build.cur build.curSublist] }

def TableBuild.endCell (table : TableBuild) : TableBuild :=
  { table with curRow := table.curRow ++ [collapse table.cell], cell := [] }

def TableBuild.endHead (table : TableBuild) : TableBuild :=
  { table with headers := table.curRow, curRow := [], inHead := false }

def TableBuild.endRow (table : TableBuild) : TableBuild :=
  if table.inHead then table else { table with rows := table.rows ++ [table.curRow], curRow := [] }

/-- The language of a code block: the first word behind the fence. -/
def CodeBlockKind.lang : CodeBlockKind → Option (List Char)
  | .indented => none
  | .fenced info => (words isWhitespace info).head?

/-- The address of an image, on the web or in the file system. -/
def imageData (url : List Char) : ImageData :=
  if "http://".toList.isPrefixOf url ∨ "https://".toList.isPrefixOf url then .url url else .path url

namespace MdState

/-- Whether a heading, a code block or a quote is open. -/
def blocked (state : MdState) : Bool :=
  state.heading.isSome || state.code.isSome || state.inQuote

/-- Put a block out behind the others. -/
def pushBlock (state : MdState) (block : Block) : MdState :=
  { state with blocks := state.blocks ++ [block] }

/-- `flush_paragraph`. -/
def flushParagraph (state : MdState) : MdState :=
  if state.blocked then state
  else if trim isWhitespace (plain state.inline) = [] then { state with inline := [] }
  else { state.pushBlock (.paragraph state.inline) with inline := [] }

/-- `push_inline`. -/
def pushInline (state : MdState) (inline : Inline) : MdState :=
  match state.table with
  | some table => { state with table := some { table with cell := table.cell ++ plain [inline] } }
  | none =>
      match state.lists with
      | [] => { state with inline := state.inline ++ [inline] }
      | _ =>
          { state with
            lists := withList (fun build => { build with cur := build.cur ++ [inline] }) state.lists }

def styled (state : MdState) (text : List Char) : Inline :=
  let inline := Inline.text text
  let inline := if 0 < state.strike then .strike inline else inline
  let inline := if 0 < state.italic then .italic inline else inline
  if 0 < state.bold then .bold inline else inline

def text (state : MdState) (text : List Char) : MdState :=
  match state.code, state.link, state.image with
  | some (lang, buffer), _, _ => { state with code := some (lang, buffer ++ text) }
  | none, some (url, buffer), _ => { state with link := some (url, buffer ++ text) }
  | none, none, some (url, alt) => { state with image := some (url, alt ++ text) }
  | none, none, none => state.pushInline (state.styled text)

def start (state : MdState) : Tag → MdState
  | .heading level => { state.flushParagraph with inline := [], heading := some level }
  | .paragraph => state
  | .blockQuote => { state.flushParagraph with inQuote := true }
  | .codeBlock kind => { state.flushParagraph with code := some (kind.lang, []) }
  | .list start =>
      let state := state.flushParagraph
      { state with lists := { ordered := start.isSome } :: state.lists }
  | .item =>
      { state with
        lists := withList (fun build => { build with cur := [], curSublist := none }) state.lists }
  | .emphasis => { state with italic := state.italic + 1 }
  | .strong => { state with bold := state.bold + 1 }
  | .strikethrough => { state with strike := state.strike + 1 }
  | .link destUrl => { state with link := some (destUrl, []) }
  | .image destUrl => { state with image := some (destUrl, []) }
  | .table => { state with table := some {} }
  | .tableHead =>
      { state with table := state.table.map fun table => { table with inHead := true, curRow := [] } }
  | .tableRow => { state with table := state.table.map fun table => { table with curRow := [] } }
  | .tableCell => { state with table := state.table.map fun table => { table with cell := [] } }
  | .other => state

/-- Close a heading. -/
def endHeading (state : MdState) : MdState :=
  let text := collapse (plain state.inline)
  let level := state.heading.getD 1
  let state := { state with heading := none }
  if text = [] then { state with inline := [] }
  else { state.pushBlock (.heading level text) with inline := [] }

/-- Close a paragraph: a blank follows it in an item and in a quote. -/
def endParagraph (state : MdState) : MdState :=
  match state.lists with
  | [] =>
      if state.inQuote then
        if state.inline = [] then state
        else { state with inline := state.inline ++ [.text [' ']] }
      else state.flushParagraph
  | _ =>
      { state with
        lists := withList (fun build =>
          if build.cur = [] then build else { build with cur := build.cur ++ [.text [' ']] })
          state.lists }

/-- Close a quote. -/
def endBlockQuote (state : MdState) : MdState :=
  let inline := state.inline
  let state := { state with inQuote := false, inline := [] }
  if trim isWhitespace (plain inline) = [] then state else state.pushBlock (.quote inline)

/-- Close a code block, without the line feeds at its end. -/
def endCodeBlock (state : MdState) : MdState :=
  match state.code with
  | some (lang, code) =>
      { state.pushBlock (.codeBlock lang (code.rdropWhile (· = '\n'))) with code := none }
  | none => state

/-- Close a list: as the sublist of the item around it, or as a block. -/
def endList (state : MdState) : MdState :=
  match state.lists with
  | [] => state
  | [build] =>
      let state := { state with lists := [] }
      if build.items = [] then state else state.pushBlock (.list build.ordered build.items)
  | build :: parent :: lists =>
      { state with
        lists := { parent with curSublist := some (.mk build.ordered build.items) } :: lists }

/-- Close a link, unless its text is blank. -/
def endLink (state : MdState) : MdState :=
  match state.link with
  | some (url, text) =>
      let state := { state with link := none }
      let text := trim isWhitespace text
      if text = [] then state else state.pushInline (.link text url)
  | none => state

/-- Close an image: in a table its alternative text, elsewhere a block. -/
def endImage (state : MdState) : MdState :=
  match state.image with
  | some (url, alt) =>
      let state := { state with image := none }
      match state.table with
      | some table => { state with table := some { table with cell := table.cell ++ alt } }
      | none => state.flushParagraph.pushBlock (.image alt (imageData url))
  | none => state

/-- Close a table. -/
def endTable (state : MdState) : MdState :=
  match state.table with
  | some table =>
      { state.pushBlock (.table { headers := table.headers, rows := table.rows }) with table := none }
  | none => state

def finish (state : MdState) : TagEnd → MdState
  | .heading => state.endHeading
  | .paragraph => state.endParagraph
  | .blockQuote => state.endBlockQuote
  | .codeBlock => state.endCodeBlock
  | .list => state.endList
  | .item => { state with lists := withList ListBuild.endItem state.lists }
  | .emphasis => { state with italic := state.italic - 1 }
  | .strong => { state with bold := state.bold - 1 }
  | .strikethrough => { state with strike := state.strike - 1 }
  | .link => state.endLink
  | .image => state.endImage
  | .tableCell => { state with table := state.table.map TableBuild.endCell }
  | .tableHead => { state with table := state.table.map TableBuild.endHead }
  | .tableRow => { state with table := state.table.map TableBuild.endRow }
  | .table => state.endTable
  | .other => state

/-- The text of the box of a task. -/
def mark (checked : Bool) : List Char := if checked then "[x] ".toList else "[ ] ".toList

def handle (state : MdState) : Event → MdState
  | .start tag => state.start tag
  | .finish tag => state.finish tag
  | .text text => state.text text
  | .code text =>
      if state.link.isSome ∨ state.image.isSome then state.text text
      else state.pushInline (.code text)
  | .softBreak => state.text [' ']
  | .hardBreak => state.pushInline .lineBreak
  | .rule => state.flushParagraph.pushBlock .horizontalRule
  | .taskListMarker checked => state.pushInline (.text (mark checked))
  | .other => state

end MdState

/-- The blocks of a Markdown file: its events folded, and the last paragraph put out. -/
def parse (events : List Event) : List Block :=
  (events.foldl MdState.handle {}).flushParagraph.blocks

end AiCoreStack.Markdown.Md
