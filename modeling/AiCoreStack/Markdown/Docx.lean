import AiCoreStack.Markdown.Xml

/-!
# DOCX bodies

Model of `parse_body` in `parsers/docx.rs` and what it calls.  The variables of the loop
are the fields of `Docx.State`; the table stack has the innermost table first.  The maps
from styles to heading levels and from relations to images are functions.
-/

namespace AiCoreStack.Markdown.Docx

open AiCoreStack.Foundation

/-- The elements the parser knows. -/
inductive Element where
  | p
  | r
  | rPr
  | t
  | pStyle
  | numPr
  | tbl
  | tr
  | tc
  | drawing
  | blip
  | b
  | i
  | strike
  | br
  | tab
  | other
  deriving DecidableEq, Repr

def Element.ofName : String → Element
  | "w:p" => .p
  | "w:r" => .r
  | "w:rPr" => .rPr
  | "w:t" => .t
  | "w:pStyle" => .pStyle
  | "w:numPr" => .numPr
  | "w:tbl" => .tbl
  | "w:tr" => .tr
  | "w:tc" => .tc
  | "w:drawing" => .drawing
  | "w:pict" => .drawing
  | "a:blip" => .blip
  | "w:b" => .b
  | "w:i" => .i
  | "w:strike" => .strike
  | "w:br" => .br
  | "w:tab" => .tab
  | _ => .other

/-! ## Headings -/

/-- `parse::<u8>`. -/
def parseU8 (text : List Char) : Option UInt8 :=
  if text ≠ [] ∧ text.all Char.isDigit ∧ (text.foldl (fun n c => 10 * n + (c.toNat - 48)) 0) < 256
  then some (UInt8.ofNat (text.foldl (fun n c => 10 * n + (c.toNat - 48)) 0))
  else none

/-- The level one name stands for. -/
def levelOfName (name : List Char) : Option UInt8 :=
  if name = "title".toList then some 1
  else if name = "subtitle".toList then some 2
  else if "heading".toList <+: name then
    let rest := name.drop 7
    let digits := (rest.dropWhile fun c => !c.isDigit).rdropWhile fun c => !c.isDigit
    some (min (max ((parseU8 digits).getD 1) 1) 6)
  else none

/-- `heading_level`: the level of a style, by its name and then by its identifier. -/
def headingLevel (styleId styleName : List Char) : Option UInt8 :=
  (levelOfName (styleName.map Char.toLower)).or (levelOfName (styleId.map Char.toLower))

/-! ## The state -/

structure State where
  blocks : List Block := []
  pendingList : List ListItem := []
  inDrawing : Bool := false
  runs : List Inline := []
  paraStyle : Option (List Char) := none
  isListItem : Bool := false
  bold : Bool := false
  italic : Bool := false
  strike : Bool := false
  inRpr : Bool := false
  inText : Bool := false
  tables : List TableCtx := []

/-- The styles and the images of a package. -/
structure Package where
  styles : List Char → Option UInt8
  images : List Char → Option (List Char × ImageData)

/-- Whether a toggle is switched off. -/
def isOff (tag : Tag) : Bool :=
  match tag.attrVal "w:val" with
  | some value => value = "false".toList ∨ value = "0".toList ∨ value = "none".toList
  | none => false

namespace State

/-- `flush_pending` and `flush_list!`. -/
def flushPending (state : State) : State :=
  if state.pendingList = [] then state
  else { state with blocks := state.blocks ++ [.list false state.pendingList], pendingList := [] }

/-- The inline element of a run. -/
def styled (state : State) (text : List Char) : Inline :=
  let inline := Inline.text text
  let inline := if state.strike then .strike inline else inline
  let inline := if state.italic then .italic inline else inline
  if state.bold then .bold inline else inline

/-- `push_text` for a line break. -/
def pushBreak (state : State) : State :=
  match state.tables with
  | [] => { state with runs := state.runs ++ [.lineBreak] }
  | _ => { state with tables := withTable (·.push [' ']) state.tables }

/-- `push_text` for a piece of text, in a cell without its formatting. -/
def pushText (state : State) (text : List Char) (inline : Inline) : State :=
  match state.tables with
  | [] => { state with runs := state.runs ++ [inline] }
  | _ => { state with tables := withTable (·.push text) state.tables }

/-- `emit_paragraph`, with the runs of the paragraph. -/
def emitParagraph (package : Package) (state : State) (runs : List Inline) : State :=
  let level := state.paraStyle.bind fun style =>
    (package.styles style).or (headingLevel style style)
  match level with
  | some level =>
      let state := state.flushPending
      if trim isWhitespace (plain runs) = [] then state
      else { state with blocks := state.blocks ++ [.heading level (plain runs)] }
  | none =>
      if state.isListItem then
        if runs = [] then state
        else { state with pendingList := state.pendingList ++ [.mk runs none] }
      else
        let state := state.flushPending
        if trim isWhitespace (plain runs) = [] then state
        else { state with blocks := state.blocks ++ [.paragraph runs] }

/-- `emit_image`: a picture outside tables. -/
def emitImage (package : Package) (state : State) (tag : Tag) : State :=
  if state.inDrawing = false ∨ state.tables ≠ [] then state
  else
    match (tag.attrVal "r:embed").bind package.images with
    | some (alt, data) =>
        let state := state.flushPending
        { state with blocks := state.blocks ++ [.image alt data] }
    | none => state

/-- Close the innermost table: into the cell around it, or as a block. -/
def endTable (state : State) : State :=
  match state.tables with
  | [] => state
  | [ctx] =>
      let state := state.flushPending
      { state with blocks := state.blocks ++ [.table ctx.intoTable], tables := [] }
  | ctx :: parent :: tables =>
      { state with tables := parent.absorb ctx.intoTable :: tables }

/-- Close a paragraph: as a block, or inside a cell. -/
def endParagraph (package : Package) (state : State) : State :=
  match state.tables with
  | [] => { state.emitParagraph package state.runs with runs := [] }
  | _ => { state with tables := withTable TableCtx.endParagraph state.tables }

/-- The properties that a tag sets, in a start tag or an empty-element tag. -/
def setProperty (state : State) (tag : Tag) : State :=
  match Element.ofName tag.name with
  | .pStyle =>
      match tag.attrVal "w:val" with
      | some style => { state with paraStyle := some style }
      | none => state
  | .numPr => { state with isListItem := true }
  | .b => if state.inRpr then { state with bold := !isOff tag } else state
  | .i => if state.inRpr then { state with italic := !isOff tag } else state
  | .strike => if state.inRpr then { state with strike := !isOff tag } else state
  | _ => state

def startElement (package : Package) (state : State) (tag : Tag) : State :=
  match Element.ofName tag.name with
  | .p => { state with runs := [], paraStyle := none, isListItem := false }
  | .r => { state with bold := false, italic := false, strike := false }
  | .rPr => { state with inRpr := true }
  | .t => { state with inText := true }
  | .tbl => { state with tables := {} :: state.tables }
  | .drawing => { state with inDrawing := true }
  | .blip => state.emitImage package tag
  | .tc => { state with tables := withTable (fun ctx => { ctx with cellBuf := [] }) state.tables }
  | _ => state.setProperty tag

def emptyElement (package : Package) (state : State) (tag : Tag) : State :=
  match Element.ofName tag.name with
  | .br => state.pushBreak
  | .tab => state.pushText ['\t'] (.text ['\t'])
  | .blip => state.emitImage package tag
  | _ => state.setProperty tag

def endElement (package : Package) (state : State) (name : String) : State :=
  match Element.ofName name with
  | .rPr => { state with inRpr := false }
  | .drawing => { state with inDrawing := false }
  | .t => { state with inText := false }
  | .tc => { state with tables := withTable TableCtx.endCell state.tables }
  | .tr => { state with tables := withTable TableCtx.endRow state.tables }
  | .tbl => state.endTable
  | .p => state.endParagraph package
  | _ => state

/-- One iteration of the loop. -/
def handle (package : Package) (state : State) : Event → State
  | .start tag => state.startElement package tag
  | .empty tag => state.emptyElement package tag
  | .text text => if state.inText then state.pushText text (state.styled text) else state
  | .finish name => state.endElement package name
  | .cdata _ => state
  | .other => state

end State

/-- `parse_body`. -/
def parseBody (package : Package) (stream : List Delivered) : Except ParseError (List Block) :=
  (readEvents State.inText (State.handle package)
    (fun message => .markup "docx" ("document.xml: ".toList ++ message))
    (fun message => .markup "docx" ("w:t: ".toList ++ message)) {} stream).map
      fun state => state.flushPending.blocks

end AiCoreStack.Markdown.Docx
