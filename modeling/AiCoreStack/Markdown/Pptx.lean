import AiCoreStack.Markdown.Xml

/-!
# PPTX slides

Model of `parse_slide` in `parsers/pptx.rs` and what it calls.  The variables of the loop
are the fields of `Pptx.State`; the table stack has the innermost table first.
-/

namespace AiCoreStack.Markdown.Pptx

open AiCoreStack.Foundation

/-- The elements the parser knows. -/
inductive Element where
  | sp
  | pic
  | ph
  | tbl
  | tr
  | tc
  | p
  | r
  | rPr
  | t
  | br
  | blip
  | other
  deriving DecidableEq, Repr

def Element.ofName : String → Element
  | "p:sp" => .sp
  | "p:pic" => .pic
  | "p:ph" => .ph
  | "a:tbl" => .tbl
  | "a:tr" => .tr
  | "a:tc" => .tc
  | "a:p" => .p
  | "a:r" => .r
  | "a:rPr" => .rPr
  | "a:t" => .t
  | "a:br" => .br
  | "a:blip" => .blip
  | _ => .other

structure State where
  blocks : List Block := []
  isTitleShape : Bool := false
  runs : List Inline := []
  bold : Bool := false
  italic : Bool := false
  inText : Bool := false
  inPic : Bool := false
  tables : List TableCtx := []

/-- The images of a slide by their relation. -/
abbrev ImageMap := List Char → Option (List Char × ImageData)

/-- Whether a boolean attribute is set. -/
def isOn (tag : Tag) (key : String) : Bool :=
  match tag.attrVal key with
  | some value => value = "1".toList ∨ value = "true".toList
  | none => false

/-- The text that `plain_text` takes from one run: through one level of formatting. -/
def shallow : Inline → List Char
  | .text text => text
  | .code text => text
  | .bold (.text text) => text
  | .italic (.text text) => text
  | .strike (.text text) => text
  | .link text _ => text
  | .lineBreak => [' ']
  | _ => []

/-- `plain_text`. -/
def plainText (runs : List Inline) : List Char := runs.flatMap shallow

namespace State

/-- `push_image`: a picture outside tables. -/
def pushImage (images : ImageMap) (state : State) (tag : Tag) : State :=
  if state.inPic = false ∨ state.tables ≠ [] then state
  else
    match (tag.attrVal "r:embed").bind images with
    | some (alt, data) => { state with blocks := state.blocks ++ [.image alt data] }
    | none => state

/-- Read the formatting of a run. -/
def setStyle (state : State) (tag : Tag) : State :=
  { state with bold := isOn tag "b", italic := isOn tag "i" }

/-- The inline element of a run. -/
def styled (state : State) (text : List Char) : Inline :=
  let inline := Inline.text text
  let inline := if state.italic then .italic inline else inline
  if state.bold then .bold inline else inline

/-- Collect a piece of text, in a cell without its formatting. -/
def pushText (state : State) (text : List Char) : State :=
  match state.tables with
  | [] => { state with runs := state.runs ++ [state.styled text] }
  | _ => { state with tables := withTable (·.push text) state.tables }

def pushBreak (state : State) : State :=
  match state.tables with
  | [] => { state with runs := state.runs ++ [.lineBreak] }
  | _ => { state with tables := withTable (·.push [' ']) state.tables }

/-- Close a paragraph: as a block, or inside a cell. -/
def endParagraph (state : State) : State :=
  match state.tables with
  | [] =>
      let text := plainText state.runs
      if trim isWhitespace text = [] then { state with runs := [] }
      else if state.isTitleShape then
        { state with blocks := state.blocks ++ [.heading 2 text], runs := [] }
      else { state with blocks := state.blocks ++ [.paragraph state.runs], runs := [] }
  | _ => { state with tables := withTable TableCtx.endParagraph state.tables }

/-- Close the innermost table. -/
def endTable (state : State) : State :=
  match state.tables with
  | [] => state
  | ctx :: tables =>
      { state with blocks := state.blocks ++ [.table ctx.intoTable], tables := tables }

def startElement (images : ImageMap) (state : State) (tag : Tag) : State :=
  match Element.ofName tag.name with
  | .sp => { state with isTitleShape := false }
  | .pic => { state with inPic := true }
  | .tbl => { state with tables := {} :: state.tables }
  | .tr => { state with tables := withTable (fun ctx => { ctx with curRow := [] }) state.tables }
  | .tc => { state with tables := withTable (fun ctx => { ctx with cellBuf := [] }) state.tables }
  | .p => { state with runs := [] }
  | .rPr => state.setStyle tag
  | .t => { state with inText := true }
  | .blip => state.pushImage images tag
  | _ => state

def emptyElement (images : ImageMap) (state : State) (tag : Tag) : State :=
  match Element.ofName tag.name with
  | .ph =>
      if tag.attrVal "type" = some "title".toList ∨ tag.attrVal "type" = some "ctrTitle".toList then
        { state with isTitleShape := true }
      else state
  | .rPr => state.setStyle tag
  | .br => state.pushBreak
  | .blip => state.pushImage images tag
  | _ => state

def endElement (state : State) (name : String) : State :=
  match Element.ofName name with
  | .t => { state with inText := false }
  | .r => { state with bold := false, italic := false }
  | .pic => { state with inPic := false }
  | .tc => { state with tables := withTable TableCtx.endCell state.tables }
  | .tr => { state with tables := withTable TableCtx.endRow state.tables }
  | .tbl => state.endTable
  | .p => state.endParagraph
  | _ => state

/-- One iteration of the loop. -/
def handle (images : ImageMap) (state : State) : Event → State
  | .start tag => state.startElement images tag
  | .empty tag => state.emptyElement images tag
  | .text text => if state.inText then state.pushText text else state
  | .finish name => state.endElement name
  | .cdata _ => state
  | .other => state

end State

/-- `parse_slide`: the blocks of a slide behind those of the slides before it. -/
def parseSlide (images : ImageMap) (blocks : List Block) (stream : List Delivered) :
    Except ParseError (List Block) :=
  (readEvents State.inText (State.handle images)
    (fun message => .markup "pptx" ("slide: ".toList ++ message))
    (fun message => .markup "pptx" ("a:t: ".toList ++ message)) { blocks } stream).map State.blocks

end AiCoreStack.Markdown.Pptx
