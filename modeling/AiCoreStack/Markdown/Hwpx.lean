import AiCoreStack.Markdown.Xml

/-!
# HWPX sections

Model of `parse_section` in `parsers/hwpx.rs` and what it calls.  Elements are compared by
their local names.  Start tags and empty-element tags share one handler; the table stack
has the innermost table first.
-/

namespace AiCoreStack.Markdown.Hwpx

open AiCoreStack.Foundation

/-- `local_name`: the name behind the first colon. -/
def localName (name : String) : List Char :=
  match name.toList.dropWhile (· ≠ ':') with
  | [] => name.toList
  | _ :: rest => rest

/-- The elements the parser knows. -/
inductive Element where
  | p
  | t
  | tbl
  | tr
  | tc
  | other
  deriving DecidableEq, Repr

def Element.ofLocal : List Char → Element
  | ['p'] => .p
  | ['t'] => .t
  | ['t', 'b', 'l'] => .tbl
  | ['t', 'r'] => .tr
  | ['t', 'c'] => .tc
  | _ => .other

def Element.ofName (name : String) : Element := .ofLocal (localName name)

/-- `attr_val_local`: the first value of an attribute with a local name that can be
unescaped. -/
def attrValLocal (tag : Tag) (key : String) : Option (List Char) :=
  tag.attributes.findSome? fun (name, value) => if localName name = key.toList then value else none

/-- The heading levels by the identifier of their style. -/
abbrev Styles := List Char → Option UInt8

/-- The images of a package by their identifier. -/
abbrev ImageMap := List Char → Option (List Char × ImageData)

structure State where
  blocks : List Block := []
  paraText : List Char := []
  paraStyle : Option (List Char) := none
  inText : Bool := false
  tables : List TableCtx := []

namespace State

/-- Put out a picture that an element outside tables refers to. -/
def pushImage (images : ImageMap) (state : State) (tag : Tag) : State :=
  match state.tables with
  | [] =>
      match (attrValLocal tag "binaryItemIDRef").bind images with
      | some (alt, data) => { state with blocks := state.blocks ++ [.image alt data] }
      | none => state
  | _ => state

/-- `emit_paragraph`. -/
def emitParagraph (styles : Styles) (state : State) : State :=
  let text := collapse state.paraText
  if text = [] then state
  else
    match state.paraStyle.bind styles with
    | some level => { state with blocks := state.blocks ++ [.heading level text] }
    | none => { state with blocks := state.blocks ++ [.paragraph [.text text]] }

/-- Close a paragraph: as a block, or inside a cell.  The text of the paragraph stays in
its buffer. -/
def endParagraph (styles : Styles) (state : State) : State :=
  match state.tables with
  | [] => state.emitParagraph styles
  | _ => { state with tables := withTable TableCtx.endParagraph state.tables }

/-- Close the innermost table: into the cell around it, or as a block. -/
def endTable (state : State) : State :=
  match state.tables with
  | [] => state
  | [ctx] => { state with blocks := state.blocks ++ [.table ctx.intoTable], tables := [] }
  | ctx :: parent :: tables =>
      { state with tables := parent.absorb ctx.intoTable :: tables }

/-- Open an element, also one that is empty. -/
def openElement (images : ImageMap) (state : State) (tag : Tag) : State :=
  let state := state.pushImage images tag
  match Element.ofName tag.name with
  | .p => { state with paraText := [], paraStyle := tag.attrVal "styleIDRef" }
  | .t => { state with inText := true }
  | .tbl => { state with tables := {} :: state.tables }
  | .tc => { state with tables := withTable (fun ctx => { ctx with cellBuf := [] }) state.tables }
  | _ => state

/-- Collect a piece of text. -/
def pushText (state : State) (text : List Char) : State :=
  match state.tables with
  | [] => { state with paraText := state.paraText ++ text }
  | _ => { state with tables := withTable (·.push text) state.tables }

def endElement (styles : Styles) (state : State) (name : String) : State :=
  match Element.ofName name with
  | .t => { state with inText := false }
  | .p => state.endParagraph styles
  | .tc => { state with tables := withTable TableCtx.endCell state.tables }
  | .tr => { state with tables := withTable TableCtx.endRow state.tables }
  | .tbl => state.endTable
  | .other => state

/-- One iteration of the loop. -/
def handle (styles : Styles) (images : ImageMap) (state : State) : Event → State
  | .start tag => state.openElement images tag
  | .empty tag => state.openElement images tag
  | .text text => if state.inText then state.pushText text else state
  | .finish name => state.endElement styles name
  | .cdata _ => state
  | .other => state

end State

/-- `parse_section`: the blocks of a section behind those of the sections before it. -/
def parseSection (styles : Styles) (images : ImageMap) (blocks : List Block)
    (stream : List Delivered) : Except ParseError (List Block) :=
  (readEvents State.inText (State.handle styles images)
    (fun message => .markup "hwpx" ("section: ".toList ++ message))
    (fun message => .markup "hwpx" ("hp:t: ".toList ++ message)) { blocks } stream).map State.blocks

end AiCoreStack.Markdown.Hwpx
