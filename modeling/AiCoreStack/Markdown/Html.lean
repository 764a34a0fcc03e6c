import AiCoreStack.Markdown.Content

/-!
# Walking an HTML tree

Model of `parsers/html.rs` below the choice of the root.  An element is given by its name,
its attributes and its children; the functions of the source that take an element and look
at nothing but its children take the list of the children here.
-/

namespace AiCoreStack.Markdown.Html

open AiCoreStack.Foundation

/-- The names of elements that the parser knows. -/
inductive Name where
  | h1 | h2 | h3 | h4 | h5 | h6
  | p | ul | ol | li | table | tr | td | th | pre | blockquote | hr | img | br
  | b | strong | i | em | del | s | strike | code | a
  | span | u | mark | sub | sup | small | font | abbr | cite | q | time
  | script | style | noscript | template | nav | header | footer | aside | head
  | other
  deriving DecidableEq, Repr

/-- The nodes of a tree.  Comments and the like are `other`. -/
inductive Node where
  | text (text : List Char)
  | element (name : Name) (attributes : List (String × List Char)) (children : List Node)
  | other

/-- The value of an attribute. -/
def attr (attributes : List (String × List Char)) (key : String) : Option (List Char) :=
  attributes.lookup key

def isInline : Name → Bool
  | .b | .strong | .i | .em | .del | .s | .strike | .code | .a | .br => true
  | .span | .u | .mark | .sub | .sup | .small | .font | .abbr | .cite | .q | .time => true
  | _ => false

def isSkipped : Name → Bool
  | .script | .style | .noscript | .template | .nav | .header | .footer | .aside | .head => true
  | _ => false

/-! ## Plain text -/

mutual

def Node.plain : Node → List Char
  | .text text => text
  | .element _ _ children => elementPlain children
  | .other => []

/-- `element_plain`: all the text below an element. -/
def elementPlain : List Node → List Char
  | [] => []
  | node :: rest => node.plain ++ elementPlain rest

end

/-- An element without its name. -/
structure Found where
  attributes : List (String × List Char)
  children : List Node

mutual

def Node.named (name : Name) : Node → List Found
  | .element found attributes children =>
      (if found = name then [⟨attributes, children⟩] else []) ++ descendantsNamed name children
  | _ => []

/-- `descendants_named`: the elements below an element that have a name, in the order of
the document. -/
def descendantsNamed (name : Name) : List Node → List Found
  | [] => []
  | node :: rest => node.named name ++ descendantsNamed name rest

end

/-! ## Inline elements -/

/-- `push_inline_text`: blanks fold into one, also at the ends. -/
def pushInlineText (out : List Inline) (text : List Char) : List Inline :=
  if text = [] then out
  else
    let leading := text.head?.any isWhitespace
    let trailing := text.getLast?.any isWhitespace
    let core := collapse text
    if core = [] then if out = [] then out else out ++ [.text [' ']]
    else
      out ++ [.text ((if leading ∧ out ≠ [] then [' '] else []) ++ core ++
        if trailing then [' '] else [])]

mutual

/-- What `collect_inlines` takes from a child. -/
def collectInline : Node → List Inline → List Inline
  | .text text, out => pushInlineText out text
  | .element name attributes children, out =>
      if isSkipped name then out
      else
        match name with
        | .b | .strong => out ++ (collectInlines children []).map .bold
        | .i | .em => out ++ (collectInlines children []).map .italic
        | .del | .s | .strike => out ++ (collectInlines children []).map .strike
        | .code =>
            let code := elementPlain children
            if code = [] then out else out ++ [.code code]
        | .a =>
            let text := collapse (elementPlain children)
            let url := (attr attributes "href").getD []
            if text = [] then out else out ++ [.link text url]
        | .br => out ++ [.lineBreak]
        | _ => collectInlines children out
  | .other, out => out

/-- `collect_inlines`. -/
def collectInlines : List Node → List Inline → List Inline
  | [], out => out
  | node :: rest, out => collectInlines rest (collectInline node out)

end

/-! ## Lists, tables, code and images -/

mutual

/-- What `parse_list_items` takes from a child: an item, unless it is empty. -/
def parseListItem : Node → List ListItem
  | .element name _ children =>
      if name = .li then
        let (content, sublist) := itemParts children ([], none)
        if trim isWhitespace (plain content) = [] ∧ sublist.isNone then []
        else [.mk content sublist]
      else []
  | _ => []

/-- `parse_list_items`. -/
def parseListItems : List Node → List ListItem
  | [] => []
  | node :: rest => parseListItem node ++ parseListItems rest

/-- What an item takes from a child: into its content or as its sublist. -/
def itemPart : Node → List Inline × Option NestedList → List Inline × Option NestedList
  | .text text, (content, sublist) => (pushInlineText content text, sublist)
  | .element name _ children, (content, sublist) =>
      if name = .ul ∨ name = .ol then
        (content, some (.mk (name = .ol) (parseListItems children)))
      else (collectInlines children content, sublist)
  | .other, parts => parts

/-- The loop over the children of an item. -/
def itemParts : List Node → List Inline × Option NestedList → List Inline × Option NestedList
  | [], parts => parts
  | node :: rest, parts => itemParts rest (itemPart node parts)

end

def isCell (name : Name) : Bool := name = .td ∨ name = .th

/-- The cells of a row. -/
def cellsOf : List Node → List (List Char)
  | [] => []
  | .element name _ children :: rest =>
      if isCell name then collapse (elementPlain children) :: cellsOf rest else cellsOf rest
  | _ :: rest => cellsOf rest

/-- The rows below an element, at any depth. -/
def rowsOf (nodes : List Node) : List (List (List Char)) :=
  ((descendantsNamed .tr nodes).map fun row => cellsOf row.children).filter (· ≠ [])

/-- `parse_table`: the first row is the header. -/
def parseTable (children : List Node) : Option Table :=
  match rowsOf children with
  | [] => none
  | headers :: rows => some { headers, rows }

/-- The language in the class of a code element. -/
def languageOf (classes : List Char) : Option (List Char) :=
  (words isWhitespace classes).findSome? fun word =>
    if "language-".toList.isPrefixOf word then some (word.drop "language-".length)
    else if "lang-".toList.isPrefixOf word then some (word.drop "lang-".length)
    else none

/-- `parse_pre`: the language of the first code element, and the text. -/
def parsePre (children : List Node) : Option (List Char) × List Char :=
  let lang := do
    let code ← (descendantsNamed .code children).head?
    languageOf (← attr code.attributes "class")
  (lang, (elementPlain children).rdropWhile isWhitespace)

/-- Cut a text at the first occurrence of a pattern. -/
def splitOnce (pattern : List Char) : List Char → Option (List Char × List Char)
  | [] => if pattern = [] then some ([], []) else none
  | c :: rest =>
      if pattern.isPrefixOf (c :: rest) then some ([], (c :: rest).drop pattern.length)
      else (splitOnce pattern rest).map fun (before, after) => (c :: before, after)

/-- Where the data of an image is, by its address. -/
def imageData (src : List Char) : ImageData :=
  if "http://".toList.isPrefixOf src ∨ "https://".toList.isPrefixOf src then .url src
  else if "data:".toList.isPrefixOf src then
    match splitOnce ";base64,".toList (src.drop "data:".length) with
    | some (meta', data) => .base64 meta' data
    | none => .url src
  else .path src

/-- `parse_img`. -/
def parseImg (attributes : List (String × List Char)) : Option Block :=
  (attr attributes "src").map fun src => .image ((attr attributes "alt").getD []) (imageData src)

/-! ## Blocks -/

structure BlockCtx where
  blocks : List Block := []
  inlineBuf : List Inline := []

/-- `flush_paragraph`. -/
def BlockCtx.flushParagraph (ctx : BlockCtx) : BlockCtx :=
  if ctx.inlineBuf = [] then ctx
  else if trim isWhitespace (plain ctx.inlineBuf) = [] then { ctx with inlineBuf := [] }
  else { blocks := ctx.blocks ++ [.paragraph ctx.inlineBuf], inlineBuf := [] }

/-- Put a block out behind the others. -/
def BlockCtx.push (ctx : BlockCtx) (block : Block) : BlockCtx :=
  { ctx with blocks := ctx.blocks ++ [block] }

def BlockCtx.pushHeading (ctx : BlockCtx) (level : UInt8) (children : List Node) : BlockCtx :=
  let text := collapse (elementPlain children)
  if text = [] then ctx else ctx.push (.heading level text)

/-- A paragraph or a quote. -/
def BlockCtx.pushInlines (ctx : BlockCtx) (block : List Inline → Block) (children : List Node) :
    BlockCtx :=
  let inlines := collectInlines children []
  if trim isWhitespace (plain inlines) = [] then ctx else ctx.push (block inlines)

def BlockCtx.pushList (ctx : BlockCtx) (ordered : Bool) (children : List Node) : BlockCtx :=
  let items := parseListItems children
  if items = [] then ctx else ctx.push (.list ordered items)

/-- `handle_block`; `walk` walks over the children of a container. -/
def handleBlock (walk : BlockCtx → BlockCtx) (name : Name)
    (attributes : List (String × List Char)) (children : List Node) (ctx : BlockCtx) : BlockCtx :=
  match name with
  | .h1 => ctx.pushHeading 1 children
  | .h2 => ctx.pushHeading 2 children
  | .h3 => ctx.pushHeading 3 children
  | .h4 => ctx.pushHeading 4 children
  | .h5 => ctx.pushHeading 5 children
  | .h6 => ctx.pushHeading 6 children
  | .p => ctx.pushInlines .paragraph children
  | .ul => ctx.pushList false children
  | .ol => ctx.pushList true children
  | .table => ((parseTable children).map fun grid => ctx.push (.table grid)).getD ctx
  | .pre => ctx.push (.codeBlock (parsePre children).1 (parsePre children).2)
  | .blockquote => ctx.pushInlines .quote children
  | .hr => ctx.push .horizontalRule
  | .img => ((parseImg attributes).map ctx.push).getD ctx
  | .br => ctx
  | _ => walk ctx

mutual

/-- What `walk_blocks` does with a child. -/
def walkBlock : Node → BlockCtx → BlockCtx
  | .text text, ctx => { ctx with inlineBuf := pushInlineText ctx.inlineBuf text }
  | .element name attributes children, ctx =>
      if isSkipped name then ctx
      else if isInline name then
        { ctx with inlineBuf := collectInlines children ctx.inlineBuf }
      else handleBlock (walkBlocks children) name attributes children ctx.flushParagraph
  | .other, ctx => ctx

/-- `walk_blocks`. -/
def walkBlocks : List Node → BlockCtx → BlockCtx
  | [], ctx => ctx
  | node :: rest, ctx => walkBlocks rest (walkBlock node ctx)

end

/-- The blocks of the tree below the root. -/
def parse (children : List Node) : List Block := (walkBlocks children {}).flushParagraph.blocks


end AiCoreStack.Markdown.Html
