import AiCoreStack.Markdown.Ir

/-!
# Rendering

Model of the body of `renderer.rs`: blocks to Markdown text.  `format!` is
concatenation.
-/

namespace AiCoreStack.Markdown

open AiCoreStack.Foundation

/-! ## Text -/

/-- Escape the column separator. -/
def escapeInline (text : List Char) : List Char :=
  text.flatMap fun c => if c = '|' then ['\\', '|'] else [c]

/-- The text of a table cell. -/
def escapeCell (text : List Char) : List Char := escapeInline (collapse text)

/-- Fill a row up to the number of columns. -/
def padRow (row : List (List Char)) (colCount : Nat) : List (List Char) :=
  row ++ List.replicate (colCount - row.length) []

/-- The fence of a code block: longer when the code holds a fence itself. -/
def pickFence (code : List Char) : List Char :=
  if "```".toList <:+: code then "````".toList else "```".toList

/-! ## Inline elements -/

def renderInline : Inline → List Char
  | .text text => escapeInline text
  | .bold inner => "**".toList ++ renderInline inner ++ "**".toList
  | .italic inner => '*' :: renderInline inner ++ ['*']
  | .strike inner => "~~".toList ++ renderInline inner ++ "~~".toList
  | .code text => "`".toList ++ text ++ "`".toList
  | .link text url => '[' :: escapeInline text ++ "](".toList ++ url ++ [')']
  | .lineBreak => "  \n".toList

def renderInlines (inlines : List Inline) : List Char := inlines.flatMap renderInline

def imageRef : ImageData → List Char
  | .base64 mime data => "data:".toList ++ mime ++ ";base64,".toList ++ data
  | .path path => path
  | .url url => url

/-! ## Lists and tables -/

/-- The marker in front of an item; `index` counts from zero. -/
def marker (ordered : Bool) (index : Nat) : List Char :=
  if ordered then Nat.toDigits 10 (index + 1) ++ ['.'] else ['-']

/-- The indentation of a nesting depth. -/
def indent (depth : Nat) : List Char := List.replicate (2 * depth) ' '

mutual

def renderItem (ordered : Bool) (index depth : Nat) : ListItem → List Char
  | .mk content sublist =>
      indent depth ++ marker ordered index ++ ' ' :: renderInlines content ++
        '\n' :: renderSublist (depth + 1) sublist

def renderSublist (depth : Nat) : Option NestedList → List Char
  | none => []
  | some (.mk ordered items) => renderListFrom ordered 0 depth items

def renderListFrom (ordered : Bool) (index depth : Nat) : List ListItem → List Char
  | [] => []
  | item :: rest =>
      renderItem ordered index depth item ++ renderListFrom ordered (index + 1) depth rest

end

def renderList (ordered : Bool) (items : List ListItem) (depth : Nat) : List Char :=
  renderListFrom ordered 0 depth items

/-- The widest row, the header included. -/
def columnCount (table : Table) : Nat :=
  max table.headers.length ((table.rows.map List.length).foldl max 0)

/-- One line of a table. -/
def renderRow (cells : List (List Char)) : List Char :=
  "| ".toList ++ " | ".toList.intercalate cells ++ " |\n".toList

def renderTable (table : Table) : List Char :=
  let caption := match table.caption with
    | some caption => "**".toList ++ escapeInline caption ++ "**\n\n".toList
    | none => []
  let colCount := columnCount table
  if colCount = 0 then caption
  else
    caption ++ renderRow ((padRow table.headers colCount).map escapeCell) ++
      renderRow (List.replicate colCount "---".toList) ++
      table.rows.flatMap fun row => renderRow ((padRow row colCount).map escapeCell)

/-! ## Blocks -/

def renderBlock : Block → List Char
  | .heading level text =>
      List.replicate (min (max level 1) 6).toNat '#' ++ ' ' :: collapse text ++ ['\n']
  | .paragraph content =>
      let text := renderInlines content
      if trim isWhitespace text = [] then [] else text ++ ['\n']
  | .table table => renderTable table
  | .list ordered items => renderList ordered items 0
  | .codeBlock lang code =>
      let fence := pickFence code
      fence ++ lang.getD [] ++ '\n' :: code.rdropWhile (· == '\n') ++ '\n' :: fence ++ ['\n']
  | .quote content =>
      ['\n'].intercalate ((lines (renderInlines content)).map ("> ".toList ++ ·)) ++ ['\n']
  | .horizontalRule => "---\n".toList
  | .image alt data => "![".toList ++ escapeInline alt ++ "](".toList ++ imageRef data ++ ")\n".toList
  | .math latex true => "$$\n".toList ++ trim isWhitespace latex ++ "\n$$\n".toList
  | .math latex false => '$' :: trim isWhitespace latex ++ "$\n".toList
  | .pageBreak => "\n---\n".toList
  | .footnote id content =>
      "[^".toList ++ id ++ "]: ".toList ++ renderInlines content ++ ['\n']

/-- `MarkdownRenderer::render_blocks`. -/
def renderBlocks (blocks : List Block) : List Char :=
  blocks.flatMap fun block => renderBlock block ++ ['\n']

end AiCoreStack.Markdown
