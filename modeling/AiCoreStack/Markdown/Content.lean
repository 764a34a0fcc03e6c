import AiCoreStack.Markdown.Ir

/-!
# The text of a document

The plain text of inline elements and the ink of blocks: what a parser has to keep.
Addresses, languages of code blocks and markup carry no ink.
-/

namespace AiCoreStack.Markdown

open AiCoreStack.Foundation

/-- The non-blank characters of a text. -/
def inkOf (text : List Char) : Multiset Char := ink isWhitespace text

@[simp] theorem inkOf_nil : inkOf [] = 0 := rfl

@[simp] theorem inkOf_space : inkOf [' '] = 0 := rfl

@[simp] theorem inkOf_append (left right : List Char) :
    inkOf (left ++ right) = inkOf left + inkOf right :=
  ink_append _ _ _

@[simp] theorem inkOf_collapse (text : List Char) : inkOf (collapse text) = inkOf text :=
  ink_collapse text

@[simp] theorem inkOf_trim (text : List Char) : inkOf (trim isWhitespace text) = inkOf text :=
  ink_trim _ _

theorem inkOf_join (parts : List (List Char)) :
    inkOf ([' '].intercalate parts) = (parts.map inkOf).sum :=
  ink_intercalate _ rfl parts

theorem trim_eq_nil (text : List Char) : trim isWhitespace text = [] ↔ inkOf text = 0 :=
  trim_eq_nil_iff _ _

theorem words_eq_nil {text : List Char} (blanks : ∀ c ∈ text, isWhitespace c = true) :
    words isWhitespace text = [] := by
  rw [words]
  induction text with
  | nil => rfl
  | cons c text ih =>
      rw [List.splitOnP_cons_eq_if_modifyHead, if_pos (blanks c List.mem_cons_self)]
      exact ih fun other later => blanks other (List.mem_cons_of_mem c later)

theorem collapse_eq_nil (text : List Char) : collapse text = [] ↔ inkOf text = 0 := by
  constructor
  · intro empty
    rw [← inkOf_collapse, empty, inkOf_nil]
  · intro blank
    rw [collapse, words_eq_nil ((ink_eq_zero_iff _ _).mp blank)]
    rfl

/-- The text of an inline element without its markup. -/
def Inline.plain : Inline → List Char
  | .text content => content
  | .code content => content
  | .bold inner => inner.plain
  | .italic inner => inner.plain
  | .strike inner => inner.plain
  | .link label _ => label
  | .lineBreak => [' ']

/-- The recursive `plain` of the HTML and Markdown parsers and `plain_text` of the DOCX
parser. -/
def plain (inlines : List Inline) : List Char := inlines.flatMap Inline.plain

def Inline.ink (inline : Inline) : Multiset Char := inkOf inline.plain

/-- The ink of a list of inline elements. -/
def inlinesInk (inlines : List Inline) : Multiset Char := (inlines.map Inline.ink).sum

@[simp] theorem inlinesInk_nil : inlinesInk [] = 0 := rfl

@[simp] theorem inlinesInk_append (left right : List Inline) :
    inlinesInk (left ++ right) = inlinesInk left + inlinesInk right := by
  simp [inlinesInk]

@[simp] theorem inlinesInk_cons (first : Inline) (rest : List Inline) :
    inlinesInk (first :: rest) = first.ink + inlinesInk rest := by
  simp [inlinesInk]

theorem inkOf_plain (inlines : List Inline) : inkOf (plain inlines) = inlinesInk inlines :=
  ink_flatMap _ _ _

@[simp] theorem Inline.ink_lineBreak : Inline.lineBreak.ink = 0 := rfl

@[simp] theorem Inline.ink_text (text : List Char) : (Inline.text text).ink = inkOf text := rfl

@[simp] theorem Inline.ink_bold (inner : Inline) : (Inline.bold inner).ink = inner.ink := rfl

@[simp] theorem Inline.ink_italic (inner : Inline) : (Inline.italic inner).ink = inner.ink := rfl

@[simp] theorem Inline.ink_strike (inner : Inline) : (Inline.strike inner).ink = inner.ink := rfl

/-- Whether a text is blank is whether it has no ink. -/
theorem trim_plain_eq_nil_iff (inlines : List Inline) :
    trim isWhitespace (plain inlines) = [] ↔ inlinesInk inlines = 0 := by
  rw [trim_eq_nil, inkOf_plain]

/-! ## Cells -/

/-- The ink of a row of cells. -/
def rowInk (row : List (List Char)) : Multiset Char := (row.map inkOf).sum

/-- The ink of a list of rows. -/
def rowsInk (rows : List (List (List Char))) : Multiset Char := (rows.map rowInk).sum

@[simp] theorem rowInk_nil : rowInk [] = 0 := rfl

@[simp] theorem rowInk_append (left right : List (List Char)) :
    rowInk (left ++ right) = rowInk left + rowInk right := by
  simp [rowInk]

@[simp] theorem rowInk_singleton (cell : List Char) : rowInk [cell] = inkOf cell := by
  simp [rowInk]

@[simp] theorem rowsInk_nil : rowsInk [] = 0 := rfl

@[simp] theorem rowsInk_append (left right : List (List (List Char))) :
    rowsInk (left ++ right) = rowsInk left + rowsInk right := by
  simp [rowsInk]

@[simp] theorem rowsInk_cons (row : List (List Char)) (rows : List (List (List Char))) :
    rowsInk (row :: rows) = rowInk row + rowsInk rows := by
  simp [rowsInk]

/-! ## Blocks -/

mutual

def ListItem.ink : ListItem → Multiset Char
  | .mk content sublist => inlinesInk content + sublistInk sublist

def sublistInk : Option NestedList → Multiset Char
  | none => 0
  | some (.mk _ items) => itemsInk items

def itemsInk : List ListItem → Multiset Char
  | [] => 0
  | item :: rest => item.ink + itemsInk rest

end

@[simp] theorem itemsInk_append (left right : List ListItem) :
    itemsInk (left ++ right) = itemsInk left + itemsInk right := by
  induction left with
  | nil => simp [itemsInk]
  | cons item left ih => rw [List.cons_append, itemsInk, ih, itemsInk, add_assoc]

@[simp] theorem itemsInk_nil : itemsInk [] = 0 := by rw [itemsInk]

@[simp] theorem itemsInk_singleton (content : List Inline) (sublist : Option NestedList) :
    itemsInk [.mk content sublist] = inlinesInk content + sublistInk sublist := by
  simp [itemsInk, ListItem.ink]

def Table.ink (table : Table) : Multiset Char :=
  rowInk table.headers + rowsInk table.rows + (table.caption.map inkOf).getD 0

def Block.ink : Block → Multiset Char
  | .heading _ text => inkOf text
  | .paragraph content => inlinesInk content
  | .table grid => grid.ink
  | .list _ items => itemsInk items
  | .codeBlock _ code => inkOf code
  | .quote content => inlinesInk content
  | .horizontalRule => 0
  | .image alt _ => inkOf alt
  | .math latex _ => inkOf latex
  | .pageBreak => 0
  | .footnote _ content => inlinesInk content

def blocksInk (blocks : List Block) : Multiset Char := (blocks.map Block.ink).sum

@[simp] theorem blocksInk_nil : blocksInk [] = 0 := rfl

@[simp] theorem blocksInk_append (left right : List Block) :
    blocksInk (left ++ right) = blocksInk left + blocksInk right := by
  simp [blocksInk]

@[simp] theorem blocksInk_singleton (block : Block) : blocksInk [block] = block.ink := by
  simp [blocksInk]

/-- The blocks that are not images: the alternative text of an embedded image is the name
of its file. -/
def written (blocks : List Block) : List Block :=
  blocks.filter fun
    | .image .. => false
    | _ => true

@[simp] theorem written_append (left right : List Block) :
    written (left ++ right) = written left ++ written right :=
  List.filter_append ..

end AiCoreStack.Markdown
