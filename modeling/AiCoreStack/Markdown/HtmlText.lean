import AiCoreStack.Markdown.Html

/-!
# What walking an HTML tree keeps

Where the text of a tree goes.  Every collector accounts for the text below its nodes: what
it gives and what it loses are that text, and for a table the text it gives twice.
-/

namespace AiCoreStack.Markdown.Html

open AiCoreStack.Foundation

/-- Induction over trees, node by node. -/
@[elab_as_elim] theorem nodes_induction {motive : List Node → Prop} (nil : motive [])
    (text : ∀ text rest, motive rest → motive (.text text :: rest))
    (element : ∀ name attributes children rest, motive children → motive rest →
      motive (.element name attributes children :: rest))
    (other : ∀ rest, motive rest → motive (.other :: rest)) (nodes : List Node) : motive nodes := by
  apply elementPlain.induct (fun node => ∀ rest, motive rest → motive (node :: rest)) motive
  · exact text
  · intro name attributes children inner rest
    exact element name attributes children rest inner
  · exact other
  · exact nil
  · intro node rest first
    exact first rest

/-- The ink of the text below some nodes. -/
def treeInk (nodes : List Node) : Multiset Char := inkOf (elementPlain nodes)

@[simp] theorem treeInk_nil : treeInk [] = 0 := rfl

@[simp] theorem treeInk_text (text : List Char) (rest : List Node) :
    treeInk (.text text :: rest) = inkOf text + treeInk rest :=
  inkOf_append _ _

@[simp] theorem treeInk_element (name : Name) (attributes : List (String × List Char))
    (children rest : List Node) :
    treeInk (.element name attributes children :: rest) = treeInk children + treeInk rest :=
  inkOf_append _ _

@[simp] theorem treeInk_other (rest : List Node) : treeInk (.other :: rest) = treeInk rest := rfl

/-! ## Inline elements -/

@[simp] theorem inlinesInk_pushInlineText (out : List Inline) (text : List Char) :
    inlinesInk (pushInlineText out text) = inlinesInk out + inkOf text := by
  simp only [pushInlineText]
  split
  next empty => simp [empty]
  next =>
    split
    next blank =>
      have nothing : inkOf text = 0 := by rw [← inkOf_collapse, blank, inkOf_nil]
      split
      · rw [nothing, add_zero]
      · simp [nothing]
    next =>
      rw [inlinesInk_append, inlinesInk_cons, inlinesInk_nil, add_zero, Inline.ink_text,
        inkOf_append, inkOf_append, inkOf_collapse]
      split <;> split <;> simp

theorem inlinesInk_map {wrap : Inline → Inline} (keeps : ∀ inline, (wrap inline).ink = inline.ink)
    (inlines : List Inline) : inlinesInk (inlines.map wrap) = inlinesInk inlines := by
  simp [inlinesInk, Function.comp_def, keeps]

mutual

def Node.inlineLost : Node → Multiset Char
  | .element name _ children =>
      if isSkipped name ∨ name = .br then treeInk children
      else if name = .code ∨ name = .a then 0
      else inlineLost children
  | _ => 0

/-- The text that `collect_inlines` loses: in elements that are skipped and in line breaks. -/
def inlineLost : List Node → Multiset Char
  | [] => 0
  | node :: rest => node.inlineLost + inlineLost rest

end

/-- One element, if `collect_inlines` accounts for its children. -/
theorem inlinesInk_element {children : List Node}
    (inner : ∀ out, inlinesInk (collectInlines children out) + inlineLost children =
      inlinesInk out + treeInk children)
    (name : Name) (attributes : List (String × List Char)) (out : List Inline) :
    inlinesInk (collectInline (.element name attributes children) out) +
        (Node.element name attributes children).inlineLost =
      inlinesInk out + treeInk children := by
  have wrapped (wrap : Inline → Inline) (keeps : ∀ inline, (wrap inline).ink = inline.ink) :
      inlinesInk (out ++ (collectInlines children []).map wrap) + inlineLost children =
        inlinesInk out + treeInk children := by
    have content := inner []
    rw [inlinesInk_nil, zero_add] at content
    rw [inlinesInk_append, inlinesInk_map keeps, add_assoc, content]
  cases name with
  | script | style | noscript | template | nav | header | footer | aside | head => rfl
  | b | strong => exact wrapped _ Inline.ink_bold
  | i | em => exact wrapped _ Inline.ink_italic
  | del | s | strike => exact wrapped _ Inline.ink_strike
  | br =>
      change inlinesInk (out ++ [.lineBreak]) + treeInk children = _
      simp
  | code =>
      have given : inlinesInk (if elementPlain children = [] then out
          else out ++ [.code (elementPlain children)]) = inlinesInk out + treeInk children := by
        split
        next empty => rw [treeInk, empty, inkOf_nil, add_zero]
        next => simp [Inline.ink, Inline.plain, treeInk]
      exact (add_zero _).trans given
  | a =>
      have given (url : List Char) :
          inlinesInk (if collapse (elementPlain children) = [] then out
            else out ++ [.link (collapse (elementPlain children)) url]) =
              inlinesInk out + treeInk children := by
        rw [treeInk, ← inkOf_collapse]
        split
        next blank => rw [blank, inkOf_nil, add_zero]
        next => simp [Inline.ink, Inline.plain]
      exact (add_zero _).trans (given _)
  | _ => exact inner out

theorem inlinesInk_collectInlines (nodes : List Node) (out : List Inline) :
    inlinesInk (collectInlines nodes out) + inlineLost nodes = inlinesInk out + treeInk nodes := by
  induction nodes using nodes_induction generalizing out with
  | nil => rfl
  | text text rest ih =>
      have read := ih (pushInlineText out text)
      rw [inlinesInk_pushInlineText] at read
      rw [treeInk_text, ← add_assoc, ← read, inlineLost]
      exact congrArg _ (zero_add _)
  | other rest ih =>
      rw [treeInk_other, ← ih out, inlineLost]
      exact congrArg _ (zero_add _)
  | element name attributes children rest inner ih =>
      have read := ih (collectInline (.element name attributes children) out)
      have first := inlinesInk_element inner name attributes out
      rw [treeInk_element, ← add_assoc, ← first, collectInlines, inlineLost, add_left_comm, read]
      abel

/-! ## Lists -/

def Node.isList : Node → Bool
  | .element name _ _ => name = .ul ∨ name = .ol
  | _ => false

mutual

def Node.listLost : Node → Multiset Char
  | .text text => inkOf text
  | .element name _ children => if name = .li then itemLost children else treeInk children
  | .other => 0

/-- The text that `parse_list_items` loses: outside items, and in items. -/
def listLost : List Node → Multiset Char
  | [] => 0
  | node :: rest => node.listLost + listLost rest

/-- A list in an item is lost if another one follows. -/
def Node.itemLost (followed : Bool) : Node → Multiset Char
  | .element name _ children =>
      if name = .ul ∨ name = .ol then if followed then treeInk children else listLost children
      else inlineLost children
  | _ => 0

/-- The text that an item loses. -/
def itemLost : List Node → Multiset Char
  | [] => 0
  | node :: rest => node.itemLost (rest.any Node.isList) + itemLost rest

end

/-- The ink of the parts of an item. -/
def partsInk (parts : List Inline × Option NestedList) : Multiset Char :=
  inlinesInk parts.1 + sublistInk parts.2

theorem itemsInk_parseListItem (name : Name) (attributes : List (String × List Char))
    (children : List Node) :
    itemsInk (parseListItem (.element name attributes children)) =
      if name = .li then partsInk (itemParts children ([], none)) else 0 := by
  rw [parseListItem]
  split
  · simp only
    split
    next empty =>
      obtain ⟨blank, single⟩ := empty
      rw [Option.isNone_iff_eq_none] at single
      rw [itemsInk_nil, partsInk, (trim_plain_eq_nil_iff _).mp blank, single, sublistInk, add_zero]
    next => rw [itemsInk_singleton, partsInk]
  · exact itemsInk_nil

/-- Whether the sublist of an item is replaced by a list among some nodes. -/
def replacedInk (nodes : List Node) (parts : List Inline × Option NestedList) : Multiset Char :=
  if nodes.any Node.isList then sublistInk parts.2 else 0

/-- What an item gives and loses are its text and the sublist it had, if no list replaces
it. -/
def ItemBalance (nodes : List Node) : Prop :=
  ∀ parts, partsInk (itemParts nodes parts) + (itemLost nodes + replacedInk nodes parts) =
    partsInk parts + treeInk nodes

theorem ItemBalance.text {rest : List Node} (balance : ItemBalance rest) (text : List Char) :
    ItemBalance (.text text :: rest) := by
  intro parts
  have read := balance (pushInlineText parts.1 text, parts.2)
  have pushed : partsInk (pushInlineText parts.1 text, parts.2) = partsInk parts + inkOf text := by
    rw [partsInk, partsInk, inlinesInk_pushInlineText, add_right_comm]
  rw [pushed, add_assoc, ← treeInk_text] at read
  rw [← read, itemLost]
  exact congrArg (fun lost => _ + (lost + _)) (zero_add _)

theorem ItemBalance.list {children rest : List Node} (balance : ItemBalance rest) {name : Name}
    (isList : name = .ul ∨ name = .ol)
    (items : itemsInk (parseListItems children) + listLost children = treeInk children)
    (attributes : List (String × List Char)) :
    ItemBalance (.element name attributes children :: rest) := by
  intro parts
  have read := balance (parts.1, some (.mk (name = .ol) (parseListItems children)))
  have replaced : replacedInk (.element name attributes children :: rest) parts =
      sublistInk parts.2 := if_pos (by simp [Node.isList, isList])
  rw [itemParts, itemPart, if_pos isList, itemLost, Node.itemLost, if_pos isList, replaced,
    treeInk_element]
  simp only [replacedInk, partsInk, sublistInk] at read ⊢
  split at read
  next followed =>
    rw [if_pos followed]
    have kept := add_right_cancel ((add_assoc _ _ _).trans (read.trans (add_right_comm _ _ _)))
    calc _ = (inlinesInk (itemParts rest _).1 + sublistInk (itemParts rest _).2 + itemLost rest) +
          (treeInk children + sublistInk parts.2) := by abel
      _ = _ := by
        rw [kept]
        abel
  next last =>
    rw [add_zero] at read
    rw [if_neg last, ← items]
    calc _ = (inlinesInk (itemParts rest _).1 + sublistInk (itemParts rest _).2 + itemLost rest) +
          (listLost children + sublistInk parts.2) := by abel
      _ = _ := by
        rw [read]
        abel

theorem ItemBalance.inline {children rest : List Node} (balance : ItemBalance rest) {name : Name}
    (isList : ¬ (name = .ul ∨ name = .ol)) (attributes : List (String × List Char)) :
    ItemBalance (.element name attributes children :: rest) := by
  intro parts
  have read := balance (collectInlines children parts.1, parts.2)
  have content := inlinesInk_collectInlines children parts.1
  have replaced : replacedInk (.element name attributes children :: rest) parts =
      replacedInk rest (collectInlines children parts.1, parts.2) := by
    simp [replacedInk, Node.isList, isList]
  rw [itemParts, itemPart, if_neg isList, itemLost, Node.itemLost, if_neg isList, replaced,
    treeInk_element]
  calc _ = (partsInk (itemParts rest _) + (itemLost rest + replacedInk rest _)) +
        inlineLost children := by abel
    _ = (inlinesInk (collectInlines children parts.1) + inlineLost children) +
        (sublistInk parts.2 + treeInk rest) := by
      rw [read, partsInk]
      abel
    _ = _ := by
      rw [content, partsInk]
      abel

theorem itemsInk_parseListItems (nodes : List Node) :
    itemsInk (parseListItems nodes) + listLost nodes = treeInk nodes ∧ ItemBalance nodes := by
  induction nodes using nodes_induction with
  | nil => exact ⟨itemsInk_nil, fun parts => congrArg _ (add_zero _)⟩
  | text text rest ih =>
      constructor
      · rw [treeInk_text, ← ih.1]
        exact add_left_comm _ _ _
      · exact ih.2.text text
  | other rest ih =>
      constructor
      · rw [treeInk_other, ← ih.1]
        exact congrArg _ (zero_add _)
      · intro parts
        rw [treeInk_other, ← ih.2 parts, itemLost]
        exact congrArg (fun lost => _ + (lost + _)) (zero_add _)
  | element name attributes children rest inner ih =>
      constructor
      · have items := itemsInk_parseListItem name attributes children
        rw [parseListItems, itemsInk_append, listLost, items, Node.listLost, treeInk_element, ← ih.1]
        split
        · have first := inner.2 ([], none)
          have start : partsInk ([], none) = 0 := by simp [partsInk, sublistInk]
          have replaced : replacedInk children ([], none) = 0 := by simp [replacedInk, sublistInk]
          rw [start, zero_add, replaced, add_zero] at first
          rw [← first]
          abel
        · abel
      · rcases em (name = .ul ∨ name = .ol) with isList | isList
        · exact ih.2.list isList inner.1 attributes
        · exact ih.2.inline isList attributes

/-! ## Tables -/

mutual

def Node.tableLost (inRow : Bool) : Node → Multiset Char
  | .text text => inkOf text
  | .element name _ children => if inRow ∧ isCell name then 0 else tableLost (name = .tr) children
  | .other => 0

/-- The text that `parse_table` loses: all but the text of cells that are children of
rows. -/
def tableLost (inRow : Bool) : List Node → Multiset Char
  | [] => 0
  | node :: rest => node.tableLost inRow + tableLost inRow rest

end

mutual

def Node.tableAgain (inRow : Bool) : Node → Multiset Char
  | .element name _ children =>
      if inRow ∧ isCell name then rowsInk (rowsOf children) else tableAgain (name = .tr) children
  | _ => 0

/-- The text that `parse_table` gives twice: of rows inside cells. -/
def tableAgain (inRow : Bool) : List Node → Multiset Char
  | [] => 0
  | node :: rest => node.tableAgain inRow + tableAgain inRow rest

end

theorem rowsInk_filter (rows : List (List (List Char))) :
    rowsInk (rows.filter (· ≠ [])) = rowsInk rows := by
  induction rows with
  | nil => rfl
  | cons row rows ih =>
      rw [List.filter_cons]
      split
      · rw [rowsInk_cons, rowsInk_cons, ih]
      next empty =>
        rw [rowsInk_cons, ih, show row = [] by simpa using empty, rowInk_nil, zero_add]

theorem rowsInk_rowsOf (nodes : List Node) :
    rowsInk (rowsOf nodes) =
      ((descendantsNamed .tr nodes).map fun row => rowInk (cellsOf row.children)).sum := by
  rw [rowsOf, rowsInk_filter, rowsInk, List.map_map]
  rfl

theorem rowsInk_rowsOf_element (name : Name) (attributes : List (String × List Char))
    (children rest : List Node) :
    rowsInk (rowsOf (.element name attributes children :: rest)) =
      (if name = .tr then rowInk (cellsOf children) else 0) + rowsInk (rowsOf children) +
        rowsInk (rowsOf rest) := by
  simp only [rowsInk_rowsOf, descendantsNamed, Node.named, List.map_append, List.sum_append]
  split <;> simp

theorem rowInk_cellsOf_element (name : Name) (attributes : List (String × List Char))
    (children rest : List Node) :
    rowInk (cellsOf (.element name attributes children :: rest)) =
      (if isCell name then treeInk children else 0) + rowInk (cellsOf rest) := by
  rw [cellsOf]
  split
  · simp [rowInk, treeInk]
  · exact (zero_add _).symm

/-- What a table gives and loses are its text and the text it gives twice. -/
theorem rowsInk_balance (nodes : List Node) (inRow : Bool) :
    (if inRow then rowInk (cellsOf nodes) else 0) + rowsInk (rowsOf nodes) + tableLost inRow nodes =
      treeInk nodes + tableAgain inRow nodes := by
  induction nodes using nodes_induction generalizing inRow with
  | nil => simp [cellsOf, rowsOf, descendantsNamed, tableLost, tableAgain]
  | text text rest ih =>
      change (if inRow = true then rowInk (cellsOf rest) else 0) + rowsInk (rowsOf rest) +
        (inkOf text + tableLost inRow rest) = _ + (0 + tableAgain inRow rest)
      rw [treeInk_text, zero_add, add_assoc (inkOf text), ← ih inRow]
      abel
  | other rest ih =>
      change (if inRow = true then rowInk (cellsOf rest) else 0) + rowsInk (rowsOf rest) +
        (0 + tableLost inRow rest) = _ + (0 + tableAgain inRow rest)
      rw [treeInk_other, zero_add, zero_add, ih inRow]
  | element name attributes children rest inner ih =>
      rw [rowsInk_rowsOf_element, rowInk_cellsOf_element, treeInk_element, tableLost, tableAgain,
        Node.tableLost, Node.tableAgain]
      rcases em (inRow = true ∧ isCell name = true) with cell | other
      · have notRow : name ≠ .tr := by
          rintro rfl
          simp [isCell] at cell
        rw [if_pos cell, if_pos cell, if_pos cell.1, if_pos cell.2, if_neg notRow]
        have read := ih inRow
        rw [if_pos cell.1] at read
        calc _ = treeInk children + rowsInk (rowsOf children) +
              (rowInk (cellsOf rest) + rowsInk (rowsOf rest) + tableLost inRow rest) := by abel
          _ = _ := by
            rw [read]
            abel
      · rw [if_neg other, if_neg other]
        have read := ih inRow
        have below := inner (name = .tr)
        have cells : (if inRow = true then
              (if isCell name = true then treeInk children else 0) + rowInk (cellsOf rest) else 0) =
            if inRow = true then rowInk (cellsOf rest) else 0 := by
          split
          next row => rw [if_neg (fun cell => other ⟨row, cell⟩), zero_add]
          next => rfl
        simp only [decide_eq_true_eq] at below
        rw [cells]
        calc _ = ((if name = .tr then rowInk (cellsOf children) else 0) + rowsInk (rowsOf children) +
                tableLost (name = .tr) children) +
              ((if inRow = true then rowInk (cellsOf rest) else 0) + rowsInk (rowsOf rest) +
                tableLost inRow rest) := by abel
          _ = _ := by
            rw [read, below]
            abel

/-! ## Blocks -/

/-- The blocks that stand for the text in them, and what `walk_blocks` does below others. -/
def blockLost (walkLost : Multiset Char) (name : Name) (children : List Node) : Multiset Char :=
  match name with
  | .h1 | .h2 | .h3 | .h4 | .h5 | .h6 | .pre => 0
  | .p | .blockquote => inlineLost children
  | .ul | .ol => listLost children
  | .table => tableLost false children
  | .hr | .img | .br => treeInk children
  | _ => walkLost

def blockAgain (walkAgain : Multiset Char) (name : Name) (children : List Node) : Multiset Char :=
  match name with
  | .h1 | .h2 | .h3 | .h4 | .h5 | .h6 | .pre | .p | .blockquote | .ul | .ol => 0
  | .hr | .img | .br => 0
  | .table => tableAgain false children
  | _ => walkAgain

mutual

def Node.walkLost : Node → Multiset Char
  | .element name _ children =>
      if isSkipped name then treeInk children
      else if isInline name then inlineLost children
      else blockLost (walkLost children) name children
  | _ => 0

/-- The text that `walk_blocks` loses. -/
def walkLost : List Node → Multiset Char
  | [] => 0
  | node :: rest => node.walkLost + walkLost rest

end

mutual

def Node.walkAgain : Node → Multiset Char
  | .element name _ children =>
      if isSkipped name ∨ isInline name then 0 else blockAgain (walkAgain children) name children
  | _ => 0

/-- The text that `walk_blocks` gives twice. -/
def walkAgain : List Node → Multiset Char
  | [] => 0
  | node :: rest => node.walkAgain + walkAgain rest

end

namespace BlockCtx

/-- The text that a context holds. -/
def ink (ctx : BlockCtx) : Multiset Char := blocksInk (written ctx.blocks) + inlinesInk ctx.inlineBuf

theorem ink_push (ctx : BlockCtx) (block : Block) (kind : written [block] = [block]) :
    (ctx.push block).ink = ctx.ink + block.ink := by
  rw [ink, ink, push, written_append, kind, blocksInk_append, blocksInk_singleton, add_right_comm]

theorem ink_flushParagraph (ctx : BlockCtx) : ctx.flushParagraph.ink = ctx.ink := by
  rw [flushParagraph]
  split
  · rfl
  · split
    next blank =>
      rw [ink, ink, (trim_plain_eq_nil_iff _).mp blank]
      rfl
    next =>
      have paragraph : blocksInk (written [.paragraph ctx.inlineBuf]) = inlinesInk ctx.inlineBuf :=
        blocksInk_singleton _
      rw [ink, ink, written_append, blocksInk_append, paragraph, inlinesInk_nil, add_zero]

theorem inlineBuf_flushParagraph (ctx : BlockCtx) : ctx.flushParagraph.inlineBuf = [] := by
  rw [flushParagraph]
  split
  next empty => exact empty
  next => split <;> rfl

theorem ink_pushHeading (ctx : BlockCtx) (level : UInt8) (children : List Node) :
    (ctx.pushHeading level children).ink = ctx.ink + treeInk children := by
  simp only [pushHeading, treeInk]
  rw [← inkOf_collapse]
  split
  next blank => rw [blank, inkOf_nil, add_zero]
  next => exact ink_push ctx _ rfl

theorem ink_pushInlines (ctx : BlockCtx) {block : List Inline → Block}
    (kind : ∀ inlines, written [block inlines] = [block inlines])
    (same : ∀ inlines, (block inlines).ink = inlinesInk inlines) (children : List Node) :
    (ctx.pushInlines block children).ink + inlineLost children = ctx.ink + treeInk children := by
  have content := inlinesInk_collectInlines children []
  rw [inlinesInk_nil, zero_add] at content
  rw [← content, ← add_assoc]
  simp only [pushInlines]
  split
  next blank => rw [(trim_plain_eq_nil_iff _).mp blank, add_zero]
  next => rw [ink_push ctx _ (kind _), same]

theorem ink_pushList (ctx : BlockCtx) (ordered : Bool) (children : List Node) :
    (ctx.pushList ordered children).ink + listLost children = ctx.ink + treeInk children := by
  rw [← (itemsInk_parseListItems children).1, ← add_assoc]
  simp only [pushList]
  split
  next empty => rw [empty, itemsInk_nil, add_zero]
  next =>
    rw [ink_push ctx _ rfl]
    rfl

theorem ink_pushTable (ctx : BlockCtx) (children : List Node) :
    (((parseTable children).map fun grid => ctx.push (.table grid)).getD ctx).ink +
        tableLost false children =
      ctx.ink + treeInk children + tableAgain false children := by
  have balance := rowsInk_balance children false
  rw [if_neg (by simp), zero_add] at balance
  rw [add_assoc, ← balance, ← add_assoc, parseTable]
  cases rowsOf children with
  | nil =>
      rw [rowsInk_nil, add_zero]
      rfl
  | cons headers rows =>
      refine congrArg (· + _) ((ink_push ctx _ rfl).trans ?_)
      simp [Block.ink, Table.ink]

theorem ink_pushPre (ctx : BlockCtx) (lang : Option (List Char)) (children : List Node) :
    (ctx.push (.codeBlock lang (parsePre children).2)).ink = ctx.ink + treeInk children := by
  rw [ink_push ctx _ rfl]
  exact congrArg _ (ink_rdropWhile _ (fun _ blank => blank) _)

theorem ink_pushImg (ctx : BlockCtx) (attributes : List (String × List Char)) :
    (((parseImg attributes).map ctx.push).getD ctx).ink = ctx.ink := by
  rw [parseImg]
  cases attr attributes "src" with
  | none => rfl
  | some src =>
      change ink (ctx.push (.image _ _)) = _
      rw [ink, push, written_append]
      exact congrArg (fun blocks => blocksInk blocks + _) (List.append_nil _)

end BlockCtx

/-- One block, if walking over its children accounts for their text. -/
theorem ink_handleBlock {children : List Node}
    (inner : ∀ ctx, (walkBlocks children ctx).ink + walkLost children =
      ctx.ink + treeInk children + walkAgain children)
    (name : Name) (attributes : List (String × List Char)) (ctx : BlockCtx) :
    (handleBlock (walkBlocks children) name attributes children ctx).ink +
        blockLost (walkLost children) name children =
      ctx.ink + treeInk children + blockAgain (walkAgain children) name children := by
  cases name with
  | h1 | h2 | h3 | h4 | h5 | h6 => exact congrArg (· + 0) (ctx.ink_pushHeading _ children)
  | p => exact (ctx.ink_pushInlines (fun _ => rfl) (fun _ => rfl) children).trans (add_zero _).symm
  | blockquote =>
      exact (ctx.ink_pushInlines (fun _ => rfl) (fun _ => rfl) children).trans (add_zero _).symm
  | ul | ol => exact (ctx.ink_pushList _ children).trans (add_zero _).symm
  | table => exact ctx.ink_pushTable children
  | pre => exact congrArg (· + 0) (ctx.ink_pushPre _ children)
  | hr =>
      refine Eq.trans (congrArg (· + _) ?_) (add_zero _).symm
      exact (ctx.ink_push _ rfl).trans (add_zero _)
  | img =>
      refine Eq.trans (congrArg (· + _) ?_) (add_zero _).symm
      exact ctx.ink_pushImg attributes
  | br => exact (add_zero _).symm
  | _ => exact inner ctx

/-- One element, if walking over its children accounts for their text. -/
theorem ink_walkBlock {children : List Node}
    (inner : ∀ ctx, (walkBlocks children ctx).ink + walkLost children =
      ctx.ink + treeInk children + walkAgain children)
    (name : Name) (attributes : List (String × List Char)) (ctx : BlockCtx) :
    (walkBlock (.element name attributes children) ctx).ink +
        (Node.element name attributes children).walkLost =
      ctx.ink + treeInk children + (Node.element name attributes children).walkAgain := by
  rw [walkBlock, Node.walkLost, Node.walkAgain]
  cases skipped : isSkipped name with
  | true => simp
  | false =>
      cases inline : isInline name with
      | true =>
          have content := inlinesInk_collectInlines children ctx.inlineBuf
          simp only [Bool.false_eq_true, if_false, if_true, or_true, add_zero, BlockCtx.ink]
          rw [add_assoc, content, add_assoc]
      | false =>
          simp only [Bool.false_eq_true, if_false, or_self]
          rw [ink_handleBlock inner, BlockCtx.ink_flushParagraph]

/-- What walking over nodes gives and loses are their text and the text it gives twice. -/
theorem ink_walkBlocks (nodes : List Node) (ctx : BlockCtx) :
    (walkBlocks nodes ctx).ink + walkLost nodes = ctx.ink + treeInk nodes + walkAgain nodes := by
  induction nodes using nodes_induction generalizing ctx with
  | nil => simp [walkBlocks, walkLost, walkAgain]
  | text text rest ih =>
      have read := ih (walkBlock (.text text) ctx)
      have first : (walkBlock (.text text) ctx).ink = ctx.ink + inkOf text := by
        rw [walkBlock, BlockCtx.ink, BlockCtx.ink, inlinesInk_pushInlineText, add_assoc]
      rw [first, add_assoc ctx.ink, ← treeInk_text] at read
      rw [walkBlocks, walkLost, walkAgain, Node.walkLost, Node.walkAgain, zero_add, zero_add, read]
      all_goals simp
  | other rest ih =>
      rw [walkBlocks, walkLost, walkAgain, Node.walkLost, Node.walkAgain, zero_add, zero_add,
        treeInk_other, walkBlock, ih]
      all_goals simp
  | element name attributes children rest inner ih =>
      have read := ih (walkBlock (.element name attributes children) ctx)
      have first := ink_walkBlock inner name attributes ctx
      rw [walkBlocks, walkLost, walkAgain, treeInk_element]
      calc _ = ((walkBlocks rest (walkBlock (.element name attributes children) ctx)).ink +
              walkLost rest) + (Node.element name attributes children).walkLost := by abel
        _ = ((walkBlock (.element name attributes children) ctx).ink +
              (Node.element name attributes children).walkLost) +
            (treeInk rest + walkAgain rest) := by
          rw [read]
          abel
        _ = _ := by
          rw [first]
          abel

/-- What the blocks of a tree hold and what is lost are its text and the text that is given
twice. -/
theorem blocksInk_parse (nodes : List Node) :
    blocksInk (written (parse nodes)) + walkLost nodes = treeInk nodes + walkAgain nodes := by
  have walked := ink_walkBlocks nodes {}
  rw [← BlockCtx.ink_flushParagraph, BlockCtx.ink, BlockCtx.inlineBuf_flushParagraph,
    inlinesInk_nil, add_zero] at walked
  rw [parse, walked]
  exact congrArg (· + _) (zero_add _)

/-! ## Trees -/

mutual

def Node.InlineKeeps : Node → Prop
  | .element name _ children =>
      if isSkipped name ∨ name = .br then treeInk children = 0
      else if name = .code ∨ name = .a then True
      else InlineKeeps children
  | _ => True

/-- Whether `collect_inlines` loses nothing: there is no text in elements that are skipped
or in line breaks. -/
def InlineKeeps : List Node → Prop
  | [] => True
  | node :: rest => node.InlineKeeps ∧ InlineKeeps rest

end

mutual

def Node.ListKeeps : Node → Prop
  | .text text => inkOf text = 0
  | .element name _ children => if name = .li then ItemKeeps children else treeInk children = 0
  | .other => True

/-- Whether a list loses nothing: all its text stands in its items. -/
def ListKeeps : List Node → Prop
  | [] => True
  | node :: rest => node.ListKeeps ∧ ListKeeps rest

def Node.ItemKeeps (followed : Bool) : Node → Prop
  | .element name _ children =>
      if name = .ul ∨ name = .ol then if followed then treeInk children = 0 else ListKeeps children
      else InlineKeeps children
  | _ => True

/-- Whether an item loses nothing: of the lists in it only the last one has text. -/
def ItemKeeps : List Node → Prop
  | [] => True
  | node :: rest => node.ItemKeeps (rest.any Node.isList) ∧ ItemKeeps rest

end

mutual

def Node.TableKeeps (inRow : Bool) : Node → Prop
  | .text text => inkOf text = 0
  | .element name _ children =>
      if inRow ∧ isCell name then True else TableKeeps (name = .tr) children
  | .other => True

/-- Whether a table loses nothing: all its text stands in cells that are children of rows. -/
def TableKeeps (inRow : Bool) : List Node → Prop
  | [] => True
  | node :: rest => node.TableKeeps inRow ∧ TableKeeps inRow rest

end

mutual

def Node.TableOnce (inRow : Bool) : Node → Prop
  | .element name _ children =>
      if inRow ∧ isCell name then
        ∀ row ∈ descendantsNamed .tr children, rowInk (cellsOf row.children) = 0
      else TableOnce (name = .tr) children
  | _ => True

/-- Whether a table gives nothing twice: the rows inside its cells have no text. -/
def TableOnce (inRow : Bool) : List Node → Prop
  | [] => True
  | node :: rest => node.TableOnce inRow ∧ TableOnce inRow rest

end

/-- Whether a block loses nothing. -/
def BlockKeeps (walkKeeps : Prop) (name : Name) (children : List Node) : Prop :=
  match name with
  | .h1 | .h2 | .h3 | .h4 | .h5 | .h6 | .pre => True
  | .p | .blockquote => InlineKeeps children
  | .ul | .ol => ListKeeps children
  | .table => TableKeeps false children
  | .hr | .img | .br => treeInk children = 0
  | _ => walkKeeps

/-- Whether a block gives nothing twice. -/
def BlockOnce (walkOnce : Prop) (name : Name) (children : List Node) : Prop :=
  match name with
  | .h1 | .h2 | .h3 | .h4 | .h5 | .h6 | .pre | .p | .blockquote | .ul | .ol => True
  | .hr | .img | .br => True
  | .table => TableOnce false children
  | _ => walkOnce

mutual

def Node.Keeps : Node → Prop
  | .element name _ children =>
      if isSkipped name then treeInk children = 0
      else if isInline name then InlineKeeps children
      else BlockKeeps (Keeps children) name children
  | _ => True

/-- Whether `walk_blocks` loses nothing. -/
def Keeps : List Node → Prop
  | [] => True
  | node :: rest => node.Keeps ∧ Keeps rest

end

mutual

def Node.Once : Node → Prop
  | .element name _ children =>
      if isSkipped name ∨ isInline name then True else BlockOnce (Once children) name children
  | _ => True

/-- Whether `walk_blocks` gives nothing twice. -/
def Once : List Node → Prop
  | [] => True
  | node :: rest => node.Once ∧ Once rest

end

theorem inlineLost_eq_zero_iff (nodes : List Node) : inlineLost nodes = 0 ↔ InlineKeeps nodes := by
  induction nodes using nodes_induction with
  | nil => simp [inlineLost, InlineKeeps]
  | text text rest ih => simp [inlineLost, InlineKeeps, Node.inlineLost, Node.InlineKeeps, ih]
  | other rest ih => simp [inlineLost, InlineKeeps, Node.inlineLost, Node.InlineKeeps, ih]
  | element name attributes children rest inner ih =>
      rw [inlineLost, InlineKeeps, add_eq_zero, ih, Node.inlineLost, Node.InlineKeeps]
      refine and_congr_left fun _ => ?_
      split
      · rfl
      · split
        · simp
        · exact inner

theorem listLost_eq_zero_iff (nodes : List Node) :
    (listLost nodes = 0 ↔ ListKeeps nodes) ∧ (itemLost nodes = 0 ↔ ItemKeeps nodes) := by
  induction nodes using nodes_induction with
  | nil => simp [listLost, ListKeeps, itemLost, ItemKeeps]
  | text text rest ih =>
      simp [listLost, ListKeeps, itemLost, ItemKeeps, Node.listLost, Node.ListKeeps, Node.itemLost,
        Node.ItemKeeps, ih]
  | other rest ih =>
      simp [listLost, ListKeeps, itemLost, ItemKeeps, Node.listLost, Node.ListKeeps, Node.itemLost,
        Node.ItemKeeps, ih]
  | element name attributes children rest inner ih =>
      constructor
      · rw [listLost, ListKeeps, add_eq_zero, ih.1, Node.listLost, Node.ListKeeps]
        refine and_congr_left fun _ => ?_
        split
        · exact inner.2
        · rfl
      · rw [itemLost, ItemKeeps, add_eq_zero, ih.2, Node.itemLost, Node.ItemKeeps]
        refine and_congr_left fun _ => ?_
        split
        · split
          · rfl
          · exact inner.1
        · exact inlineLost_eq_zero_iff children

theorem tableLost_eq_zero_iff (nodes : List Node) (inRow : Bool) :
    tableLost inRow nodes = 0 ↔ TableKeeps inRow nodes := by
  induction nodes using nodes_induction generalizing inRow with
  | nil => simp [tableLost, TableKeeps]
  | text text rest ih => simp [tableLost, TableKeeps, Node.tableLost, Node.TableKeeps, ih]
  | other rest ih => simp [tableLost, TableKeeps, Node.tableLost, Node.TableKeeps, ih]
  | element name attributes children rest inner ih =>
      rw [tableLost, TableKeeps, add_eq_zero, ih, Node.tableLost, Node.TableKeeps]
      refine and_congr_left fun _ => ?_
      split
      · simp
      · exact inner _

theorem tableAgain_eq_zero_iff (nodes : List Node) (inRow : Bool) :
    tableAgain inRow nodes = 0 ↔ TableOnce inRow nodes := by
  induction nodes using nodes_induction generalizing inRow with
  | nil => simp [tableAgain, TableOnce]
  | text text rest ih => simp [tableAgain, TableOnce, Node.tableAgain, Node.TableOnce, ih]
  | other rest ih => simp [tableAgain, TableOnce, Node.tableAgain, Node.TableOnce, ih]
  | element name attributes children rest inner ih =>
      rw [tableAgain, TableOnce, add_eq_zero, ih, Node.tableAgain, Node.TableOnce]
      refine and_congr_left fun _ => ?_
      split
      · rw [rowsInk_rowsOf, List.sum_eq_zero_iff]
        simp
      · exact inner _

theorem walkLost_eq_zero_iff (nodes : List Node) : walkLost nodes = 0 ↔ Keeps nodes := by
  induction nodes using nodes_induction with
  | nil => simp [walkLost, Keeps]
  | text text rest ih => simp [walkLost, Keeps, Node.walkLost, Node.Keeps, ih]
  | other rest ih => simp [walkLost, Keeps, Node.walkLost, Node.Keeps, ih]
  | element name attributes children rest inner ih =>
      rw [walkLost, Keeps, add_eq_zero, ih, Node.walkLost, Node.Keeps]
      refine and_congr_left fun _ => ?_
      split
      · rfl
      · split
        · exact inlineLost_eq_zero_iff children
        · cases name with
          | h1 | h2 | h3 | h4 | h5 | h6 | pre => simp [blockLost, BlockKeeps]
          | p | blockquote => exact inlineLost_eq_zero_iff children
          | ul | ol => exact (listLost_eq_zero_iff children).1
          | table => exact tableLost_eq_zero_iff children false
          | hr | img | br => rfl
          | _ => exact inner

theorem walkAgain_eq_zero_iff (nodes : List Node) : walkAgain nodes = 0 ↔ Once nodes := by
  induction nodes using nodes_induction with
  | nil => simp [walkAgain, Once]
  | text text rest ih => simp [walkAgain, Once, Node.walkAgain, Node.Once, ih]
  | other rest ih => simp [walkAgain, Once, Node.walkAgain, Node.Once, ih]
  | element name attributes children rest inner ih =>
      rw [walkAgain, Once, add_eq_zero, ih, Node.walkAgain, Node.Once]
      refine and_congr_left fun _ => ?_
      split
      · simp
      · cases name with
        | h1 | h2 | h3 | h4 | h5 | h6 | pre | p | blockquote | ul | ol => simp [blockAgain, BlockOnce]
        | hr | img | br => simp [blockAgain, BlockOnce]
        | table => exact tableAgain_eq_zero_iff children false
        | _ => exact inner

/-- A tree whose tables give nothing twice is kept whole exactly when no collector loses
text. -/
theorem walk_keeps_iff (nodes : List Node) (once : Once nodes) :
    blocksInk (written (parse nodes)) = treeInk nodes ↔ Keeps nodes := by
  have balance := blocksInk_parse nodes
  rw [(walkAgain_eq_zero_iff nodes).mpr once, add_zero] at balance
  rw [← walkLost_eq_zero_iff, ← balance]
  simp

/-- A paragraph and a table of one cell. -/
def paragraphAndTable : List Node :=
  [.element .p [] [.text ['x']],
    .element .table [] [.element .tr [] [.element .td [] [.text ['y']]]]]

theorem walk_keeps_paragraphAndTable :
    blocksInk (written (parse paragraphAndTable)) = treeInk paragraphAndTable ↔
      Keeps paragraphAndTable := by
  apply walk_keeps_iff
  simp [paragraphAndTable, Once, Node.Once, isSkipped, isInline, BlockOnce, TableOnce,
    Node.TableOnce, isCell, descendantsNamed, Node.named]

/-- An item with two lists. -/
def twoLists : List Node :=
  [.element .ul [] [.element .li [] [.text ['a'],
    .element .ul [] [.element .li [] [.text ['b']]],
    .element .ul [] [.element .li [] [.text ['c']]]]]]

/-- The first of two lists in an item is lost. -/
theorem not_walk_keeps_twoLists :
    ¬ blocksInk (written (parse twoLists)) = treeInk twoLists := by
  decide

end AiCoreStack.Markdown.Html
