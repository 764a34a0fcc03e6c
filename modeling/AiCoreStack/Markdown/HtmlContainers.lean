import AiCoreStack.Markdown.HtmlText

/-!
# Inline formatting in containers

A paragraph and a quote collect the inline elements below them.  A container and an item enter
each of their inline elements by itself and collect what is below it, so the markup of that element is
lost.  The four agree when no formatting element at the top writes anything.
-/

namespace AiCoreStack.Markdown.Html

open AiCoreStack.Foundation

/-! ## Containers -/

/-- Elements with markup of their own. -/
def isFormatting : Name → Bool
  | .b | .strong | .i | .em | .del | .s | .strike | .code | .a | .br => true
  | _ => false

mutual

def Node.isProse : Node → Bool
  | .element name _ children =>
      isInline name && (name != .br || children.isEmpty) && areProse children
  | _ => true

/-- Texts and inline elements at any depth.  A line break is empty. -/
def areProse : List Node → Bool
  | [] => true
  | node :: rest => node.isProse && areProse rest

end

inductive Container where
  | p
  | div
  | body
  | li
  | blockquote
  deriving DecidableEq, Repr

/-- The tree with some nodes as the content of a container. -/
def Container.wrap (nodes : List Node) : Container → List Node
  | .p => [.element .p [] nodes]
  | .div => [.element .other [] nodes]
  | .body => nodes
  | .li => [.element .ul [] [.element .li [] nodes]]
  | .blockquote => [.element .blockquote [] nodes]

def ListItem.content : ListItem → List Inline
  | .mk content _ => content

/-- The inline elements of a block. -/
def blockInlines : Block → List Inline
  | .paragraph content => content
  | .quote content => content
  | .list _ items => items.flatMap ListItem.content
  | _ => []

/-- The inline elements that the content of a container is turned into. -/
def produced (nodes : List Node) (container : Container) : List Inline :=
  (parse (container.wrap nodes)).flatMap blockInlines

/-- A text without blanks at its boundaries, and no text at all if it is blank. -/
def trimInline : Inline → List Inline
  | .text text => if trim isWhitespace text = [] then [] else [.text (trim isWhitespace text)]
  | inline => [inline]

def trimTexts (inlines : List Inline) : List Inline := inlines.flatMap trimInline

/-- Up to boundary blanks, every container gives the same. -/
def SameInContainers (nodes : List Node) : Prop :=
  ∀ container container',
    trimTexts (produced nodes container) = trimTexts (produced nodes container')

/-! ## What is written -/

mutual

/-- Whether a node writes anything in a paragraph of its own. -/
def Node.writes : Node → Bool
  | .text text => trim isWhitespace text ≠ []
  | .element name _ children =>
      match name with
      | .br => true
      | .code => elementPlain children ≠ []
      | .a => trim isWhitespace (elementPlain children) ≠ []
      | _ => someWrites children
  | .other => false

def someWrites : List Node → Bool
  | [] => false
  | node :: rest => node.writes || someWrites rest

end

/-- A formatting element that writes nothing, neither by itself nor by what is below it. -/
def Node.isQuiet : Node → Bool
  | .element name attributes children =>
      !isFormatting name || !(Node.element name attributes children).writes && !someWrites children
  | _ => true

/-- There is no text, or no formatting element writes anything. -/
def Unmarked (nodes : List Node) : Prop :=
  trim isWhitespace (elementPlain nodes) = [] ∨ ∀ node ∈ nodes, node.isQuiet = true

mutual

def Node.isUnformatted : Node → Bool
  | .element name _ children => !isFormatting name && areUnformatted children
  | _ => true

/-- No formatting elements at any depth. -/
def areUnformatted : List Node → Bool
  | [] => true
  | node :: rest => node.isUnformatted && areUnformatted rest

end

/-- Codes and links have no formatting elements below them. -/
def Node.isShallow : Node → Bool
  | .element name _ children => !(name = .code ∨ name = .a) || areUnformatted children
  | _ => true

/-! ## Entering -/

/-- What a container takes from a child that is a text or an inline element. -/
def enterInline (out : List Inline) : Node → List Inline
  | .text text => pushInlineText out text
  | .element _ _ children => collectInlines children out
  | .other => out

def enterInlines (nodes : List Node) (out : List Inline) : List Inline :=
  nodes.foldl enterInline out

theorem not_isSkipped {name : Name} (inline : isInline name = true) : isSkipped name = false := by
  cases name <;> first | rfl | exact absurd inline (by decide)

theorem Node.isInline_of_isProse {name : Name} {attributes : List (String × List Char)}
    {children : List Node} (prose : (Node.element name attributes children).isProse = true) :
    isInline name = true ∧ (name = .br → children = []) ∧ areProse children = true := by
  simp only [Node.isProse, Bool.and_eq_true, Bool.or_eq_true, bne_iff_ne,
    List.isEmpty_iff] at prose
  obtain ⟨⟨inline, void⟩, below⟩ := prose
  exact ⟨inline, fun isBr => void.resolve_left fun other => other isBr, below⟩

theorem areProse_cons {node : Node} {rest : List Node} :
    areProse (node :: rest) = true ↔ node.isProse = true ∧ areProse rest = true := by
  rw [areProse, Bool.and_eq_true]

/-- The walk over the content of a container fills the buffer. -/
theorem walkBlocks_prose {nodes : List Node} (prose : areProse nodes = true) (ctx : BlockCtx) :
    walkBlocks nodes ctx = { ctx with inlineBuf := enterInlines nodes ctx.inlineBuf } := by
  induction nodes generalizing ctx with
  | nil => rfl
  | cons node rest ih =>
      obtain ⟨here, later⟩ := areProse_cons.mp prose
      cases node with
      | text text => exact ih later _
      | other => exact ih later _
      | element name attributes children =>
          obtain ⟨inline, -, -⟩ := Node.isInline_of_isProse here
          rw [walkBlocks, walkBlock, not_isSkipped inline, if_neg (by decide), if_pos inline,
            ih later]
          rfl

theorem itemParts_prose {nodes : List Node} (prose : areProse nodes = true)
    (content : List Inline) (sublist : Option NestedList) :
    itemParts nodes (content, sublist) = (enterInlines nodes content, sublist) := by
  induction nodes generalizing content with
  | nil => rfl
  | cons node rest ih =>
      obtain ⟨here, later⟩ := areProse_cons.mp prose
      cases node with
      | text text => exact ih later _
      | other => exact ih later _
      | element name attributes children =>
          obtain ⟨inline, -, -⟩ := Node.isInline_of_isProse here
          have noList : ¬ (name = .ul ∨ name = .ol) := by
            rintro (rfl | rfl)
            · exact absurd inline (by decide)
            · exact absurd inline (by decide)
          rw [itemParts, itemPart, if_neg noList, ih later]
          rfl

/-- Inline elements that are put out only if they are not blank. -/
def shown (inlines : List Inline) : List Inline :=
  if trim isWhitespace (plain inlines) = [] then [] else inlines

theorem pushInlines_shown (block : List Inline → Block) (children : List Node)
    (same : ∀ inlines, blockInlines (block inlines) = inlines) :
    ((BlockCtx.pushInlines {} block children).flushParagraph.blocks).flatMap blockInlines =
      shown (collectInlines children []) := by
  rw [BlockCtx.pushInlines, shown]
  split
  · rfl
  · simp [BlockCtx.push, BlockCtx.flushParagraph, same]

theorem flushParagraph_shown (inlines : List Inline) :
    (BlockCtx.flushParagraph { inlineBuf := inlines }).blocks.flatMap blockInlines =
      shown inlines := by
  rw [BlockCtx.flushParagraph, shown]
  split
  next empty =>
    have empty : inlines = [] := empty
    rw [empty]
    rfl
  next =>
    split
    · rfl
    · simp [blockInlines]

section Produced

variable {nodes : List Node}

theorem produced_p : produced nodes .p = shown (collectInlines nodes []) :=
  pushInlines_shown .paragraph nodes fun _ => rfl

theorem produced_blockquote : produced nodes .blockquote = shown (collectInlines nodes []) :=
  pushInlines_shown .quote nodes fun _ => rfl

theorem produced_body (prose : areProse nodes = true) :
    produced nodes .body = shown (enterInlines nodes []) := by
  rw [produced, Container.wrap, parse, walkBlocks_prose prose]
  exact flushParagraph_shown _

theorem produced_div (prose : areProse nodes = true) :
    produced nodes .div = shown (enterInlines nodes []) := by
  have walk : walkBlocks [.element .other [] nodes] {} = walkBlocks nodes {} := rfl
  rw [produced, Container.wrap, parse, walk, walkBlocks_prose prose]
  exact flushParagraph_shown _

theorem produced_li (prose : areProse nodes = true) :
    produced nodes .li = shown (enterInlines nodes []) := by
  have items : parseListItems [.element .li [] nodes] =
      if trim isWhitespace (plain (enterInlines nodes [])) = [] then []
      else [.mk (enterInlines nodes []) none] := by
    rw [parseListItems, parseListItem, if_pos rfl, itemParts_prose prose, parseListItems,
      List.append_nil]
    simp
  have walk : walkBlocks [.element .ul [] [.element .li [] nodes]] {} =
      BlockCtx.pushList {} false [.element .li [] nodes] := rfl
  rw [produced, Container.wrap, parse, walk, BlockCtx.pushList, items, shown]
  split
  · rfl
  · simp [BlockCtx.push, BlockCtx.flushParagraph, blockInlines, ListItem.content]

/-- Containers agree when collecting and entering do. -/
theorem sameInContainers_iff_shown (prose : areProse nodes = true) :
    SameInContainers nodes ↔
      trimTexts (shown (collectInlines nodes [])) = trimTexts (shown (enterInlines nodes [])) := by
  constructor
  · intro same
    rw [← produced_p, ← produced_body prose]
    exact same .p .body
  · intro same
    have all (container : Container) :
        trimTexts (produced nodes container) = trimTexts (shown (enterInlines nodes [])) := by
      cases container with
      | p => rw [produced_p, same]
      | div => rw [produced_div prose]
      | body => rw [produced_body prose]
      | li => rw [produced_li prose]
      | blockquote => rw [produced_blockquote, same]
    intro container container'
    rw [all container, all container']

end Produced

/-! ## Contributions -/

theorem trimTexts_append (left right : List Inline) :
    trimTexts (left ++ right) = trimTexts left ++ trimTexts right :=
  List.flatMap_append

theorem trim_cons_blank (text : List Char) :
    trim isWhitespace (' ' :: text) = trim isWhitespace text := by
  rw [trim, trim, List.dropWhile_cons_of_pos (by decide)]

theorem trimTexts_cons_blank (text : List Char) :
    trimTexts [.text (' ' :: text)] = trimTexts [.text text] := by
  simp only [trimTexts, List.flatMap_cons, trimInline, trim_cons_blank]

/-- Up to boundary blanks, what a text adds does not depend on what is before it. -/
theorem trimTexts_pushInlineText (out : List Inline) (text : List Char) :
    trimTexts (pushInlineText out text) =
      trimTexts out ++ trimTexts (pushInlineText [] text) := by
  have blank : trimTexts [.text [' ']] = [] := by decide
  have keep : trimTexts out = trimTexts out ++ trimTexts [] := (List.append_nil _).symm
  simp only [pushInlineText]
  split
  · exact keep
  · split
    · split
      · exact keep
      · rw [trimTexts_append, blank, if_pos trivial]
        rfl
    · have alone : ¬ (text.head?.any isWhitespace = true ∧ ([] : List Inline) ≠ []) := by simp
      rw [trimTexts_append, if_neg alone, List.nil_append, List.nil_append, List.append_assoc]
      congr 1
      split
      · exact trimTexts_cons_blank _
      · rfl

theorem trimTexts_collectInline {children : List Node}
    (inner : ∀ out, trimTexts (collectInlines children out) =
      trimTexts out ++ trimTexts (collectInlines children []))
    (name : Name) (attributes : List (String × List Char)) (out : List Inline) :
    trimTexts (collectInline (.element name attributes children) out) =
      trimTexts out ++ trimTexts (collectInline (.element name attributes children) []) := by
  have keep : trimTexts out = trimTexts out ++ trimTexts [] := (List.append_nil _).symm
  have push (added : List Inline) :
      trimTexts (out ++ added) = trimTexts out ++ trimTexts ([] ++ added) := by
    rw [trimTexts_append, List.nil_append]
  cases name with
  | script | style | noscript | template | nav | header | footer | aside | head => exact keep
  | b | strong | i | em | del | s | strike | br => exact push _
  | code | a =>
      simp only [collectInline, isSkipped, Bool.false_eq_true, if_false]
      split
      · exact keep
      · exact push _
  | _ => exact inner out

theorem trimTexts_collectInlines (nodes : List Node) (out : List Inline) :
    trimTexts (collectInlines nodes out) =
      trimTexts out ++ trimTexts (collectInlines nodes []) := by
  induction nodes using nodes_induction generalizing out with
  | nil => exact (List.append_nil _).symm
  | text text rest ih =>
      rw [collectInlines, collectInlines, ih, ih (collectInline (.text text) [])]
      simp only [collectInline]
      rw [trimTexts_pushInlineText, List.append_assoc]
  | other rest ih => exact ih out
  | element name attributes children rest inner ih =>
      rw [collectInlines, collectInlines, ih,
        ih (collectInline (.element name attributes children) []),
        trimTexts_collectInline inner, List.append_assoc]

/-- Up to boundary blanks, what is collected is what each node adds. -/
theorem trimTexts_collect (nodes : List Node) :
    trimTexts (collectInlines nodes []) =
      nodes.flatMap fun node => trimTexts (collectInline node []) := by
  induction nodes with
  | nil => rfl
  | cons node rest ih =>
      rw [collectInlines, trimTexts_collectInlines, ih, List.flatMap_cons]

theorem trimTexts_enterInline (node : Node) (out : List Inline) :
    trimTexts (enterInline out node) = trimTexts out ++ trimTexts (enterInline [] node) := by
  cases node with
  | text text => exact trimTexts_pushInlineText out text
  | other => exact (List.append_nil _).symm
  | element name attributes children => exact trimTexts_collectInlines children out

theorem trimTexts_enter (nodes : List Node) :
    trimTexts (enterInlines nodes []) =
      nodes.flatMap fun node => trimTexts (enterInline [] node) := by
  have run (out : List Inline) : trimTexts (enterInlines nodes out) =
      trimTexts out ++ nodes.flatMap fun node => trimTexts (enterInline [] node) := by
    induction nodes generalizing out with
    | nil => exact (List.append_nil _).symm
    | cons node rest ih =>
        have step := ih (enterInline out node)
        rw [trimTexts_enterInline, List.append_assoc] at step
        exact step
  exact run []

/-! ## Quiet nodes -/

theorem pushInlineText_eq_nil (text : List Char) :
    pushInlineText [] text = [] ↔ trim isWhitespace text = [] := by
  rw [trim_eq_nil, ← collapse_eq_nil, pushInlineText]
  by_cases empty : text = []
  · simp [empty, collapse, words]
  · by_cases blank : collapse text = [] <;> simp [empty, blank]

theorem length_pushInlineText (out : List Inline) (text : List Char) :
    out.length ≤ (pushInlineText out text).length := by
  simp only [pushInlineText]
  split
  · exact Nat.le_refl _
  · split
    · split
      · exact Nat.le_refl _
      · simp
    · simp

theorem length_collectInline {children : List Node}
    (inner : ∀ out, out.length ≤ (collectInlines children out).length)
    (name : Name) (attributes : List (String × List Char)) (out : List Inline) :
    out.length ≤ (collectInline (.element name attributes children) out).length := by
  have push (added : List Inline) : out.length ≤ (out ++ added).length := by
    rw [List.length_append]
    exact Nat.le_add_right _ _
  cases name with
  | script | style | noscript | template | nav | header | footer | aside | head =>
      exact Nat.le_refl _
  | b | strong | i | em | del | s | strike | br => exact push _
  | code | a =>
      simp only [collectInline, isSkipped, Bool.false_eq_true, if_false]
      split
      · exact Nat.le_refl _
      · exact push _
  | _ => exact inner out

/-- Nothing is taken back. -/
theorem length_collectInlines (nodes : List Node) (out : List Inline) :
    out.length ≤ (collectInlines nodes out).length := by
  induction nodes using nodes_induction generalizing out with
  | nil => exact Nat.le_refl _
  | text text rest ih => exact (length_pushInlineText out text).trans (ih _)
  | other rest ih => exact ih out
  | element name attributes children rest inner ih =>
      exact (length_collectInline inner name attributes out).trans (ih _)

theorem collectInline_eq_nil {name : Name} {attributes : List (String × List Char)}
    {children : List Node}
    (inner : collectInlines children [] = [] ↔ someWrites children = false)
    (inline : isInline name = true) :
    collectInline (.element name attributes children) [] = [] ↔
      (Node.element name attributes children).writes = false := by
  have wrapped (wrap : Inline → Inline) :
      [] ++ (collectInlines children []).map wrap = [] ↔ someWrites children = false := by
    rw [List.nil_append, List.map_eq_nil_iff, inner]
  have single (absent : Prop) [Decidable absent] (inline : Inline) :
      (if absent then [] else [] ++ [inline]) = [] ↔ decide (¬ absent) = false := by
    by_cases absent <;> simp [*]
  cases name with
  | b | strong | i | em | del | s | strike => exact wrapped _
  | br => exact iff_of_false (List.cons_ne_nil _ _) (by simp [Node.writes])
  | code => exact single _ _
  | a =>
      have text : trim isWhitespace (elementPlain children) = [] ↔
          collapse (elementPlain children) = [] := by rw [trim_eq_nil, collapse_eq_nil]
      simp only [Node.writes, ne_eq, text]
      exact single _ _
  | script | style | noscript | template | nav | header | footer | aside | head =>
      exact absurd inline (by decide)
  | _ => exact inner

/-- Nothing is collected exactly when nothing is written. -/
theorem collectInlines_eq_nil {nodes : List Node} (prose : areProse nodes = true) :
    collectInlines nodes [] = [] ↔ someWrites nodes = false := by
  have rest_nil (rest : List Node) (out : List Inline) (ih : collectInlines rest [] = [] ↔
      someWrites rest = false) (front : Bool) (here : out = [] ↔ front = false) :
      collectInlines rest out = [] ↔ (front || someWrites rest) = false := by
    rw [Bool.or_eq_false_iff, ← here, ← ih]
    constructor
    · intro nothing
      have short := length_collectInlines rest out
      rw [nothing, List.length_nil, Nat.le_zero, List.length_eq_zero_iff] at short
      exact ⟨short, by rw [short] at nothing; exact nothing⟩
    · rintro ⟨rfl, nothing⟩
      exact nothing
  induction nodes using nodes_induction with
  | nil => exact iff_of_true rfl rfl
  | text text rest ih =>
      refine rest_nil rest _ (ih (areProse_cons.mp prose).2) _ ?_
      refine (pushInlineText_eq_nil text).trans ?_
      rw [Node.writes]
      simp
  | other rest ih =>
      exact rest_nil rest _ (ih (areProse_cons.mp prose).2) _ (iff_of_true rfl rfl)
  | element name attributes children rest inner ih =>
      obtain ⟨here, later⟩ := areProse_cons.mp prose
      obtain ⟨inline, -, below⟩ := Node.isInline_of_isProse here
      exact rest_nil rest _ (ih later) _ (collectInline_eq_nil (inner below) inline)

/-- A node that is quiet or not formatting is collected as it is entered. -/
theorem collectInline_eq_enterInline {node : Node} (prose : node.isProse = true)
    (quiet : node.isQuiet = true) : collectInline node [] = enterInline [] node := by
  cases node with
  | text text => rfl
  | other => rfl
  | element name attributes children =>
      obtain ⟨inline, -, below⟩ := Node.isInline_of_isProse prose
      have nothing := collectInlines_eq_nil below
      cases formatting : isFormatting name with
      | true =>
          simp only [Node.isQuiet, formatting, Bool.not_true, Bool.false_or, Bool.and_eq_true,
            Bool.not_eq_true'] at quiet
          rw [(collectInline_eq_nil nothing inline).mpr quiet.1, enterInline,
            nothing.mpr quiet.2]
      | false =>
          cases name with
          | b | strong | i | em | del | s | strike | code | a | br =>
              exact absurd formatting (by decide)
          | script | style | noscript | template | nav | header | footer | aside | head =>
              exact absurd inline (by decide)
          | _ => rfl

/-! ## Marks -/

/-- The number of elements of an inline element, the text at its centre not counted. -/
def inlineMarks : Inline → Nat
  | .text _ => 0
  | .bold inner => inlineMarks inner + 1
  | .italic inner => inlineMarks inner + 1
  | .strike inner => inlineMarks inner + 1
  | .code _ => 1
  | .link _ _ => 1
  | .lineBreak => 1

def marks (inlines : List Inline) : Nat := (inlines.map inlineMarks).sum

theorem marks_append (left right : List Inline) :
    marks (left ++ right) = marks left + marks right := by
  rw [marks, List.map_append, List.sum_append]
  rfl

theorem marks_cons (inline : Inline) (rest : List Inline) :
    marks (inline :: rest) = inlineMarks inline + marks rest := by
  rw [marks, List.map_cons, List.sum_cons]
  rfl

theorem marks_trimTexts (inlines : List Inline) : marks (trimTexts inlines) = marks inlines := by
  induction inlines with
  | nil => rfl
  | cons inline rest ih =>
      have first : marks (trimInline inline) = inlineMarks inline := by
        cases inline with
        | text text =>
            rw [trimInline]
            split <;> rfl
        | _ => rfl
      rw [trimTexts, List.flatMap_cons, marks_append, first]
      exact congrArg _ ih

/-- Wrapping marks every element once more. -/
theorem marks_map {wrap : Inline → Inline}
    (once : ∀ inline, inlineMarks (wrap inline) = inlineMarks inline + 1)
    (inlines : List Inline) : marks (inlines.map wrap) = marks inlines + inlines.length := by
  induction inlines with
  | nil => rfl
  | cons inline rest ih =>
      rw [List.map_cons, marks_cons, marks_cons, once, ih, List.length_cons]
      omega

theorem marks_trimmed_flatMap (nodes : List Node) (given : Node → List Inline) :
    marks (nodes.flatMap fun node => trimTexts (given node)) =
      (nodes.map fun node => marks (given node)).sum := by
  induction nodes with
  | nil => rfl
  | cons node rest ih =>
      rw [List.flatMap_cons, marks_append, marks_trimTexts, ih, List.map_cons, List.sum_cons]

/-- Below elements without formatting there is only text. -/
theorem marks_collectInlines {nodes : List Node} (unformatted : areUnformatted nodes = true)
    (prose : areProse nodes = true) (out : List Inline) :
    marks (collectInlines nodes out) = marks out := by
  have pushed (out : List Inline) (text : List Char) :
      marks (pushInlineText out text) = marks out := by
    rw [← marks_trimTexts, trimTexts_pushInlineText, marks_append, marks_trimTexts,
      marks_trimTexts]
    simp only [pushInlineText]
    split
    · rfl
    · split <;> rfl
  induction nodes using nodes_induction generalizing out with
  | nil => rfl
  | text text rest ih =>
      rw [areUnformatted, Bool.and_eq_true] at unformatted
      exact (ih unformatted.2 (areProse_cons.mp prose).2 _).trans (pushed out text)
  | other rest ih =>
      rw [areUnformatted, Bool.and_eq_true] at unformatted
      exact ih unformatted.2 (areProse_cons.mp prose).2 out
  | element name attributes children rest inner ih =>
      rw [areUnformatted, Bool.and_eq_true, Node.isUnformatted, Bool.and_eq_true,
        Bool.not_eq_true'] at unformatted
      obtain ⟨here, later⟩ := areProse_cons.mp prose
      obtain ⟨inline, -, below⟩ := Node.isInline_of_isProse here
      have first : marks (collectInline (.element name attributes children) out) = marks out := by
        cases name with
        | b | strong | i | em | del | s | strike | code | a | br =>
            exact absurd unformatted.1.1 (by decide)
        | script | style | noscript | template | nav | header | footer | aside | head =>
            exact absurd inline (by decide)
        | _ => exact inner unformatted.1.2 below out
      rw [collectInlines, ih unformatted.2 later, first]

/-- Elements without formatting write nothing but text. -/
theorem someWrites_of_unformatted {nodes : List Node} (unformatted : areUnformatted nodes = true)
    (blank : treeInk nodes = 0) : someWrites nodes = false := by
  induction nodes using nodes_induction with
  | nil => rfl
  | text text rest ih =>
      rw [areUnformatted, Bool.and_eq_true] at unformatted
      rw [treeInk_text, add_eq_zero] at blank
      rw [someWrites, ih unformatted.2 blank.2, Node.writes, (trim_eq_nil text).mpr blank.1]
      rfl
  | other rest ih =>
      rw [areUnformatted, Bool.and_eq_true] at unformatted
      exact ih unformatted.2 blank
  | element name attributes children rest inner ih =>
      rw [areUnformatted, Bool.and_eq_true, Node.isUnformatted, Bool.and_eq_true,
        Bool.not_eq_true'] at unformatted
      rw [treeInk_element, add_eq_zero] at blank
      have first : (Node.element name attributes children).writes = false := by
        cases name with
        | b | strong | i | em | del | s | strike | code | a | br =>
            exact absurd unformatted.1.1 (by decide)
        | _ => exact inner unformatted.1.2 blank.1
      rw [someWrites, first, ih unformatted.2 blank.2]
      rfl

/-- A node gives at least the marks it gives when it is entered, and more if it formats
anything. -/
theorem marks_enterInline {node : Node} (prose : node.isProse = true)
    (shallow : node.isShallow = true) :
    marks (enterInline [] node) ≤ marks (collectInline node []) ∧
      (marks (enterInline [] node) = marks (collectInline node []) → node.isQuiet = true) := by
  cases node with
  | text text => exact ⟨Nat.le_refl _, fun _ => rfl⟩
  | other => exact ⟨Nat.le_refl _, fun _ => rfl⟩
  | element name attributes children =>
      obtain ⟨inline, void, below⟩ := Node.isInline_of_isProse prose
      have nothing := collectInlines_eq_nil below
      have wrapped {wrap : Inline → Inline}
          (once : ∀ inline, inlineMarks (wrap inline) = inlineMarks inline + 1)
          (writes : (Node.element name attributes children).writes = someWrites children) :
          marks (collectInlines children []) ≤ marks ([] ++ (collectInlines children []).map wrap) ∧
            (marks (collectInlines children []) =
              marks ([] ++ (collectInlines children []).map wrap) →
              (Node.element name attributes children).isQuiet = true) := by
        rw [List.nil_append, marks_map once]
        refine ⟨Nat.le_add_right _ _, fun same => ?_⟩
        have empty := nothing.mp (List.length_eq_zero_iff.mp (by omega))
        rw [Node.isQuiet, writes, empty]
        simp
      have single (unformatted : areUnformatted children = true) {absent : Prop} [Decidable absent]
          {inline : Inline} (marked : inlineMarks inline = 1)
          (quiet : absent → (Node.element name attributes children).isQuiet = true) :
          marks (collectInlines children []) ≤ marks (if absent then [] else [] ++ [inline]) ∧
            (marks (collectInlines children []) =
              marks (if absent then [] else [] ++ [inline]) →
              (Node.element name attributes children).isQuiet = true) := by
        rw [marks_collectInlines unformatted below]
        refine ⟨Nat.zero_le _, fun same => ?_⟩
        by_cases without : absent
        · exact quiet without
        · rw [if_neg without, List.nil_append, marks_cons, marked] at same
          exact absurd same (by simp [marks])
      cases name with
      | b | strong | i | em | del | s | strike => exact wrapped (fun _ => rfl) rfl
      | br =>
          rw [void rfl]
          exact ⟨Nat.zero_le _, fun same => absurd same Nat.zero_ne_one⟩
      | code =>
          have unformatted : areUnformatted children = true := by
            simpa [Node.isShallow] using shallow
          refine single unformatted rfl fun empty => ?_
          have blank : treeInk children = 0 := by rw [treeInk, empty, inkOf_nil]
          simp [Node.isQuiet, Node.writes, empty, someWrites_of_unformatted unformatted blank]
      | a =>
          have unformatted : areUnformatted children = true := by
            simpa [Node.isShallow] using shallow
          refine single unformatted rfl fun empty => ?_
          have blank : treeInk children = 0 := (collapse_eq_nil _).mp empty
          have trimmed := (trim_eq_nil _).mpr blank
          simp [Node.isQuiet, Node.writes, trimmed, someWrites_of_unformatted unformatted blank]
      | script | style | noscript | template | nav | header | footer | aside | head =>
          exact absurd inline (by decide)
      | _ => exact ⟨Nat.le_refl _, fun _ => rfl⟩

/-! ## Agreement -/

theorem inlineLost_prose {nodes : List Node} (prose : areProse nodes = true) :
    inlineLost nodes = 0 := by
  induction nodes using nodes_induction with
  | nil => rfl
  | text text rest ih => exact (zero_add _).trans (ih (areProse_cons.mp prose).2)
  | other rest ih => exact (zero_add _).trans (ih (areProse_cons.mp prose).2)
  | element name attributes children rest inner ih =>
      obtain ⟨here, later⟩ := areProse_cons.mp prose
      obtain ⟨inline, void, below⟩ := Node.isInline_of_isProse here
      rw [inlineLost, ih later, add_zero, Node.inlineLost, not_isSkipped inline]
      split
      next isBr => rw [void (by simpa using isBr), treeInk_nil]
      next =>
        split
        · rfl
        · exact inner below

theorem inlinesInk_prose {nodes : List Node} (prose : areProse nodes = true) (out : List Inline) :
    inlinesInk (collectInlines nodes out) = inlinesInk out + treeInk nodes := by
  rw [← inlinesInk_collectInlines nodes out, inlineLost_prose prose, add_zero]

theorem inlinesInk_enterInlines {nodes : List Node} (prose : areProse nodes = true)
    (out : List Inline) : inlinesInk (enterInlines nodes out) = inlinesInk out + treeInk nodes := by
  induction nodes generalizing out with
  | nil => exact (add_zero _).symm
  | cons node rest ih =>
      obtain ⟨here, later⟩ := areProse_cons.mp prose
      have read := ih later (enterInline out node)
      cases node with
      | text text =>
          rw [treeInk_text, ← add_assoc, ← inlinesInk_pushInlineText]
          exact read
      | other => exact read
      | element name attributes children =>
          have below := (Node.isInline_of_isProse here).2.2
          rw [treeInk_element, ← add_assoc, ← inlinesInk_prose below]
          exact read

/-- Containers agree when there is no text, or when every node adds what it adds when it is
entered. -/
theorem sameInContainers_iff {nodes : List Node} (prose : areProse nodes = true) :
    SameInContainers nodes ↔ treeInk nodes = 0 ∨
      (nodes.flatMap fun node => trimTexts (collectInline node [])) =
        nodes.flatMap fun node => trimTexts (enterInline [] node) := by
  have collected := inlinesInk_prose prose []
  have entered := inlinesInk_enterInlines prose []
  rw [inlinesInk_nil, zero_add] at collected entered
  rw [sameInContainers_iff_shown prose, ← trimTexts_collect, ← trimTexts_enter]
  simp only [shown, trim_plain_eq_nil_iff, collected, entered]
  by_cases blank : treeInk nodes = 0
  · simp [blank]
  · simp [blank]

/-- Containers agree on content whose formatting elements write nothing at the top, and
where codes and links hold no formatting they agree on no other. -/
theorem sameInContainers {nodes : List Node} (prose : areProse nodes = true) :
    (Unmarked nodes → SameInContainers nodes) ∧
      ((∀ node ∈ nodes, node.isShallow = true) → SameInContainers nodes → Unmarked nodes) := by
  have each : ∀ node ∈ nodes, node.isProse = true := by
    intro node member
    induction nodes with
    | nil => exact absurd member List.not_mem_nil
    | cons first rest ih =>
        obtain ⟨here, later⟩ := areProse_cons.mp prose
        rcases List.mem_cons.mp member with rfl | member
        · exact here
        · exact ih later member
  rw [sameInContainers_iff prose, Unmarked, trim_eq_nil]
  constructor
  · apply Or.imp_right
    intro quiet
    apply List.flatMap_congr
    intro node member
    rw [collectInline_eq_enterInline (each node member) (quiet node member)]
  · intro shallow
    apply Or.imp_right
    intro same
    have sums := congrArg marks same
    rw [marks_trimmed_flatMap, marks_trimmed_flatMap] at sums
    have bound : ∀ node ∈ nodes,
        marks (enterInline [] node) ≤ marks (collectInline node []) :=
      fun node member => (marks_enterInline (each node member) (shallow node member)).1
    intro node member
    apply (marks_enterInline (each node member) (shallow node member)).2
    by_contra differ
    have less := List.sum_lt_sum _ _ bound
      ⟨node, member, lt_of_le_of_ne (bound node member) differ⟩
    exact absurd sums (ne_of_gt less)

/-- An anchor without text between two texts. -/
theorem sameInContainers_anchor :
    SameInContainers [.text "see ".toList, .element .a [("name", "top".toList)] [],
      .element .span [] [.element .b [] [.text "this".toList]]] :=
  (sameInContainers (by decide)).1 (.inr (by simp [Node.isQuiet, Node.writes, someWrites, isFormatting,
    elementPlain, trim]))

/-- Bold text is bold in a paragraph and not in a `div`. -/
theorem not_sameInContainers_bold :
    ¬ SameInContainers [.element .b [] [.text ['x']]] := by
  intro same
  exact absurd (same .p .div) (by decide)

end AiCoreStack.Markdown.Html
