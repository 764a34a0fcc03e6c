import AiCoreStack.Foundation.Replace
import AiCoreStack.Foundation.Words

/-!
# Markup in feeds

Model of `strip_html` of `normalize.rs`, and of the texts that feeds send: a plain text with its
special characters escaped and tags between them.  The ampersand is decoded first, so an entity
in the text is decoded twice; and a tag ends at its first `>`, also in a quoted value.
-/

namespace AiCoreStack.Scholar

open Foundation Foundation.Replace

/-! ## Stripping -/

/-- The entities that are decoded, in the order in which they are. -/
def entities : List (Char × List Char) :=
  [('&', ['a', 'm', 'p', ';']), ('<', ['l', 't', ';']), ('>', ['g', 't', ';']),
    ('"', ['q', 'u', 'o', 't', ';']), ('\'', ['#', '3', '9', ';']),
    (' ', ['n', 'b', 's', 'p', ';'])]

/-- One character of the loop: what has been written, and whether it is in a tag. -/
def stripStep (state : List Char × Bool) (c : Char) : List Char × Bool :=
  if c = '<' then (state.1, true)
  else if c = '>' then (state.1, false)
  else if state.2 then state
  else (state.1 ++ [c], false)

/-- The chain of replacements. -/
def decodeEntities (out : List Char) : List Char :=
  entities.foldl (fun text entity => replaceAll ('&' :: entity.2) [entity.1] text) out

/-- `strip_html` -/
def stripHtml (s : List Char) : List Char :=
  collapse (decodeEntities (s.foldl stripStep ([], false)).1)

/-! ## Markup -/

/-- A special character as an entity, any other as it is. -/
def escapeChar : Char → List Char
  | '&' => ['&', 'a', 'm', 'p', ';']
  | '<' => ['&', 'l', 't', ';']
  | '>' => ['&', 'g', 't', ';']
  | '"' => ['&', 'q', 'u', 'o', 't', ';']
  | '\'' => ['&', '#', '3', '9', ';']
  | c => [c]

/-- A tag is made of plain characters and of quoted values. -/
inductive TagPart where
  | plain (c : Char)
  | quoted (quote : Char) (value : List Char)

namespace TagPart

def render : TagPart → List Char
  | plain c => [c]
  | quoted quote value => quote :: (value ++ [quote])

/-- A value ends at its quote and has no `<`; outside of values there is no `>` either. -/
def WellFormed : TagPart → Prop
  | plain c => c ∉ ['<', '>', '"', '\'']
  | quoted quote value => quote ∈ ['"', '\''] ∧ quote ∉ value ∧ '<' ∉ value

end TagPart

/-- What stands between the angle brackets of a tag. -/
def inner (tag : List TagPart) : List Char := tag.flatMap TagPart.render

def renderTag (tag : List TagPart) : List Char := '<' :: (inner tag ++ ['>'])

/-- A text whose characters have tags in front of them, and tags behind the last. -/
structure Markup where
  items : List (List (List TagPart) × Char)
  behind : List (List TagPart)

namespace Markup

/-- The plain text. -/
def text (markup : Markup) : List Char := markup.items.map Prod.snd

def tags (markup : Markup) : List (List TagPart) := markup.items.flatMap Prod.fst ++ markup.behind

/-- The text with its special characters escaped and the tags in their places. -/
def render (markup : Markup) : List Char :=
  markup.items.flatMap (fun item => item.1.flatMap renderTag ++ escapeChar item.2) ++
    markup.behind.flatMap renderTag

def WellFormed (markup : Markup) : Prop := ∀ tag ∈ markup.tags, ∀ part ∈ tag, part.WellFormed

end Markup

/-! ## What stripping leaves of a tag -/

/-- What is written of a tag: whatever stands behind the first `>` in it. -/
def leaked (tag : List TagPart) : List Char :=
  ((inner tag).dropWhile (· != '>')).filter (· != '>')

/-- The loop writes one text for another. -/
def Strips (source written : List Char) : Prop :=
  ∀ out, source.foldl stripStep (out, false) = (out ++ written, false)

theorem Strips.append {source source' written written' : List Char} (first : Strips source written)
    (second : Strips source' written') : Strips (source ++ source') (written ++ written') := by
  intro out
  rw [List.foldl_append, first, second, List.append_assoc]

theorem Strips.flatMap {β : Type} {source written : β → List Char} {items : List β}
    (each : ∀ item ∈ items, Strips (source item) (written item)) :
    Strips (items.flatMap source) (items.flatMap written) := by
  induction items with
  | nil => exact fun out => by simp
  | cons item items ih =>
      rw [List.forall_mem_cons] at each
      exact each.1.append (ih each.2)

theorem strips_clear {source : List Char} (clear : '<' ∉ source) :
    Strips source (source.filter (· != '>')) := by
  induction source with
  | nil => exact fun out => by simp
  | cons c source ih =>
      rw [List.mem_cons, not_or] at clear
      intro out
      by_cases closes : c = '>'
      · simp [stripStep, closes, ih clear.2 out]
      · simp [stripStep, closes, Ne.symm clear.1, ih clear.2 (out ++ [c])]

theorem foldl_inTag {source : List Char} (clear : '<' ∉ source) (out : List Char) :
    source.foldl stripStep (out, true) =
      (out ++ (source.dropWhile (· != '>')).filter (· != '>'), decide ('>' ∉ source)) := by
  induction source with
  | nil => simp
  | cons c source ih =>
      rw [List.mem_cons, not_or] at clear
      by_cases closes : c = '>'
      · have rest := strips_clear clear.2 out
        simp [stripStep, closes, rest]
      · simp [stripStep, closes, Ne.symm clear.1, Ne.symm closes, ih clear.2]

theorem notMem_inner {tag : List TagPart} (wellFormed : ∀ part ∈ tag, part.WellFormed) :
    '<' ∉ inner tag := by
  intro member
  obtain ⟨part, inTag, inPart⟩ := List.mem_flatMap.mp member
  cases part with
  | plain c =>
      have valid := wellFormed _ inTag
      rw [TagPart.render, List.mem_singleton] at inPart
      exact valid (by simp [← inPart])
  | quoted quote value =>
      obtain ⟨isQuote, _, clear⟩ := wellFormed _ inTag
      simp only [TagPart.render, List.mem_cons, List.mem_append, List.not_mem_nil, or_false]
        at inPart
      rcases inPart with same | inValue | same
      · simp [← same] at isQuote
      · exact clear inValue
      · simp [← same] at isQuote

theorem strips_renderTag {tag : List TagPart} (wellFormed : ∀ part ∈ tag, part.WellFormed) :
    Strips (renderTag tag) (leaked tag) := by
  intro out
  rw [renderTag, List.foldl_cons, List.foldl_append]
  change [('>' : Char)].foldl stripStep ((inner tag).foldl stripStep (out, true)) = _
  rw [foldl_inTag (notMem_inner wellFormed)]
  simp [stripStep, leaked]

/-- A tag without a `>` in it leaves nothing. -/
theorem leaked_eq_nil {tag : List TagPart} (closed : '>' ∉ inner tag) : leaked tag = [] := by
  have none' : (inner tag).dropWhile (· != '>') = [] := by
    rw [List.dropWhile_eq_nil_iff]
    intro c member
    exact bne_iff_ne.mpr (ne_of_mem_of_not_mem member closed)
  rw [leaked, none']
  rfl

/-- Quotes. -/
def isQuote (c : Char) : Bool := c == '"' || c == '\''

theorem mem_behind {c : Char} {front back : List Char} (member : c ∈ back) :
    c ∈ (front ++ '>' :: back).dropWhile (· != '>') := by
  induction front with
  | nil => simp [member]
  | cons a front ih =>
      by_cases closes : a = '>'
      · simp [closes, member]
      · simpa [closes] using ih

/-- A tag with a `>` in a value leaves at least the quote that ends the value. -/
theorem exists_quote_leaked {tag : List TagPart} (wellFormed : ∀ part ∈ tag, part.WellFormed)
    (broken : '>' ∈ inner tag) : ∃ c ∈ leaked tag, isQuote c = true := by
  obtain ⟨part, inTag, inPart⟩ := List.mem_flatMap.mp broken
  have valid := wellFormed part inTag
  cases part with
  | plain c =>
      rw [TagPart.render, List.mem_singleton] at inPart
      exact absurd valid (by simp [TagPart.WellFormed, ← inPart])
  | quoted quote value =>
      obtain ⟨isOne, _, _⟩ := valid
      have other : quote ≠ '>' := by
        rintro rfl
        simp at isOne
      have inValue : '>' ∈ value := by simpa [TagPart.render, Ne.symm other] using inPart
      obtain ⟨before, after, rfl⟩ := List.append_of_mem inValue
      obtain ⟨tagBefore, tagAfter, rfl⟩ := List.append_of_mem inTag
      have whole : inner (tagBefore ++ .quoted quote (before ++ '>' :: after) :: tagAfter) =
          (inner tagBefore ++ quote :: before) ++ '>' :: (after ++ quote :: inner tagAfter) := by
        simp [inner, TagPart.render]
      refine ⟨quote, ?_, by simpa [isQuote] using isOne⟩
      rw [leaked, whole, List.mem_filter]
      exact ⟨mem_behind (by simp), by simpa using other⟩

/-! ## Decoding -/

/-- The characters that are escaped. -/
def special : List Char := ['&', '<', '>', '"', '\'']

theorem escapeChar_of_notMem {c : Char} (plain : c ∉ special) : escapeChar c = [c] := by
  unfold escapeChar
  split <;> first | rfl | exact absurd plain (by decide)

theorem escapeChar_eq {c : Char} (isSpecial : c ∈ special) :
    ∃ first rest, escapeChar c = '&' :: first :: rest ∧ '&' ∉ first :: rest := by
  simp only [special, List.mem_cons, List.not_mem_nil, or_false] at isSpecial
  rcases isSpecial with rfl | rfl | rfl | rfl | rfl <;>
    exact ⟨_, _, rfl, by decide⟩

/-- Entities differ in their first letter. -/
theorem escapeChar_apart : ∀ b ∈ special, ∀ c ∈ special, b ≠ c →
    (escapeChar b)[1]? ≠ (escapeChar c)[1]? := by
  intro b isSpecial c isSpecial'
  simp only [special, List.mem_cons, List.not_mem_nil, or_false] at isSpecial isSpecial'
  rcases isSpecial with rfl | rfl | rfl | rfl | rfl <;>
    rcases isSpecial' with rfl | rfl | rfl | rfl | rfl <;> decide

/-- Escape all characters but those whose entities have been decoded. -/
def escapeExcept (done : List Char) (c : Char) : List Char :=
  if c ∈ done then [c] else escapeChar c

/-- One replacement takes back the escape of its character, unless the text spells the entity
out. -/
theorem replaceAll_entity {done : List Char} {c : Char} {body : List Char}
    (escaped : escapeChar c = '&' :: body) (isSpecial : c ∈ special) (fresh : c ∉ done)
    {text : List Char} (absent : '&' ∈ done → ¬ '&' :: body <:+: text) :
    replaceAll ('&' :: body) [c] (text.flatMap (escapeExcept done)) =
      text.flatMap (escapeExcept (c :: done)) := by
  obtain ⟨first, rest, entity, clear⟩ := escapeChar_eq isSpecial
  obtain rfl : body = first :: rest := List.tail_eq_of_cons_eq (escaped.symm.trans entity)
  apply replaceAll_flatMap
  · intro b
    by_cases shown : b ∈ done ∨ b ∉ special
    · left
      rw [escapeExcept]
      split
      next => rfl
      next notDone => exact escapeChar_of_notMem (shown.resolve_left notDone)
    · rw [not_or, not_not] at shown
      obtain ⟨first', rest', entity', clear'⟩ := escapeChar_eq shown.2
      refine .inr ⟨first' :: rest', by rw [escapeExcept, if_neg shown.1, entity'], clear', ?_⟩
      intro other tail leads
      have letters := escapeChar_apart b shown.2 c isSpecial other
      rw [entity, entity'] at letters
      rw [List.cons_append, List.cons_prefix_cons] at leads
      exact letters (congrArg some leads.1.symm)
  · rw [escapeExcept, if_neg fresh, escaped]
  · rw [escapeExcept, if_pos List.mem_cons_self]
  · intro b other
    simp only [escapeExcept, List.mem_cons, other, false_or]
  · exact clear
  · intro raw
    apply absent
    by_contra notDone
    rw [escapeExcept, if_neg notDone] at raw
    exact absurd raw (by decide)

/-- A text that spells out no entity but that of the ampersand. -/
def Unspelt (text : List Char) : Prop :=
  ∀ entity ∈ entities.tail, ¬ '&' :: entity.2 <:+: text

/-- Decoding takes back the escapes of such a text. -/
theorem decodeEntities_escape {text : List Char} (unspelt : Unspelt text) :
    decodeEntities (text.flatMap escapeChar) = text := by
  rw [Unspelt, entities, List.tail_cons] at unspelt
  simp only [List.forall_mem_cons] at unspelt
  obtain ⟨noLt, noGt, noQuot, noApos, noSpace, _⟩ := unspelt
  have start : text.flatMap escapeChar = text.flatMap (escapeExcept []) := rfl
  have stop : text.flatMap (escapeExcept ['\'', '"', '>', '<', '&']) = text := by
    have each (c : Char) (_ : c ∈ text) :
        escapeExcept ['\'', '"', '>', '<', '&'] c = [c] := by
      rw [escapeExcept]
      split
      next => rfl
      next notDone =>
        apply escapeChar_of_notMem
        simpa [special, and_comm, and_assoc, and_left_comm] using notDone
    rw [List.flatMap_congr each, List.flatMap_singleton']
  simp only [decodeEntities, entities, List.foldl_cons, List.foldl_nil]
  rw [start, replaceAll_entity rfl (by decide) (by decide) fun done => absurd done List.not_mem_nil,
    replaceAll_entity rfl (by decide) (by decide) fun _ => noLt,
    replaceAll_entity rfl (by decide) (by decide) fun _ => noGt,
    replaceAll_entity rfl (by decide) (by decide) fun _ => noQuot,
    replaceAll_entity rfl (by decide) (by decide) fun _ => noApos, stop,
    replaceAll_eq_self noSpace]

/-- Replacements by characters of no pattern leave none of their patterns. -/
theorem not_infix_foldl {list : List (Char × List Char)} (clear : ∀ entity ∈ list, '&' ∉ entity.2)
    (fresh : ∀ entity ∈ list, ∀ entity' ∈ list, entity.1 ∉ '&' :: entity'.2) (text : List Char) :
    ∀ entity ∈ list, ¬ '&' :: entity.2 <:+:
      list.foldl (fun text entity => replaceAll ('&' :: entity.2) [entity.1] text) text := by
  induction list using List.reverseRecOn with
  | nil => exact fun entity member => absurd member List.not_mem_nil
  | append_singleton list last ih =>
      have ends : last ∈ list ++ [last] := by simp
      intro entity member
      rw [List.foldl_append, List.foldl_cons, List.foldl_nil]
      rcases List.mem_append.mp member with before | isLast
      · have gone := ih (fun entity inList => clear entity (List.mem_append_left _ inList))
          (fun entity inList entity' inList' =>
            fresh entity (List.mem_append_left _ inList) entity' (List.mem_append_left _ inList'))
          entity before
        exact mt (infix_of_infix_replaceAll (clear entity member) (fresh last ends entity member))
          gone
      · rw [List.mem_singleton.mp isLast]
        exact not_infix_replaceAll (clear last ends) (fresh last ends last ends) _

/-- What has been decoded spells out no entity but that of the ampersand. -/
theorem unspelt_decodeEntities (out : List Char) : Unspelt (decodeEntities out) := by
  rw [decodeEntities, entities, List.foldl_cons]
  exact not_infix_foldl (by decide +kernel) (by decide +kernel) _

/-- A pattern stands on one side of what is not in it. -/
theorem infix_append_cons {c : Char} {pattern : List Char} (absent : c ∉ pattern)
    {left right : List Char} (inside : pattern <:+: left ++ c :: right) :
    pattern <:+: left ∨ pattern <:+: right := by
  have ahead {front : List Char} (leads : pattern <+: front ++ c :: right) : pattern <+: front := by
    rcases Nat.lt_or_ge front.length pattern.length with longer | shorter
    · have through : front ++ [c] <+: pattern :=
        List.prefix_of_prefix_length_le ⟨right, by simp⟩ leads (by simpa using longer)
      exact absurd (through.subset (by simp)) absent
    · exact List.prefix_of_prefix_length_le leads (List.prefix_append _ _) shorter
  induction left with
  | nil =>
      rcases List.infix_cons_iff.mp inside with leads | later
      · rw [List.prefix_nil.mp (@ahead [] leads)]
        exact .inl (List.nil_infix)
      · exact .inr later
  | cons a left ih =>
      rcases List.infix_cons_iff.mp inside with leads | later
      · exact .inl (@ahead (a :: left) leads).isInfix
      · exact (ih later).imp_left fun found => found.trans (List.suffix_cons a left).isInfix

theorem infix_of_mem_words {text word : List Char} (member : word ∈ words isWhitespace text) :
    word <:+: text := by
  induction text using blank_induction isWhitespace with
  | whole text solid =>
      rw [words_of_solid solid, List.mem_filter, List.mem_singleton] at member
      rw [member.1]
  | cut front c rest solid isBlank ih =>
      rw [words_append_cons isBlank, List.mem_append] at member
      rcases member with before | behind
      · rw [words_of_solid solid, List.mem_filter, List.mem_singleton] at before
        rw [before.1]
        exact (List.prefix_append _ _).isInfix
      · exact (ih behind).trans ((List.suffix_cons c rest).trans
          (List.suffix_append front _)).isInfix

/-- A pattern without spaces stands in one of the words. -/
theorem infix_of_collapse {pattern text : List Char} (absent : ' ' ∉ pattern)
    (inside : pattern <:+: collapse text) : pattern <:+: text := by
  have parts (list : List (List Char)) (each : ∀ word ∈ list, word <:+: text)
      (inside : pattern <:+: [' '].intercalate list) : pattern <:+: text := by
    induction list with
    | nil =>
        have empty : pattern = [] := by simpa using inside
        rw [empty]
        exact List.nil_infix
    | cons word list ih =>
        rw [List.forall_mem_cons] at each
        cases list with
        | nil =>
            rw [List.intercalate_singleton] at inside
            exact inside.trans each.1
        | cons next rest =>
            rw [List.intercalate_cons_cons, List.append_assoc, List.singleton_append] at inside
            rcases infix_append_cons absent inside with first | later
            · exact first.trans each.1
            · exact ih each.2 later
  exact parts _ (fun _ member => infix_of_mem_words member) inside

/-! ## Quotes -/

/-- The quotes that a text has once it is decoded. -/
def quotes (text : List Char) : Nat :=
  text.countP isQuote + occurrences ['&', 'q', 'u', 'o', 't', ';'] text +
    occurrences ['&', '#', '3', '9', ';'] text

theorem quotes_append_le (left right : List Char) :
    quotes left + quotes right ≤ quotes (left ++ right) := by
  have quot := occurrences_append_le ['&', 'q', 'u', 'o', 't', ';'] left right
  have apos := occurrences_append_le ['&', '#', '3', '9', ';'] left right
  rw [quotes, quotes, quotes, List.countP_append]
  omega

theorem quotes_flatMap_le {β : Type} (part : β → List Char) (items : List β) :
    (items.map fun item => quotes (part item)).sum ≤ quotes (items.flatMap part) := by
  induction items with
  | nil => simp
  | cons item items ih =>
      have split := quotes_append_le (part item) (items.flatMap part)
      rw [List.map_cons, List.sum_cons, List.flatMap_cons]
      omega

/-- An escaped character counts as itself. -/
theorem quotes_escapeChar (c : Char) : (if isQuote c then 1 else 0) ≤ quotes (escapeChar c) := by
  by_cases isSpecial : c ∈ special
  · simp only [special, List.mem_cons, List.not_mem_nil, or_false] at isSpecial
    rcases isSpecial with rfl | rfl | rfl | rfl | rfl <;> decide +kernel
  · rw [escapeChar_of_notMem isSpecial, quotes, List.countP_singleton]
    omega

/-- Texts of different first letters do not begin alike. -/
theorem not_prefix_cons {a b : Char} (other : a ≠ b) (left right rest : List Char) :
    ¬ a :: left <+: b :: right ++ rest := fun leads =>
  other (List.cons_prefix_cons.mp leads).1

/-- Decoding another entity loses no quote. -/
theorem quotes_le_replaceAll (c : Char) {a : Char} {body : List Char} (clear : '&' ∉ a :: body)
    (silent : ∀ b ∈ '&' :: a :: body, isQuote b = false) (notQuot : 'q' ≠ a) (notApos : '#' ≠ a)
    (text : List Char) : quotes text ≤ quotes (replaceAll ('&' :: a :: body) [c] text) := by
  have count := countP_replaceAll isQuote clear silent [c] text
  have quot : occurrences (['&', 'q', 'u', 'o', 't', ';']) text ≤ _ :=
    occurrences_le_replaceAll clear (by decide) (not_prefix_cons notQuot _ _) [c] text
  have apos : occurrences (['&', '#', '3', '9', ';']) text ≤ _ :=
    occurrences_le_replaceAll clear (by decide) (not_prefix_cons notApos _ _) [c] text
  change text.countP isQuote + occurrences (['&', 'q', 'u', 'o', 't', ';']) text +
      occurrences (['&', '#', '3', '9', ';']) text ≤
    (replaceAll ('&' :: a :: body) [c] text).countP isQuote +
      occurrences (['&', 'q', 'u', 'o', 't', ';']) (replaceAll ('&' :: a :: body) [c] text) +
      occurrences (['&', '#', '3', '9', ';']) (replaceAll ('&' :: a :: body) [c] text)
  omega

/-- Decoding the quotes themselves makes them count. -/
theorem quotes_le_decoded (text : List Char) :
    quotes text ≤ (replaceAll ['&', '#', '3', '9', ';'] ['\'']
      (replaceAll ['&', 'q', 'u', 'o', 't', ';'] ['"'] text)).countP isQuote := by
  have apos : occurrences ['&', '#', '3', '9', ';'] text ≤
      occurrences ['&', '#', '3', '9', ';'] (replaceAll ['&', 'q', 'u', 'o', 't', ';'] ['"'] text) :=
    occurrences_le_replaceAll (by decide) (by decide) (not_prefix_cons (by decide) _ _) ['"'] text
  rw [countP_replaceAll isQuote (by decide) (by simp [isQuote]),
    countP_replaceAll isQuote (by decide) (by simp [isQuote]), quotes]
  simp only [isQuote, List.countP_singleton, beq_self_eq_true, Bool.or_true, Bool.true_or, if_true,
    Nat.mul_one]
  omega

/-- Decoding loses no quote. -/
theorem quotes_le_decodeEntities (out : List Char) :
    quotes out ≤ (decodeEntities out).countP isQuote := by
  simp only [decodeEntities, entities, List.foldl_cons, List.foldl_nil]
  rw [@countP_replaceAll _ _ '&' _ isQuote (by decide) (by simp [isQuote]) [' ']]
  calc quotes out
      ≤ quotes (replaceAll ['&', 'a', 'm', 'p', ';'] ['&'] out) :=
        quotes_le_replaceAll '&' (by decide) (by simp [isQuote]) (by decide) (by decide) out
    _ ≤ quotes (replaceAll ['&', 'l', 't', ';'] ['<'] _) :=
        quotes_le_replaceAll '<' (by decide) (by simp [isQuote]) (by decide) (by decide) _
    _ ≤ quotes (replaceAll ['&', 'g', 't', ';'] ['>'] _) :=
        quotes_le_replaceAll '>' (by decide) (by simp [isQuote]) (by decide) (by decide) _
    _ ≤ _ := quotes_le_decoded _
    _ ≤ _ := Nat.le_add_right _ _

/-! ## Stripping marked-up texts -/

theorem countP_collapse (text : List Char) :
    (collapse text).countP isQuote = text.countP isQuote := by
  have visible (text : List Char) :
      text.countP isQuote = (ink isWhitespace text).countP fun c => isQuote c = true := by
    rw [ink, Multiset.coe_countP, List.countP_filter]
    apply List.countP_congr
    intro c _
    have inkless : isQuote c = true → isWhitespace c = false := by
      rw [isQuote, Bool.or_eq_true, beq_iff_eq, beq_iff_eq]
      rintro (rfl | rfl) <;> decide
    simpa using inkless
  rw [visible, visible, ink_collapse]

namespace Markup

variable {markup : Markup}

/-- What the loop over the characters writes. -/
def written (markup : Markup) : List Char :=
  markup.items.flatMap (fun item => item.1.flatMap leaked ++ escapeChar item.2) ++
    markup.behind.flatMap leaked

theorem strips_escapeChar (c : Char) : Strips (escapeChar c) (escapeChar c) := by
  have clear : '<' ∉ escapeChar c ∧ '>' ∉ escapeChar c := by
    by_cases isSpecial : c ∈ special
    · simp only [special, List.mem_cons, List.not_mem_nil, or_false] at isSpecial
      rcases isSpecial with rfl | rfl | rfl | rfl | rfl <;> decide
    · rw [escapeChar_of_notMem isSpecial, List.mem_singleton, List.mem_singleton]
      constructor <;> (rintro rfl; exact isSpecial (by decide))
  have kept : (escapeChar c).filter (· != '>') = escapeChar c :=
    List.filter_eq_self.mpr fun a member => bne_iff_ne.mpr (ne_of_mem_of_not_mem member clear.2)
  have stripped := strips_clear clear.1
  rwa [kept] at stripped

theorem stripHtml_render (wellFormed : markup.WellFormed) :
    stripHtml markup.render = collapse (decodeEntities markup.written) := by
  have tags {list : List (List TagPart)} (inMarkup : ∀ tag ∈ list, tag ∈ markup.tags) :
      Strips (list.flatMap renderTag) (list.flatMap leaked) :=
    .flatMap fun tag member => strips_renderTag (wellFormed tag (inMarkup tag member))
  have whole : Strips markup.render markup.written := by
    apply Strips.append
    · apply Strips.flatMap
      intro item member
      exact (tags fun tag inItem => List.mem_append_left _
        (List.mem_flatMap.mpr ⟨item, member, inItem⟩)).append (strips_escapeChar item.2)
    · exact tags fun tag inBehind => List.mem_append_right _ inBehind
  rw [stripHtml, whole [], List.nil_append]

/-- Tags that leave nothing leave the escaped text. -/
theorem written_of_closed (closed : ∀ tag ∈ markup.tags, '>' ∉ inner tag) :
    markup.written = markup.text.flatMap escapeChar := by
  have silent {list : List (List TagPart)} (inMarkup : ∀ tag ∈ list, tag ∈ markup.tags) :
      list.flatMap leaked = [] :=
    List.flatMap_eq_nil_iff.mpr fun tag member =>
      leaked_eq_nil (closed tag (inMarkup tag member))
  rw [written, silent fun tag inBehind => List.mem_append_right _ inBehind, List.append_nil, text,
    List.flatMap_map]
  apply List.flatMap_congr
  intro item member
  rw [silent fun tag inItem => List.mem_append_left _
    (List.mem_flatMap.mpr ⟨item, member, inItem⟩), List.nil_append]

theorem quotes_leaked (list : List (List TagPart)) :
    (list.map fun tag => (leaked tag).countP isQuote).sum ≤ quotes (list.flatMap leaked) := by
  refine le_trans (List.sum_le_sum fun tag _ => ?_) (quotes_flatMap_le leaked list)
  exact (Nat.le_add_right _ _).trans (Nat.le_add_right _ _)

theorem quotes_items (items : List (List (List TagPart) × Char)) :
    (items.map Prod.snd).countP isQuote +
        ((items.flatMap Prod.fst).map fun tag => (leaked tag).countP isQuote).sum ≤
      quotes (items.flatMap fun item => item.1.flatMap leaked ++ escapeChar item.2) := by
  induction items with
  | nil => simp
  | cons item items ih =>
      have tags := quotes_leaked item.1
      have char := quotes_escapeChar item.2
      have joined := quotes_append_le (item.1.flatMap leaked) (escapeChar item.2)
      have split := quotes_append_le (item.1.flatMap leaked ++ escapeChar item.2)
        (items.flatMap fun item => item.1.flatMap leaked ++ escapeChar item.2)
      rw [List.map_cons, List.countP_cons, List.flatMap_cons, List.map_append, List.sum_append,
        List.flatMap_cons]
      omega

/-- The quotes of the text and of what tags leave are among those that are decoded. -/
theorem quotes_written (markup : Markup) :
    markup.text.countP isQuote + (markup.tags.map fun tag => (leaked tag).countP isQuote).sum ≤
      quotes markup.written := by
  have items := quotes_items markup.items
  have behind := quotes_leaked markup.behind
  have split := quotes_append_le
    (markup.items.flatMap fun item => item.1.flatMap leaked ++ escapeChar item.2)
    (markup.behind.flatMap leaked)
  rw [tags, List.map_append, List.sum_append, text, written]
  omega

/-- Stripping gives the text back exactly when it spells out no entity but that of the ampersand
and no tag has a `>` in a value. -/
theorem stripHtml_render_iff (wellFormed : markup.WellFormed)
    (normal : collapse markup.text = markup.text) :
    stripHtml markup.render = markup.text ↔
      Unspelt markup.text ∧ ∀ tag ∈ markup.tags, '>' ∉ inner tag := by
  rw [stripHtml_render wellFormed]
  constructor
  · intro same
    constructor
    · intro entity member inside
      have solid : ∀ entity ∈ entities.tail, ' ' ∉ '&' :: entity.2 := by decide
      rw [← same] at inside
      exact unspelt_decodeEntities markup.written entity member
        (infix_of_collapse (solid entity member) inside)
    · intro tag member broken
      obtain ⟨c, inLeak, quote⟩ := exists_quote_leaked (wellFormed tag member) broken
      have leaks : 0 < (leaked tag).countP isQuote := List.countP_pos_iff.mpr ⟨c, inLeak, quote⟩
      have among := List.single_le_sum (fun _ _ => Nat.zero_le _) _
        (List.mem_map_of_mem (f := fun tag => (leaked tag).countP isQuote) member)
      have before := quotes_written markup
      have after := quotes_le_decodeEntities markup.written
      rw [← countP_collapse, same] at after
      omega
  · rintro ⟨unspelt, closed⟩
    rw [written_of_closed closed, decodeEntities_escape unspelt, normal]

/-- `<b>&amp;</b>` -/
def bold : Markup := ⟨[([[.plain 'b']], '&')], [[.plain '/', .plain 'b']]⟩

theorem stripHtml_render_iff_bold : stripHtml bold.render = bold.text ↔
    Unspelt bold.text ∧ ∀ tag ∈ bold.tags, '>' ∉ inner tag :=
  stripHtml_render_iff (by simp [WellFormed, tags, bold, TagPart.WellFormed]) (by decide +kernel)

/-- `&amp;lt;`, the text that spells out the entity of `<`. -/
def spelt : Markup := ⟨"&lt;".toList.map fun c => ([], c), []⟩

/-- `<a title="1>0">x`, with a `>` in a value. -/
def broken : Markup :=
  ⟨[(["a title=".toList.map .plain ++ [.quoted '"' "1>0".toList]], 'x')], []⟩

/-- An entity that the text spells out is decoded, and a tag is cut off within its value. -/
theorem not_inverse :
    (spelt.WellFormed ∧ collapse spelt.text = spelt.text ∧
      stripHtml spelt.render = ['<'] ∧ spelt.text ≠ ['<']) ∧
    (broken.WellFormed ∧ collapse broken.text = broken.text ∧
      stripHtml broken.render = "0\"x".toList ∧ broken.text = ['x']) := by
  refine ⟨⟨?_, by decide +kernel, by decide +kernel, by decide +kernel⟩, ?_, by decide +kernel,
    by decide +kernel, by decide +kernel⟩
  · simp [WellFormed, tags, spelt]
  · simp [WellFormed, tags, broken, TagPart.WellFormed]

end Markup

end AiCoreStack.Scholar
