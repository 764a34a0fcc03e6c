import AiCoreStack.Foundation.Pieces
import AiCoreStack.Foundation.Words
import AiCoreStack.Scholar.Model

/-!
# The query builder of arXiv

Model of `build_search_query` and `sanitize_token` of `sources/arxiv.rs`, and the queries it is
to write: phrases and words joined by `AND`, then the categories joined by `OR`.  The text outside
closed quotes is put together before it is cut into words, so words that only a phrase keeps
apart become one; where no clause is left the text itself is sent.
-/

namespace AiCoreStack.Scholar

open Foundation Foundation.Pieces

variable (tables : Unicode)

/-! ## The builder -/

/-- The characters of a token that mean nothing to the grammar. -/
def queryChar (c : Char) : Bool :=
  tables.isAlphanumeric c || c == '-' || c == '_' || c == '.' || c == '\''

/-- Take away the characters that mean something to the grammar. -/
def sanitizeToken (tok : List Char) : List Char := tok.filter (queryChar tables)

/-- What the loop over the text carries along. -/
structure QueryScan where
  clauses : List (List Char)
  rest : List Char
  phrase : List Char
  inQuote : Bool

/-- One character of the text. -/
def QueryScan.step (scan : QueryScan) (ch : Char) : QueryScan :=
  if ch = '"' then
    if scan.inQuote then
      let p := trim isWhitespace scan.phrase
      { scan with
        clauses := if p.isEmpty then scan.clauses
          else scan.clauses ++ ["all:".toList ++ '"' :: (p ++ ['"'])]
        phrase := []
        inQuote := false }
    else { scan with inQuote := true }
  else if scan.inQuote then { scan with phrase := scan.phrase ++ [ch] }
  else { scan with rest := scan.rest ++ [ch] }

/-- The text outside closed quotes; what an unclosed quote holds is given back. -/
def QueryScan.plain (scan : QueryScan) : List Char :=
  if (trim isWhitespace scan.phrase).isEmpty then scan.rest else scan.rest ++ ' ' :: scan.phrase

/-- `build_search_query` -/
def buildSearchQuery (text : List Char) (categories : List (List Char)) : List Char :=
  let scan := text.foldl QueryScan.step ⟨[], [], [], false⟩
  let tokens := ((words isWhitespace scan.plain).map (sanitizeToken tables)).filter
    fun t => !t.isEmpty
  let clauses := scan.clauses ++ tokens.map fun t => "all:".toList ++ t
  let core := if clauses.isEmpty then "all:".toList ++ trim isWhitespace text
    else " AND ".toList.intercalate clauses
  if categories.isEmpty then core
  else
    let cats := categories.map fun c => "cat:".toList ++ trim isWhitespace c
    '(' :: core ++ ") AND (".toList ++ " OR ".toList.intercalate cats ++ [')']

/-! ## The grammar -/

/-- What a query asks for. -/
inductive Clause where
  | phrase (text : List Char)
  | word (text : List Char)
  deriving DecidableEq

def Clause.render : Clause → List Char
  | .phrase text => "all:".toList ++ '"' :: (text ++ ['"'])
  | .word text => "all:".toList ++ text

/-- A phrase keeps within its quotes; a word has none of the characters of the grammar. -/
def Clause.WellFormed : Clause → Prop
  | .phrase text => text ≠ [] ∧ Tight isWhitespace text ∧ '"' ∉ text
  | .word text => text ≠ [] ∧ ∀ c ∈ text, queryChar tables c = true ∧ c ∉ ['(', ')', ':', '"', ' ']

/-- The characters of categories. -/
def categoryChar (c : Char) : Bool := tables.isAlphanumeric c || c == '.' || c == '-'

/-- Clauses that all have to hold, in one of the categories. -/
structure ArxivQuery where
  clauses : List Clause
  categories : List (List Char)

namespace ArxivQuery

def core (query : ArxivQuery) : List Char :=
  " AND ".toList.intercalate (query.clauses.map Clause.render)

def render (query : ArxivQuery) : List Char :=
  if query.categories.isEmpty then query.core
  else
    '(' :: query.core ++ ") AND (".toList ++
      " OR ".toList.intercalate (query.categories.map fun c => "cat:".toList ++ c) ++ [')']

structure WellFormed (query : ArxivQuery) : Prop where
  asks : query.clauses ≠ []
  clauses : ∀ clause ∈ query.clauses, clause.WellFormed tables
  categories : ∀ category ∈ query.categories,
    category ≠ [] ∧ ∀ c ∈ category, categoryChar tables c = true

end ArxivQuery

/-! ## What a text asks for -/

/-- A text with its closed quotes taken together. -/
inductive Token where
  | char (c : Char)
  | phrase (text : List Char)
  | openQuote
  deriving DecidableEq

/-- The tokens of a text, outside quotes or inside one that has begun. -/
def tokens : Option (List Char) → List Char → List Token
  | none, [] => []
  | none, c :: rest => if c = '"' then tokens (some []) rest else .char c :: tokens none rest
  | some begun, [] => .openQuote :: begun.map .char
  | some begun, c :: rest =>
      if c = '"' then .phrase begun :: tokens none rest else tokens (some (begun ++ [c])) rest

namespace Token

/-- What a token is outside of phrases; an unclosed quote separates like a space. -/
def char? : Token → Option Char
  | .char c => some c
  | .phrase _ => none
  | .openQuote => some ' '

def isPhrase : Token → Bool
  | .phrase _ => true
  | _ => false

def breaks (token : Token) : Bool := token.char?.any isWhitespace

/-- A phrase to search for. -/
def phrase? : Token → Option (List Char)
  | .phrase text => if (trim isWhitespace text).isEmpty then none
      else some (trim isWhitespace text)
  | _ => none

end Token

/-- The stretches of a text that white space outside closed quotes leaves, and of each the
pieces that its phrases leave. -/
def stretches (text : List Char) : List (List (List Char)) :=
  ((tokens none text).splitOnP Token.breaks).map fun stretch =>
    (stretch.splitOnP Token.isPhrase).map (List.filterMap Token.char?)

/-- The trimmed phrases of a text. -/
def phrasesOf (text : List Char) : List (List Char) := (tokens none text).filterMap Token.phrase?

/-- The sanitised words of a text, which white space and quotes delimit. -/
def wordsOf (text : List Char) : List (List Char) :=
  filled ((stretches text).flatten.map (sanitizeToken tables))

/-- What a text asks for. -/
def clausesOf (text : List Char) : List Clause :=
  (phrasesOf text).map .phrase ++ (wordsOf tables text).map .word

/-- The query that a text and categories stand for, in any order of the clauses. -/
def Expresses (text : List Char) (categories : List (List Char)) (written : List Char) : Prop :=
  ∃ query : ArxivQuery, query.WellFormed tables ∧ query.clauses.Perm (clausesOf tables text) ∧
    query.categories = categories ∧ written = query.render

/-- No stretch of the text outside closed quotes has two pieces with something to search for. -/
def Separated (text : List Char) : Prop :=
  ∀ stretch ∈ stretches text, (filled (stretch.map (sanitizeToken tables))).length ≤ 1

/-- What is known of the tables: they are those of ASCII there, and white space is neither
letter nor number. -/
structure Unicode.Sound : Prop where
  ascii : ∀ c : Char, c.toNat < 128 → tables.isAlphanumeric c = c.isAlphanum
  blank : ∀ c, isWhitespace c = true → tables.isAlphanumeric c = false

/-! ## What the builder writes -/

/-- The phrase that has begun. -/
def QueryScan.begun (scan : QueryScan) : Option (List Char) :=
  if scan.inQuote then some scan.phrase else none

/-- Outside of quotes no phrase is kept. -/
def QueryScan.Idle (scan : QueryScan) : Prop := scan.inQuote = false → scan.phrase = []

theorem QueryScan.Idle.step {scan : QueryScan} (idle : scan.Idle) (c : Char) :
    (scan.step c).Idle := by
  obtain ⟨clauses, rest, phrase, inQuote⟩ := scan
  cases inQuote with
  | false =>
      obtain rfl : phrase = [] := idle rfl
      by_cases quote : c = '"' <;> simp [QueryScan.Idle, QueryScan.step, quote]
  | true => by_cases quote : c = '"' <;> simp [QueryScan.Idle, QueryScan.step, quote]

/-- The loop writes a clause for each phrase. -/
theorem clauses_scan (text : List Char) {scan : QueryScan} (idle : scan.Idle) :
    (text.foldl QueryScan.step scan).clauses =
      scan.clauses ++ ((tokens scan.begun text).filterMap Token.phrase?).map fun p =>
        (Clause.phrase p).render := by
  induction text generalizing scan with
  | nil =>
      obtain ⟨clauses, rest, phrase, inQuote⟩ := scan
      cases inQuote with
      | false => simp [QueryScan.begun, tokens]
      | true =>
          have silent : (phrase.map Token.char).filterMap Token.phrase? = [] := by
            rw [List.filterMap_map, List.filterMap_eq_nil_iff]
            exact fun _ _ => rfl
          simp [QueryScan.begun, tokens, List.filterMap_cons, Token.phrase?, silent]
  | cons c text ih =>
      rw [List.foldl_cons, ih (idle.step c)]
      obtain ⟨clauses, rest, phrase, inQuote⟩ := scan
      cases inQuote with
      | false =>
          obtain rfl : phrase = [] := idle rfl
          by_cases quote : c = '"'
          · simp [QueryScan.step, QueryScan.begun, tokens, quote]
          · simp [QueryScan.step, QueryScan.begun, tokens, quote, List.filterMap_cons,
              Token.phrase?]
      | true =>
          by_cases quote : c = '"'
          · by_cases blank : trim isWhitespace phrase = []
            · simp [QueryScan.step, QueryScan.begun, tokens, quote, Token.phrase?, blank]
            · simp [QueryScan.step, QueryScan.begun, tokens, quote, Token.phrase?, blank,
                Clause.render]
          · simp [QueryScan.step, QueryScan.begun, tokens, quote]

/-- What is blank has no words. -/
theorem words_eq_nil_of_trim {text : List Char} (blank : trim isWhitespace text = []) :
    words isWhitespace text = [] := by
  have noInk := (trim_eq_nil_iff isWhitespace text).mp blank
  rw [← sum_ink_words, List.sum_eq_zero_iff] at noInk
  rw [List.eq_nil_iff_forall_not_mem]
  intro word member
  obtain ⟨nonempty, solid⟩ := mem_words member
  obtain ⟨c, inWord⟩ := List.exists_mem_of_ne_nil word nonempty
  have shown := (ink_eq_zero_iff _ word).mp (noInk _ (List.mem_map_of_mem member)) c inWord
  rw [solid c inWord] at shown
  exact absurd shown Bool.false_ne_true

theorem words_scanned (scan : QueryScan) :
    words isWhitespace scan.plain = words isWhitespace (scan.rest ++ ' ' :: scan.phrase) := by
  rw [QueryScan.plain]
  split
  next blank =>
    rw [words_append_cons (by decide), words_eq_nil_of_trim (List.isEmpty_iff.mp blank),
      List.append_nil]
  next => rfl

/-- The words that the loop leaves are those of the tokens without the phrases. -/
theorem words_plain (text : List Char) {scan : QueryScan} (idle : scan.Idle) :
    words isWhitespace (text.foldl QueryScan.step scan).plain =
      words isWhitespace (scan.rest ++ (tokens scan.begun text).filterMap Token.char?) := by
  induction text generalizing scan with
  | nil =>
      rw [List.foldl_nil, words_scanned]
      obtain ⟨clauses, rest, phrase, inQuote⟩ := scan
      cases inQuote with
      | false =>
          obtain rfl : phrase = [] := idle rfl
          rw [words_snoc (by decide)]
          simp [QueryScan.begun, tokens]
      | true =>
          have returned : (phrase.map Token.char).filterMap Token.char? = phrase := by
            rw [List.filterMap_map]
            exact List.filterMap_some
          simp [QueryScan.begun, tokens, Token.char?, returned]
  | cons c text ih =>
      rw [List.foldl_cons, ih (idle.step c)]
      obtain ⟨clauses, rest, phrase, inQuote⟩ := scan
      cases inQuote with
      | false =>
          obtain rfl : phrase = [] := idle rfl
          by_cases quote : c = '"'
          · simp [QueryScan.step, QueryScan.begun, tokens, quote]
          · simp [QueryScan.step, QueryScan.begun, tokens, quote, Token.char?]
      | true =>
          by_cases quote : c = '"'
          · simp [QueryScan.step, QueryScan.begun, tokens, quote, List.filterMap_cons,
              Token.char?]
          · simp [QueryScan.step, QueryScan.begun, tokens, quote]

/-- The pieces of each stretch, with what is searched for in them. -/
def searched (text : List Char) : List (List (List Char)) :=
  (stretches text).map (List.map (sanitizeToken tables))

theorem wordsOf_eq (text : List Char) :
    wordsOf tables text = (searched tables text).flatMap filled := by
  rw [wordsOf, searched, List.flatMap_map]
  induction stretches text with
  | nil => rfl
  | cons stretch rest ih =>
      rw [List.flatten_cons, List.map_append, filled_append, ih, List.flatMap_cons]

/-- The words that the builder writes: the pieces of each stretch in one. -/
def joinedWords (text : List Char) : List (List Char) :=
  (searched tables text).flatMap fun pieces => filled [pieces.flatten]

theorem joinedWords_eq (text : List Char) :
    ((words isWhitespace (text.foldl QueryScan.step ⟨[], [], [], false⟩).plain).map
      (sanitizeToken tables)).filter (fun t => !t.isEmpty) = joinedWords tables text := by
  have silent (token : Token) (phrase : token.isPhrase = true) : token.char? = none := by
    cases token <;> simp_all [Token.isPhrase, Token.char?]
  have idle : QueryScan.Idle ⟨[], [], [], false⟩ := fun _ => rfl
  rw [words_plain _ idle]
  change filled ((filled (((tokens none text).filterMap Token.char?).splitOnP isWhitespace)).map
    (sanitizeToken tables)) = _
  have breaks (token : Token) : token.breaks = token.char?.any isWhitespace := rfl
  rw [filled_map_filled (by rfl), splitOnP_filterMap breaks, List.map_map, filled_map, joinedWords, searched, stretches, List.map_map, List.flatMap_map]
  apply List.flatMap_congr
  intro stretch _
  rw [Function.comp, Function.comp, ← flatten_splitOnP_filterMap silent stretch, sanitizeToken,
    List.filter_flatten]
  rfl

/-! ## The written query -/

/-- The clauses that the builder writes. -/
def writtenClauses (text : List Char) : List Clause :=
  (phrasesOf text).map .phrase ++ (joinedWords tables text).map .word

/-- With a clause to write, the builder writes the query of its clauses. -/
theorem buildSearchQuery_eq {text : List Char} {categories : List (List Char)}
    (present : writtenClauses tables text ≠ [])
    (trimmed : ∀ category ∈ categories, trim isWhitespace category = category) :
    buildSearchQuery tables text categories =
      (⟨writtenClauses tables text, categories⟩ : ArxivQuery).render := by
  have idle : QueryScan.Idle ⟨[], [], [], false⟩ := fun _ => rfl
  have clauses : (text.foldl QueryScan.step ⟨[], [], [], false⟩).clauses ++
      (joinedWords tables text).map (fun t => "all:".toList ++ t) =
        (writtenClauses tables text).map Clause.render := by
    rw [clauses_scan text idle, writtenClauses, List.map_append, List.map_map, List.map_map]
    rfl
  have filed : ((writtenClauses tables text).map Clause.render).isEmpty = false := by
    simpa using present
  have cats : categories.map (fun c => "cat:".toList ++ trim isWhitespace c) =
      categories.map fun c => "cat:".toList ++ c :=
    List.map_congr_left fun c member => by rw [trimmed c member]
  rw [buildSearchQuery]
  dsimp only
  rw [joinedWords_eq, clauses, filed, cats]
  rfl

/-- Tokens keep quotes out of their phrases. -/
theorem notMem_phrase {begun : Option (List Char)} (clean : ∀ p ∈ begun, '"' ∉ p)
    {text p : List Char} (member : Token.phrase p ∈ tokens begun text) : '"' ∉ p := by
  induction text generalizing begun with
  | nil => cases begun <;> simp [tokens] at member
  | cons c text ih =>
      cases begun with
      | none =>
          rw [tokens] at member
          split at member
          next => exact ih (by simp) member
          next =>
            exact ih (fun q absent => absurd absent (Option.not_mem_none q))
              (by simpa using member)
      | some q =>
          rw [tokens] at member
          split at member
          next =>
            rw [List.mem_cons, Token.phrase.injEq] at member
            rcases member with rfl | later
            · exact clean p rfl
            · exact ih (by simp) later
          next other =>
            refine ih ?_ member
            intro longer isLonger
            rw [← Option.mem_some_iff.mp isLonger]
            simp [clean q rfl, Ne.symm other]

theorem wellFormed_phrase {text p : List Char} (member : p ∈ phrasesOf text) :
    (Clause.phrase p).WellFormed tables := by
  obtain ⟨token, inTokens, read⟩ := List.mem_filterMap.mp member
  cases token with
  | char c => simp [Token.phrase?] at read
  | openQuote => simp [Token.phrase?] at read
  | phrase q =>
      rw [Token.phrase?] at read
      split at read
      next => simp at read
      next present =>
        obtain rfl := Option.some.inj read
        obtain ⟨front, back, whole, -, -⟩ := exists_append_trim isWhitespace q
        have clean := notMem_phrase (fun q absent => absurd absent (Option.not_mem_none q)) inTokens
        refine ⟨by simpa using present, tight_trim _ _, ?_⟩
        intro inside
        rw [whole] at clean
        exact clean (by simp [inside])

theorem Unicode.Sound.notMem_syntax (sound : tables.Sound) {c : Char}
    (kept : queryChar tables c = true) : c ∉ ['(', ')', ':', '"', ' '] := by
  intro meant
  have low : c.toNat < 128 := by
    simp only [List.mem_cons, List.not_mem_nil, or_false] at meant
    rcases meant with rfl | rfl | rfl | rfl | rfl <;> decide
  rw [queryChar, sound.ascii c low] at kept
  simp only [List.mem_cons, List.not_mem_nil, or_false] at meant
  rcases meant with rfl | rfl | rfl | rfl | rfl <;> exact absurd kept (by decide)

theorem wellFormed_word (sound : tables.Sound) {word : List Char} (nonempty : word ≠ [])
    {tok : List Char} (only : word ⊆ sanitizeToken tables tok) :
    (Clause.word word).WellFormed tables := by
  refine ⟨nonempty, fun c member => ?_⟩
  have kept := (List.mem_filter.mp (only member)).2
  exact ⟨kept, sound.notMem_syntax tables kept⟩

theorem wellFormed_written (sound : tables.Sound) {text : List Char} {clause : Clause}
    (member : clause ∈ writtenClauses tables text) : clause.WellFormed tables := by
  rw [writtenClauses, List.mem_append] at member
  rcases member with inPhrases | inWords
  · obtain ⟨p, ofText, rfl⟩ := List.mem_map.mp inPhrases
    exact wellFormed_phrase tables ofText
  · obtain ⟨word, ofText, rfl⟩ := List.mem_map.mp inWords
    obtain ⟨pieces, inSearched, kept⟩ := List.mem_flatMap.mp ofText
    obtain ⟨stretch, _, rfl⟩ := List.mem_map.mp inSearched
    obtain ⟨single, nonempty⟩ := List.mem_filter.mp kept
    have whole : word = sanitizeToken tables stretch.flatten := by
      rw [List.mem_singleton.mp single]
      exact List.filter_flatten.symm
    exact wellFormed_word tables sound (by simpa using nonempty)
      fun c member => whole ▸ member

/-! ## Reading a query back -/

theorem head?_of_follows {rest : List Char} (follows : Follows " AND ".toList rest) :
    ∀ c ∈ rest.head?, c = ' ' := by
  intro c first
  rcases follows with rfl | ⟨tail, rfl⟩
  · simp at first
  · exact (Option.mem_some_iff.mp first).symm

/-- A text ends where the first of a character stands. -/
theorem ends_before {stop : Char} {text text' rest rest' : List Char} (clear : stop ∉ text)
    (clear' : stop ∉ text') (follows : ∀ c ∈ rest.head?, c = stop)
    (follows' : ∀ c ∈ rest'.head?, c = stop) (same : text ++ rest = text' ++ rest') :
    text = text' := by
  have front {text rest : List Char} (clear : stop ∉ text) (follows : ∀ c ∈ rest.head?, c = stop) :
      (text ++ rest).takeWhile (fun c => c != stop) = text := by
    rw [List.takeWhile_append_of_pos fun c member =>
      bne_iff_ne.mpr (ne_of_mem_of_not_mem member clear)]
    cases rest with
    | nil => simp
    | cons c rest => simp [follows c rfl]
  rw [← front clear follows, same, front clear' follows']

/-- A clause shows where it ends. -/
theorem Clause.ends {clause clause' : Clause} {rest rest' : List Char}
    (valid : clause.WellFormed tables) (valid' : clause'.WellFormed tables)
    (follows : Follows " AND ".toList rest) (follows' : Follows " AND ".toList rest')
    (same : clause.render ++ rest = clause'.render ++ rest') : clause = clause' := by
  have quoted {p word rest rest' : List Char} (validWord : (Clause.word word).WellFormed tables) :
      ¬ '"' :: (p ++ ['"']) ++ rest = word ++ rest' := by
    intro same
    cases word with
    | nil => exact validWord.1 rfl
    | cons c word =>
        have first := (List.cons.inj same).1
        exact (validWord.2 c List.mem_cons_self).2 (by simp [← first])
  cases clause with
  | phrase p =>
      rw [Clause.render, List.append_assoc] at same
      cases clause' with
      | phrase q =>
          rw [Clause.render, List.append_assoc] at same
          have inner := List.append_cancel_left same
          rw [List.cons_append, List.cons_append, List.append_assoc, List.append_assoc] at inner
          have closing (rest : List Char) : ∀ c ∈ (['"'] ++ rest).head?, c = '"' :=
            fun c first => (Option.mem_some_iff.mp first).symm
          rw [ends_before valid.2.2 valid'.2.2 (closing _) (closing _) (List.cons.inj inner).2]
      | word word =>
          rw [Clause.render, List.append_assoc] at same
          exact (quoted valid' (List.append_cancel_left same)).elim
  | word word =>
      rw [Clause.render, List.append_assoc] at same
      cases clause' with
      | phrase q =>
          rw [Clause.render, List.append_assoc] at same
          exact (quoted valid (List.append_cancel_left same).symm).elim
      | word word' =>
          rw [Clause.render, List.append_assoc] at same
          have solid {word : List Char} (valid : (Clause.word word).WellFormed tables) :
              ' ' ∉ word := fun member => (valid.2 ' ' member).2 (by simp)
          rw [ends_before (solid valid) (solid valid') (head?_of_follows follows)
            (head?_of_follows follows') (List.append_cancel_left same)]

/-- A query for given categories has one reading. -/
theorem render_injective {clauses clauses' : List Clause} {categories : List (List Char)}
    (present : clauses ≠ []) (present' : clauses' ≠ [])
    (valid : ∀ clause ∈ clauses, clause.WellFormed tables)
    (valid' : ∀ clause ∈ clauses', clause.WellFormed tables)
    (same : (⟨clauses, categories⟩ : ArxivQuery).render =
      (⟨clauses', categories⟩ : ArxivQuery).render) : clauses = clauses' := by
  have core : (⟨clauses, categories⟩ : ArxivQuery).core =
      (⟨clauses', categories⟩ : ArxivQuery).core := by
    rw [ArxivQuery.render, ArxivQuery.render] at same
    split at same
    next => exact same
    next =>
      rw [List.append_left_inj, List.append_left_inj, List.append_left_inj, List.cons.injEq] at same
      exact same.2
  exact intercalate_injective (by decide) (Clause.ends tables) present present' valid valid' core

/-! ## When the builder does -/

variable {tables}

theorem trim_category {category : List Char} (sound : tables.Sound)
    (allowed : ∀ c ∈ category, categoryChar tables c = true) :
    trim isWhitespace category = category := by
  have solid : Solid isWhitespace category := by
    intro c member
    by_contra shown
    rw [Bool.not_eq_false] at shown
    have letter := allowed c member
    rw [categoryChar, sound.blank c shown, Bool.false_or, Bool.or_eq_true, beq_iff_eq, beq_iff_eq]
      at letter
    rcases letter with rfl | rfl <;> exact absurd shown (by decide)
  rw [trim, List.dropWhile_eq_self_iff.mpr fun nonempty => by
    simp [solid _ (List.getElem_mem nonempty)], List.rdropWhile_eq_self_iff]
  intro nonempty
  simp [solid _ (List.getLast_mem nonempty)]

theorem separated_iff {text : List Char} : Separated tables text ↔
    ∀ pieces ∈ searched tables text, (filled pieces).length ≤ 1 := by
  rw [searched, List.forall_mem_map]
  rfl

section Builder

variable {text : List Char} {categories : List (List Char)}

/-- A query of the text that has been written tells what was in the text. -/
theorem Expresses.asks (sound : tables.Sound)
    (allowed : ∀ category ∈ categories, ∀ c ∈ category, categoryChar tables c = true)
    (expresses : Expresses tables text categories (buildSearchQuery tables text categories)) :
    clausesOf tables text ≠ [] ∧ Separated tables text ∧ [] ∉ categories := by
  obtain ⟨query, wellFormed, perm, rfl, written⟩ := expresses
  have asked : clausesOf tables text ≠ [] := fun empty =>
    wellFormed.asks (List.perm_nil.mp (empty ▸ perm))
  have writes : writtenClauses tables text ≠ [] := by
    simp only [ne_eq, writtenClauses, clausesOf, List.append_eq_nil_iff, List.map_eq_nil_iff,
      joinedWords, wordsOf_eq, joined_eq_nil_iff] at asked ⊢
    exact asked
  rw [buildSearchQuery_eq tables writes fun category member =>
    trim_category sound (allowed category member)] at written
  have read := render_injective tables writes wellFormed.asks
    (fun clause member => wellFormed_written tables sound member) wellFormed.clauses written
  rw [← read] at perm
  refine ⟨asked, ?_, fun empty => (wellFormed.categories [] empty).1 rfl⟩
  have lengths := perm.length_eq
  rw [writtenClauses, clausesOf, List.length_append, List.length_append, List.length_map,
    List.length_map, List.length_map, wordsOf_eq, Nat.add_left_cancel_iff] at lengths
  exact separated_iff.mpr ((length_joined_iff _).mp lengths)

/-- The builder writes the query of the text exactly when the text asks for something, no closed
phrase joins words, and no category is empty. -/
theorem buildSearchQuery_expresses_iff (sound : tables.Sound)
    (allowed : ∀ category ∈ categories, ∀ c ∈ category, categoryChar tables c = true) :
    Expresses tables text categories (buildSearchQuery tables text categories) ↔
      clausesOf tables text ≠ [] ∧ Separated tables text ∧ [] ∉ categories := by
  constructor
  · exact Expresses.asks sound allowed
  · rintro ⟨asked, separated, named⟩
    have same : writtenClauses tables text = clausesOf tables text := by
      rw [writtenClauses, clausesOf, joinedWords, wordsOf_eq,
        joined_eq (separated_iff.mp separated)]
    refine ⟨⟨clausesOf tables text, categories⟩, ⟨asked, ?_, ?_⟩, .refl _, rfl, ?_⟩
    · rw [← same]
      exact fun clause member => wellFormed_written tables sound member
    · intro category member
      exact ⟨fun empty => named (empty ▸ member), allowed category member⟩
    · rw [buildSearchQuery_eq tables (same ▸ asked) fun category member =>
        trim_category sound (allowed category member), same]

end Builder

theorem sound_ascii : Unicode.ascii.Sound where
  ascii _ _ := rfl
  blank c shown := by
    by_contra letter
    rw [Bool.not_eq_false] at letter
    simp only [isWhitespace, decide_eq_true_eq, Char.toNat] at shown
    simp only [Unicode.ascii, Char.isAlphanum, Char.isAlpha, Char.isUpper, Char.isLower,
      Char.isDigit, Bool.or_eq_true, Bool.and_eq_true, decide_eq_true_eq, ge_iff_le,
      UInt32.le_iff_toNat_le, Char.reduceVal, UInt32.reduceToNat] at letter
    omega

theorem buildSearchQuery_expresses_iff_phrase :
    Expresses Unicode.ascii "\"speaker diarization\" whisper".toList ["cs.CL".toList]
        (buildSearchQuery Unicode.ascii "\"speaker diarization\" whisper".toList
          ["cs.CL".toList]) ↔
      clausesOf Unicode.ascii "\"speaker diarization\" whisper".toList ≠ [] ∧
        Separated Unicode.ascii "\"speaker diarization\" whisper".toList ∧
        [] ∉ ["cs.CL".toList] :=
  buildSearchQuery_expresses_iff sound_ascii (by simp [categoryChar, Unicode.ascii])

/-- Words on both sides of a phrase become one, a text without a searchable character is sent as
it is, and an empty category, which `with_categories` drops, leaves its clause empty. -/
theorem not_expresses :
    ¬ Expresses Unicode.ascii "foo\"bar\"baz".toList []
      (buildSearchQuery Unicode.ascii "foo\"bar\"baz".toList []) ∧
    ¬ Expresses Unicode.ascii "(?)".toList [] (buildSearchQuery Unicode.ascii "(?)".toList []) ∧
    ¬ Expresses Unicode.ascii "x".toList [[]]
      (buildSearchQuery Unicode.ascii "x".toList [[]]) := by
  refine ⟨fun expresses => ?_, fun expresses => ?_, fun expresses => ?_⟩
  · have separated := (expresses.asks sound_ascii (by simp)).2.1
    rw [separated_iff] at separated
    exact absurd separated (by decide +kernel)
  · exact (expresses.asks sound_ascii (by simp)).1 (by decide +kernel)
  · exact (expresses.asks sound_ascii (by simp)).2.2 (by simp)

end AiCoreStack.Scholar
