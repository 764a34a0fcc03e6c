import AiCoreStack.Markdown.HeadingPath

/-!
# The token limit

When chunks of several blocks keep the limit.  The size test is made in front of a split,
for the blocks of the chunk that is closed; the blocks that are carried over are not
tested together with the block that follows them.
-/

namespace AiCoreStack.Markdown

open AiCoreStack.Foundation

namespace SemanticChunker

/-- The count of a content is the sum of the counts of its blocks. -/
def Additive (counter : TokenCounter Nat) : Prop :=
  ∀ blocks, counter.count (contentOf blocks) = tokensOf counter blocks

/-! ## Additive counters -/

theorem tokensOf_eq_of_append {counter : TokenCounter Nat} (empty : counter.count [] = 0)
    (append : ∀ blocks block, counter.count (renderBlocks (blocks ++ [block])) =
      counter.count (renderBlocks blocks) + counter.count (renderBlocks [block]))
    (blocks : List Block) : counter.count (renderBlocks blocks) = tokensOf counter blocks := by
  induction blocks using List.reverseRecOn with
  | nil => exact empty
  | append_singleton blocks block ih =>
      rw [append, ih, tokensOf_append, tokensOf_singleton]
      rfl

theorem renderBlocks_append (left right : List Block) :
    renderBlocks (left ++ right) = renderBlocks left ++ renderBlocks right :=
  List.flatMap_append

theorem heuristicFrom_add (text : List Char) (tokens run : Nat) :
    heuristicFrom tokens run text = tokens + heuristicFrom 0 run text := by
  induction text generalizing tokens run with
  | nil => simp [heuristicFrom]
  | cons c text ih =>
      simp only [heuristicFrom]
      split
      · rw [ih, ih (0 + flushLatin run + 1)]
        omega
      · split
        · rw [ih, ih (0 + flushLatin run)]
          omega
        · rw [ih]

theorem not_isCjk_of_whitespace {c : Char} (blank : isWhitespace c = true) : isCjk c = false := by
  simp only [isWhitespace, decide_eq_true_eq] at blank
  simp only [isCjk, decide_eq_false_iff_not]
  omega

/-- A blank ends the run in front of it. -/
theorem heuristicFrom_blank {c : Char} (blank : isWhitespace c = true) (left right : List Char)
    (run : Nat) :
    heuristicFrom 0 run (left ++ c :: right) =
      heuristicFrom 0 run left + heuristicFrom 0 0 right := by
  induction left generalizing run with
  | nil =>
      simp only [List.nil_append, heuristicFrom, not_isCjk_of_whitespace blank, blank, if_true,
        Bool.false_eq_true, if_false]
      rw [heuristicFrom_add]
  | cons first left ih =>
      simp only [List.cons_append, heuristicFrom]
      split
      · rw [heuristicFrom_add, ih, heuristicFrom_add left (0 + flushLatin run + 1)]
        omega
      · split
        · rw [heuristicFrom_add, ih, heuristicFrom_add left (0 + flushLatin run)]
          omega
        · exact ih _

theorem heuristic_dropWhile (text : List Char) :
    heuristicFrom 0 0 (text.dropWhile isWhitespace) = heuristicFrom 0 0 text := by
  induction text with
  | nil => rfl
  | cons c text ih =>
      cases blank : isWhitespace c with
      | true =>
          rw [List.dropWhile_cons_of_pos blank, ih]
          exact (Nat.zero_add _).symm.trans (heuristicFrom_blank blank [] text 0).symm
      | false => rw [List.dropWhile_cons_of_neg (by simp [blank])]

theorem heuristic_rdropWhile (text : List Char) :
    heuristicFrom 0 0 (text.rdropWhile isWhitespace) = heuristicFrom 0 0 text := by
  induction text using List.reverseRecOn with
  | nil => rfl
  | append_singleton text c ih =>
      cases blank : isWhitespace c with
      | true =>
          rw [List.rdropWhile_concat_pos _ _ _ blank, ih, heuristicFrom_blank blank]
          rfl
      | false => rw [List.rdropWhile_concat_neg _ _ _ (by simp [blank])]

/-- The default counter is additive: a rendered block ends with a blank. -/
theorem heuristic_additive : Additive heuristicTokenCounter := by
  intro blocks
  have trimmed : heuristicTokenCounter.count (contentOf blocks) =
      heuristicTokenCounter.count (renderBlocks blocks) := by
    rw [contentOf, trim]
    exact (heuristic_rdropWhile _).trans (heuristic_dropWhile _)
  rw [trimmed]
  apply tokensOf_eq_of_append rfl
  intro blocks block
  rw [renderBlocks_append]
  rcases List.eq_nil_or_concat blocks with rfl | ⟨front, last, rfl⟩
  · exact (Nat.zero_add _).symm
  · have ends : renderBlocks (front.concat last) =
        (renderBlocks front ++ renderBlock last) ++ ['\n'] := by
      rw [List.concat_eq_append, renderBlocks_append]
      simp [renderBlocks]
    rw [ends, List.append_assoc, List.singleton_append]
    have newline : isWhitespace '\n' = true := rfl
    have joined := heuristicFrom_blank newline (renderBlocks front ++ renderBlock last)
      (renderBlocks [block]) 0
    have ended := heuristicFrom_blank newline (renderBlocks front ++ renderBlock last) [] 0
    exact joined.trans (congrArg (· + _) ended.symm)

/-! ## The limit -/

variable {chunker : SemanticChunker Nat} {counter : TokenCounter Nat}

/-- Where the counter is additive, both ways to close a chunk report the sum over its blocks. -/
theorem passageTokens_eq {passage : Passage}
    (summed : counter.count (contentOf passage.blocks) = tokensOf counter passage.blocks) :
    passageTokens counter passage = tokensOf counter passage.blocks := by
  rw [passageTokens]
  cases passage.cut with
  | size => exact summed
  | heading => rfl
  | finish => rfl

/-- The passages of several blocks keep the limit. -/
def Limited (chunker : SemanticChunker Nat) (counter : TokenCounter Nat)
    (passages : List Passage) : Prop :=
  ∀ passage ∈ passages, 2 ≤ passage.blocks.length →
    tokensOf counter passage.blocks ≤ chunker.maxTokens

theorem limited_snoc (passages : List Passage) (last : Passage) :
    Limited chunker counter (passages ++ [last]) ↔
      Limited chunker counter passages ∧ (2 ≤ last.blocks.length →
        tokensOf counter last.blocks ≤ chunker.maxTokens) := by
  simp only [Limited, List.mem_append, List.mem_singleton, or_imp, forall_and, forall_eq]

/-- Whether the blocks carried over to a block leave room for it. -/
def CarryFits (chunker : SemanticChunker Nat) (counter : TokenCounter Nat) (read : List Block)
    (block : Block) : Prop :=
  let progress := chunker.progressOf counter read
  chunker.Overflows counter (chunker.enterAt progress block) block →
    (chunker.carryOf counter progress.blocks).1 = [] ∨
      (chunker.carryOf counter progress.blocks).2 + blockTokens counter block ≤ chunker.maxTokens

theorem limited_advance (read : List Block) (block : Block) :
    Limited chunker counter (chunker.progressOf counter (read ++ [block])).passages ↔
      Limited chunker counter (chunker.progressOf counter read).passages ∧
        CarryFits chunker counter read block := by
  have bare := (progressOf_covers chunker counter read).bare
  rw [progressOf_snoc, CarryFits]
  generalize chunker.progressOf counter read = progress at bare ⊢
  simp only [overflows_iff]
  by_cases empty : progress.added = []
  · obtain ⟨noneClosed, noneCarried⟩ := bare empty
    rw [advance_of_empty empty, passages_of_open (by simp), Progress.passages, if_pos empty,
      limited_snoc, noneClosed, noneCarried]
    simp [empty, Passage.blocks, Limited]
  · rw [passages_of_open empty]
    cases splits : chunker.splitsAt block with
    | true =>
        rw [advance_of_heading empty splits, passages_of_open (by simp)]
        simp only [limited_snoc, Passage.blocks]
        simp
    | false =>
        by_cases large :
            chunker.maxTokens < tokensOf counter progress.blocks + blockTokens counter block
        · rw [advance_of_size splits empty large, passages_of_open (by simp)]
          have several : 2 ≤ ((chunker.carryOf counter progress.blocks).1 ++ [block]).length ↔
              (chunker.carryOf counter progress.blocks).1 ≠ [] := by
            rw [List.length_append, List.length_singleton, ← List.length_pos_iff]
            omega
          simp only [limited_snoc, Passage.blocks, several, tokensOf_append, tokensOf_singleton,
            carryOf_tokens, empty, large, ne_eq, not_false_eq_true, and_self, forall_const]
          rw [or_iff_not_imp_left]
        · rw [advance_of_fit splits large, passages_of_open (by simp)]
          have whole : tokensOf counter (progress.carried ++ (progress.added ++ [block])) =
              tokensOf counter progress.blocks + blockTokens counter block := by
            rw [← List.append_assoc, tokensOf_append, tokensOf_singleton]
            rfl
          simp only [limited_snoc, Passage.blocks, whole, large]
          have short : tokensOf counter (progress.carried ++ progress.added) ≤ chunker.maxTokens := by
            change tokensOf counter progress.blocks ≤ _
            omega
          simp [short, Nat.le_of_not_lt large]

theorem limited_iff (blocks : List Block) :
    Limited chunker counter (chunker.passagesOf counter blocks) ↔
      ∀ before block after, blocks = before ++ block :: after →
        CarryFits chunker counter before block := by
  apply @forall_split_iff _ fun read => Limited chunker counter (chunker.passagesOf counter read)
  · intro passage member
    exact absurd member (by simp [passagesOf, progressOf, Progress.passages])
  · exact limited_advance

/-- Every chunk of two or more blocks keeps the limit. -/
def LimitKept (chunker : SemanticChunker Nat) (counter : TokenCounter Nat) (document : Document) :
    Prop :=
  ∀ passage ∈ chunker.passagesOf counter document.blocks,
    ∀ chunk, chunkOf counter document.metadata passage = some chunk →
      2 ≤ passage.blocks.length → chunk.tokenCount ≤ chunker.maxTokens

theorem limitKept_iff_limited (additive : Additive counter) (document : Document) :
    LimitKept chunker counter document ↔
      Limited chunker counter (chunker.passagesOf counter document.blocks) := by
  have counted (passage : Passage) :
      passageTokens counter passage = tokensOf counter passage.blocks :=
    passageTokens_eq (additive passage.blocks)
  constructor
  · intro kept passage member several
    by_cases blank : contentOf passage.blocks = []
    · have none : tokensOf counter passage.blocks = 0 := by
        rw [← additive, blank]
        exact additive []
      omega
    · rw [← counted]
      exact kept passage member _ (if_neg blank) several
  · intro limited passage member chunk made several
    rw [chunkOf] at made
    split at made
    · exact absurd made (by simp)
    · obtain rfl := Option.some.inj made
      rw [counted]
      exact limited passage member several

/-- Whether, at every block that closes a chunk for its size, the blocks that are carried
over leave room for the block. -/
def OverlapFits (chunker : SemanticChunker Nat) (counter : TokenCounter Nat)
    (document : Document) : Prop :=
  ∀ before block after, document.blocks = before ++ block :: after →
    let state := chunker.enter document.metadata (chunker.run counter document.metadata before) block
    chunker.tooLarge counter state block →
      let carry := chunker.carryOf counter state.cur
      carry.1 = [] ∨ carry.2 + blockTokens counter block ≤ chunker.maxTokens

theorem carryFits_iff (metadata : DocumentMetadata) (read : List Block) (block : Block) :
    CarryFits chunker counter read block ↔
      let state := chunker.enter metadata (chunker.run counter metadata read) block
      chunker.tooLarge counter state block →
        let carry := chunker.carryOf counter state.cur
        carry.1 = [] ∨ carry.2 + blockTokens counter block ≤ chunker.maxTokens := by
  have related := run_simulates chunker counter metadata read
  have entered := related.enter chunker block
  rw [CarryFits]
  simp only [entered.tooLarge_iff, entered.cur]
  apply forall_congr'
  intro overflows
  rw [enterAt, closeAt_kept (.inl (overflows_iff.mp overflows).1)]
  rfl

/-- Chunks of several blocks keep the limit exactly when every overlap leaves room for the
block behind it. -/
theorem limitKept_iff (chunker : SemanticChunker Nat) (counter : TokenCounter Nat)
    (additive : Additive counter) (document : Document) :
    chunker.chunkWith counter document =
        (chunker.passagesOf counter document.blocks).filterMap
          (chunkOf counter document.metadata) ∧
      Tiles chunker counter document.blocks (chunker.passagesOf counter document.blocks) ∧
      (LimitKept chunker counter document ↔ OverlapFits chunker counter document) := by
  refine ⟨chunkWith_eq document, (progressOf_covers chunker counter document.blocks).tiles, ?_⟩
  rw [limitKept_iff_limited additive, limited_iff]
  simp only [carryFits_iff document.metadata]
  rfl

/-- Three paragraphs of 4, 4 and 9 tokens. -/
def paragraphs : Document where
  metadata := { sourceFormat := .markdown, originalFilename := [] }
  blocks := [.paragraph [.text "하나둘셋".toList], .paragraph [.text "다섯여섯".toList],
    .paragraph [.text "가나다라마바사아자".toList]]

theorem limitKept_iff_paragraphs :
    Additive heuristicTokenCounter ∧
      (LimitKept ⟨10, 5, [1]⟩ heuristicTokenCounter paragraphs ↔
        OverlapFits ⟨10, 5, [1]⟩ heuristicTokenCounter paragraphs) :=
  ⟨heuristic_additive,
    (limitKept_iff ⟨10, 5, [1]⟩ heuristicTokenCounter heuristic_additive paragraphs).2.2⟩

/-- Two paragraphs are carried over, and the third does not fit behind them. -/
theorem not_limitKept_paragraphs :
    Additive heuristicTokenCounter ∧ 5 < 10 ∧
      ¬ LimitKept ⟨10, 5, [1]⟩ heuristicTokenCounter paragraphs := by
  refine ⟨heuristic_additive, by decide, ?_⟩
  intro kept
  have small := kept _ (List.mem_of_getElem? (i := 1) rfl) _ rfl (by decide)
  exact absurd small (by decide)

end SemanticChunker
end AiCoreStack.Markdown
