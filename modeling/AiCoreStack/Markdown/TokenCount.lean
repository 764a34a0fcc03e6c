import AiCoreStack.Markdown.TokenLimit

/-!
# Token counts

The token count of a chunk against the count of its content.  A chunk that is closed for
its size has its content counted again; the other chunks report the sum over their blocks.
The two agree in every chunk of every document when the counter is additive on the contents
that are not blank.
-/

namespace AiCoreStack.Markdown

open AiCoreStack.Foundation

namespace SemanticChunker

variable {counter : TokenCounter Nat}

/-- Every chunk reports the count of its content. -/
def CountsContent (counter : TokenCounter Nat) : Prop :=
  ∀ (chunker : SemanticChunker Nat) (document : Document),
    ∀ chunk ∈ chunker.chunkWith counter document, chunk.tokenCount = counter.count chunk.content

/-- Additivity on the contents of chunks. -/
def AdditiveOnContents (counter : TokenCounter Nat) : Prop :=
  ∀ blocks, contentOf blocks ≠ [] →
    counter.count (contentOf blocks) = tokensOf counter blocks

theorem countsContent_of_additive (additive : AdditiveOnContents counter) :
    CountsContent counter := by
  intro chunker document chunk member
  rw [chunkWith_eq, List.mem_filterMap] at member
  obtain ⟨passage, -, made⟩ := member
  rw [chunkOf] at made
  split at made
  · exact absurd made (by simp)
  next written =>
    obtain rfl := Option.some.inj made
    have summed := additive passage.blocks written
    exact (passageTokens_eq summed).trans summed.symm

/-! ## The default counter -/

/-- Every chunk reports the count of its content, whichever way it was closed; the count of
a trimmed rendering is the sum of the counts of the rendered blocks. -/
theorem tokenCount_eq_count :
    (∀ (chunker : SemanticChunker Nat) (document : Document), ∀ chunk ∈ chunker.chunk document,
      chunk.tokenCount = heuristicTokenCounter.count chunk.content) ∧
    (∀ blocks : List Block,
      heuristicTokenCounter.count (trim isWhitespace (renderBlocks blocks)) =
        (blocks.map fun block => heuristicTokenCounter.count (renderBlocks [block])).sum) :=
  ⟨countsContent_of_additive fun blocks _ => heuristic_additive blocks, heuristic_additive⟩

/-- The first chunk is closed for its size and the last one at the end. -/
theorem tokenCount_eq_count_paragraphs :
    ((⟨10, 5, [1]⟩ : SemanticChunker Nat).chunk paragraphs).map Chunk.tokenCount = [8, 17] ∧
      ∀ chunk ∈ (⟨10, 5, [1]⟩ : SemanticChunker Nat).chunk paragraphs,
        chunk.tokenCount = heuristicTokenCounter.count chunk.content :=
  ⟨by decide, tokenCount_eq_count.1 ⟨10, 5, [1]⟩ paragraphs⟩

end SemanticChunker
end AiCoreStack.Markdown
