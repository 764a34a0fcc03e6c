import AiCoreStack.Markdown.Passages

/-!
# Chunks tile the document

Chunking loses no block and repeats only the overlap.  `Tiles` says it of a list of
passages; it is kept when a block joins the last passage and when a block opens the next
one, and so by every run of the chunker.
-/

namespace AiCoreStack.Markdown

open AiCoreStack.Foundation

namespace SemanticChunker

variable {N : Type} [AddCommMonoid N] [LT N]
variable (chunker : SemanticChunker N) (counter : TokenCounter N)

/-- How a passage continues the one before it: it repeats at most the end of it, and only
after a split for size with an overlap. -/
structure Continues (previous next : Passage) : Prop where
  carried : next.carried <:+ previous.blocks
  overlap : next.carried ≠ [] → previous.cut = .size ∧ 0 < chunker.overlapTokens
  size : previous.cut = .size → ∃ block ∈ next.added.head?,
    chunker.maxTokens < tokensOf counter previous.blocks + blockTokens counter block

/-- A list of passages that covers a list of blocks. -/
structure Tiles (blocks : List Block) (passages : List Passage) : Prop where
  tile : (passages.map Passage.added).flatten = blocks
  fresh : ∀ passage ∈ passages, passage.added ≠ []
  contiguous : ∀ index passage, passages[index]? = some passage →
    passage.blocks <:+ upTo passages index
  first : ∀ passage ∈ passages.head?, passage.carried = []
  continues : passages.IsChain (chunker.Continues counter)
  headings : ∀ passage ∈ passages, ∀ block ∈ passage.blocks.tail, chunker.splitsAt block = false

variable {chunker counter}

theorem upTo_last (passages : List Passage) (passage : Passage) :
    upTo (passages ++ [passage]) passages.length =
      (passages.map Passage.added).flatten ++ passage.added := by
  rw [upTo, List.take_of_length_le (by simp)]
  simp

theorem upTo_append {passages : List Passage} {index : Nat} (inside : index < passages.length)
    (rest : List Passage) : upTo (passages ++ rest) index = upTo passages index := by
  rw [upTo, upTo, List.take_append_of_le_length inside]

namespace Tiles

/-- What is known of every passage but the last, and of the last, is known of all. -/
theorem contiguous_snoc {passages : List Passage} {last : Passage}
    (front : ∀ index passage, passages[index]? = some passage →
      passage.blocks <:+ upTo passages index)
    (back : last.blocks <:+ (passages.map Passage.added).flatten ++ last.added) :
    ∀ index passage, (passages ++ [last])[index]? = some passage →
      passage.blocks <:+ upTo (passages ++ [last]) index := by
  intro index passage found
  by_cases inside : index < passages.length
  · rw [List.getElem?_append_left inside] at found
    rw [upTo_append inside]
    exact front index passage found
  · rw [List.getElem?_append_right (by omega), List.getElem?_singleton] at found
    split at found
    next here =>
      obtain rfl : index = passages.length := by omega
      obtain rfl := Option.some.inj found
      rw [upTo_last]
      exact back
    next => exact absurd found (by simp)

/-- Dropping the last passage. -/
theorem front {blocks : List Block} {passages : List Passage} {last : Passage}
    (tiles : Tiles chunker counter blocks (passages ++ [last])) :
    Tiles chunker counter (passages.map Passage.added).flatten passages where
  tile := rfl
  fresh passage member := tiles.fresh passage (List.mem_append_left _ member)
  contiguous index passage found := by
    have inside : index < passages.length := by
      by_contra outside
      rw [List.getElem?_eq_none (by omega)] at found
      exact absurd found (by simp)
    have here := tiles.contiguous index passage (by rw [List.getElem?_append_left inside, found])
    rwa [upTo_append inside] at here
  first passage head := by
    cases passages with
    | nil => exact absurd head (by simp)
    | cons first rest => exact tiles.first passage head
  continues := tiles.continues.left_of_append
  headings passage member := tiles.headings passage (List.mem_append_left _ member)

/-- A further passage. -/
theorem push {blocks new : List Block} {passages : List Passage}
    (tiles : Tiles chunker counter blocks passages) (next : Passage) (added : next.added = new) (fresh : new ≠ [])
    (first : passages = [] → next.carried = [])
    (continues : ∀ previous ∈ passages.getLast?, chunker.Continues counter previous next)
    (headings : ∀ block ∈ next.blocks.tail, chunker.splitsAt block = false) :
    Tiles chunker counter (blocks ++ new) (passages ++ [next]) where
  tile := by simp [tiles.tile, added]
  fresh passage member := by
    rcases List.mem_append.mp member with earlier | last
    · exact tiles.fresh passage earlier
    · rw [List.mem_singleton.mp last, added]
      exact fresh
  contiguous := by
    apply contiguous_snoc tiles.contiguous
    -- The carried blocks end where the passage before ends, and that is where the new ones begin.
    have carried : next.carried <:+ (passages.map Passage.added).flatten := by
      rcases List.eq_nil_or_concat passages with empty | ⟨earlier, previous, rfl⟩
      · rw [first empty]
        exact List.nil_suffix
      · have suffix := (continues previous (by simp)).carried
        have whole := tiles.contiguous earlier.length previous (by simp)
        rw [List.concat_eq_append, upTo_last] at whole
        rw [List.concat_eq_append, List.map_append, List.flatten_append]
        simpa using suffix.trans whole
    obtain ⟨before, split⟩ := carried
    exact ⟨before, by rw [Passage.blocks, ← List.append_assoc, split]⟩
  first passage head := by
    cases passages with
    | nil =>
        obtain rfl : next = passage := by simpa using head
        exact first rfl
    | cons start rest => exact tiles.first passage (by simpa using head)
  continues := by
    rw [List.isChain_append]
    refine ⟨tiles.continues, List.isChain_singleton next, ?_⟩
    intro previous last passage head
    obtain rfl : next = passage := by simpa using head
    exact continues previous last
  headings passage member := by
    rcases List.mem_append.mp member with earlier | last
    · exact tiles.headings passage earlier
    · rw [List.mem_singleton.mp last]
      exact headings

/-- The last passage is cut in another way, or holds more blocks. -/
theorem replace {blocks : List Block} {passages : List Passage} {last : Passage}
    (tiles : Tiles chunker counter blocks (passages ++ [last])) (more : List Block)
    (ordinary : ∀ block ∈ more, chunker.splitsAt block = false) (path : PathStack) (cut : Cut) :
    Tiles chunker counter (blocks ++ more)
      (passages ++ [⟨last.carried, last.added ++ more, path, cut⟩]) := by
  have fresh : last.added ≠ [] := tiles.fresh last (by simp)
  have joined := tiles.front.push ⟨last.carried, last.added ++ more, path, cut⟩ rfl
    (by simp [fresh])
    (fun empty => tiles.first last (by simp [empty]))
    (by
      intro previous before
      have chain := (List.isChain_append.mp tiles.continues).2.2 previous before last (by simp)
      exact {
        carried := chain.carried
        overlap := chain.overlap
        size := by
          intro bySize
          obtain ⟨block, head, large⟩ := chain.size bySize
          refine ⟨block, ?_, large⟩
          rw [List.head?_append_of_ne_nil _ fresh]
          exact head })
    (by
      intro block member
      have tail : (last.carried ++ (last.added ++ more)).tail = last.blocks.tail ++ more := by
        rw [← List.append_assoc, List.tail_append_of_ne_nil (by simp [fresh])]
        rfl
      rw [Passage.blocks, tail] at member
      rcases List.mem_append.mp member with old | new
      · exact tiles.headings last (by simp) block old
      · exact ordinary block new)
  have whole : (passages.map Passage.added).flatten ++ (last.added ++ more) = blocks ++ more := by
    rw [← tiles.tile]
    simp
  rwa [whole] at joined

theorem nil : Tiles chunker counter [] [] where
  tile := rfl
  fresh := by simp
  contiguous := by simp
  first := by simp
  continues := List.isChain_nil
  headings := by simp

end Tiles

/-! ## Runs -/

variable [DecidableLT N]

/-- The passages of a progress tile the blocks read so far. -/
structure Covers (chunker : SemanticChunker N) (counter : TokenCounter N) (blocks : List Block)
    (progress : Progress) : Prop where
  tiles : Tiles chunker counter blocks progress.passages
  bare : progress.added = [] → progress.closed = [] ∧ progress.carried = []

theorem passages_of_open {progress : Progress} (nonempty : progress.added ≠ []) :
    progress.passages =
      progress.closed ++ [⟨progress.carried, progress.added, progress.path, .finish⟩] :=
  if_neg nonempty

theorem mem_tail_of_suffix {block : Block} {carried blocks : List Block}
    (suffix : carried <:+ blocks) (member : block ∈ carried.tail) : block ∈ blocks.tail := by
  obtain ⟨before, rfl⟩ := suffix
  cases before with
  | nil => exact member
  | cons first rest => exact List.mem_append_right _ (List.mem_of_mem_tail member)

theorem mem_tail_snoc {block other : Block} {carried : List Block}
    (member : other ∈ (carried ++ [block]).tail) : other ∈ carried.tail ∨ other = block := by
  cases carried with
  | nil => exact absurd member (by simp)
  | cons first rest => simpa using member

namespace Covers

variable {blocks : List Block} {progress : Progress}

/-- The first block. -/
theorem start (covers : Covers chunker counter blocks progress) (empty : progress.added = [])
    (block : Block) :
    Tiles chunker counter (blocks ++ [block]) (chunker.advance counter progress block).passages := by
  obtain ⟨noneClosed, noneCarried⟩ := covers.bare empty
  have tiles := covers.tiles
  rw [Progress.passages, if_pos empty, noneClosed] at tiles
  rw [advance_of_empty empty, passages_of_open (by simp), noneClosed, noneCarried]
  exact tiles.push _ rfl (by simp) (fun _ => rfl) (by simp) (by simp [Passage.blocks])

/-- A heading that opens the next passage. -/
theorem opened (covers : Covers chunker counter blocks progress) (nonempty : progress.added ≠ [])
    {block : Block} (splits : chunker.splitsAt block = true) :
    Tiles chunker counter (blocks ++ [block]) (chunker.advance counter progress block).passages := by
  have tiles := covers.tiles
  rw [passages_of_open nonempty] at tiles
  have closed := tiles.replace [] (by simp) progress.path .heading
  rw [List.append_nil, List.append_nil] at closed
  rw [advance_of_heading nonempty splits, passages_of_open (by simp)]
  apply closed.push
  · rfl
  · simp
  · exact fun _ => rfl
  · intro previous last
    obtain rfl : _ = previous := by simpa using last
    exact {
      carried := List.nil_suffix
      overlap := fun carries => absurd rfl carries
      size := fun bySize => absurd bySize (by simp) }
  · simp [Passage.blocks]

/-- A block that is too large for the open passage. -/
theorem split (covers : Covers chunker counter blocks progress) (nonempty : progress.added ≠ [])
    {block : Block} (ordinary : chunker.splitsAt block = false)
    (large : chunker.maxTokens < tokensOf counter progress.blocks + blockTokens counter block) :
    Tiles chunker counter (blocks ++ [block]) (chunker.advance counter progress block).passages := by
  have tiles := covers.tiles
  rw [passages_of_open nonempty] at tiles
  have closed := tiles.replace [] (by simp) (pathAfter progress.path block) .size
  rw [List.append_nil, List.append_nil] at closed
  have suffix := chunker.carryOf_suffix counter progress.blocks
  rw [advance_of_size ordinary nonempty large, passages_of_open (by simp)]
  apply closed.push
  · rfl
  · simp
  · exact fun empty => absurd empty (by simp)
  · intro previous last
    obtain rfl : _ = previous := by simpa using last
    exact {
      carried := suffix
      overlap := fun carries => ⟨rfl, chunker.overlap_of_carryOf counter carries⟩
      size := fun _ => ⟨block, by simp, large⟩ }
  · intro other member
    -- Blocks carried over stood behind the first block of the passage before.
    rcases mem_tail_snoc member with carried | rfl
    · exact tiles.headings _ (List.mem_append_right _ (List.mem_singleton_self _)) other
        (mem_tail_of_suffix suffix carried)
    · exact ordinary

/-- A block that joins the open passage. -/
theorem joined (covers : Covers chunker counter blocks progress) (nonempty : progress.added ≠ [])
    {block : Block} (ordinary : chunker.splitsAt block = false)
    (fits : ¬ chunker.maxTokens < tokensOf counter progress.blocks + blockTokens counter block) :
    Tiles chunker counter (blocks ++ [block]) (chunker.advance counter progress block).passages := by
  have tiles := covers.tiles
  rw [passages_of_open nonempty] at tiles
  rw [advance_of_fit ordinary fits, passages_of_open (by simp)]
  exact tiles.replace [block] (by simpa using ordinary) _ _

theorem advance (covers : Covers chunker counter blocks progress) (block : Block) :
    Covers chunker counter (blocks ++ [block]) (chunker.advance counter progress block) where
  tiles := by
    by_cases empty : progress.added = []
    · exact covers.start empty block
    · cases splits : chunker.splitsAt block with
      | true => exact covers.opened empty splits
      | false =>
          by_cases large :
              chunker.maxTokens < tokensOf counter progress.blocks + blockTokens counter block
          · exact covers.split empty splits large
          · exact covers.joined empty splits large
  bare := by
    intro empty
    rw [SemanticChunker.advance] at empty
    split at empty
    · exact absurd empty (by simp)
    · exact absurd empty (by simp)

end Covers

theorem progressOf_covers (chunker : SemanticChunker N) (counter : TokenCounter N)
    (blocks : List Block) :
    Covers chunker counter blocks (chunker.progressOf counter blocks) := by
  induction blocks using List.reverseRecOn with
  | nil => exact ⟨Tiles.nil, fun _ => ⟨rfl, rfl⟩⟩
  | append_singleton blocks block ih =>
      rw [progressOf_snoc]
      exact ih.advance block

/-- The chunks of a document are the renderings of passages that tile it, in order, less
the blank ones. -/
theorem chunkWith_tiles (chunker : SemanticChunker N) (counter : TokenCounter N)
    (document : Document) :
    ∃ passages, Tiles chunker counter document.blocks passages ∧
      (chunker.chunkWith counter document).map Chunk.content =
        (passages.map fun passage => contentOf passage.blocks).filter (· ≠ []) := by
  refine ⟨chunker.passagesOf counter document.blocks,
    (progressOf_covers chunker counter document.blocks).tiles, ?_⟩
  rw [chunkWith_eq]
  generalize chunker.passagesOf counter document.blocks = passages
  induction passages with
  | nil => rfl
  | cons passage passages ih =>
      by_cases blank : contentOf passage.blocks = []
      · simpa [chunkOf, blank] using ih
      · simpa [chunkOf, blank] using ih

end SemanticChunker
end AiCoreStack.Markdown
