import AiCoreStack.Foundation.Runs
import AiCoreStack.Markdown.ChunkTiling

/-!
# Heading paths

The path of a chunk against the ancestors of its last block: the headings that no later
heading of the same or a smaller level has closed.  The path stack of the chunker is the
ancestor path of the blocks read so far; a chunk that a heading cuts for size is given the
path behind that heading.
-/

namespace AiCoreStack.Markdown

open AiCoreStack.Foundation

/-! ## Ancestors -/

def headingOf : Block → Option (UInt8 × List Char)
  | .heading level text => some (level, text)
  | _ => none

/-- The headings that are not followed by a heading of the same or a smaller level. -/
def ancestors : List (UInt8 × List Char) → PathStack
  | [] => []
  | entry :: rest =>
      if rest.any fun later => later.1 ≤ entry.1 then ancestors rest else entry :: ancestors rest

/-- The ancestor path in force behind a list of blocks. -/
def ancestorPath (blocks : List Block) : PathStack := ancestors (blocks.filterMap headingOf)

theorem mem_ancestors {entry : UInt8 × List Char} {headings : List (UInt8 × List Char)}
    (member : entry ∈ ancestors headings) : entry ∈ headings := by
  induction headings with
  | nil => exact member
  | cons first rest ih =>
      rw [ancestors] at member
      split at member
      · exact List.mem_cons_of_mem _ (ih member)
      · rcases List.mem_cons.mp member with rfl | later
        · exact List.mem_cons_self
        · exact List.mem_cons_of_mem _ (ih later)

/-- The levels on an ancestor path increase. -/
theorem ancestors_increasing (headings : List (UInt8 × List Char)) :
    (ancestors headings).Pairwise fun left right => left.1 < right.1 := by
  induction headings with
  | nil => exact List.Pairwise.nil
  | cons first rest ih =>
      rw [ancestors]
      split
      · exact ih
      next outer =>
        apply List.Pairwise.cons _ ih
        intro later member
        have deeper : ¬ later.1 ≤ first.1 := by
          intro closes
          exact outer (List.any_eq_true.mpr ⟨later, mem_ancestors member, by simpa using closes⟩)
        exact UInt8.not_le.mp deeper

theorem ancestors_snoc (headings : List (UInt8 × List Char)) (last : UInt8 × List Char) :
    ancestors (headings ++ [last]) =
      (ancestors headings).filter (fun entry => !decide (last.1 ≤ entry.1)) ++ [last] := by
  induction headings with
  | nil => rfl
  | cons first rest ih =>
      rw [List.cons_append, ancestors, ancestors, List.any_append]
      by_cases inner : (rest.any fun later => later.1 ≤ first.1) = true
      · simp only [inner, Bool.true_or, if_true, ih]
      · by_cases closed : last.1 ≤ first.1
        · simp [inner, closed, ih]
        · simp [inner, closed, ih]

/-- On increasing levels, popping from the end removes all the deeper headings. -/
theorem rdropWhile_eq_filter {stack : PathStack}
    (increasing : stack.Pairwise fun left right => left.1 < right.1) (level : UInt8) :
    stack.rdropWhile (fun entry => level ≤ entry.1) =
      stack.filter fun entry => !decide (level ≤ entry.1) := by
  induction stack using List.reverseRecOn with
  | nil => rfl
  | append_singleton stack last ih =>
      obtain ⟨front, -, before⟩ := List.pairwise_append.mp increasing
      by_cases deeper : level ≤ last.1
      · rw [List.rdropWhile_concat_pos _ _ _ (by simpa using deeper), ih front]
        simp [deeper]
      · rw [List.rdropWhile_concat_neg _ _ _ (by simpa using deeper), List.filter_append,
          List.filter_eq_self.mpr]
        · simp [deeper]
        · intro entry member
          have outer : entry.1 < last.1 := before entry member last (by simp)
          have : ¬ level ≤ entry.1 :=
            fun above => deeper (UInt8.le_trans above (UInt8.le_of_lt outer))
          simpa using this

theorem ancestorPath_snoc (blocks : List Block) (block : Block) :
    ancestorPath (blocks ++ [block]) = SemanticChunker.pathAfter (ancestorPath blocks) block := by
  cases block with
  | heading level text =>
      have increasing := ancestors_increasing (blocks.filterMap headingOf)
      rw [ancestorPath, List.filterMap_append]
      change ancestors (_ ++ [(level, text)]) = PathStack.enter _ level text
      rw [ancestors_snoc, PathStack.enter, ancestorPath, rdropWhile_eq_filter increasing]
  | _ => simp [ancestorPath, headingOf, SemanticChunker.pathAfter, List.filterMap_cons]

namespace SemanticChunker

variable {N : Type} [AddCommMonoid N] [LT N] [DecidableLT N]
variable {chunker : SemanticChunker N} {counter : TokenCounter N}

theorem advance_path (progress : Progress) (block : Block) :
    (chunker.advance counter progress block).path = pathAfter progress.path block := by
  by_cases empty : progress.added = []
  · rw [advance_of_empty empty]
  · cases splits : chunker.splitsAt block with
    | true => rw [advance_of_heading empty splits]
    | false =>
        by_cases large :
            chunker.maxTokens < tokensOf counter progress.blocks + blockTokens counter block
        · rw [advance_of_size splits empty large]
        · rw [advance_of_fit splits large]

/-- The path stack is the ancestor path of the blocks read so far. -/
theorem progressOf_path (chunker : SemanticChunker N) (counter : TokenCounter N)
    (blocks : List Block) :
    (chunker.progressOf counter blocks).path = ancestorPath blocks := by
  induction blocks using List.reverseRecOn with
  | nil => rfl
  | append_singleton blocks block ih =>
      rw [progressOf_snoc, advance_path, ih, ancestorPath_snoc]

/-! ## The paths of the chunks -/

/-- The closed passages that are not blank have the path of their last block. -/
def Located (passages : List Passage) : Prop :=
  ∀ index passage, passages[index]? = some passage → contentOf passage.blocks ≠ [] →
    passage.path.texts = (ancestorPath (upTo passages index)).texts

theorem located_snoc (passages : List Passage) (last : Passage) :
    Located (passages ++ [last]) ↔
      Located passages ∧ (contentOf last.blocks ≠ [] → last.path.texts =
        (ancestorPath ((passages.map Passage.added).flatten ++ last.added)).texts) := by
  constructor
  · intro located
    constructor
    · intro index passage found
      have inside : index < passages.length := (List.getElem?_eq_some_iff.mp found).1
      have here := located index passage (by rw [List.getElem?_append_left inside, found])
      rwa [upTo_append inside] at here
    · have here := located passages.length last (by simp)
      rwa [upTo_last] at here
  · rintro ⟨front, back⟩ index passage found
    by_cases inside : index < passages.length
    · rw [List.getElem?_append_left inside] at found
      rw [upTo_append inside]
      exact front index passage found
    · rw [List.getElem?_append_right (by omega), List.getElem?_singleton] at found
      split at found
      next here =>
        obtain rfl : index = passages.length := by omega
        obtain rfl := Option.some.inj found
        rw [upTo_last]
        exact back
      next => exact absurd found (by simp)

/-- Whether a block leaves the path of the chunk it closes as it is: it closes none for
its size, or a blank one, or it does not change the path. -/
def KeepsPath (chunker : SemanticChunker N) (counter : TokenCounter N) (read : List Block)
    (block : Block) : Prop :=
  chunker.Overflows counter (chunker.enterAt (chunker.progressOf counter read) block) block →
    contentOf (chunker.progressOf counter read).blocks = [] ∨
      (ancestorPath (read ++ [block])).texts = (ancestorPath read).texts

theorem closed_added (chunker : SemanticChunker N) (counter : TokenCounter N)
    (blocks : List Block) :
    ((chunker.progressOf counter blocks).closed.map Passage.added).flatten ++
      (chunker.progressOf counter blocks).added = blocks := by
  have tile := (progressOf_covers chunker counter blocks).tiles.tile
  rw [Progress.passages] at tile
  split at tile
  next empty => rw [empty, List.append_nil, tile]
  next => simpa using tile

/-- One block: the paths stay right exactly when the block keeps the path. -/
theorem located_advance (read : List Block) (block : Block) :
    Located (chunker.progressOf counter (read ++ [block])).closed ↔
      Located (chunker.progressOf counter read).closed ∧ KeepsPath chunker counter read block := by
  have path := progressOf_path chunker counter read
  have tile := closed_added chunker counter read
  rw [progressOf_snoc, KeepsPath, overflows_iff]
  by_cases empty : (chunker.progressOf counter read).added = []
  · rw [advance_of_empty empty]
    simp [empty]
  · cases splits : chunker.splitsAt block with
    | true =>
        rw [advance_of_heading empty splits]
        simp [located_snoc, tile, path]
    | false =>
        by_cases large : chunker.maxTokens <
            tokensOf counter (chunker.progressOf counter read).blocks + blockTokens counter block
        · rw [advance_of_size splits empty large]
          simp only [located_snoc, tile, path, ancestorPath_snoc, empty, large, ne_eq,
            not_false_eq_true, and_self, forall_const]
          rw [imp_iff_not_or, not_not]
          rfl
        · rw [advance_of_fit splits large]
          simp [large]

theorem located_iff (blocks : List Block) :
    Located (chunker.progressOf counter blocks).closed ↔
      ∀ before block after, blocks = before ++ block :: after →
        KeepsPath chunker counter before block := by
  apply @forall_split_iff _ fun read => Located (chunker.progressOf counter read).closed
  · intro index passage found
    exact absurd found (by simp [progressOf])
  · exact located_advance

/-- The chunk of a passage names the ancestors of its last block, whose levels increase. -/
def PathsTrue (chunker : SemanticChunker N) (counter : TokenCounter N) (document : Document) :
    Prop :=
  ∀ index passage chunk, (chunker.passagesOf counter document.blocks)[index]? = some passage →
    chunkOf counter document.metadata passage = some chunk →
      let path := ancestorPath (upTo (chunker.passagesOf counter document.blocks) index)
      chunk.headingPath = path.texts ∧ path.Pairwise fun outer inner => outer.1 < inner.1

theorem pathsTrue_iff_located (document : Document) :
    PathsTrue chunker counter document ↔
      Located (chunker.progressOf counter document.blocks).closed := by
  have whole : PathsTrue chunker counter document ↔
      Located (chunker.passagesOf counter document.blocks) := by
    constructor
    · intro right index passage found nonblank
      exact (right index passage _ found (if_neg nonblank)).1
    · intro located index passage chunk found made
      rw [chunkOf] at made
      split at made
      · exact absurd made (by simp)
      next nonblank =>
        obtain rfl := Option.some.inj made
        exact ⟨located index passage found nonblank, ancestors_increasing _⟩
  rw [whole, passagesOf, Progress.passages]
  split
  · rfl
  · simp [located_snoc, closed_added, progressOf_path]

/-- Whether every block that closes a chunk for its size leaves the path as it is, unless
the chunk is blank. -/
def PathKept (chunker : SemanticChunker N) (counter : TokenCounter N) (document : Document) :
    Prop :=
  ∀ before block after, document.blocks = before ++ block :: after →
    let state := chunker.enter document.metadata (chunker.run counter document.metadata before) block
    chunker.tooLarge counter state block →
      contentOf state.cur = [] ∨ (ancestorPath (before ++ [block])).texts = (ancestorPath before).texts

theorem keepsPath_iff (metadata : DocumentMetadata) (read : List Block) (block : Block) :
    KeepsPath chunker counter read block ↔
      let state := chunker.enter metadata (chunker.run counter metadata read) block
      chunker.tooLarge counter state block →
        contentOf state.cur = [] ∨ (ancestorPath (read ++ [block])).texts = (ancestorPath read).texts := by
  have related := run_simulates chunker counter metadata read
  have entered := related.enter chunker block
  rw [KeepsPath]
  simp only [entered.tooLarge_iff, entered.cur]
  apply forall_congr'
  intro overflows
  rw [enterAt, closeAt_kept (.inl (overflows_iff.mp overflows).1)]
  rfl

/-- Every chunk names the ancestors of its last block exactly when no heading closes a
chunk for its size and changes the path. -/
theorem pathsTrue_iff (chunker : SemanticChunker N) (counter : TokenCounter N)
    (document : Document) :
    chunker.chunkWith counter document =
        (chunker.passagesOf counter document.blocks).filterMap
          (chunkOf counter document.metadata) ∧
      Tiles chunker counter document.blocks (chunker.passagesOf counter document.blocks) ∧
      (PathsTrue chunker counter document ↔ PathKept chunker counter document) := by
  refine ⟨chunkWith_eq document, (progressOf_covers chunker counter document.blocks).tiles, ?_⟩
  rw [pathsTrue_iff_located, located_iff]
  simp only [keepsPath_iff document.metadata]
  rfl

/-- Counts the characters that are not blank. -/
def inkCounter : TokenCounter Nat := ⟨fun text => (ink isWhitespace text).card⟩

/-- A section whose subheading is at a level at which chunks do not split. -/
def subsection : Document where
  metadata := { sourceFormat := .markdown, originalFilename := [] }
  blocks := [.heading 1 ['A'], .paragraph [.text "text".toList], .heading 3 ['B']]

/-- The chunk in front of a subheading is given the path of the subheading. -/
theorem not_pathsTrue_subsection : ¬ PathsTrue ⟨6, 0, [1]⟩ inkCounter subsection := by
  intro right
  have named := (right 0 _ _ rfl rfl).1
  exact absurd named (by decide)

end SemanticChunker
end AiCoreStack.Markdown
