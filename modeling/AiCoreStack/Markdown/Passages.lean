import AiCoreStack.Markdown.Chunker

/-!
# Passages

The abstract view of chunking: a *passage* is the range of blocks one chunk is made of,
some of them carried over from the passage before and the others new.  `advance` cuts the
blocks of a document into passages, the chunker simulates it, and the passages tile the
document.
-/

namespace AiCoreStack.Markdown

open AiCoreStack.Foundation

/-- Why a passage ends. -/
inductive Cut where
  | heading
  | size
  | finish
  deriving DecidableEq, Repr

/-- The blocks of one chunk, and the path it is given. -/
structure Passage where
  carried : List Block
  added : List Block
  path : PathStack
  cut : Cut

def Passage.blocks (passage : Passage) : List Block := passage.carried ++ passage.added

/-- The blocks of a document up to the end of the passage with an index. -/
def upTo (passages : List Passage) (index : Nat) : List Block :=
  ((passages.take (index + 1)).map Passage.added).flatten

/-- The passages that are closed, the path in force, and the open passage. -/
structure Progress where
  closed : List Passage
  path : PathStack
  carried : List Block
  added : List Block

namespace Progress

def blocks (progress : Progress) : List Block := progress.carried ++ progress.added

/-- The closed passages and the open one, if it has blocks. -/
def passages (progress : Progress) : List Passage :=
  if progress.added = [] then progress.closed
  else progress.closed ++ [⟨progress.carried, progress.added, progress.path, .finish⟩]

end Progress

namespace SemanticChunker

variable {N : Type} [AddCommMonoid N] [LT N] [DecidableLT N]
variable (self : SemanticChunker N) (counter : TokenCounter N) (metadata : DocumentMetadata)

/-- The tokens of a list of blocks, block by block. -/
def tokensOf (blocks : List Block) : N := (blocks.map (blockTokens counter)).sum

/-! ## Cutting a document into passages -/

/-- Close the open passage in front of a heading at which chunks split. -/
def closeAt (progress : Progress) (block : Block) : Progress :=
  if self.splitsAt block ∧ progress.added ≠ [] then
    ⟨progress.closed ++ [⟨progress.carried, progress.added, progress.path, .heading⟩],
      progress.path, [], []⟩
  else progress

/-- The passages in front of the size test for the next block. -/
def enterAt (progress : Progress) (block : Block) : Progress :=
  let progress := self.closeAt progress block
  ⟨progress.closed, pathAfter progress.path block, progress.carried, progress.added⟩

/-- Whether a block does not fit into the open passage. -/
def Overflows (progress : Progress) (block : Block) : Prop :=
  self.maxTokens < tokensOf counter progress.blocks + blockTokens counter block ∧
    progress.added ≠ []

instance (progress : Progress) (block : Block) : Decidable (self.Overflows counter progress block) :=
  inferInstanceAs (Decidable (_ ∧ _))

/-- Take the next block into the passages. -/
def advance (progress : Progress) (block : Block) : Progress :=
  let progress := self.enterAt progress block
  if self.Overflows counter progress block then
    ⟨progress.closed ++ [⟨progress.carried, progress.added, progress.path, .size⟩],
      progress.path, (self.carryOf counter progress.blocks).1, [block]⟩
  else ⟨progress.closed, progress.path, progress.carried, progress.added ++ [block]⟩

def progressOf (blocks : List Block) : Progress :=
  blocks.foldl (self.advance counter) ⟨[], [], [], []⟩

/-- The passages of a document. -/
def passagesOf (blocks : List Block) : List Passage := (self.progressOf counter blocks).passages

/-- The token count the chunk of a passage is given. -/
def passageTokens (passage : Passage) : N :=
  match passage.cut with
  | .size => counter.count (contentOf passage.blocks)
  | _ => tokensOf counter passage.blocks

/-- The chunk of a passage, unless it is blank. -/
def chunkOf (passage : Passage) : Option (Chunk N) :=
  if contentOf passage.blocks = [] then none
  else
    some ⟨passage.path.texts, contentOf passage.blocks, passageTokens counter passage, metadata⟩

/-! ## The blocks that are carried over -/

omit [LT N] [DecidableLT N] in
theorem tokensOf_append (left right : List Block) :
    tokensOf counter (left ++ right) = tokensOf counter left + tokensOf counter right := by
  simp [tokensOf]

omit [LT N] [DecidableLT N] in
theorem tokensOf_singleton (block : Block) :
    tokensOf counter [block] = blockTokens counter block := by
  simp [tokensOf]

/-- The loop takes blocks from the end, in order. -/
theorem carryFrom_eq (carry rest : List Block) :
    ∃ taken left, rest = taken ++ left ∧
      self.carryFrom counter carry (tokensOf counter carry) rest =
        (taken.reverse ++ carry, tokensOf counter (taken.reverse ++ carry)) := by
  induction rest generalizing carry with
  | nil => exact ⟨[], [], rfl, rfl⟩
  | cons block rest ih =>
      by_cases short : tokensOf counter carry < self.overlapTokens
      · obtain ⟨taken, left, split, taking⟩ := ih (block :: carry)
        have tokens : tokensOf counter carry + blockTokens counter block =
            tokensOf counter (block :: carry) := by
          rw [tokensOf, tokensOf, List.map_cons, List.sum_cons, add_comm]
        refine ⟨block :: taken, left, by rw [split, List.cons_append], ?_⟩
        rw [carryFrom, if_pos short, tokens, taking, List.reverse_cons, List.append_assoc,
          List.singleton_append]
      · exact ⟨[], block :: rest, rfl, by rw [carryFrom, if_neg short]; rfl⟩

theorem carryOf_suffix (blocks : List Block) : (self.carryOf counter blocks).1 <:+ blocks := by
  by_cases overlap : 0 < self.overlapTokens
  · obtain ⟨taken, left, split, taking⟩ := self.carryFrom_eq counter [] blocks.reverse
    have carried : (self.carryOf counter blocks).1 = taken.reverse := by
      rw [carryOf, if_pos overlap, ← List.append_nil taken.reverse]
      exact congrArg Prod.fst taking
    rw [carried]
    exact ⟨left.reverse, by rw [← List.reverse_append, ← split, List.reverse_reverse]⟩
  · rw [carryOf, if_neg overlap]
    exact List.nil_suffix

theorem carryOf_tokens (blocks : List Block) :
    (self.carryOf counter blocks).2 = tokensOf counter (self.carryOf counter blocks).1 := by
  by_cases overlap : 0 < self.overlapTokens
  · obtain ⟨taken, left, split, taking⟩ := self.carryFrom_eq counter [] blocks.reverse
    have start : tokensOf counter ([] : List Block) = 0 := rfl
    rw [start] at taking
    rw [carryOf, if_pos overlap, taking]
  · rw [carryOf, if_neg overlap]
    rfl

theorem overlap_of_carryOf {blocks : List Block} (carries : (self.carryOf counter blocks).1 ≠ []) :
    0 < self.overlapTokens := by
  by_contra none
  rw [carryOf, if_neg none] at carries
  exact carries rfl

/-! ## What one block does -/

variable {self counter} {progress : Progress} {block : Block}

omit [AddCommMonoid N] [LT N] [DecidableLT N] in
theorem closeAt_kept (kept : self.splitsAt block = false ∨ progress.added = []) :
    self.closeAt progress block = progress := by
  apply if_neg
  rintro ⟨splits, nonempty⟩
  rcases kept with ordinary | empty
  · exact absurd splits (by simp [ordinary])
  · exact nonempty empty

omit [DecidableLT N] in
theorem overflows_iff :
    self.Overflows counter (self.enterAt progress block) block ↔
      self.splitsAt block = false ∧ progress.added ≠ [] ∧
        self.maxTokens < tokensOf counter progress.blocks + blockTokens counter block := by
  by_cases kept : self.splitsAt block = false ∨ progress.added = []
  · rw [Overflows, enterAt, closeAt_kept kept]
    constructor
    · rintro ⟨large, nonempty⟩
      exact ⟨kept.resolve_right nonempty, nonempty, large⟩
    · rintro ⟨-, nonempty, large⟩
      exact ⟨large, nonempty⟩
  · obtain ⟨splits, nonempty⟩ := not_or.mp kept
    have closed : (self.enterAt progress block).added = [] := by
      rw [enterAt, closeAt, if_pos ⟨by simpa using splits, nonempty⟩]
    simp [Overflows, closed, splits]

/-- The first block. -/
theorem advance_of_empty (empty : progress.added = []) :
    self.advance counter progress block =
      ⟨progress.closed, pathAfter progress.path block, progress.carried, [block]⟩ := by
  rw [advance, if_neg (by simp [overflows_iff, empty]), enterAt, closeAt_kept (.inr empty), empty]
  rfl

/-- A heading at which chunks split opens a passage. -/
theorem advance_of_heading (nonempty : progress.added ≠ []) (splits : self.splitsAt block = true) :
    self.advance counter progress block =
      ⟨progress.closed ++ [⟨progress.carried, progress.added, progress.path, .heading⟩],
        pathAfter progress.path block, [], [block]⟩ := by
  rw [advance, if_neg (by simp [overflows_iff, splits]), enterAt, closeAt,
    if_pos ⟨splits, nonempty⟩]
  rfl

/-- A block that is too large opens a passage behind the carried blocks. -/
theorem advance_of_size (ordinary : self.splitsAt block = false) (nonempty : progress.added ≠ [])
    (large : self.maxTokens < tokensOf counter progress.blocks + blockTokens counter block) :
    self.advance counter progress block =
      ⟨progress.closed ++
          [⟨progress.carried, progress.added, pathAfter progress.path block, .size⟩],
        pathAfter progress.path block, (self.carryOf counter progress.blocks).1, [block]⟩ := by
  rw [advance, if_pos (overflows_iff.mpr ⟨ordinary, nonempty, large⟩), enterAt,
    closeAt_kept (.inl ordinary)]
  rfl

/-- Any other block joins the open passage. -/
theorem advance_of_fit (ordinary : self.splitsAt block = false)
    (fits : ¬ self.maxTokens < tokensOf counter progress.blocks + blockTokens counter block) :
    self.advance counter progress block =
      ⟨progress.closed, pathAfter progress.path block, progress.carried,
        progress.added ++ [block]⟩ := by
  rw [advance, if_neg (by simp [overflows_iff, fits]), enterAt, closeAt_kept (.inl ordinary)]

theorem progressOf_snoc (blocks : List Block) (block : Block) :
    self.progressOf counter (blocks ++ [block]) =
      self.advance counter (self.progressOf counter blocks) block := by
  rw [progressOf, List.foldl_append]
  rfl

/-! ## The chunker simulates the cutting -/

/-- The state of the chunker that stands for a progress. -/
structure Simulates (counter : TokenCounter N) (metadata : DocumentMetadata)
    (state : ChunkState N) (progress : Progress) : Prop where
  chunks : state.chunks = progress.closed.filterMap (chunkOf counter metadata)
  path : state.pathStack = progress.path
  cur : state.cur = progress.blocks
  tokens : state.curTokens = tokensOf counter progress.blocks
  bare : progress.added = [] → progress.carried = []

variable {metadata}

omit [LT N] [DecidableLT N] in
theorem pushChunk_eq (passage : Passage) (closed : List Passage) :
    pushChunk metadata passage.path (contentOf passage.blocks) (passageTokens counter passage)
        (closed.filterMap (chunkOf counter metadata)) =
      (closed ++ [passage]).filterMap (chunkOf counter metadata) := by
  rw [List.filterMap_append, pushChunk]
  by_cases blank : contentOf passage.blocks = []
  · simp [blank, chunkOf]
  · simp [blank, chunkOf]

namespace Simulates

omit [LT N] [DecidableLT N] in
theorem cur_eq_nil_iff {state : ChunkState N} {progress : Progress}
    (related : Simulates counter metadata state progress) : state.cur = [] ↔ progress.added = [] := by
  rw [related.cur, Progress.blocks, List.append_eq_nil_iff]
  constructor
  · intro empty
    exact empty.2
  · intro empty
    exact ⟨related.bare empty, empty⟩

omit [LT N] [DecidableLT N] in
theorem flush {state : ChunkState N} {progress : Progress}
    (related : Simulates counter metadata state progress) (cut : Cut) (notSize : cut ≠ .size)
    (some : progress.added ≠ []) :
    Simulates counter metadata (SemanticChunker.flush metadata state)
      ⟨progress.closed ++ [⟨progress.carried, progress.added, progress.path, cut⟩],
        progress.path, [], []⟩ := by
  have open' : state.cur ≠ [] := fun empty => some (related.cur_eq_nil_iff.mp empty)
  have tokens : passageTokens counter ⟨progress.carried, progress.added, progress.path, cut⟩ =
      state.curTokens := by
    rw [related.tokens]
    cases cut with
    | size => exact absurd rfl notSize
    | heading => rfl
    | finish => rfl
  rw [SemanticChunker.flush, if_neg open']
  exact {
    chunks := by
      rw [← pushChunk_eq, tokens, related.chunks, related.path, related.cur]
      rfl
    path := related.path
    cur := rfl
    tokens := rfl
    bare := fun _ => rfl }

omit [LT N] [DecidableLT N] in
theorem closeAt {state : ChunkState N} {progress : Progress}
    (related : Simulates counter metadata state progress) (self : SemanticChunker N)
    (block : Block) :
    Simulates counter metadata
      (if self.splitsAt block then SemanticChunker.flush metadata state else state)
      (self.closeAt progress block) := by
  rw [SemanticChunker.closeAt]
  by_cases splits : self.splitsAt block = true
  · by_cases empty : progress.added = []
    · have closed : SemanticChunker.flush metadata state = state := by
        rw [SemanticChunker.flush, if_pos (related.cur_eq_nil_iff.mpr empty)]
      rw [if_pos splits, closed, if_neg (by simp [empty])]
      exact related
    · rw [if_pos splits, if_pos ⟨splits, empty⟩]
      exact related.flush .heading (by simp) empty
  · rw [if_neg splits, if_neg (by simp [splits])]
    exact related

omit [LT N] [DecidableLT N] in
theorem enter {state : ChunkState N} {progress : Progress}
    (related : Simulates counter metadata state progress) (self : SemanticChunker N)
    (block : Block) :
    Simulates counter metadata (self.enter metadata state block)
      (self.enterAt progress block) := by
  have closed := related.closeAt self block
  exact {
    chunks := closed.chunks
    path := by rw [SemanticChunker.enter, enterAt, closed.path]
    cur := closed.cur
    tokens := closed.tokens
    bare := closed.bare }

omit [DecidableLT N] in
theorem tooLarge_iff {state : ChunkState N} {progress : Progress}
    (related : Simulates counter metadata state progress) (self : SemanticChunker N)
    (block : Block) :
    self.tooLarge counter state block ↔ self.Overflows counter progress block := by
  rw [tooLarge, Overflows, related.tokens, Ne, related.cur_eq_nil_iff]

theorem step {state : ChunkState N} {progress : Progress}
    (related : Simulates counter metadata state progress) (block : Block) :
    Simulates counter metadata (self.step counter metadata state block)
      (self.advance counter progress block) := by
  have entered := related.enter self block
  have decided := entered.tooLarge_iff self block
  rw [SemanticChunker.step, advance]
  by_cases large : self.tooLarge counter (self.enter metadata state block) block
  · rw [if_pos large, if_pos (decided.mp large)]
    exact {
      chunks := by
        rw [← pushChunk_eq]
        simp only [flushWithOverlap, entered.chunks, entered.path, entered.cur]
        rfl
      path := entered.path
      cur := by
        simp only [flushWithOverlap, entered.cur]
        rfl
      tokens := by
        simp only [flushWithOverlap, entered.cur, carryOf_tokens]
        rw [← tokensOf_singleton, ← tokensOf_append]
        rfl
      bare := by simp }
  · rw [if_neg large, if_neg fun overflows => large (decided.mpr overflows)]
    exact {
      chunks := entered.chunks
      path := entered.path
      cur := by
        simp only [entered.cur, Progress.blocks, List.append_assoc]
      tokens := by
        simp only [entered.tokens, Progress.blocks]
        rw [← List.append_assoc, tokensOf_append _ (_ ++ _), tokensOf_singleton]
      bare := by simp }

end Simulates

theorem run_simulates (self : SemanticChunker N) (counter : TokenCounter N)
    (metadata : DocumentMetadata) (blocks : List Block) :
    Simulates counter metadata (self.run counter metadata blocks)
      (self.progressOf counter blocks) := by
  induction blocks using List.reverseRecOn with
  | nil =>
      exact { chunks := rfl, path := rfl, cur := rfl, tokens := rfl, bare := fun _ => rfl }
  | append_singleton blocks block ih =>
      rw [run, List.foldl_append, progressOf_snoc]
      exact ih.step block

/-- The chunks of a document are the chunks of its passages. -/
theorem chunkWith_eq (document : Document) :
    self.chunkWith counter document =
      (self.passagesOf counter document.blocks).filterMap
        (chunkOf counter document.metadata) := by
  have related := run_simulates self counter document.metadata document.blocks
  rw [chunkWith, passagesOf, Progress.passages]
  by_cases empty : (self.progressOf counter document.blocks).added = []
  · rw [if_pos empty, SemanticChunker.flush, if_pos (related.cur_eq_nil_iff.mpr empty),
      related.chunks]
  · rw [if_neg empty]
    exact (related.flush .finish (by simp) empty).chunks

end SemanticChunker
end AiCoreStack.Markdown
