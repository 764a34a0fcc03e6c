import AiCoreStack.Markdown.Renderer

/-!
# Semantic chunking

Model of `chunker.rs`.  The loop of `chunk_with` over the blocks of a document is a fold
of `Chunker.step` over a state with the source's four variables.  Token counts are of a
type `N` with addition and a comparison, so that `usize` can be the natural numbers or
wrap around.
-/

namespace AiCoreStack.Markdown

open AiCoreStack.Foundation

/-! ## Token counters -/

/-- An implementation of `TokenCounter`. -/
structure TokenCounter (N : Type) where
  count : List Char → N

/-- Chinese, Japanese and Korean characters. -/
def isCjk (c : Char) : Bool :=
  let n := c.toNat
  (0x1100 ≤ n ∧ n ≤ 0x11FF) ∨ (0x3040 ≤ n ∧ n ≤ 0x30FF) ∨ (0x3130 ≤ n ∧ n ≤ 0x318F) ∨
    (0x3400 ≤ n ∧ n ≤ 0x4DBF) ∨ (0x4E00 ≤ n ∧ n ≤ 0x9FFF) ∨ (0xAC00 ≤ n ∧ n ≤ 0xD7AF) ∨
    (0xF900 ≤ n ∧ n ≤ 0xFAFF)

/-- The tokens of a run of other characters. -/
def flushLatin (run : Nat) : Nat := if run = 0 then 0 else max ((run + 3) / 4) 1

/-- The counting loop: the tokens so far and the length of the open run. -/
def heuristicFrom (tokens run : Nat) : List Char → Nat
  | [] => tokens + flushLatin run
  | c :: rest =>
      if isCjk c then heuristicFrom (tokens + flushLatin run + 1) 0 rest
      else if isWhitespace c then heuristicFrom (tokens + flushLatin run) 0 rest
      else heuristicFrom tokens (run + 1) rest

/-- `HeuristicTokenCounter`. -/
def heuristicTokenCounter : TokenCounter Nat := ⟨heuristicFrom 0 0⟩

/-! ## Chunks -/

/-- The settings of `SemanticChunker`. -/
structure SemanticChunker (N : Type) where
  maxTokens : N
  overlapTokens : N
  headingLevels : List UInt8

def SemanticChunker.standard : SemanticChunker Nat := ⟨512, 64, [1, 2]⟩

structure Chunk (N : Type) where
  headingPath : List (List Char)
  content : List Char
  tokenCount : N
  metadata : DocumentMetadata

/-- The headings the current block is under, outermost first. -/
abbrev PathStack := List (UInt8 × List Char)

/-- Push a heading after the headings of the same or a deeper level are popped. -/
def PathStack.enter (stack : PathStack) (level : UInt8) (text : List Char) : PathStack :=
  stack.rdropWhile (fun entry => level ≤ entry.1) ++ [(level, text)]

def PathStack.texts (stack : PathStack) : List (List Char) := stack.map Prod.snd

/-- The variables of the loop. -/
structure ChunkState (N : Type) where
  chunks : List (Chunk N)
  pathStack : PathStack
  cur : List Block
  curTokens : N

namespace SemanticChunker

variable {N : Type} [AddCommMonoid N] [LT N] [DecidableLT N]
variable (self : SemanticChunker N) (counter : TokenCounter N) (metadata : DocumentMetadata)

/-- The tokens of one block. -/
def blockTokens (block : Block) : N := counter.count (renderBlocks [block])

/-- Whether a block is a heading at which a chunk begins. -/
def splitsAt : Block → Bool
  | .heading level _ => level ∈ self.headingLevels
  | _ => false

/-- The path in force behind a block. -/
def pathAfter (stack : PathStack) : Block → PathStack
  | .heading level text => stack.enter level text
  | _ => stack

/-- A chunk, unless its content is blank. -/
def pushChunk (path : PathStack) (content : List Char) (tokens : N) (chunks : List (Chunk N)) :
    List (Chunk N) :=
  if content = [] then chunks else chunks ++ [⟨path.texts, content, tokens, metadata⟩]

/-- The content of the open chunk. -/
def contentOf (cur : List Block) : List Char := trim isWhitespace (renderBlocks cur)

/-- Close the open chunk without an overlap. -/
def flush (state : ChunkState N) : ChunkState N :=
  if state.cur = [] then state
  else
    { state with
      chunks :=
        pushChunk metadata state.pathStack (contentOf state.cur) state.curTokens state.chunks
      cur := []
      curTokens := 0 }

/-- Collect blocks from the end until the overlap is reached; the blocks come last first. -/
def carryFrom (carry : List Block) (tokens : N) : List Block → List Block × N
  | [] => (carry, tokens)
  | block :: rest =>
      if tokens < self.overlapTokens then
        carryFrom (block :: carry) (tokens + blockTokens counter block) rest
      else (carry, tokens)

/-- The blocks carried over to the next chunk and their tokens. -/
def carryOf (cur : List Block) : List Block × N :=
  if 0 < self.overlapTokens then self.carryFrom counter [] 0 cur.reverse else ([], 0)

/-- Close the open chunk and carry its last blocks over. -/
def flushWithOverlap (state : ChunkState N) : ChunkState N :=
  let content := contentOf state.cur
  let carry := self.carryOf counter state.cur
  { state with
    chunks := pushChunk metadata state.pathStack content (counter.count content) state.chunks
    cur := carry.1
    curTokens := carry.2 }

/-- The part of an iteration in front of the size test: a heading at which chunks split
closes the open chunk, and every heading enters the path. -/
def enter (state : ChunkState N) (block : Block) : ChunkState N :=
  let state := if self.splitsAt block then flush metadata state else state
  { state with pathStack := pathAfter state.pathStack block }

/-- Whether a block no longer fits behind the open blocks. -/
def tooLarge (state : ChunkState N) (block : Block) : Prop :=
  self.maxTokens < state.curTokens + blockTokens counter block ∧ state.cur ≠ []

instance (state : ChunkState N) (block : Block) : Decidable (self.tooLarge counter state block) :=
  inferInstanceAs (Decidable (_ ∧ _))

/-- One iteration of the loop. -/
def step (state : ChunkState N) (block : Block) : ChunkState N :=
  let state := self.enter metadata state block
  let state :=
    if self.tooLarge counter state block then self.flushWithOverlap counter metadata state
    else state
  { state with
    cur := state.cur ++ [block]
    curTokens := state.curTokens + blockTokens counter block }

def initial : ChunkState N := ⟨[], [], [], 0⟩

/-- The state behind the blocks of a document. -/
def run (blocks : List Block) : ChunkState N := blocks.foldl (self.step counter metadata) initial

def chunkWith (document : Document) : List (Chunk N) :=
  (flush document.metadata (self.run counter document.metadata document.blocks)).chunks

end SemanticChunker

/-- `SemanticChunker::chunk`: chunking with the default counter. -/
def SemanticChunker.chunk (self : SemanticChunker Nat) (document : Document) : List (Chunk Nat) :=
  self.chunkWith heuristicTokenCounter document

end AiCoreStack.Markdown
