import AiCoreStack.Foundation.Scalar

/-!
# Token generation

The sampler and the loop of `generation.rs`.  A decoder is a state with two
operations; the random generator and the exponential are parameters.
`generateLoop` reports each token to a caller that may end the run; `tokenStream`
is what the same decoder produces for a caller that never does.
-/

namespace AiCoreStack.Serving

open Foundation

/-- Errors of the engine. -/
inductive EngineError where
  | invalidModelId (id : String)
  | unsupportedFormat (detail : String)
  | unsupportedArchitecture (detail : String)
  | modelNotFound (id : String)
  | modelFileNotFound (detail : String)
  | integrityMismatch (id expected actual : String)
  | backendUnavailable (detail : String)
  | candle (detail : String)
  | tokenizer (detail : String)
  | invalidGenerationConfig (detail : String)
  | invalidLogits
  | io (detail : String)
  deriving DecidableEq, Repr

/-- Why a call gave no result: a failed `expect`, index or slice, a buffer of more than
`isize::MAX` bytes, or an error. -/
inductive Failure where
  | panic
  | capacity
  | engine (error : EngineError)
  deriving DecidableEq, Repr

/-- `expect`. -/
def expect {α : Type} : Option α → Except Failure α
  | some value => .ok value
  | none => .error .panic

/-- A loaded model.  `S` is the state that its calls change. -/
structure TokenDecoder (F S : Type) where
  prefill : S → List UInt32 → Except EngineError (List F × S)
  decode : S → UInt32 → Except EngineError (List F × S)

structure GenerationConfig (F : Type) where
  maxTokens : Nat
  temperature : F
  topK : Option Nat
  seed : UInt64
  stopTokens : List UInt32

/-- `config.validate`. -/
def GenerationConfig.validate {F : Type} [Scalar F] (config : GenerationConfig F) :
    Except EngineError Unit :=
  if config.maxTokens = 0 then
    .error (.invalidGenerationConfig "max_tokens must be greater than zero")
  else if !Scalar.isFinite config.temperature || Scalar.lt config.temperature (Scalar.lit 0) then
    .error (.invalidGenerationConfig "temperature must be finite and non-negative")
  else if config.topK = some 0 then
    .error (.invalidGenerationConfig "top_k must be greater than zero when supplied")
  else .ok ()

inductive GenerationStopReason where
  | maxTokens
  | stopToken
  | cancelled
  deriving DecidableEq, Repr

structure GenerationResult where
  tokens : List UInt32
  stopReason : GenerationStopReason
  deriving DecidableEq, Repr

/-! ## Sampling -/

/-- What the sampler takes from outside: a seeded generator of numbers in the unit
interval, and the exponential. -/
structure Entropy (F R : Type) where
  seed : UInt64 → R
  random : R → F × R
  exp : F → F

section Sampling

variable {F : Type} [Scalar F]

/-- The position of the largest logit, the last one of equals. -/
def argmax : List F → Option Nat
  | [] => none
  | logit :: rest =>
      some (rest.zipIdx.foldl (fun best (value, i) =>
        if Scalar.totalCmp value best.2 = .lt then best else (i + 1, value)) (0, logit)).1

/-- Logits in descending order, ties in the order of the vocabulary. -/
def byLogit (left right : F × Nat) : Prop := Scalar.totalCmp right.1 left.1 ≠ .gt

instance : DecidableRel (byLogit : F × Nat → F × Nat → Prop) :=
  fun _ _ => inferInstanceAs (Decidable (_ ≠ _))

/-- The logits that take part in the draw, the largest first. -/
def drawn (logits : List F) (config : GenerationConfig F) : List (F × Nat) :=
  let candidates := logits.zipIdx.insertionSort byLogit
  match config.topK with
  | some topK => candidates.take (min topK candidates.length)
  | none => candidates

/-- Walk along the weights until the threshold is used up. -/
def pick (last : Nat) : F → List ((F × Nat) × F) → Nat
  | _, [] => last
  | threshold, ((_, index), weight) :: rest =>
      if Scalar.le threshold weight then index
      else pick last (Scalar.sub threshold weight) rest

/-- `LogitsSampler::sample`. -/
def sample {R : Type} (entropy : Entropy F R) (rng : R) (logits : List F)
    (config : GenerationConfig F) : Except Failure (UInt32 × R) :=
  if logits.isEmpty || logits.any fun logit => !Scalar.isFinite logit then
    .error (.engine .invalidLogits)
  else if Scalar.le config.temperature (Scalar.lit 0) &&
      Scalar.le (Scalar.lit 0) config.temperature then
    (expect (argmax logits)).map fun index => (UInt32.ofNat index, rng)
  else
    let candidates := drawn logits config
    (expect candidates.head?).bind fun first =>
      let peak := Scalar.div first.1 config.temperature
      let weights := candidates.map fun (logit, _) =>
        entropy.exp (Scalar.sub (Scalar.div logit config.temperature) peak)
      let total := Scalar.sum weights
      if !Scalar.isFinite total || Scalar.le total (Scalar.lit 0) then
        .error (.engine .invalidLogits)
      else
        (expect candidates.getLast?).map fun last =>
          let (draw, rng) := entropy.random rng
          (UInt32.ofNat (pick last.2 (Scalar.mul draw total) (candidates.zip weights)), rng)

theorem drawn_ne_nil {logits : List F} {config : GenerationConfig F} (nonempty : logits ≠ [])
    (valid : config.topK ≠ some 0) : drawn logits config ≠ [] := by
  have sorted : logits.zipIdx.insertionSort byLogit ≠ [] := by
    intro empty
    have lengths := congrArg List.length empty
    simp only [List.length_insertionSort, List.length_zipIdx, List.length_nil] at lengths
    exact nonempty (List.length_eq_zero_iff.mp lengths)
  simp only [drawn]
  split
  next topK found =>
    have positive := List.length_pos_of_ne_nil sorted
    have chosen : topK ≠ 0 := fun zero => valid (zero ▸ found)
    intro empty
    rcases List.take_eq_nil_iff.mp empty with none | none
    · omega
    · exact sorted none
  next => exact sorted

/-- With a valid configuration the `expect`s of the sampler hold. -/
theorem sample_error {R : Type} {entropy : Entropy F R} {rng : R} {logits : List F}
    {config : GenerationConfig F} (valid : config.topK ≠ some 0) {failure : Failure}
    (failed : sample entropy rng logits config = .error failure) :
    ∃ error, failure = .engine error := by
  simp only [sample] at failed
  split at failed
  next =>
    cases failed
    exact ⟨_, rfl⟩
  next usable =>
    have nonempty : logits ≠ [] := by
      intro empty
      simp [empty] at usable
    split at failed
    next =>
      cases logits with
      | nil => exact absurd rfl nonempty
      | cons logit rest => simp [argmax, expect, Except.map] at failed
    next =>
      have drawing := drawn_ne_nil nonempty valid
      rw [List.head?_eq_some_head drawing, List.getLast?_eq_some_getLast drawing] at failed
      simp only [expect, Except.bind, Except.map] at failed
      split at failed
      · cases failed
        exact ⟨_, rfl⟩
      · cases failed

end Sampling

/-! ## The loop -/

/-- The decoder and the sampler between two tokens. -/
structure LoopState (F S R : Type) where
  decoder : S
  rng : R
  logits : List F

section Loop

variable {F S R T : Type} [Scalar F]
variable (entropy : Entropy F R) (decoder : TokenDecoder F S) (config : GenerationConfig F)

/-- The loop of `generate_with`.  `cancelled i` is the answer to the check before
token `i`; `onToken` reports a token and says whether to go on. -/
def generateLoop (cancelled : Nat → Bool) (onToken : T → UInt32 → Except Failure (T × Bool)) :
    Nat → LoopState F S R → List UInt32 → T → Except Failure (GenerationResult × T)
  | 0, _, tokens, caller => .ok (⟨tokens, .maxTokens⟩, caller)
  | n + 1, state, tokens, caller =>
      if cancelled tokens.length then .ok (⟨tokens, .cancelled⟩, caller)
      else
        (sample entropy state.rng state.logits config).bind fun (token, rng) =>
          if token ∈ config.stopTokens then .ok (⟨tokens ++ [token], .stopToken⟩, caller)
          else
            (onToken caller token).bind fun (caller, goOn) =>
              if goOn then
                ((decoder.decode state.decoder token).mapError .engine).bind
                  fun (logits, inner) =>
                    generateLoop cancelled onToken n ⟨inner, rng, logits⟩ (tokens ++ [token]) caller
              else .ok (⟨tokens ++ [token], .cancelled⟩, caller)

/-- `Vec::with_capacity` for tokens, which panics on a capacity overflow. -/
def reserve (capacity : Nat) : Except Failure Unit :=
  if 4 * capacity < 2 ^ 63 then .ok () else .error .capacity

theorem reserve_eq_ok {capacity : Nat} (fits : 4 * capacity < 2 ^ 63) : reserve capacity = .ok () :=
  if_pos fits

def generateWith (state : S) (prompt : List UInt32) (cancelled : Nat → Bool)
    (onToken : T → UInt32 → Except Failure (T × Bool)) (caller : T) :
    Except Failure (GenerationResult × T) :=
  (config.validate.mapError .engine).bind fun _ =>
    ((decoder.prefill state prompt).mapError .engine).bind fun (logits, inner) =>
      (reserve config.maxTokens).bind fun _ =>
        generateLoop entropy decoder config cancelled onToken config.maxTokens
          ⟨inner, entropy.seed config.seed, logits⟩ [] caller

/-! ## The stream under the loop -/

/-- How a stream ends that nobody cancels. -/
inductive Ending where
  | maxTokens
  | stopToken (token : UInt32)
  | failed (failure : Failure)
  deriving DecidableEq, Repr

/-- The tokens that a decoder reports, and how they end. -/
structure TokenStream where
  tokens : List UInt32
  ending : Ending
  deriving DecidableEq, Repr

namespace TokenStream

def cons (token : UInt32) (stream : TokenStream) : TokenStream :=
  { stream with tokens := token :: stream.tokens }

/-- Report a stream to a caller. -/
def follow (onToken : T → UInt32 → Except Failure (T × Bool)) (ending : Ending) :
    List UInt32 → List UInt32 → T → Except Failure (GenerationResult × T)
  | [], earlier, caller =>
      match ending with
      | .maxTokens => .ok (⟨earlier, .maxTokens⟩, caller)
      | .stopToken token => .ok (⟨earlier ++ [token], .stopToken⟩, caller)
      | .failed failure => .error failure
  | token :: rest, earlier, caller =>
      (onToken caller token).bind fun (caller, goOn) =>
        if goOn then follow onToken ending rest (earlier ++ [token]) caller
        else .ok (⟨earlier ++ [token], .cancelled⟩, caller)

end TokenStream

def streamLoop : Nat → LoopState F S R → TokenStream
  | 0, _ => ⟨[], .maxTokens⟩
  | n + 1, state =>
      match sample entropy state.rng state.logits config with
      | .error failure => ⟨[], .failed failure⟩
      | .ok (token, rng) =>
          if token ∈ config.stopTokens then ⟨[], .stopToken token⟩
          else
            match decoder.decode state.decoder token with
            | .error error => ⟨[token], .failed (.engine error)⟩
            | .ok (logits, inner) => (streamLoop n ⟨inner, rng, logits⟩).cons token

/-- The stream that a decoder produces for a prompt. -/
def tokenStream (state : S) (prompt : List UInt32) : TokenStream :=
  match config.validate, decoder.prefill state prompt, reserve config.maxTokens with
  | .error error, _, _ => ⟨[], .failed (.engine error)⟩
  | .ok _, .error error, _ => ⟨[], .failed (.engine error)⟩
  | .ok _, .ok _, .error failure => ⟨[], .failed failure⟩
  | .ok _, .ok (logits, inner), .ok _ =>
      streamLoop entropy decoder config config.maxTokens
        ⟨inner, entropy.seed config.seed, logits⟩

/-- The loop hands the stream to its caller, token by token. -/
theorem generateLoop_eq_follow (onToken : T → UInt32 → Except Failure (T × Bool)) (n : Nat)
    (state : LoopState F S R) (tokens : List UInt32) (caller : T) :
    generateLoop entropy decoder config (fun _ => false) onToken n state tokens caller =
      TokenStream.follow onToken (streamLoop entropy decoder config n state).ending
        (streamLoop entropy decoder config n state).tokens tokens caller := by
  induction n generalizing state tokens caller with
  | zero => rfl
  | succ n ih =>
      simp only [generateLoop, streamLoop, Bool.false_eq_true, if_false]
      cases sample entropy state.rng state.logits config with
      | error failure => rfl
      | ok drawn =>
          simp only [Except.bind]
          split
          next => rfl
          next =>
            cases decoder.decode state.decoder drawn.1 with
            | error error => rfl
            | ok next =>
                simp only [TokenStream.cons, TokenStream.follow, Except.mapError, ih]
                rfl

theorem generateWith_eq_follow (state : S) (prompt : List UInt32)
    (onToken : T → UInt32 → Except Failure (T × Bool)) (caller : T) :
    generateWith entropy decoder config state prompt (fun _ => false) onToken caller =
      TokenStream.follow onToken (tokenStream entropy decoder config state prompt).ending
        (tokenStream entropy decoder config state prompt).tokens [] caller := by
  simp only [generateWith, tokenStream]
  cases config.validate with
  | error error => rfl
  | ok _ =>
      cases decoder.prefill state prompt with
      | error error => rfl
      | ok next =>
          cases reserve config.maxTokens with
          | error failure => rfl
          | ok _ => exact generateLoop_eq_follow ..

theorem streamLoop_failed (valid : config.topK ≠ some 0) (n : Nat) (state : LoopState F S R)
    {failure : Failure} (failed : (streamLoop entropy decoder config n state).ending =
      .failed failure) : ∃ error, failure = .engine error := by
  induction n generalizing state with
  | zero => simp [streamLoop] at failed
  | succ n ih =>
      simp only [streamLoop] at failed
      split at failed
      next sampled =>
        cases failed
        exact sample_error valid sampled
      next =>
        split at failed
        next => cases failed
        next =>
          split at failed
          next =>
            cases failed
            exact ⟨_, rfl⟩
          next => exact ih _ failed

/-- How a stream fails: with an error, or at once for want of a buffer for its tokens. -/
theorem tokenStream_failed {state : S} {prompt : List UInt32} {failure : Failure}
    (failed : (tokenStream entropy decoder config state prompt).ending = .failed failure) :
    (∃ error, failure = .engine error) ∨ failure = .capacity ∧ 2 ^ 63 ≤ 4 * config.maxTokens ∧
      (tokenStream entropy decoder config state prompt).tokens = [] := by
  simp only [tokenStream] at failed ⊢
  split at failed
  next =>
    cases failed
    exact .inl ⟨_, rfl⟩
  next =>
    cases failed
    exact .inl ⟨_, rfl⟩
  next reserved =>
    cases failed
    rw [reserve] at reserved
    split at reserved
    next => cases reserved
    next large =>
      cases reserved
      exact .inr ⟨rfl, Nat.le_of_not_lt large, rfl⟩
  next checked _ _ =>
    refine .inl (streamLoop_failed _ _ _ ?_ _ _ failed)
    intro zero
    simp only [GenerationConfig.validate, zero, if_true] at checked
    split at checked
    next => simp at checked
    next => split at checked <;> simp at checked

/-- No decoder makes the loop panic. -/
theorem tokenStream_ne_panic (state : S) (prompt : List UInt32) :
    (tokenStream entropy decoder config state prompt).ending ≠ .failed .panic := by
  intro failed
  rcases tokenStream_failed _ _ _ failed with ⟨error, same⟩ | ⟨same, -⟩
  · cases same
  · cases same

end Loop

end AiCoreStack.Serving
