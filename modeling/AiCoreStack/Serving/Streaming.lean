import AiCoreStack.Serving.StopStrings

/-!
# The two streaming calls

`run_generation` and `generate_chat_stream_registered_gguf`, with all calls of their callbacks.  A
run that fails has made its calls all the same, so the loop here keeps its caller when it fails.
The call from Python is modelled from the tokens of the prompt on.  Its callback may raise.
-/

namespace AiCoreStack.Serving

open Foundation
open String (utf8Len)

/-! ## The loop with its caller -/

section Report

variable {F S R T : Type} [Scalar F]

/-- The loop of `generate_with` for a check that never cancels.  The caller is kept when the run
fails. -/
def reportLoop (entropy : Entropy F R) (decoder : TokenDecoder F S) (config : GenerationConfig F)
    (onToken : T → UInt32 → Except Failure (T × Bool)) :
    Nat → LoopState F S R → List UInt32 → T → T × Except Failure GenerationResult
  | 0, _, tokens, caller => (caller, .ok ⟨tokens, .maxTokens⟩)
  | n + 1, state, tokens, caller =>
      match sample entropy state.rng state.logits config with
      | .error failure => (caller, .error failure)
      | .ok (token, rng) =>
          if token ∈ config.stopTokens then (caller, .ok ⟨tokens ++ [token], .stopToken⟩)
          else
            match onToken caller token with
            | .error failure => (caller, .error failure)
            | .ok (caller, goOn) =>
                if goOn then
                  match decoder.decode state.decoder token with
                  | .error error => (caller, .error (.engine error))
                  | .ok (logits, inner) =>
                      reportLoop entropy decoder config onToken n ⟨inner, rng, logits⟩
                        (tokens ++ [token]) caller
                else (caller, .ok ⟨tokens ++ [token], .cancelled⟩)

/-- `generate_with`, with the caller that it leaves. -/
def reportWith (entropy : Entropy F R) (decoder : TokenDecoder F S) (config : GenerationConfig F)
    (state : S) (prompt : List UInt32) (onToken : T → UInt32 → Except Failure (T × Bool))
    (caller : T) : T × Except Failure GenerationResult :=
  match config.validate with
  | .error error => (caller, .error (.engine error))
  | .ok _ =>
      match decoder.prefill state prompt with
      | .error error => (caller, .error (.engine error))
      | .ok (logits, inner) =>
          match reserve config.maxTokens with
          | .error failure => (caller, .error failure)
          | .ok _ =>
              reportLoop entropy decoder config onToken config.maxTokens
                ⟨inner, entropy.seed config.seed, logits⟩ [] caller

/-- What a caller gets of a run that did not fail. -/
def answered (reported : T × Except Failure GenerationResult) :
    Except Failure (GenerationResult × T) :=
  reported.2.map fun result => (result, reported.1)

namespace TokenStream

/-- Report a stream to a caller that is kept. -/
def report (onToken : T → UInt32 → Except Failure (T × Bool)) (ending : Ending) :
    List UInt32 → List UInt32 → T → T × Except Failure GenerationResult
  | [], earlier, caller =>
      (caller, match ending with
        | .maxTokens => .ok ⟨earlier, .maxTokens⟩
        | .stopToken token => .ok ⟨earlier ++ [token], .stopToken⟩
        | .failed failure => .error failure)
  | token :: rest, earlier, caller =>
      match onToken caller token with
      | .error failure => (caller, .error failure)
      | .ok (caller, goOn) =>
          if goOn then report onToken ending rest (earlier ++ [token]) caller
          else (caller, .ok ⟨earlier ++ [token], .cancelled⟩)

theorem answered_report (onToken : T → UInt32 → Except Failure (T × Bool)) (ending : Ending)
    (rest earlier : List UInt32) (caller : T) :
    answered (report onToken ending rest earlier caller) =
      follow onToken ending rest earlier caller := by
  induction rest generalizing earlier caller with
  | nil => cases ending <;> rfl
  | cons token rest ih =>
      rw [report, follow]
      cases onToken caller token with
      | error failure => rfl
      | ok answer =>
          dsimp only [Except.bind]
          split_ifs
          · exact ih _ _
          · rfl

end TokenStream

variable (entropy : Entropy F R) (decoder : TokenDecoder F S) (config : GenerationConfig F)

/-- The loop reports the stream of the decoder. -/
theorem reportLoop_eq_report (onToken : T → UInt32 → Except Failure (T × Bool)) (n : Nat)
    (state : LoopState F S R) (tokens : List UInt32) (caller : T) :
    reportLoop entropy decoder config onToken n state tokens caller =
      TokenStream.report onToken (streamLoop entropy decoder config n state).ending
        (streamLoop entropy decoder config n state).tokens tokens caller := by
  induction n generalizing state tokens caller with
  | zero => rfl
  | succ n ih =>
      rw [reportLoop, streamLoop]
      cases sample entropy state.rng state.logits config with
      | error failure => rfl
      | ok drawn =>
          dsimp only
          split_ifs
          · rfl
          cases decoder.decode state.decoder drawn.1 with
          | error error => rfl
          | ok next =>
              dsimp only [TokenStream.cons]
              rw [TokenStream.report]
              cases onToken caller drawn.1 with
              | error failure => rfl
              | ok answer =>
                  dsimp only
                  split_ifs
                  · exact ih _ _ _
                  · rfl

theorem reportWith_eq_report (state : S) (prompt : List UInt32)
    (onToken : T → UInt32 → Except Failure (T × Bool)) (caller : T) :
    reportWith entropy decoder config state prompt onToken caller =
      TokenStream.report onToken (tokenStream entropy decoder config state prompt).ending
        (tokenStream entropy decoder config state prompt).tokens [] caller := by
  rw [reportWith, tokenStream]
  cases config.validate with
  | error error => rfl
  | ok _ =>
      cases decoder.prefill state prompt with
      | error error => rfl
      | ok next =>
          cases reserve config.maxTokens with
          | error failure => rfl
          | ok _ => exact reportLoop_eq_report ..

theorem answered_reportWith (state : S) (prompt : List UInt32)
    (onToken : T → UInt32 → Except Failure (T × Bool)) (caller : T) :
    answered (reportWith entropy decoder config state prompt onToken caller) =
      generateWith entropy decoder config state prompt (fun _ => false) onToken caller := by
  rw [reportWith_eq_report, TokenStream.answered_report, generateWith_eq_follow]

end Report

/-! ## The two calls -/

/-- A call with all deltas that its callback was given, whether it failed or not. -/
structure Traced (E α : Type) where
  deltas : List (List Char)
  outcome : Except E α

/-- What follows the loop of `run_generation`. -/
def concludeTraced (tokenizer : LocalTokenizer) (progress : Progress)
    (result : Except Failure GenerationResult) : Traced Failure GenerationOutcome :=
  match result, progress.decodeError with
  | .error failure, _ => ⟨progress.deltas, .error failure⟩
  | .ok _, some error => ⟨progress.deltas, .error (.engine error)⟩
  | .ok result, none =>
      match finalText tokenizer progress with
      | .error failure => ⟨progress.deltas, .error failure⟩
      | .ok (text, stoppedOnString) =>
          match flushTail progress text with
          | .error failure => ⟨progress.deltas, .error failure⟩
          | .ok deltas =>
              ⟨deltas, .ok ⟨text, result.tokens.length,
                finishReason result.stopReason stoppedOnString⟩⟩

section Calls

variable {F S R : Type} [Scalar F] (entropy : Entropy F R)
  (session : ModelSession (TokenDecoder F S × S) LocalTokenizer) (promptTokens : List UInt32)

/-- `run_generation`, with the calls of its callback. -/
def runGenerationTraced (params : GenerationParams F) (onDelta : List (List Char) → Bool) :
    Traced Failure GenerationOutcome :=
  let (progress, result) := reportWith entropy session.decoder.1
    (withEos params.config session.eosToken) session.decoder.2 promptTokens
    (onToken session.tokenizer params.stopStrings onDelta) {}
  concludeTraced session.tokenizer progress result

/-- The calls are those of `run_generation`. -/
theorem runGeneration_eq_traced (params : GenerationParams F) (onDelta : List (List Char) → Bool) :
    runGeneration entropy session promptTokens params onDelta =
      (runGenerationTraced entropy session promptTokens params onDelta).outcome.map fun outcome =>
        (outcome, (runGenerationTraced entropy session promptTokens params onDelta).deltas) := by
  rw [runGeneration, ← answered_reportWith, runGenerationTraced]
  rcases reportWith entropy session.decoder.1 (withEos params.config session.eosToken)
    session.decoder.2 promptTokens (onToken session.tokenizer params.stopStrings onDelta) {} with
    ⟨progress, result⟩
  cases result with
  | error failure => rfl
  | ok result =>
      dsimp only [answered, Except.map, Except.bind, concludeRun, concludeTraced]
      cases progress.decodeError with
      | some error => rfl
      | none =>
          dsimp only
          cases finalText session.tokenizer progress with
          | error failure => rfl
          | ok final =>
              dsimp only
              cases flushTail progress final.1 with
              | error failure => rfl
              | ok deltas => rfl

end Calls

/-- What the call from Python raises: an error of the engine, or what its callback raised. -/
inductive StreamError (E : Type) where
  | failure (failure : Failure)
  | raised (error : E)

/-- What `generate_chat_stream_registered_gguf` keeps between two tokens. -/
structure StreamProgress (E : Type) where
  tokens : List UInt32 := []
  emitted : Nat := 0
  callbackError : Option E := none
  decodeError : Option EngineError := none
  deltas : List (List Char) := []

section Python

variable {E : Type} (tokenizer : LocalTokenizer) (onDelta : List (List Char) → Except E Bool)

/-- The `on_token` closure of the call from Python. -/
def streamToken (progress : StreamProgress E) (token : UInt32) :
    Except Failure (StreamProgress E × Bool) :=
  let tokens := progress.tokens ++ [token]
  match tokenizer.decode tokens with
  | .error error =>
      .ok ({ progress with tokens := tokens, decodeError := some error }, false)
  | .ok full =>
      if isPending full then .ok ({ progress with tokens := tokens }, true)
      else if progress.emitted < utf8Len full then
        (slice full progress.emitted (utf8Len full)).map fun delta =>
          let sent : StreamProgress E :=
            { progress with
              tokens := tokens
              emitted := utf8Len full
              deltas := progress.deltas ++ [delta] }
          match onDelta (progress.deltas ++ [delta]) with
          | .ok keepGoing => (sent, keepGoing)
          | .error error => ({ sent with callbackError := some error }, false)
      else .ok ({ progress with tokens := tokens }, true)

/-- What follows the loop: the tail is sent, and what the callback raises there is raised. -/
def concludeStream (progress : StreamProgress E) (result : Except Failure GenerationResult) :
    Traced (StreamError E) (List Char) :=
  match result, progress.callbackError, progress.decodeError with
  | .error failure, _, _ => ⟨progress.deltas, .error (.failure failure)⟩
  | .ok _, some error, _ => ⟨progress.deltas, .error (.raised error)⟩
  | .ok _, none, some error => ⟨progress.deltas, .error (.failure (.engine error))⟩
  | .ok _, none, none =>
      match tokenizer.decode progress.tokens with
      | .error error => ⟨progress.deltas, .error (.failure (.engine error))⟩
      | .ok text =>
          if progress.emitted < utf8Len text then
            match slice text progress.emitted (utf8Len text) with
            | .error failure => ⟨progress.deltas, .error (.failure failure)⟩
            | .ok delta =>
                match onDelta (progress.deltas ++ [delta]) with
                | .ok _ => ⟨progress.deltas ++ [delta], .ok text⟩
                | .error error => ⟨progress.deltas ++ [delta], .error (.raised error)⟩
          else ⟨progress.deltas, .ok text⟩

end Python

/-- `generate_chat_stream_registered_gguf`, from the tokens of the prompt on. -/
def generateChatStreamRegistered {F S R E : Type} [Scalar F] (entropy : Entropy F R)
    (session : ModelSession (TokenDecoder F S × S) LocalTokenizer) (promptTokens : List UInt32)
    (config : GenerationConfig F) (onDelta : List (List Char) → Except E Bool) :
    Traced (StreamError E) (List Char) :=
  let (progress, result) := reportWith entropy session.decoder.1
    (withEos config session.eosToken) session.decoder.2 promptTokens
    (streamToken session.tokenizer onDelta) {}
  concludeStream session.tokenizer onDelta progress result

end AiCoreStack.Serving
