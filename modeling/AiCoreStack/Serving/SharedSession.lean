import AiCoreStack.Foundation.Critical
import AiCoreStack.Serving.ChatStream
import AiCoreStack.Serving.Qwen3Incremental
import AiCoreStack.Serving.Sampling

/-!
# Requests that share a session

The cache hands one session to all requests for a model.  Each of them locks it, runs its
generation on the decoder that the ones before it have left, and unlocks it.  A request that panics
leaves the decoder as it was at that moment, and the lock is taken all the same.
-/

namespace AiCoreStack.Serving

open Foundation

/-- A decoder with the state that every call leaves, also one that fails.  Prefilling starts over,
from whatever valid state. -/
structure RestartingDecoder (F D : Type) where
  prefill : D → List UInt32 → Except EngineError (List F) × D
  decode : D → UInt32 → Except EngineError (List F) × D
  Valid : D → Prop
  valid_prefill : ∀ {d : D} (prompt : List UInt32), Valid d → Valid (prefill d prompt).2
  valid_decode : ∀ {d : D} (token : UInt32), Valid d → Valid (decode d token).2
  restarts : ∀ {d d' : D} (prompt : List UInt32), Valid d → Valid d' →
    prefill d prompt = prefill d' prompt

namespace RestartingDecoder

variable {F D R T : Type} [Scalar F] (decoder : RestartingDecoder F D)

/-- The calls of the decoder, without the states that failing ones leave. -/
def calls : TokenDecoder F D where
  prefill := fun d prompt =>
    (decoder.prefill d prompt).1.map fun logits => (logits, (decoder.prefill d prompt).2)
  decode := fun d token =>
    (decoder.decode d token).1.map fun logits => (logits, (decoder.decode d token).2)

variable (entropy : Entropy F R) (config : GenerationConfig F)
variable (onToken : T → UInt32 → Except Failure (T × Bool))

/-- The loop of `generate_with`, from one call of the decoder to the next. -/
def loopProgram : Nat → R → List F → List UInt32 → T →
    Program D (Except EngineError (List F)) (T × Except Failure GenerationResult)
  | 0, _, _, tokens, caller => .done (caller, .ok ⟨tokens, .maxTokens⟩)
  | n + 1, rng, logits, tokens, caller =>
      match sample entropy rng logits config with
      | .error failure => .done (caller, .error failure)
      | .ok (token, rng) =>
          if token ∈ config.stopTokens then
            .done (caller, .ok ⟨tokens ++ [token], .stopToken⟩)
          else
            match onToken caller token with
            | .error failure => .done (caller, .error failure)
            | .ok (caller, goOn) =>
                if goOn then
                  .act (fun d => decoder.decode d token) fun given =>
                    match given with
                    | .error error => .done (caller, .error (.engine error))
                    | .ok logits => loopProgram n rng logits (tokens ++ [token]) caller
                else .done (caller, .ok ⟨tokens ++ [token], .cancelled⟩)

/-- `generate_with`, from one call of the decoder to the next. -/
def program (prompt : List UInt32) (caller : T) :
    Program D (Except EngineError (List F)) (T × Except Failure GenerationResult) :=
  match config.validate with
  | .error error => .done (caller, .error (.engine error))
  | .ok _ =>
      .act (fun d => decoder.prefill d prompt) fun given =>
        match given with
        | .error error => .done (caller, .error (.engine error))
        | .ok logits =>
            match reserve config.maxTokens with
            | .error failure => .done (caller, .error failure)
            | .ok _ =>
                loopProgram decoder entropy config onToken config.maxTokens
                  (entropy.seed config.seed) logits [] caller

theorem run_loopProgram (n : Nat) (d : D) (rng : R) (logits : List F) (tokens : List UInt32)
    (caller : T) :
    ((loopProgram decoder entropy config onToken n rng logits tokens caller).run d).1 =
      reportLoop entropy decoder.calls config onToken n ⟨d, rng, logits⟩ tokens caller := by
  induction n generalizing d rng logits tokens caller with
  | zero => rfl
  | succ n ih =>
      rw [loopProgram, reportLoop]
      cases sample entropy rng logits config with
      | error failure => rfl
      | ok drawn =>
          obtain ⟨token, rng⟩ := drawn
          dsimp only
          split_ifs
          · rfl
          cases onToken caller token with
          | error failure => rfl
          | ok answer =>
              obtain ⟨caller, goOn⟩ := answer
              dsimp only
              split_ifs
              · rw [Program.run, calls]
                dsimp only
                cases (decoder.decode d token).1 with
                | error error => rfl
                | ok logits => exact ih ..
              · rfl

/-- Without anything in between the program is the call. -/
theorem run_program (prompt : List UInt32) (caller : T) (d : D) :
    ((program decoder entropy config onToken prompt caller).run d).1 =
      reportWith entropy decoder.calls config d prompt onToken caller := by
  rw [program, reportWith]
  cases config.validate with
  | error error => rfl
  | ok _ =>
      rw [Program.run, calls]
      dsimp only
      cases (decoder.prefill d prompt).1 with
      | error error => rfl
      | ok logits =>
          cases reserve config.maxTokens with
          | error failure => rfl
          | ok _ => exact run_loopProgram ..

end RestartingDecoder

/-! ## Requests -/

section Requests

variable {F D R : Type} [Scalar F] (entropy : Entropy F R)
variable (session : ModelSession (RestartingDecoder F D) LocalTokenizer)
variable (encode : List Char → Bool → Except EngineError (List UInt32))

/-- The session with its decoder in a state. -/
def standing (d : D) : ModelSession (TokenDecoder F D × D) LocalTokenizer :=
  { session with decoder := (session.decoder.calls, d) }

/-- `run_generation`, from one call of the decoder to the next. -/
def generationProgram (promptTokens : List UInt32) (params : GenerationParams F)
    (onDelta : List (List Char) → Bool) :
    Program D (Except EngineError (List F)) (Traced Failure GenerationOutcome) :=
  (session.decoder.program entropy (withEos params.config session.eosToken)
    (onToken session.tokenizer params.stopStrings onDelta) promptTokens {}).map fun report =>
      concludeTraced session.tokenizer report.1 report.2

theorem run_generationProgram (promptTokens : List UInt32) (params : GenerationParams F)
    (onDelta : List (List Char) → Bool) (d : D) :
    ((generationProgram entropy session promptTokens params onDelta).run d).1 =
      runGenerationTraced entropy (standing session d) promptTokens params onDelta := by
  rw [generationProgram, Program.run_map, RestartingDecoder.run_program, runGenerationTraced]
  rfl

/-- A request for the session: to `chat_complete`, or to `chat_stream` with a client that takes
the events in some way. -/
inductive ChatCall (F : Type) where
  | complete (created : Nat) (request : ChatRequest F)
  | stream (request : ChatRequest F) (answers : Nat → Bool)

/-- What comes of a request. -/
inductive ChatAnswer where
  | response (result : Except RequestFailure ChatResponse)
  | events (events : List ChatEvent)

/-- The answer of a session that nobody else uses. -/
def ChatCall.alone (d : D) : ChatCall F → ChatAnswer
  | .complete created request =>
      .response (chatComplete entropy (standing session d) encode created request)
  | .stream request answers =>
      .events (chatStream entropy (standing session d) encode request answers)

/-- What a request does while it has the lock. -/
def ChatCall.program : ChatCall F → Program D (Except EngineError (List F)) ChatAnswer
  | .complete created request =>
      match prepareChat session encode request with
      | .error error => .done (.response (.error (.api error)))
      | .ok (promptTokens, params) =>
          (generationProgram entropy session promptTokens params fun _ => true).map fun run =>
            .response ((run.outcome.mapError Failure.request).map
              (request.response created promptTokens))
  | .stream request answers =>
      match prepareChat session encode request with
      | .error error => .done (.events (closing (.error (.api error))))
      | .ok (promptTokens, params) =>
          if answers 0 then
            (generationProgram entropy session promptTokens params fun deltas =>
              answers deltas.length).map fun run =>
                .events (.chunk .role none :: (run.deltas.map contentChunk ++
                  closing (run.outcome.mapError Failure.request)))
          else
            .done (.events (.chunk .role none ::
              closing (.error (.api (.internal "client disconnected")))))

theorem ChatCall.run_program (call : ChatCall F) (d : D) :
    ((call.program entropy session encode).run d).1 = call.alone entropy session encode d := by
  cases call with
  | complete created request =>
      rw [program, alone, chatComplete]
      have same : prepareChat (standing session d) encode request =
        prepareChat session encode request := rfl
      rw [same]
      cases prepareChat session encode request with
      | error error => rfl
      | ok prepared =>
          dsimp only
          rw [Program.run_map, run_generationProgram, runGeneration_eq_traced]
          cases (runGenerationTraced entropy (standing session d) prepared.1 prepared.2
            fun _ => true).outcome <;> rfl
  | stream request answers =>
      rw [program, alone, chatStream]
      have same : prepareChat (standing session d) encode request =
        prepareChat session encode request := rfl
      rw [same]
      cases prepareChat session encode request with
      | error error => rfl
      | ok prepared =>
          dsimp only
          split_ifs
          · rw [Program.run_map, run_generationProgram]
          · rfl

end Requests

/-! ## The decoder of Qwen3 -/

namespace Qwen3

section Weights

variable {K : Type} [Field K] [LinearOrder K] (lib : Library K) (model : ModelWeights K)

/-- The weights of a decoder, which no call changes. -/
def Decoder.weights (decoder : Decoder K) : List (LayerWeights K) :=
  decoder.layers.map Layer.weights

end Weights

noncomputable section

end

end Qwen3

end AiCoreStack.Serving
