import AiCoreStack.Serving.Streaming

/-!
# What the two streaming calls agree on

Without stop strings the two calls make the same calls of their callback and return the same text.
The call from Python makes none after one has answered `false`; in `run_generation` the tail that
was held back is sent even then.
-/

namespace AiCoreStack.Serving

open Foundation
open String (utf8Len utf8Len_append)

/-! ## The same calls -/

/-- The progress of the one call as progress of the other. -/
def Progress.stream (E : Type) (progress : Progress) : StreamProgress E :=
  { tokens := progress.tokens
    emitted := progress.emitted
    decodeError := progress.decodeError
    deltas := progress.deltas }

section Same

variable (E : Type) (tokenizer : LocalTokenizer) (onDelta : List (List Char) → Bool)

/-- A callback that raises nothing. -/
def quietly : List (List Char) → Except E Bool := fun deltas => .ok (onDelta deltas)

theorem onText_no_stop (progress : Progress) (full : List Char) :
    onText [] onDelta progress full = if isPending full then .ok (progress, true)
      else sendUpTo onDelta progress full (utf8Len full) := by
  rfl

theorem streamToken_stream (progress : Progress) (token : UInt32) :
    streamToken tokenizer (quietly E onDelta) (progress.stream E) token =
      (onToken tokenizer [] onDelta progress token).map fun (next, goOn) =>
        (next.stream E, goOn) := by
  rw [streamToken, onToken]
  dsimp only [Progress.stream]
  cases tokenizer.decode (progress.tokens ++ [token]) with
  | error error => rfl
  | ok full =>
      dsimp only
      rw [onText_no_stop]
      by_cases pending : isPending full = true
      · rw [if_pos pending, if_pos pending]
        rfl
      rw [if_neg pending, if_neg pending, sendUpTo]
      dsimp only
      by_cases more : progress.emitted < utf8Len full
      · simp only [more, if_true]
        cases slice full progress.emitted (utf8Len full) with
        | error failure => rfl
        | ok delta => rfl
      · simp only [more, if_false]
        rfl

theorem report_stream (ending : Ending) (rest earlier : List UInt32) (progress : Progress) :
    TokenStream.report (streamToken tokenizer (quietly E onDelta)) ending rest earlier
        (progress.stream E) =
      ((TokenStream.report (onToken tokenizer [] onDelta) ending rest earlier progress).1.stream E,
        (TokenStream.report (onToken tokenizer [] onDelta) ending rest earlier progress).2) := by
  induction rest generalizing earlier progress with
  | nil => rfl
  | cons token rest ih =>
      rw [TokenStream.report, TokenStream.report, streamToken_stream]
      cases onToken tokenizer [] onDelta progress token with
      | error failure => rfl
      | ok answer =>
          dsimp only [Except.map]
          split_ifs
          · exact ih _ _
          · rfl

variable {tokenizer onDelta}

/-- Without stop strings a token ends the run by a decode error or by the answer to its delta. -/
theorem onToken_no_stop {progress next : Progress} {token : UInt32} {goOn : Bool}
    (stepped : onToken tokenizer [] onDelta progress token = .ok (next, goOn)) :
    next.truncated = progress.truncated ∧ next.tokens = progress.tokens ++ [token] ∧
      (goOn = true ∨ next.decodeError.isSome ∨ ∃ deltas, goOn = onDelta deltas) := by
  rw [onToken] at stepped
  cases decoded : tokenizer.decode (progress.tokens ++ [token]) with
  | error error =>
      rw [decoded] at stepped
      cases stepped
      exact ⟨rfl, rfl, .inr (.inl rfl)⟩
  | ok full =>
      rw [decoded] at stepped
      dsimp only at stepped
      rw [onText_no_stop] at stepped
      split_ifs at stepped
      · cases stepped
        exact ⟨rfl, rfl, .inl rfl⟩
      rw [sendUpTo] at stepped
      split_ifs at stepped
      · cases sliced : slice full progress.emitted (utf8Len full) with
        | error failure =>
            rw [sliced] at stepped
            contradiction
        | ok delta =>
            rw [sliced] at stepped
            cases stepped
            exact ⟨rfl, rfl, .inr (.inr ⟨_, rfl⟩)⟩
      · cases stepped
        exact ⟨rfl, rfl, .inl rfl⟩

theorem report_no_stop (ending : Ending) (rest earlier : List UInt32) (progress : Progress) :
    (TokenStream.report (onToken tokenizer [] onDelta) ending rest earlier progress).1.truncated =
      progress.truncated := by
  induction rest generalizing earlier progress with
  | nil => rfl
  | cons token rest ih =>
      rw [TokenStream.report]
      cases stepped : onToken tokenizer [] onDelta progress token with
      | error failure => rfl
      | ok answer =>
          have kept := (onToken_no_stop stepped).1
          dsimp only
          split_ifs
          · rw [ih, kept]
          · exact kept

/-- The same text, with the errors of the engine. -/
def Traced.text {E : Type} (traced : Traced Failure GenerationOutcome) :
    Traced (StreamError E) (List Char) :=
  ⟨traced.deltas, (traced.outcome.map GenerationOutcome.text).mapError .failure⟩

theorem concludeStream_stream {progress : Progress} (untruncated : progress.truncated = none)
    (result : Except Failure GenerationResult) :
    concludeStream tokenizer (quietly E onDelta) (progress.stream E) result =
      (concludeTraced tokenizer progress result).text := by
  unfold concludeStream concludeTraced
  cases result with
  | error failure => rfl
  | ok result =>
      dsimp only [Progress.stream]
      cases progress.decodeError with
      | some error => rfl
      | none =>
          dsimp only
          rw [finalText, untruncated]
          dsimp only
          cases tokenizer.decode progress.tokens with
          | error error => rfl
          | ok text =>
              dsimp only [Except.mapError, Except.map, flushTail]
              by_cases more : progress.emitted < utf8Len text
              · simp only [more, if_true]
                cases slice text progress.emitted (utf8Len text) with
                | error failure => rfl
                | ok delta => rfl
              · simp only [more, if_false]
                rfl

end Same

/-- Without stop strings the two calls make the same calls and return the same text. -/
theorem stream_eq_run {F S R : Type} [Scalar F] (E : Type) (entropy : Entropy F R)
    (session : ModelSession (TokenDecoder F S × S) LocalTokenizer) (promptTokens : List UInt32)
    (config : GenerationConfig F) (onDelta : List (List Char) → Bool) :
    generateChatStreamRegistered entropy session promptTokens config (quietly E onDelta) =
      (runGenerationTraced entropy session promptTokens ⟨config, []⟩ onDelta).text := by
  rw [generateChatStreamRegistered, runGenerationTraced, reportWith_eq_report,
    reportWith_eq_report]
  have same := report_stream E session.tokenizer onDelta
    (tokenStream entropy session.decoder.1 (withEos config session.eosToken) session.decoder.2
      promptTokens).ending
    (tokenStream entropy session.decoder.1 (withEos config session.eosToken) session.decoder.2
      promptTokens).tokens [] {}
  have begin_ : (({} : Progress).stream E) = {} := rfl
  rw [begin_] at same
  rw [same]
  exact concludeStream_stream E (report_no_stop _ _ _ _) _

/-! ## The whole text -/

section Whole

variable {tokenizer : LocalTokenizer} {onDelta : List (List Char) → Bool}

/-- A callback that never cancels ends a run without stop strings only by a decode error. -/
theorem report_listening (listening : ∀ deltas, onDelta deltas = true) (ending : Ending)
    (rest earlier : List UInt32) (progress : Progress) {after : Progress}
    {result : GenerationResult}
    (reported : TokenStream.report (onToken tokenizer [] onDelta) ending rest earlier progress =
      (after, .ok result)) :
    after.tokens = progress.tokens ++ rest ∨ after.decodeError.isSome := by
  induction rest generalizing earlier progress with
  | nil =>
      have same : progress = after := congrArg Prod.fst reported
      rw [← same, List.append_nil]
      exact .inl rfl
  | cons token rest ih =>
      rw [TokenStream.report] at reported
      cases stepped : onToken tokenizer [] onDelta progress token with
      | error failure =>
          rw [stepped] at reported
          exact absurd (Prod.mk.inj reported).2 (by simp)
      | ok answer =>
          obtain ⟨-, tokens, goes⟩ := onToken_no_stop stepped
          rw [stepped] at reported
          dsimp only at reported
          split_ifs at reported with goOn
          · rcases ih _ _ reported with all | failed
            · rw [all, tokens, List.append_assoc]
              exact .inl rfl
            · exact .inr failed
          · rcases goes with goes | failed | ⟨deltas, asked⟩
            · exact absurd goes goOn
            · rw [← (Prod.mk.inj reported).1]
              exact .inr failed
            · exact absurd (asked.trans (listening deltas)) goOn

/-- A text comes from a run without errors. -/
theorem concludeTraced_ok {progress : Progress} {result : Except Failure GenerationResult}
    {outcome : GenerationOutcome}
    (concluded : (concludeTraced tokenizer progress result).outcome = .ok outcome) :
    (∃ ended, result = .ok ended) ∧ progress.decodeError = none ∧
      ∃ stopped, finalText tokenizer progress = .ok (outcome.text, stopped) := by
  unfold concludeTraced at concluded
  cases result with
  | error failure => contradiction
  | ok ended =>
      refine ⟨⟨ended, rfl⟩, ?_⟩
      cases decoded : progress.decodeError with
      | some error =>
          rw [decoded] at concluded
          contradiction
      | none =>
          rw [decoded] at concluded
          cases final : finalText tokenizer progress with
          | error failure =>
              rw [final] at concluded
              contradiction
          | ok found =>
              rw [final] at concluded
              dsimp only at concluded
              cases flushed : flushTail progress found.1 with
              | error failure =>
                  rw [flushed] at concluded
                  contradiction
              | ok deltas =>
                  rw [flushed] at concluded
                  cases concluded
                  exact ⟨rfl, found.2, rfl⟩

/-- For a callback that never cancels the text is that of all reported tokens. -/
theorem run_text {F S R : Type} [Scalar F] (entropy : Entropy F R)
    (session : ModelSession (TokenDecoder F S × S) LocalTokenizer) (promptTokens : List UInt32)
    (config : GenerationConfig F) (listening : ∀ deltas, onDelta deltas = true)
    {outcome : GenerationOutcome}
    (ran : (runGenerationTraced entropy session promptTokens ⟨config, []⟩ onDelta).outcome =
      .ok outcome) :
    session.tokenizer.decode (tokenStream entropy session.decoder.1
      (withEos config session.eosToken) session.decoder.2 promptTokens).tokens =
        .ok outcome.text := by
  rw [runGenerationTraced, reportWith_eq_report] at ran
  generalize tokenStream entropy session.decoder.1 (withEos config session.eosToken)
    session.decoder.2 promptTokens = stream at ran ⊢
  obtain ⟨⟨ended, result⟩, decoded, stopped, final⟩ := concludeTraced_ok ran
  have untruncated : (TokenStream.report (onToken session.tokenizer [] onDelta) stream.ending
      stream.tokens [] {}).1.truncated = none := report_no_stop _ _ _ _
  have all : (TokenStream.report (onToken session.tokenizer [] onDelta) stream.ending
      stream.tokens [] {}).1.tokens = stream.tokens := by
    rcases report_listening listening _ _ _ _ (Prod.ext rfl result) with all | failed
    · exact all
    · rw [decoded] at failed
      contradiction
  rw [finalText, untruncated] at final
  dsimp only at final
  rw [all] at final
  cases whole : session.tokenizer.decode stream.tokens with
  | error error =>
      rw [whole] at final
      contradiction
  | ok text =>
      rw [whole] at final
      cases final
      rfl

end Whole

end AiCoreStack.Serving
