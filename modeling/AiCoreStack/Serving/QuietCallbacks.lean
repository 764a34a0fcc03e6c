import AiCoreStack.Serving.StreamAgreement

/-!
# Calls after a cancellation

A callback that has answered `false` should not be called again.  The call from Python keeps to
that.  `run_generation` does when nothing is held back, or when the callback goes on after every
delta that is sent up to a safe end; otherwise it sends the tail after the answer `false`.
-/

namespace AiCoreStack.Serving

open Foundation
open String (utf8Len utf8Len_append)

/-! ## Answers -/

section Answers

variable {α : Type} {goesOn : List α → Prop}

/-- The callback goes on after every call. -/
def Heard (goesOn : List α → Prop) (calls : List α) : Prop :=
  ∀ i, 0 < i → i ≤ calls.length → goesOn (calls.take i)

/-- The callback goes on after every call but the last: none is made after it has cancelled. -/
def Quiet (goesOn : List α → Prop) (calls : List α) : Prop :=
  ∀ i, 0 < i → i < calls.length → goesOn (calls.take i)

theorem heard_nil (goesOn : List α → Prop) : Heard goesOn [] :=
  fun _ positive inside => absurd (positive.trans_le inside) (Nat.lt_irrefl 0)

theorem Heard.quiet {calls : List α} (heard : Heard goesOn calls) : Quiet goesOn calls :=
  fun i positive below => heard i positive below.le

theorem heard_append {calls : List α} (more : List α) (heard : Heard goesOn (calls ++ more)) :
    Heard goesOn calls := by
  intro i positive inside
  have shown := heard i positive (by rw [List.length_append]; omega)
  rwa [List.take_append_of_le_length inside] at shown

theorem quiet_concat {calls : List α} {call : α} :
    Quiet goesOn (calls ++ [call]) ↔ Heard goesOn calls := by
  constructor
  · intro quiet i positive inside
    have shown := quiet i positive (by rw [List.length_append, List.length_singleton]; omega)
    rwa [List.take_append_of_le_length inside] at shown
  · intro heard i positive inside
    rw [List.length_append, List.length_singleton] at inside
    rw [List.take_append_of_le_length (by omega)]
    exact heard i positive (by omega)

theorem heard_concat {calls : List α} {call : α} :
    Heard goesOn (calls ++ [call]) ↔ Heard goesOn calls ∧ goesOn (calls ++ [call]) := by
  constructor
  · intro heard
    refine ⟨heard_append _ heard, ?_⟩
    have shown := heard (calls.length + 1) (Nat.succ_pos _) (by simp)
    rwa [List.take_of_length_le (by simp)] at shown
  · rintro ⟨heard, last⟩ i positive inside
    rw [List.length_append, List.length_singleton] at inside
    rcases Nat.lt_or_eq_of_le inside with below | rfl
    · rw [List.take_append_of_le_length (by omega)]
      exact heard i positive (by omega)
    · rwa [List.take_of_length_le (by simp)]

theorem Quiet.of_last {calls after : List α} (heard : Heard goesOn calls)
    (last : after = calls ∨ ∃ call, after = calls ++ [call]) : Quiet goesOn after := by
  rcases last with rfl | ⟨call, rfl⟩
  · exact heard.quiet
  · exact quiet_concat.mpr heard

end Answers

/-! ## The call from Python -/

section Python

variable {E : Type} {tokenizer : LocalTokenizer} {onDelta : List (List Char) → Except E Bool}

/-- At most the tail is sent behind the loop, and only if all text was not sent. -/
theorem concludeStream_deltas (progress : StreamProgress E)
    (result : Except Failure GenerationResult) :
    (concludeStream tokenizer onDelta progress result).deltas = progress.deltas ∨
      ∃ tail, (concludeStream tokenizer onDelta progress result).deltas =
        progress.deltas ++ [tail] := by
  unfold concludeStream
  cases result with
  | error failure => exact .inl rfl
  | ok ended =>
      cases progress.callbackError with
      | some error => exact .inl rfl
      | none =>
          cases progress.decodeError with
          | some error => exact .inl rfl
          | none =>
              dsimp only
              cases tokenizer.decode progress.tokens with
              | error error => exact .inl rfl
              | ok text =>
                  dsimp only
                  split_ifs
                  · cases slice text progress.emitted (utf8Len text) with
                    | error failure => exact .inl rfl
                    | ok tail =>
                        dsimp only
                        cases onDelta (progress.deltas ++ [tail]) with
                        | error error => exact .inr ⟨tail, rfl⟩
                        | ok _ => exact .inr ⟨tail, rfl⟩
                  · exact .inl rfl

/-- Nothing is sent behind the loop if the callback raised, or if all text was sent. -/
theorem concludeStream_silent {progress : StreamProgress E}
    (silent : progress.callbackError.isSome ∨ ∃ text, tokenizer.decode progress.tokens = .ok text ∧
      progress.emitted = utf8Len text) (result : Except Failure GenerationResult) :
    (concludeStream tokenizer onDelta progress result).deltas = progress.deltas := by
  unfold concludeStream
  cases result with
  | error failure => rfl
  | ok ended =>
      cases raised : progress.callbackError with
      | some error => rfl
      | none =>
          cases progress.decodeError with
          | some error => rfl
          | none =>
              rcases silent with silent | ⟨text, decoded, emitted⟩
              · rw [raised] at silent
                contradiction
              · dsimp only
                rw [decoded]
                dsimp only
                rw [if_neg (by omega)]

/-- What one token does to the calls. -/
theorem streamToken_deltas {progress next : StreamProgress E} {token : UInt32} {goOn : Bool}
    (stepped : streamToken tokenizer onDelta progress token = .ok (next, goOn)) :
    next.deltas = progress.deltas ∨
      (∃ delta, next.deltas = progress.deltas ++ [delta]) ∧
        (goOn = true → onDelta next.deltas = .ok true) ∧
        (goOn = false → ∀ result,
          (concludeStream tokenizer onDelta next result).deltas = next.deltas) := by
  rw [streamToken] at stepped
  cases decoded : tokenizer.decode (progress.tokens ++ [token]) with
  | error error =>
      rw [decoded] at stepped
      cases stepped
      exact .inl rfl
  | ok full =>
      rw [decoded] at stepped
      dsimp only at stepped
      split_ifs at stepped
      · cases stepped
        exact .inl rfl
      · cases sliced : slice full progress.emitted (utf8Len full) with
        | error failure =>
            rw [sliced] at stepped
            contradiction
        | ok delta =>
            rw [sliced] at stepped
            right
            dsimp only [Except.map] at stepped
            cases answer : onDelta (progress.deltas ++ [delta]) with
            | error error =>
                rw [answer] at stepped
                cases stepped
                refine ⟨⟨delta, rfl⟩, fun goes => absurd goes (by decide), fun _ => ?_⟩
                exact concludeStream_silent (.inl rfl)
            | ok keepGoing =>
                rw [answer] at stepped
                cases stepped
                refine ⟨⟨delta, rfl⟩, fun goes => ?_, fun _ => ?_⟩
                · rw [← goes]
                  exact answer
                · exact concludeStream_silent (.inr ⟨full, decoded, rfl⟩)
      · cases stepped
        exact .inl rfl

theorem report_stream_quiet (ending : Ending) (rest earlier : List UInt32)
    {progress : StreamProgress E}
    (heard : Heard (fun calls => onDelta calls = .ok true) progress.deltas) :
    Quiet (fun calls => onDelta calls = .ok true)
      (concludeStream tokenizer onDelta
        (TokenStream.report (streamToken tokenizer onDelta) ending rest earlier progress).1
        (TokenStream.report (streamToken tokenizer onDelta) ending rest earlier progress).2).deltas := by
  induction rest generalizing earlier progress with
  | nil => exact .of_last heard (concludeStream_deltas _ _)
  | cons token rest ih =>
      rw [TokenStream.report]
      cases stepped : streamToken tokenizer onDelta progress token with
      | error failure => exact .of_last heard (concludeStream_deltas _ _)
      | ok answer =>
          obtain ⟨next, goOn⟩ := answer
          dsimp only
          rcases streamToken_deltas stepped with same | ⟨⟨delta, sent⟩, going, cancelled⟩
          · rw [← same] at heard
            split_ifs
            · exact ih _ heard
            · exact .of_last heard (concludeStream_deltas _ _)
          · cases goOn with
            | true =>
                rw [if_pos rfl]
                refine ih _ ?_
                have last := going rfl
                rw [sent] at last ⊢
                exact heard_concat.mpr ⟨heard, last⟩
            | false =>
                rw [if_neg (by decide), cancelled rfl, sent]
                exact quiet_concat.mpr heard

end Python

/-- The call from Python makes no call of its callback after one that cancelled or raised. -/
theorem stream_quiet {F S R E : Type} [Scalar F] (entropy : Entropy F R)
    (session : ModelSession (TokenDecoder F S × S) LocalTokenizer) (promptTokens : List UInt32)
    (config : GenerationConfig F) (onDelta : List (List Char) → Except E Bool) :
    Quiet (fun calls => onDelta calls = .ok true)
      (generateChatStreamRegistered entropy session promptTokens config onDelta).deltas := by
  rw [generateChatStreamRegistered, reportWith_eq_report]
  exact report_stream_quiet _ _ _ (heard_nil _)

/-! ## The shared loop of the server -/

/-- The deltas that are sent up to safe ends, to a callback that never cancels: the new text after
each token, without what is held back, until a text fails to decode or has a stop string. -/
def safeDeltas (tokenizer : LocalTokenizer) (stopStrings : List (List Char)) :
    List UInt32 → List Char → List UInt32 → List (List Char)
  | _, _, [] => []
  | earlier, sent, token :: rest =>
      match tokenizer.decode (earlier ++ [token]) with
      | .error _ => []
      | .ok full =>
          if isPending full then safeDeltas tokenizer stopStrings (earlier ++ [token]) sent rest
          else if (earliestStop full stopStrings).isSome then []
          else
            let safe := full.take (full.length - holdbackChars stopStrings)
            if utf8Len sent < utf8Len safe then
              safe.drop sent.length ::
                safeDeltas tokenizer stopStrings (earlier ++ [token]) safe rest
            else safeDeltas tokenizer stopStrings (earlier ++ [token]) sent rest

section Run

variable {tokenizer : LocalTokenizer} {stopStrings : List (List Char)}

theorem concludeTraced_deltas (progress : Progress) (result : Except Failure GenerationResult) :
    (concludeTraced tokenizer progress result).deltas = progress.deltas ∨
      ∃ tail, (concludeTraced tokenizer progress result).deltas = progress.deltas ++ [tail] := by
  unfold concludeTraced
  cases result with
  | error failure => exact .inl rfl
  | ok ended =>
      cases progress.decodeError with
      | some error => exact .inl rfl
      | none =>
          dsimp only
          cases finalText tokenizer progress with
          | error failure => exact .inl rfl
          | ok final =>
              dsimp only [flushTail]
              split_ifs
              · cases slice final.1 progress.emitted (utf8Len final.1) with
                | error failure => exact .inl rfl
                | ok tail => exact .inr ⟨tail, rfl⟩
              · exact .inl rfl

/-- A run that a stop string has ended sends nothing behind the loop. -/
theorem concludeTraced_stopped {progress : Progress} (stopped : Stopped stopStrings progress)
    (result : Except Failure GenerationResult) :
    (concludeTraced tokenizer progress result).deltas = progress.deltas := by
  unfold concludeTraced
  cases result with
  | error failure => rfl
  | ok ended =>
      rw [stopped.decoded, finalText, stopped.truncated_eq]
      dsimp only [flushTail]
      rw [if_neg (by rw [stopped.emitted_eq]; omega)]

/-- A run that is over without a stop string sends the rest of the text. -/
theorem concludeTraced_running {tokens : List UInt32} {progress : Progress} {full : List Char}
    (steady : tokenizer.Steady) (running : Running tokenizer stopStrings tokens progress)
    (decoded : tokenizer.decode tokens = .ok full) (result : GenerationResult) :
    (utf8Len progress.deltas.flatten < utf8Len full ∧
      ∃ tail, (concludeTraced tokenizer progress (.ok result)).deltas =
        progress.deltas ++ [tail]) ∨
    (¬ utf8Len progress.deltas.flatten < utf8Len full ∧
      (concludeTraced tokenizer progress (.ok result)).deltas = progress.deltas) := by
  unfold concludeTraced
  rw [running.decoded, finalText, running.untruncated]
  dsimp only
  rw [running.tokens_eq, decoded]
  dsimp only [Except.mapError, Except.map, flushTail]
  rw [running.emitted_eq]
  by_cases more : utf8Len progress.deltas.flatten < utf8Len full
  · obtain ⟨tail, sliced, -⟩ := slice_prefixes (running.safe.prefix_text steady decoded)
      (List.prefix_refl full)
    rw [if_pos more, sliced]
    exact .inl ⟨more, tail, rfl⟩
  · rw [if_neg more]
    exact .inr ⟨more, rfl⟩

theorem cutAt_deltas {progress next : Progress} {full : List Char} {position : Nat} {goOn : Bool}
    (cut : cutAt progress full position = .ok (next, goOn)) :
    next.deltas = progress.deltas ∨ ∃ delta, next.deltas = progress.deltas ++ [delta] := by
  rw [cutAt] at cut
  cases whole : slice full 0 position with
  | error failure =>
      rw [whole] at cut
      contradiction
  | ok text =>
      rw [whole] at cut
      dsimp only [Except.bind] at cut
      split_ifs at cut
      · cases sliced : slice text progress.emitted (utf8Len text) with
        | error failure =>
            rw [sliced] at cut
            contradiction
        | ok delta =>
            rw [sliced] at cut
            cases cut
            exact .inr ⟨delta, rfl⟩
      · cases cut
        exact .inl rfl

/-- What a part of a text leaves out, in bytes. -/
theorem utf8Len_take_lt {full : List Char} {held : Nat} (positive : 0 < held) (some_ : full ≠ []) :
    utf8Len (full.take (full.length - held)) < utf8Len full := by
  have split := congrArg utf8Len (List.take_append_drop (full.length - held) full)
  rw [utf8Len_append] at split
  have rest : full.drop (full.length - held) ≠ [] := by
    rw [Ne, List.drop_eq_nil_iff]
    have := List.length_pos_of_ne_nil some_
    omega
  have := utf8Len_pos rest
  omega

/-- What one token does to the calls of a run, next to the deltas of safe ends. -/
theorem onToken_deltas (onDelta : List (List Char) → Bool) (steady : tokenizer.Steady)
    {earlier : List UInt32} {progress : Progress}
    (running : Running tokenizer stopStrings earlier progress) (token : UInt32)
    (rest : List UInt32) :
    -- The run ends and the calls are over but for one.
    (∃ next, onToken tokenizer stopStrings onDelta progress token = .ok (next, false) ∧
      (∀ result, (concludeTraced tokenizer next result).deltas = progress.deltas ∨
        ∃ delta, (concludeTraced tokenizer next result).deltas = progress.deltas ++ [delta]) ∧
      safeDeltas tokenizer stopStrings earlier progress.deltas.flatten (token :: rest) = []) ∨
    -- The run goes on without a call.
    (∃ next, onToken tokenizer stopStrings onDelta progress token = .ok (next, true) ∧
      next.deltas = progress.deltas ∧ Running tokenizer stopStrings (earlier ++ [token]) next ∧
      safeDeltas tokenizer stopStrings earlier progress.deltas.flatten (token :: rest) =
        safeDeltas tokenizer stopStrings (earlier ++ [token]) progress.deltas.flatten rest) ∨
    -- The callback is called up to a safe end, and answers.
    (∃ next delta full, onToken tokenizer stopStrings onDelta progress token =
        .ok (next, onDelta next.deltas) ∧ next.deltas = progress.deltas ++ [delta] ∧
      tokenizer.decode (earlier ++ [token]) = .ok full ∧ full ≠ [] ∧
      next.deltas.flatten = full.take (full.length - holdbackChars stopStrings) ∧
      Running tokenizer stopStrings (earlier ++ [token]) next ∧
      safeDeltas tokenizer stopStrings earlier progress.deltas.flatten (token :: rest) =
        delta :: safeDeltas tokenizer stopStrings (earlier ++ [token]) next.deltas.flatten rest) := by
  have pushed := running.push token
  rw [onToken, running.tokens_eq, safeDeltas]
  rw [running.tokens_eq] at pushed
  cases decoded : tokenizer.decode (earlier ++ [token]) with
  | error error =>
      exact .inl ⟨_, rfl, fun result => concludeTraced_deltas _ _, rfl⟩
  | ok full =>
      dsimp only
      rw [onText]
      by_cases pending : isPending full = true
      · rw [if_pos pending, if_pos pending]
        exact .inr (.inl ⟨_, rfl, rfl, pushed, rfl⟩)
      rw [if_neg pending, if_neg pending]
      have complete := Bool.eq_false_of_not_eq_true pending
      cases earliest : earliestStop full stopStrings with
      | some position =>
          obtain ⟨next, cut, stopped⟩ := cutAt_stopped steady pushed decoded earliest
          refine .inl ⟨next, cut, fun result => ?_, rfl⟩
          have last := cutAt_deltas cut
          rw [concludeTraced_stopped stopped]
          exact last
      | none =>
          dsimp only [Option.isSome]
          rw [if_neg (by decide)]
          have free := earliestStop_eq_none.mp earliest
          rcases sendUpTo_cases onDelta steady pushed decoded complete free with
            ⟨more, next, delta, sent, deltas, joined, kept⟩ | ⟨none_, sent⟩
          · have emitted := pushed.emitted_eq
            dsimp only at emitted more deltas joined
            rw [emitted] at more
            have dropped : (full.take (full.length - holdbackChars stopStrings)).drop
                progress.deltas.flatten.length = delta := by
              rw [← joined, List.drop_left]
            have flat : next.deltas.flatten =
                full.take (full.length - holdbackChars stopStrings) := by
              rw [deltas, List.flatten_append, ← joined]
              simp
            have some_ : full ≠ [] := by
              rintro rfl
              simp at more
            rw [if_pos more, dropped, ← flat]
            exact .inr (.inr ⟨next, delta, full, sent, deltas, rfl, some_, flat, kept, rfl⟩)
          · have emitted := pushed.emitted_eq
            dsimp only at emitted none_
            rw [emitted] at none_
            rw [if_neg none_]
            exact .inr (.inl ⟨_, sent, rfl, pushed, rfl⟩)

/-- After a cancellation at a safe end the callback is called again if a tail is held back. -/
theorem report_run_quiet (onDelta : List (List Char) → Bool) (steady : tokenizer.Steady)
    (ending : Ending) (rest reported : List UInt32) {earlier : List UInt32} {progress : Progress}
    (running : Running tokenizer stopStrings earlier progress)
    (heard : Heard (fun calls => onDelta calls = true) progress.deltas) :
    Quiet (fun calls => onDelta calls = true)
      (concludeTraced tokenizer
        (TokenStream.report (onToken tokenizer stopStrings onDelta) ending rest reported
          progress).1
        (TokenStream.report (onToken tokenizer stopStrings onDelta) ending rest reported
          progress).2).deltas ↔
      holdbackChars stopStrings = 0 ∨ Heard (fun calls => onDelta calls = true)
        (progress.deltas ++
          safeDeltas tokenizer stopStrings earlier progress.deltas.flatten rest) := by
  induction rest generalizing earlier progress reported with
  | nil =>
      rw [safeDeltas, List.append_nil]
      exact iff_of_true (.of_last heard (concludeTraced_deltas _ _)) (.inr heard)
  | cons token rest ih =>
      rw [TokenStream.report]
      rcases onToken_deltas onDelta steady running token rest with
        ⟨next, stepped, last, none_⟩ | ⟨next, stepped, same, kept, safe⟩ |
        ⟨next, delta, full, stepped, sent, decoded, some_, flat, kept, safe⟩
      · rw [stepped, none_, List.append_nil]
        dsimp only
        rw [if_neg (by decide)]
        exact iff_of_true (.of_last heard (last _)) (.inr heard)
      · rw [stepped, safe]
        dsimp only
        rw [if_pos rfl]
        rw [← same] at heard ⊢
        exact ih _ kept heard
      · rw [stepped, safe, List.append_cons progress.deltas, ← sent]
        dsimp only
        cases answer : onDelta next.deltas with
        | true =>
            rw [if_pos rfl]
            refine ih _ kept ?_
            rw [sent] at answer ⊢
            exact heard_concat.mpr ⟨heard, answer⟩
        | false =>
            rw [if_neg (by decide)]
            have cancelled : ¬ Heard (fun calls => onDelta calls = true) next.deltas := by
              intro all
              rw [sent] at all
              have last := (heard_concat.mp all).2
              rw [← sent, answer] at last
              contradiction
            have notAll : ¬ Heard (fun calls => onDelta calls = true) (next.deltas ++
                safeDeltas tokenizer stopStrings (earlier ++ [token]) next.deltas.flatten rest) :=
              fun all => cancelled (heard_append _ all)
            rcases concludeTraced_running steady kept decoded
              ⟨reported ++ [token], .cancelled⟩ with ⟨more, tail, after⟩ | ⟨whole, after⟩
            · rw [after, quiet_concat]
              refine iff_of_false cancelled (not_or.mpr ⟨fun none_ => ?_, notAll⟩)
              rw [flat, none_, Nat.sub_zero, List.take_length] at more
              exact absurd more (lt_irrefl _)
            · rw [after, sent, quiet_concat]
              refine iff_of_true heard (.inl ?_)
              by_contra held
              rw [flat] at whole
              exact whole (utf8Len_take_lt (Nat.pos_of_ne_zero held) some_)

end Run

/-- The calls of `run_generation` after an answer `false`. -/
theorem run_quiet_iff {F S R : Type} [Scalar F] (entropy : Entropy F R)
    (session : ModelSession (TokenDecoder F S × S) LocalTokenizer) (promptTokens : List UInt32)
    (params : GenerationParams F) (onDelta : List (List Char) → Bool)
    (steady : session.tokenizer.Steady) :
    Quiet (fun calls => onDelta calls = true)
      (runGenerationTraced entropy session promptTokens params onDelta).deltas ↔
      holdbackChars params.stopStrings = 0 ∨ Heard (fun calls => onDelta calls = true)
        (safeDeltas session.tokenizer params.stopStrings [] []
          (tokenStream entropy session.decoder.1 (withEos params.config session.eosToken)
            session.decoder.2 promptTokens).tokens) := by
  rw [runGenerationTraced, reportWith_eq_report]
  exact report_run_quiet onDelta steady _ _ []
    (start_running session.tokenizer params.stopStrings) (heard_nil _)

/-! ## Agreement -/

/-- The two calls agree without stop strings, their text is that of all tokens for a callback that
never cancels, and neither calls its callback again after a cancellation. -/
structure StreamsAgree {F S R : Type} [Scalar F] (entropy : Entropy F R)
    (session : ModelSession (TokenDecoder F S × S) LocalTokenizer) (promptTokens : List UInt32)
    (config : GenerationConfig F) (stopStrings : List (List Char))
    (onDelta : List (List Char) → Bool) : Prop where
  same : ∀ E : Type,
    generateChatStreamRegistered entropy session promptTokens config (quietly E onDelta) =
      (runGenerationTraced entropy session promptTokens ⟨config, []⟩ onDelta).text
  whole : (∀ deltas, onDelta deltas = true) → ∀ outcome,
    (runGenerationTraced entropy session promptTokens ⟨config, []⟩ onDelta).outcome = .ok outcome →
      session.tokenizer.decode (tokenStream entropy session.decoder.1
        (withEos config session.eosToken) session.decoder.2 promptTokens).tokens =
          .ok outcome.text
  quietStream : ∀ (E : Type) (raising : List (List Char) → Except E Bool),
    Quiet (fun calls => raising calls = .ok true)
      (generateChatStreamRegistered entropy session promptTokens config raising).deltas
  quietRun : Quiet (fun calls => onDelta calls = true)
    (runGenerationTraced entropy session promptTokens ⟨config, stopStrings⟩ onDelta).deltas

/-- The calls agree if nothing is held back for stop strings, or if the callback goes on after
every delta up to a safe end. -/
theorem streamsAgree_iff {F S R : Type} [Scalar F] (entropy : Entropy F R)
    (session : ModelSession (TokenDecoder F S × S) LocalTokenizer) (promptTokens : List UInt32)
    (config : GenerationConfig F) (stopStrings : List (List Char))
    (onDelta : List (List Char) → Bool) (steady : session.tokenizer.Steady) :
    StreamsAgree entropy session promptTokens config stopStrings onDelta ↔
      holdbackChars stopStrings = 0 ∨ Heard (fun calls => onDelta calls = true)
        (safeDeltas session.tokenizer stopStrings [] []
          (tokenStream entropy session.decoder.1 (withEos config session.eosToken)
            session.decoder.2 promptTokens).tokens) := by
  have quiet := run_quiet_iff entropy session promptTokens ⟨config, stopStrings⟩ onDelta steady
  constructor
  · intro agree
    exact quiet.mp agree.quietRun
  · intro held
    constructor
    · intro E
      exact stream_eq_run E entropy session promptTokens config onDelta
    · intro listening outcome ran
      exact run_text entropy session promptTokens config listening ran
    · intro E raising
      exact stream_quiet entropy session promptTokens config raising
    · exact quiet.mpr held

/-- With stop strings of one character nothing is held back, whatever the callback answers. -/
theorem streamsAgree_iff_letter :
    StreamsAgree noEntropy plainSession [] (greedyParams 3 []).config [['x']] fun _ => false :=
  (streamsAgree_iff noEntropy plainSession [] (greedyParams 3 []).config [['x']] (fun _ => false)
    plainTokenizer_steady).mpr (.inl rfl)

/-- A decoder whose logits always favour the letter. -/
def letterDecoder : TokenDecoder Exact Unit where
  prefill := fun _ _ => .ok ([.fin 0, .fin 1], ())
  decode := fun _ _ => .ok ([.fin 0, .fin 1], ())

def letterSession : ModelSession (TokenDecoder Exact Unit × Unit) LocalTokenizer where
  decoder := (letterDecoder, ())
  tokenizer := plainTokenizer
  eosToken := none
  chatTemplate := none

/-- The callback cancels at the first letter, and is then given the letter that was held back. -/
theorem not_streamsAgree_held :
    (runGenerationTraced noEntropy letterSession [] (greedyParams 5 [['x', 'y']])
        fun _ => false).deltas = [['a'], ['a']] ∧
      ¬ StreamsAgree noEntropy letterSession [] (greedyParams 5 []).config [['x', 'y']]
        fun _ => false := by
  have deltas : (runGenerationTraced noEntropy letterSession [] (greedyParams 5 [['x', 'y']])
      fun _ => false).deltas = [['a'], ['a']] := by decide +kernel
  refine ⟨deltas, fun agree => ?_⟩
  have quiet := agree.quietRun
  change Quiet _ (runGenerationTraced noEntropy letterSession [] (greedyParams 5 [['x', 'y']])
    fun _ => false).deltas at quiet
  rw [deltas] at quiet
  exact absurd (quiet 1 (by decide) (by decide)) (by decide)

end AiCoreStack.Serving
