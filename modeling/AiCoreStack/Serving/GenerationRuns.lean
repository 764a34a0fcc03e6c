import AiCoreStack.Foundation.Outcome
import AiCoreStack.Serving.Generation

/-!
# Runs of the generation loop

A run with its decoder at the end, and the runs of the same decoder for two bounds on the tokens.
The calls of the decoder and the answers of the callback are recorded beside their states, so that
a finished run can be compared with what it fed and what it reported.
-/

namespace AiCoreStack.Serving

open Foundation

/-- A finished run: its result, the caller, and the decoder that it leaves. -/
structure Finished (S T : Type) where
  result : GenerationResult
  caller : T
  decoder : S

/-- A call of a decoder. -/
inductive Call where
  | prefill (prompt : List UInt32)
  | decode (token : UInt32)
  deriving DecidableEq, Repr

/-- A callback of `generate_with`: it may end the run. -/
abbrev OnToken (T : Type) := T → UInt32 → Except Failure (T × Bool)

section Runs

variable {F S R T : Type} [Scalar F]

/-- The loop of `generate_with`, with the decoder that it leaves. -/
def runLoop (entropy : Entropy F R) (decoder : TokenDecoder F S) (config : GenerationConfig F)
    (cancelled : Nat → Bool) (onToken : OnToken T) :
    Nat → LoopState F S R → List UInt32 → T → Except Failure (Finished S T)
  | 0, state, tokens, caller => .ok ⟨⟨tokens, .maxTokens⟩, caller, state.decoder⟩
  | n + 1, state, tokens, caller =>
      if cancelled tokens.length then .ok ⟨⟨tokens, .cancelled⟩, caller, state.decoder⟩
      else
        (sample entropy state.rng state.logits config).bind fun (token, rng) =>
          if token ∈ config.stopTokens then
            .ok ⟨⟨tokens ++ [token], .stopToken⟩, caller, state.decoder⟩
          else
            (onToken caller token).bind fun (caller, goOn) =>
              if goOn then
                ((decoder.decode state.decoder token).mapError .engine).bind
                  fun (logits, inner) =>
                    runLoop entropy decoder config cancelled onToken n ⟨inner, rng, logits⟩
                      (tokens ++ [token]) caller
              else .ok ⟨⟨tokens ++ [token], .cancelled⟩, caller, state.decoder⟩

/-- `generate_with`, with the decoder that it leaves. -/
def runWith (entropy : Entropy F R) (decoder : TokenDecoder F S) (config : GenerationConfig F)
    (state : S) (prompt : List UInt32) (cancelled : Nat → Bool) (onToken : OnToken T) (caller : T) :
    Except Failure (Finished S T) :=
  (config.validate.mapError .engine).bind fun _ =>
    ((decoder.prefill state prompt).mapError .engine).bind fun (logits, inner) =>
      (reserve config.maxTokens).bind fun _ =>
        runLoop entropy decoder config cancelled onToken config.maxTokens
          ⟨inner, entropy.seed config.seed, logits⟩ [] caller

/-- `generate`. -/
def generate (entropy : Entropy F R) (decoder : TokenDecoder F S) (config : GenerationConfig F)
    (state : S) (prompt : List UInt32) (cancelled : Nat → Bool) :
    Except Failure GenerationResult :=
  (generateWith entropy decoder config state prompt cancelled (fun _ _ => .ok ((), true)) ()).map
    Prod.fst

variable (entropy : Entropy F R) (decoder : TokenDecoder F S) (config : GenerationConfig F)
  (cancelled : Nat → Bool) (onToken : OnToken T)

/-! ## A run and the function -/

theorem runLoop_result (n : Nat) (state : LoopState F S R) (tokens : List UInt32) (caller : T) :
    (runLoop entropy decoder config cancelled onToken n state tokens caller).map
        (fun run => (run.result, run.caller)) =
      generateLoop entropy decoder config cancelled onToken n state tokens caller := by
  induction n generalizing state tokens caller with
  | zero => rfl
  | succ n ih =>
      rw [runLoop, generateLoop]
      split_ifs
      · rfl
      cases sample entropy state.rng state.logits config with
      | error failure => rfl
      | ok drawn =>
          dsimp only [Except.bind]
          split_ifs
          · rfl
          cases onToken caller drawn.1 with
          | error failure => rfl
          | ok answer =>
              dsimp only
              split_ifs
              · cases decoder.decode state.decoder drawn.1 with
                | error error => rfl
                | ok next => exact ih _ _ _
              · rfl

/-- A run is a run of `generate_with`. -/
theorem runWith_result (state : S) (prompt : List UInt32) (caller : T) :
    (runWith entropy decoder config state prompt cancelled onToken caller).map
        (fun run => (run.result, run.caller)) =
      generateWith entropy decoder config state prompt cancelled onToken caller := by
  rw [runWith, generateWith]
  cases config.validate with
  | error error => rfl
  | ok _ =>
      cases decoder.prefill state prompt with
      | error error => rfl
      | ok next =>
          cases reserve config.maxTokens with
          | error failure => rfl
          | ok _ => exact runLoop_result ..

/-! ## Recorded runs -/

/-- A decoder that records its calls. -/
def recordCalls : TokenDecoder F (S × List Call) where
  prefill state prompt := (decoder.prefill state.1 prompt).map fun (logits, inner) =>
    (logits, inner, state.2 ++ [.prefill prompt])
  decode state token := (decoder.decode state.1 token).map fun (logits, inner) =>
    (logits, inner, state.2 ++ [.decode token])

/-- A callback that records the tokens it is given and its answers. -/
def recordAnswers : OnToken (T × List (UInt32 × Bool)) := fun caller token =>
  (onToken caller.1 token).map fun (after, goOn) => ((after, caller.2 ++ [(token, goOn)]), goOn)

/-- A run without its records. -/
def Finished.forget (run : Finished (S × List Call) (T × List (UInt32 × Bool))) : Finished S T :=
  ⟨run.result, run.caller.1, run.decoder.1⟩

theorem runLoop_recorded (n : Nat) (state : LoopState F S R) (tokens : List UInt32) (caller : T)
    (calls : List Call) (answers : List (UInt32 × Bool)) :
    (runLoop entropy (recordCalls decoder) config cancelled (recordAnswers onToken) n
        ⟨(state.decoder, calls), state.rng, state.logits⟩ tokens (caller, answers)).map
        Finished.forget =
      runLoop entropy decoder config cancelled onToken n state tokens caller := by
  induction n generalizing state tokens caller calls answers with
  | zero => rfl
  | succ n ih =>
      rw [runLoop, runLoop]
      split_ifs
      · rfl
      cases sample entropy state.rng state.logits config with
      | error failure => rfl
      | ok drawn =>
          dsimp only [Except.bind, recordAnswers]
          split_ifs
          · rfl
          cases onToken caller drawn.1 with
          | error failure => rfl
          | ok answer =>
              dsimp only [Except.map, recordCalls]
              split_ifs
              · cases decoder.decode state.decoder drawn.1 with
                | error error => rfl
                | ok next => exact ih ⟨next.2, drawn.2, next.1⟩ _ _ _ _
              · rfl

/-- Recording changes nothing. -/
theorem runWith_recorded (state : S) (prompt : List UInt32) (caller : T) :
    (runWith entropy (recordCalls decoder) config (state, []) prompt cancelled
        (recordAnswers onToken) (caller, [])).map Finished.forget =
      runWith entropy decoder config state prompt cancelled onToken caller := by
  rw [runWith, runWith]
  cases config.validate with
  | error error => rfl
  | ok _ =>
      dsimp only [recordCalls]
      cases decoder.prefill state prompt with
      | error error => rfl
      | ok next =>
          cases reserve config.maxTokens with
          | error failure => rfl
          | ok _ =>
              exact runLoop_recorded entropy decoder config cancelled onToken config.maxTokens
                ⟨next.2, entropy.seed config.seed, next.1⟩ [] caller _ _

/-! ## What a run fed and reported -/

/-- The last answer ended the run. -/
def endedByAnswer (answers : List (UInt32 × Bool)) : Bool :=
  answers.getLast?.any fun answer => !answer.2

/-- The books of a finished run: the tokens, the callback and the decoder agree. -/
structure Ledger (config : GenerationConfig F) (prompt : List UInt32) (result : GenerationResult)
    (answers : List (UInt32 × Bool)) (calls : List Call) : Prop where
  short : result.tokens.length ≤ config.maxTokens
  reported : answers.map Prod.fst = result.tokens.filter (· ∉ config.stopTokens)
  last : ∀ token ∈ result.tokens.dropLast, token ∉ config.stopTokens
  stop : (∃ token ∈ result.tokens, token ∈ config.stopTokens) ↔ result.stopReason = .stopToken
  ended : endedByAnswer answers = true → result.stopReason = .cancelled
  fed : calls = .prefill prompt :: ((if endedByAnswer answers then (answers.map Prod.fst).dropLast
    else answers.map Prod.fst).map .decode)

section Exits

variable {config} {prompt tokens : List UInt32}

omit [Scalar F]

theorem filter_plain {stopTokens tokens : List UInt32}
    (plain : ∀ token ∈ tokens, token ∉ stopTokens) :
    tokens.filter (· ∉ stopTokens) = tokens :=
  List.filter_eq_self.mpr fun token member => decide_eq_true (plain token member)

theorem reported_accepted (tokens : List UInt32) :
    (tokens.map fun token => (token, true)).map Prod.fst = tokens := by
  rw [List.map_map]
  exact List.map_id tokens

theorem endedByAnswer_accepted (tokens : List UInt32) :
    endedByAnswer (tokens.map fun token => (token, true)) = false := by
  rw [endedByAnswer, List.getLast?_map]
  cases tokens.getLast? <;> rfl

/-- A run that ends before the next token. -/
theorem Ledger.between (short : tokens.length ≤ config.maxTokens)
    (plain : ∀ token ∈ tokens, token ∉ config.stopTokens) {reason : GenerationStopReason}
    (other : reason ≠ .stopToken) :
    Ledger config prompt ⟨tokens, reason⟩ (tokens.map fun token => (token, true))
      (.prefill prompt :: tokens.map .decode) where
  short := short
  reported := by rw [reported_accepted, filter_plain plain]
  last token member := plain token (List.mem_of_mem_dropLast member)
  stop := by
    constructor
    · rintro ⟨token, member, stops⟩
      exact absurd stops (plain token member)
    · intro same
      exact absurd same other
  ended ended := by
    rw [endedByAnswer_accepted] at ended
    contradiction
  fed := by
    rw [endedByAnswer_accepted, reported_accepted]
    rfl

/-- A run that ends with a stop token, which is neither reported nor fed. -/
theorem Ledger.stopped (short : tokens.length + 1 ≤ config.maxTokens)
    (plain : ∀ token ∈ tokens, token ∉ config.stopTokens) {token : UInt32}
    (stops : token ∈ config.stopTokens) :
    Ledger config prompt ⟨tokens ++ [token], .stopToken⟩ (tokens.map fun token => (token, true))
      (.prefill prompt :: tokens.map .decode) where
  short := by simpa using short
  reported := by
    rw [reported_accepted, List.filter_append, filter_plain plain]
    simp [stops]
  last token member := plain token (by simpa using member)
  stop := ⟨fun _ => rfl, fun _ => ⟨token, by simp, stops⟩⟩
  ended ended := by
    rw [endedByAnswer_accepted] at ended
    contradiction
  fed := by
    rw [endedByAnswer_accepted, reported_accepted]
    rfl

/-- A run that the callback ends: its last token is reported and not fed. -/
theorem Ledger.answered (short : tokens.length + 1 ≤ config.maxTokens)
    (plain : ∀ token ∈ tokens, token ∉ config.stopTokens) {token : UInt32}
    (goes : token ∉ config.stopTokens) :
    Ledger config prompt ⟨tokens ++ [token], .cancelled⟩
      ((tokens.map fun token => (token, true)) ++ [(token, false)])
      (.prefill prompt :: tokens.map .decode) where
  short := by simpa using short
  reported := by
    rw [List.map_append, reported_accepted, List.filter_append, filter_plain plain]
    simp [goes]
  last token member := plain token (by simpa using member)
  stop := by
    constructor
    · rintro ⟨other, member, stops⟩
      rcases List.mem_append.mp member with earlier | here
      · exact absurd stops (plain other earlier)
      · rw [List.mem_singleton.mp here] at stops
        exact absurd stops goes
    · intro same
      contradiction
  ended _ := rfl
  fed := by
    have ended : endedByAnswer ((tokens.map fun token => (token, true)) ++ [(token, false)]) =
        true := by
      simp [endedByAnswer]
    rw [ended, List.map_append, reported_accepted]
    simp

end Exits

/-- How a turn of the loop goes on or ends a run. -/
theorem runLoop_succ {n : Nat} {state : LoopState F S R} {tokens : List UInt32} {caller : T}
    {run : Finished S T}
    (ran : runLoop entropy decoder config cancelled onToken (n + 1) state tokens caller = .ok run) :
    run = ⟨⟨tokens, .cancelled⟩, caller, state.decoder⟩ ∨
      ∃ token rng, sample entropy state.rng state.logits config = .ok (token, rng) ∧
        ((token ∈ config.stopTokens ∧
            run = ⟨⟨tokens ++ [token], .stopToken⟩, caller, state.decoder⟩) ∨
          token ∉ config.stopTokens ∧ ∃ after goOn, onToken caller token = .ok (after, goOn) ∧
            ((goOn = false ∧ run = ⟨⟨tokens ++ [token], .cancelled⟩, after, state.decoder⟩) ∨
              goOn = true ∧ ∃ logits inner,
                decoder.decode state.decoder token = .ok (logits, inner) ∧
                runLoop entropy decoder config cancelled onToken n ⟨inner, rng, logits⟩
                  (tokens ++ [token]) after = .ok run)) := by
  rw [runLoop] at ran
  split_ifs at ran
  · exact .inl (Except.ok.inj ran).symm
  right
  cases sampled : sample entropy state.rng state.logits config with
  | error failure =>
      rw [sampled] at ran
      contradiction
  | ok drawn =>
      rw [sampled] at ran
      refine ⟨drawn.1, drawn.2, rfl, ?_⟩
      dsimp only [Except.bind] at ran
      split_ifs at ran with stops
      · exact .inl ⟨stops, (Except.ok.inj ran).symm⟩
      refine .inr ⟨stops, ?_⟩
      cases answered : onToken caller drawn.1 with
      | error failure =>
          rw [answered] at ran
          contradiction
      | ok answer =>
          rw [answered] at ran
          refine ⟨answer.1, answer.2, rfl, ?_⟩
          dsimp only at ran
          split_ifs at ran with goes
          · cases decoded : decoder.decode state.decoder drawn.1 with
            | error error =>
                rw [decoded] at ran
                contradiction
            | ok next =>
                rw [decoded] at ran
                exact .inr ⟨goes, next.1, next.2, rfl, ran⟩
          · exact .inl ⟨Bool.eq_false_of_not_eq_true goes, (Except.ok.inj ran).symm⟩

omit [Scalar F] in
theorem recordCalls_decode {state : S × List Call} {token : UInt32} {logits : List F}
    {inner : S × List Call}
    (decoded : (recordCalls decoder).decode state token = .ok (logits, inner)) :
    inner.2 = state.2 ++ [.decode token] := by
  dsimp only [recordCalls] at decoded
  cases next : decoder.decode state.1 token with
  | error error =>
      rw [next] at decoded
      contradiction
  | ok plain =>
      rw [next] at decoded
      cases decoded
      rfl

theorem recordAnswers_answer {caller after : T × List (UInt32 × Bool)} {token : UInt32}
    {goOn : Bool} (answered : recordAnswers onToken caller token = .ok (after, goOn)) :
    after.2 = caller.2 ++ [(token, goOn)] := by
  rw [recordAnswers] at answered
  cases plain : onToken caller.1 token with
  | error failure =>
      rw [plain] at answered
      contradiction
  | ok answer =>
      rw [plain] at answered
      cases answered
      rfl

/-- The loop keeps the books: so far every token was reported, accepted and fed. -/
theorem runLoop_ledger {prompt : List UInt32} (n : Nat) (state : LoopState F (S × List Call) R)
    (tokens : List UInt32) (caller : T × List (UInt32 × Bool))
    (short : tokens.length + n ≤ config.maxTokens)
    (plain : ∀ token ∈ tokens, token ∉ config.stopTokens)
    (accepted : caller.2 = tokens.map fun token => (token, true))
    (fed : state.decoder.2 = .prefill prompt :: tokens.map .decode)
    {run : Finished (S × List Call) (T × List (UInt32 × Bool))}
    (ran : runLoop entropy (recordCalls decoder) config cancelled (recordAnswers onToken) n state
      tokens caller = .ok run) :
    Ledger config prompt run.result run.caller.2 run.decoder.2 := by
  induction n generalizing state tokens caller with
  | zero =>
      cases ran
      dsimp only
      rw [accepted, fed]
      exact .between short plain (by decide)
  | succ n ih =>
      rcases runLoop_succ _ _ _ _ _ ran with
        rfl | ⟨token, rng, -, ⟨stops, rfl⟩ | ⟨goes, after, goOn, answered, more⟩⟩
      · dsimp only
        rw [accepted, fed]
        exact .between (by omega) plain (by decide)
      · dsimp only
        rw [accepted, fed]
        exact .stopped (by omega) plain stops
      have recorded := recordAnswers_answer onToken answered
      rcases more with ⟨rfl, rfl⟩ | ⟨rfl, logits, inner, decoded, rest⟩
      · dsimp only
        rw [recorded, accepted, fed]
        exact .answered (by omega) plain goes
      · refine ih _ _ _ ?_ ?_ ?_ ?_ rest
        · rw [List.length_append, List.length_singleton]
          omega
        · intro other member
          rcases List.mem_append.mp member with earlier | here
          · exact plain other earlier
          · rwa [List.mem_singleton.mp here]
        · rw [recorded, accepted, List.map_append, List.map_singleton]
        · rw [recordCalls_decode decoder decoded, fed, List.map_append, List.map_singleton,
            List.cons_append]

/-- The books of every finished run. -/
theorem runWith_ledger {state : S} {prompt : List UInt32} {caller : T} {run : Finished S T}
    (ran : runWith entropy decoder config state prompt cancelled onToken caller = .ok run) :
    ∃ answers calls, runWith entropy (recordCalls decoder) config (state, []) prompt cancelled
        (recordAnswers onToken) (caller, []) =
          .ok ⟨run.result, (run.caller, answers), (run.decoder, calls)⟩ ∧
      Ledger config prompt run.result answers calls := by
  have same := runWith_recorded entropy decoder config cancelled onToken state prompt caller
  rw [ran] at same
  cases recorded : runWith entropy (recordCalls decoder) config (state, []) prompt cancelled
      (recordAnswers onToken) (caller, []) with
  | error failure =>
      rw [recorded] at same
      contradiction
  | ok whole =>
      rw [recorded] at same
      cases same
      refine ⟨whole.caller.2, whole.decoder.2, rfl, ?_⟩
      rw [runWith] at recorded
      cases checked : config.validate with
      | error error =>
          rw [checked] at recorded
          contradiction
      | ok _ =>
          rw [checked] at recorded
          dsimp only [Except.mapError, Except.bind, recordCalls] at recorded
          cases prefilled : decoder.prefill state prompt with
          | error error =>
              rw [prefilled] at recorded
              contradiction
          | ok next =>
              rw [prefilled] at recorded
              cases reserved : reserve config.maxTokens with
              | error failure =>
                  rw [reserved] at recorded
                  contradiction
              | ok _ =>
                  rw [reserved] at recorded
                  exact runLoop_ledger entropy decoder config cancelled onToken config.maxTokens _ _
                    _ (by simp) (by simp) rfl rfl recorded

/-! ## Runs with more tokens -/

/-- How a run goes on with a larger bound: if it ended within its bound, then it ends the same way,
and otherwise its tokens are the first ones. -/
structure Extends (short long : Except Failure (Finished S T)) : Prop where
  failed : ∀ failure, short = .error failure → long = .error failure
  same : ∀ run, short = .ok run → run.result.stopReason ≠ .maxTokens → long = .ok run
  more : ∀ run other, short = .ok run → long = .ok other →
    run.result.tokens <+: other.result.tokens

omit [Scalar F] in
theorem Extends.refl (run : Except Failure (Finished S T)) : Extends run run where
  failed _ failed := failed
  same _ ran _ := ran
  more short long ran again := by
    rw [ran] at again
    cases again
    exact List.prefix_refl _

/-- A run keeps the tokens that it has. -/
theorem prefix_runLoop {n : Nat} {state : LoopState F S R} {tokens : List UInt32} {caller : T}
    {run : Finished S T}
    (ran : runLoop entropy decoder config cancelled onToken n state tokens caller = .ok run) :
    tokens <+: run.result.tokens := by
  induction n generalizing state tokens caller with
  | zero =>
      cases ran
      exact List.prefix_refl _
  | succ n ih =>
      rcases runLoop_succ _ _ _ _ _ ran with
        rfl | ⟨token, rng, -, ⟨-, rfl⟩ | ⟨-, after, goOn, -, ⟨-, rfl⟩ | ⟨-, _, _, -, rest⟩⟩⟩
      · exact List.prefix_refl _
      · exact List.prefix_append _ _
      · exact List.prefix_append _ _
      · exact (List.prefix_append _ _).trans (ih rest)

/-- The bound is not looked at between two tokens. -/
theorem runLoop_extends {n m : Nat} (bound : n ≤ m) (state : LoopState F S R)
    (tokens : List UInt32) (caller : T) (first second : Nat) :
    Extends
      (runLoop entropy decoder { config with maxTokens := first } cancelled onToken n state tokens
        caller)
      (runLoop entropy decoder { config with maxTokens := second } cancelled onToken m state tokens
        caller) := by
  induction n generalizing m state tokens caller with
  | zero =>
      constructor
      · intro failure failed
        contradiction
      · intro run ran other
        cases ran
        contradiction
      · intro run other ran again
        cases ran
        exact prefix_runLoop _ _ _ _ _ again
  | succ n ih =>
      obtain ⟨m, rfl⟩ := Nat.exists_eq_add_of_le' bound
      have sampled : sample entropy state.rng state.logits { config with maxTokens := second } =
          sample entropy state.rng state.logits { config with maxTokens := first } := rfl
      rw [← Nat.add_assoc, runLoop, runLoop, sampled]
      split_ifs
      · exact .refl _
      cases sample entropy state.rng state.logits { config with maxTokens := first } with
      | error failure => exact .refl _
      | ok drawn =>
          dsimp only [Except.bind]
          split_ifs
          · exact .refl _
          cases onToken caller drawn.1 with
          | error failure => exact .refl _
          | ok answer =>
              dsimp only
              split_ifs
              · cases decoder.decode state.decoder drawn.1 with
                | error error => exact .refl _
                | ok next => exact ih (by omega) _ _ _
              · exact .refl _

/-- Two runs with a buffer for their tokens. -/
theorem runWith_extends {n m : Nat} (bound : n ≤ m) (fits : 4 * m < 2 ^ 63) (positive : 0 < n)
    (state : S) (prompt : List UInt32) (caller : T) :
    Extends
      (runWith entropy decoder { config with maxTokens := n } state prompt cancelled onToken caller)
      (runWith entropy decoder { config with maxTokens := m } state prompt cancelled onToken
        caller) := by
  have checked : ({ config with maxTokens := m } : GenerationConfig F).validate =
      ({ config with maxTokens := n } : GenerationConfig F).validate := by
    rw [GenerationConfig.validate, GenerationConfig.validate, if_neg positive.ne',
      if_neg (positive.trans_le bound).ne']
  rw [runWith, runWith, checked]
  dsimp only
  rw [reserve_eq_ok fits, reserve_eq_ok (show 4 * n < 2 ^ 63 by omega)]
  cases ({ config with maxTokens := n } : GenerationConfig F).validate with
  | error error => exact .refl _
  | ok _ =>
      cases decoder.prefill state prompt with
      | error error => exact .refl _
      | ok next => exact runLoop_extends entropy decoder config cancelled onToken bound _ _ _ n m

/-- A run that returns had a buffer for its tokens. -/
theorem runWith_fits {state : S} {prompt : List UInt32} {caller : T} {run : Finished S T}
    (ran : runWith entropy decoder config state prompt cancelled onToken caller = .ok run) :
    4 * config.maxTokens < 2 ^ 63 := by
  by_contra large
  have full : reserve config.maxTokens = .error .capacity := if_neg large
  rw [runWith, full] at ran
  cases checked : config.validate with
  | error error =>
      rw [checked] at ran
      contradiction
  | ok _ =>
      rw [checked] at ran
      cases prefilled : decoder.prefill state prompt with
      | error error =>
          rw [prefilled] at ran
          contradiction
      | ok next =>
          rw [prefilled] at ran
          contradiction

/-- A result of `generate` comes from a finished run. -/
theorem generate_run {state : S} {prompt : List UInt32} {result : GenerationResult} :
    generate entropy decoder config state prompt cancelled = .ok result ↔
      ∃ run : Finished S Unit, runWith entropy decoder config state prompt cancelled
        (fun _ _ => .ok ((), true)) () = .ok run ∧ run.result = result := by
  rw [generate, ← runWith_result]
  constructor
  · intro ran
    obtain ⟨pair, mapped, rfl⟩ := map_ok_iff.mp ran
    obtain ⟨run, finished, rfl⟩ := map_ok_iff.mp mapped
    exact ⟨run, finished, rfl⟩
  · rintro ⟨run, ran, rfl⟩
    rw [ran]
    rfl

/-- Generation is stable under a larger bound, as far as its tokens can be allocated, and the books
of every finished run are kept. -/
theorem generation_stable (state : S) (prompt : List UInt32) :
    (∀ n m, n ≤ m → ∀ short,
      generate entropy decoder { config with maxTokens := n } state prompt cancelled = .ok short →
      (short.stopReason ≠ .maxTokens → 4 * m < 2 ^ 63 →
        generate entropy decoder { config with maxTokens := m } state prompt cancelled =
          .ok short) ∧
      ∀ long,
        generate entropy decoder { config with maxTokens := m } state prompt cancelled = .ok long →
        short.tokens <+: long.tokens ∧ (short.stopReason ≠ .maxTokens → long = short)) ∧
    ∀ {T : Type} (onToken : OnToken T) (caller : T) result after,
      generateWith entropy decoder config state prompt cancelled onToken caller =
        .ok (result, after) →
      ∃ inner answers calls,
        runWith entropy (recordCalls decoder) config (state, []) prompt cancelled
          (recordAnswers onToken) (caller, []) = .ok ⟨result, (after, answers), (inner, calls)⟩ ∧
        Ledger config prompt result answers calls := by
  constructor
  · intro n m bound short ran
    have positive : 0 < n := by
      rcases Nat.eq_zero_or_pos n with rfl | positive
      · contradiction
      · exact positive
    obtain ⟨run, finished, rfl⟩ := (generate_run ..).mp ran
    have extends_ (fits : 4 * m < 2 ^ 63) := runWith_extends entropy decoder config cancelled
      (fun _ _ => .ok ((), true)) bound fits positive state prompt ()
    constructor
    · intro ended fits
      exact (generate_run ..).mpr ⟨run, (extends_ fits).same run finished ended, rfl⟩
    · intro long again
      obtain ⟨other, later, rfl⟩ := (generate_run ..).mp again
      have whole := extends_ (runWith_fits _ _ _ _ _ later)
      refine ⟨whole.more run other finished later, fun ended => ?_⟩
      rw [whole.same run finished ended] at later
      cases later
      rfl
  · intro T onToken caller result after ran
    rw [← runWith_result] at ran
    obtain ⟨run, finished, same⟩ := map_ok_iff.mp ran
    cases same
    obtain ⟨answers, calls, recorded, books⟩ := runWith_ledger _ _ _ _ _ finished
    exact ⟨run.decoder, answers, calls, recorded, books⟩

end Runs

/-- A decoder that counts its calls and always favours the second token. -/
def countingDecoder : TokenDecoder Exact Nat where
  prefill calls _ := .ok ([.fin 0, .fin 3, .fin 1], calls + 1)
  decode calls _ := .ok ([.fin 0, .fin 3, .fin 1], calls + 1)

/-- The generator of greedy runs, which draw nothing. -/
def undrawn : Entropy Exact Unit := ⟨fun _ => (), fun _ => (.fin 0, ()), fun value => value⟩

/-- Two greedy tokens start every longer run, and a run of two tokens fed and reported both. -/
theorem generation_stable_two :
    (∀ long, generate undrawn countingDecoder ⟨5, .fin 0, none, 0, []⟩ 0 [7] (fun _ => false) =
      .ok long → [1, 1] <+: long.tokens) ∧
    ∃ inner answers calls,
      runWith undrawn (recordCalls countingDecoder) ⟨2, .fin 0, none, 0, []⟩ (0, []) [7]
        (fun _ => false) (recordAnswers fun _ _ => .ok ((), true)) ((), []) =
          .ok ⟨⟨[1, 1], .maxTokens⟩, ((), answers), (inner, calls)⟩ ∧
      Ledger (⟨2, .fin 0, none, 0, []⟩ : GenerationConfig Exact) [7] ⟨[1, 1], .maxTokens⟩ answers
        calls := by
  have stable := generation_stable undrawn countingDecoder ⟨2, .fin 0, none, 0, []⟩
    (fun _ => false) 0 [7]
  constructor
  · exact fun long ran => ((stable.1 2 5 (by decide) ⟨[1, 1], .maxTokens⟩ (by decide)).2 long
      ran).1
  · exact stable.2 (fun _ _ => .ok ((), true)) () _ () (by decide)

end AiCoreStack.Serving
