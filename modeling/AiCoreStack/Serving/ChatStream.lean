import AiCoreStack.Foundation.Channel
import AiCoreStack.Foundation.JsonWriter
import AiCoreStack.Serving.Chat
import AiCoreStack.Serving.StopStrings
import AiCoreStack.Serving.Streaming

/-!
# Streaming a chat completion

The two ways to answer a chat request: `chat_complete` returns one response, `chat_stream` sends
events into a channel of 64 from which the response is streamed.  The first send that fails tells
the task that the client is gone.  The encoder of the tokenizer is a parameter.
-/

namespace AiCoreStack.Serving

open Foundation

structure ApiError where
  status : Nat
  message : String
  deriving DecidableEq, Repr

def ApiError.badRequest (message : String) : ApiError := ⟨400, message⟩

def ApiError.internal (message : String) : ApiError := ⟨500, message⟩

/-- The texts of `EngineError`. -/
def EngineError.display : EngineError → String
  | .invalidModelId id =>
      "model id must contain only ASCII letters, digits, hyphens, or underscores: " ++ id
  | .unsupportedFormat detail => "unsupported model file extension: " ++ detail
  | .unsupportedArchitecture detail => "unsupported model architecture: " ++ detail
  | .modelNotFound id => "model manifest does not exist: " ++ id
  | .modelFileNotFound detail => "model file does not exist: " ++ detail
  | .integrityMismatch id expected actual =>
      "model integrity verification failed for " ++ id ++ ": expected " ++ expected ++
        ", actual " ++ actual
  | .backendUnavailable detail => "requested backend is unavailable: " ++ detail
  | .candle detail => "Candle runtime error: " ++ detail
  | .tokenizer detail => "tokenizer error: " ++ detail
  | .invalidGenerationConfig detail => "invalid generation configuration: " ++ detail
  | .invalidLogits => "model returned invalid logits"
  | .io detail => "I/O error: " ++ detail

def apiError (error : EngineError) : ApiError := .badRequest error.display

/-- How a request fails: with an error for the client, or by a panic of its task. -/
inductive RequestFailure where
  | panic
  | api (error : ApiError)
  deriving DecidableEq, Repr

def Failure.request : Failure → RequestFailure
  | .panic | .capacity => .panic
  | .engine error => .api (apiError error)

inductive StopField where
  | one (stop : List Char)
  | many (stops : List (List Char))
  deriving DecidableEq, Repr

def StopField.intoVec : StopField → List (List Char)
  | .one stop => [stop]
  | .many stops => stops

/-- A chat request, without the flag that selects the way it is answered. -/
structure ChatRequest (F : Type) where
  model : List Char
  messages : List (ChatMessage Char)
  maxTokens : Option Nat
  temperature : Option F
  topK : Option Nat
  seed : Option UInt64
  stop : Option StopField

structure ChatResponse where
  id : List Char
  created : Nat
  model : List Char
  content : List Char
  finishReason : String
  promptTokens : Nat
  completionTokens : Nat
  totalTokens : Nat
  deriving DecidableEq, Repr

section Surfaces

variable {F S R : Type} [Scalar F] (entropy : Entropy F R)
variable (session : ModelSession (TokenDecoder F S × S) LocalTokenizer)
variable (encode : List Char → Bool → Except EngineError (List UInt32))

def ChatRequest.params (request : ChatRequest F) : GenerationParams F where
  config :=
    { maxTokens := request.maxTokens.getD 256
      temperature := request.temperature.getD (Scalar.lit (7 / 10))
      topK := request.topK.or (some 40)
      seed := request.seed.getD 0
      stopTokens := [] }
  stopStrings := (request.stop.map StopField.intoVec).getD []

/-- `prepare_chat`. -/
def prepareChat {Dec : Type} (session : ModelSession Dec LocalTokenizer)
    (encode : List Char → Bool → Except EngineError (List UInt32)) (request : ChatRequest F) :
    Except ApiError (List UInt32 × GenerationParams F) :=
  match session.chatTemplate with
  | none =>
      .error (.badRequest ("no chat template is known for this model; " ++
        "set chat_template in its manifest (chatml, llama3, or mistral)"))
  | some template =>
      match template.render id request.messages with
      | .error error => .error (apiError error)
      | .ok prompt =>
          -- the template spells out every special token
          match encode prompt false with
          | .error error => .error (apiError error)
          | .ok promptTokens => .ok (promptTokens, request.params)

/-- The response to a request that was answered. -/
def ChatRequest.response (request : ChatRequest F) (created : Nat) (promptTokens : List UInt32)
    (outcome : GenerationOutcome) : ChatResponse where
  id := "chatcmpl-".toList ++ request.model
  created := created
  model := request.model
  content := outcome.text
  finishReason := outcome.finishReason
  promptTokens := promptTokens.length
  completionTokens := outcome.completionTokens
  totalTokens := promptTokens.length + outcome.completionTokens

/-- `chat_complete`, with the session in hand. -/
def chatComplete (created : Nat) (request : ChatRequest F) : Except RequestFailure ChatResponse :=
  match prepareChat session encode request with
  | .error error => .error (.api error)
  | .ok (promptTokens, params) =>
      match runGeneration entropy session promptTokens params fun _ => true with
      | .error failure => .error failure.request
      | .ok (outcome, _) =>
          .ok (request.response created promptTokens outcome)

/-- What a chunk adds to the message. -/
inductive ChatDelta where
  | role
  | content (text : List Char)
  | empty
  deriving DecidableEq, Repr

inductive ChatEvent where
  | chunk (delta : ChatDelta) (finishReason : Option String)
  | done
  | error (message : String)
  deriving DecidableEq, Repr

/-- The last events of a task that does not panic. -/
def closing : Except RequestFailure GenerationOutcome → List ChatEvent
  | .ok outcome => [.chunk .empty (some outcome.finishReason), .done]
  | .error (.api error) => [.error error.message]
  | .error .panic => []

/-- The value of a chunk, with the members of each object in the order of their names. -/
def ChatDelta.value : ChatDelta → Json
  | .role => .object [("role".toList, .string "assistant".toList)]
  | .content text => .object [("content".toList, .string text)]
  | .empty => .object []

def chunkValue (model : List Char) (created : Nat) (delta : ChatDelta)
    (finishReason : Option String) : Json :=
  .object
    [("choices".toList,
      .array
        [.object
          [("delta".toList, delta.value),
            ("finish_reason".toList, finishReason.elim .null fun reason => .string reason.toList),
            ("index".toList, .number (Nat.toDigits 10 0))]]),
      ("created".toList, .number (Nat.toDigits 10 created)),
      ("id".toList, .string ("chatcmpl-".toList ++ model)),
      ("model".toList, .string model),
      ("object".toList, .string "chat.completion.chunk".toList)]

def errorValue (message : String) : Json :=
  .object
    [("error".toList,
      .object
        [("message".toList, .string message.toList),
          ("type".toList, .string "server_error".toList)])]

/-- The data of an event. -/
def ChatEvent.data (model : List Char) (created : Nat) : ChatEvent → List Char
  | .chunk delta finishReason => (chunkValue model created delta finishReason).compact
  | .done => "[DONE]".toList
  | .error message => (errorValue message).compact

/-- A content chunk. -/
def contentChunk (delta : List Char) : ChatEvent := .chunk (.content delta) none

/-- `chat_stream`: the events that it sends when its sends are answered in a given way. -/
def chatStream (request : ChatRequest F) (answers : Nat → Bool) : List ChatEvent :=
  match prepareChat session encode request with
  | .error error => closing (.error (.api error))
  | .ok (promptTokens, params) =>
      .chunk .role none ::
        if answers 0 then
          -- the role is the first event, so a delta is answered at its number among the deltas
          let run := runGenerationTraced entropy session promptTokens params
            fun deltas => answers deltas.length
          run.deltas.map contentChunk ++ closing (run.outcome.mapError Failure.request)
        else closing (.error (.api (.internal "client disconnected")))

end Surfaces

/-! ## What the answers decide -/

section Answers

variable {tokenizer : LocalTokenizer} {stopStrings : List (List Char)}
variable {onDelta other : List (List Char) → Bool}

theorem sendUpTo_grows {progress next : Progress} {full : List Char} {safeEnd : Nat} {goOn : Bool}
    (sent : sendUpTo onDelta progress full safeEnd = .ok (next, goOn)) :
    next.deltas = progress.deltas ∨ ∃ delta, next.deltas = progress.deltas ++ [delta] ∧
      (goOn = true → onDelta next.deltas = true) := by
  rw [sendUpTo] at sent
  split_ifs at sent
  · obtain ⟨delta, -, same⟩ := map_ok_iff.mp sent
    obtain ⟨rfl, rfl⟩ := Prod.mk.inj same
    exact .inr ⟨delta, rfl, id⟩
  · obtain ⟨rfl, rfl⟩ := Prod.mk.inj (Except.ok.inj sent)
    exact .inl rfl

theorem cutAt_grows {progress next : Progress} {full : List Char} {position : Nat} {goOn : Bool}
    (cut : cutAt progress full position = .ok (next, goOn)) :
    goOn = false ∧ (next.deltas = progress.deltas ∨
      ∃ delta, next.deltas = progress.deltas ++ [delta]) := by
  obtain ⟨text, -, cut⟩ := bind_ok_iff.mp cut
  split_ifs at cut
  · obtain ⟨delta, -, same⟩ := map_ok_iff.mp cut
    obtain ⟨rfl, rfl⟩ := Prod.mk.inj same
    exact ⟨rfl, .inr ⟨delta, rfl⟩⟩
  · obtain ⟨rfl, rfl⟩ := Prod.mk.inj (Except.ok.inj cut)
    exact ⟨rfl, .inl rfl⟩

/-- A token sends one delta at most, and after one the run goes on only if it was taken. -/
theorem onToken_grows {progress next : Progress} {token : UInt32} {goOn : Bool}
    (ran : onToken tokenizer stopStrings onDelta progress token = .ok (next, goOn)) :
    next.deltas = progress.deltas ∨ ∃ delta, next.deltas = progress.deltas ++ [delta] ∧
      (goOn = true → onDelta next.deltas = true) := by
  rw [onToken] at ran
  split at ran
  · obtain ⟨rfl, rfl⟩ := Prod.mk.inj (Except.ok.inj ran)
    exact .inl rfl
  · rw [onText] at ran
    split_ifs at ran
    · obtain ⟨rfl, rfl⟩ := Prod.mk.inj (Except.ok.inj ran)
      exact .inl rfl
    · split at ran
      · obtain ⟨stopped, same | ⟨delta, same⟩⟩ := cutAt_grows ran
        · exact .inl same
        · exact .inr ⟨delta, same, fun goes => absurd (goes.symm.trans stopped) (by decide)⟩
      · have grown := sendUpTo_grows ran
        exact grown

/-- Another callback makes a difference only by its answer to the new delta. -/
theorem onToken_other (onDelta other : List (List Char) → Bool) (progress : Progress)
    (token : UInt32) :
    onToken tokenizer stopStrings onDelta progress token =
        onToken tokenizer stopStrings other progress token ∨
      ∃ next, onToken tokenizer stopStrings onDelta progress token =
          .ok (next, onDelta next.deltas) ∧
        onToken tokenizer stopStrings other progress token = .ok (next, other next.deltas) ∧
        progress.deltas.length < next.deltas.length := by
  rw [onToken, onToken]
  cases tokenizer.decode (progress.tokens ++ [token]) with
  | error error => exact .inl rfl
  | ok full =>
      simp only [onText]
      split_ifs
      · exact .inl rfl
      cases earliestStop full stopStrings with
      | some position => exact .inl rfl
      | none =>
          simp only [sendUpTo]
          split_ifs
          · cases slice full progress.emitted (holdbackBoundary full (holdbackChars stopStrings)) with
            | error failure => exact .inl rfl
            | ok delta => exact .inr ⟨_, rfl, rfl, by simp⟩
          · exact .inl rfl

theorem report_grows (ending : Ending) (rest earlier : List UInt32) (progress : Progress) :
    progress.deltas <+: (TokenStream.report (onToken tokenizer stopStrings onDelta) ending rest
      earlier progress).1.deltas := by
  induction rest generalizing earlier progress with
  | nil => exact List.prefix_rfl
  | cons token rest ih =>
      rw [TokenStream.report]
      cases ran : onToken tokenizer stopStrings onDelta progress token with
      | error failure => exact List.prefix_rfl
      | ok answer =>
          obtain ⟨next, goOn⟩ := answer
          have longer : progress.deltas <+: next.deltas := by
            rcases onToken_grows ran with same | ⟨delta, same, -⟩
            · rw [same]
            · rw [same]
              exact List.prefix_append _ _
          dsimp only
          split_ifs
          · exact longer.trans (ih _ _)
          · exact longer

theorem concludeTraced_grows (progress : Progress) (result : Except Failure GenerationResult) :
    progress.deltas <+: (concludeTraced tokenizer progress result).deltas ∧
      (concludeTraced tokenizer progress result).deltas.length ≤ progress.deltas.length + 1 := by
  have still := And.intro (List.prefix_refl progress.deltas) (Nat.le_succ progress.deltas.length)
  unfold concludeTraced
  split
  · exact still
  · exact still
  · split
    · exact still
    · split
      · exact still
      next deltas flushed =>
        rw [flushTail] at flushed
        split_ifs at flushed
        · obtain ⟨delta, -, rfl⟩ := map_ok_iff.mp flushed
          exact ⟨List.prefix_append _ _, by simp⟩
        · rw [← Except.ok.inj flushed]
          exact still

/-- A run goes on only while its deltas are taken, and sends one that is not. -/
theorem report_stops {bound : Nat} (stops : ∀ deltas, onDelta deltas = true → deltas.length ≤ bound)
    (ending : Ending) (rest earlier : List UInt32) {progress : Progress}
    (few : progress.deltas.length ≤ bound) :
    (TokenStream.report (onToken tokenizer stopStrings onDelta) ending rest earlier
      progress).1.deltas.length ≤ bound + 1 := by
  induction rest generalizing earlier progress with
  | nil => exact few.trans (Nat.le_succ _)
  | cons token rest ih =>
      rw [TokenStream.report]
      cases ran : onToken tokenizer stopStrings onDelta progress token with
      | error failure => exact few.trans (Nat.le_succ _)
      | ok answer =>
          obtain ⟨next, goOn⟩ := answer
          rcases onToken_grows ran with same | ⟨delta, same, taken⟩
          · rw [← same] at few
            dsimp only
            split_ifs
            · exact ih _ few
            · exact few.trans (Nat.le_succ _)
          · dsimp only
            split_ifs with goes
            · exact ih _ (stops _ (taken goes))
            · rw [same, List.length_append, List.length_singleton]
              exact Nat.succ_le_succ few

/-- Two sequences of calls that are the same, or that both go on after the same first calls. -/
def SameUpTo {E : Type} (n : Nat) (calls others : List E) : Prop :=
  n < calls.length ∧ n < others.length ∧ calls.take (n + 1) = others.take (n + 1)

theorem SameUpTo.of_prefix {E : Type} {n : Nat} {begun calls others : List E}
    (long : n < begun.length) (first : begun <+: calls) (second : begun <+: others) :
    SameUpTo n calls others := by
  refine ⟨long.trans_le first.length_le, long.trans_le second.length_le, ?_⟩
  obtain ⟨rest, rfl⟩ := first
  obtain ⟨rest', rfl⟩ := second
  rw [List.take_append_of_le_length long, List.take_append_of_le_length long]

theorem SameUpTo.prolong {E : Type} {n : Nat} {calls others longer others' : List E}
    (same : SameUpTo n calls others) (first : calls <+: longer) (second : others <+: others') :
    SameUpTo n longer others' := by
  obtain ⟨long, long', same⟩ := same
  refine ⟨long.trans_le first.length_le, long'.trans_le second.length_le, ?_⟩
  obtain ⟨rest, rfl⟩ := first
  obtain ⟨rest', rfl⟩ := second
  rwa [List.take_append_of_le_length long, List.take_append_of_le_length long']

theorem report_other {n : Nat} (agree : ∀ deltas, deltas.length ≤ n → onDelta deltas = other deltas)
    (ending : Ending) (rest earlier : List UInt32) (progress : Progress) :
    TokenStream.report (onToken tokenizer stopStrings onDelta) ending rest earlier progress =
        TokenStream.report (onToken tokenizer stopStrings other) ending rest earlier progress ∨
      SameUpTo n
        (TokenStream.report (onToken tokenizer stopStrings onDelta) ending rest earlier
          progress).1.deltas
        (TokenStream.report (onToken tokenizer stopStrings other) ending rest earlier
          progress).1.deltas := by
  induction rest generalizing earlier progress with
  | nil => exact .inl rfl
  | cons token rest ih =>
      rw [TokenStream.report, TokenStream.report]
      rcases onToken_other onDelta other progress token with
        same | ⟨next, ran, ran', longer⟩
      · rw [same]
        cases onToken tokenizer stopStrings other progress token with
        | error failure => exact .inl rfl
        | ok answer =>
            dsimp only
            split_ifs
            · exact ih _ _
            · exact .inl rfl
      · rw [ran, ran']
        dsimp only
        by_cases short : next.deltas.length ≤ n
        · rw [agree _ short]
          split_ifs
          · exact ih _ _
          · exact .inl rfl
        · -- the answers differ only after enough calls
          refine .inr (SameUpTo.of_prefix (not_le.mp short) ?_ ?_) <;> split_ifs
          · exact report_grows ..
          · exact List.prefix_rfl
          · exact report_grows ..
          · exact List.prefix_rfl

end Answers

section Calls

variable {F S R : Type} [Scalar F] (entropy : Entropy F R)
variable (session : ModelSession (TokenDecoder F S × S) LocalTokenizer)
variable (promptTokens : List UInt32) (params : GenerationParams F)

/-- A run depends on the answers to its first deltas only as far as it has sent others. -/
theorem runGenerationTraced_other {onDelta other : List (List Char) → Bool} {n : Nat}
    (agree : ∀ deltas, deltas.length ≤ n → onDelta deltas = other deltas) :
    runGenerationTraced entropy session promptTokens params onDelta =
        runGenerationTraced entropy session promptTokens params other ∨
      SameUpTo n (runGenerationTraced entropy session promptTokens params onDelta).deltas
        (runGenerationTraced entropy session promptTokens params other).deltas := by
  rw [runGenerationTraced, runGenerationTraced, reportWith_eq_report, reportWith_eq_report]
  dsimp only
  rcases @report_other session.tokenizer params.stopStrings _ _ n agree _ _ [] {} with same | same
  · rw [same]
    exact .inl rfl
  · exact .inr (same.prolong (concludeTraced_grows _ _).1 (concludeTraced_grows _ _).1)

theorem length_runGenerationTraced_le {onDelta : List (List Char) → Bool} {bound : Nat}
    (stops : ∀ deltas, onDelta deltas = true → deltas.length ≤ bound) :
    (runGenerationTraced entropy session promptTokens params onDelta).deltas.length ≤
      bound + 2 := by
  rw [runGenerationTraced, reportWith_eq_report]
  have few := @report_stops session.tokenizer params.stopStrings onDelta bound stops
    (tokenStream entropy session.decoder.1 (withEos params.config session.eosToken)
      session.decoder.2 promptTokens).ending
    (tokenStream entropy session.decoder.1 (withEos params.config session.eosToken)
      session.decoder.2 promptTokens).tokens [] {} (Nat.zero_le _)
  exact (concludeTraced_grows _ _).2.trans (Nat.succ_le_succ few)

end Calls

/-! ## The task as a sender -/

section Task

variable {F S R : Type} [Scalar F] (entropy : Entropy F R)
variable (session : ModelSession (TokenDecoder F S × S) LocalTokenizer)
variable (encode : List Char → Bool → Except EngineError (List UInt32))
variable (request : ChatRequest F)

theorem chatStream_causal {answers others : Nat → Bool} (n : Nat)
    (agree : ∀ i < n, answers i = others i) :
    (chatStream entropy session encode request answers).take (n + 1) =
      (chatStream entropy session encode request others).take (n + 1) := by
  rw [chatStream, chatStream]
  cases prepareChat session encode request with
  | error error => rfl
  | ok prepared =>
      obtain ⟨promptTokens, params⟩ := prepared
      simp only [List.take_succ_cons]
      refine congrArg (ChatEvent.chunk .role none :: ·) ?_
      cases n with
      | zero => rfl
      | succ n =>
          rw [← agree 0 (Nat.succ_pos n)]
          split_ifs
          · have taken : ∀ deltas : List (List Char), deltas.length ≤ n →
                answers deltas.length = others deltas.length :=
              fun deltas short => agree _ (Nat.lt_succ_of_le short)
            rcases runGenerationTraced_other entropy session promptTokens params taken with
              same | ⟨long, long', same⟩
            · rw [same]
            · rw [List.take_append_of_le_length (by simpa using long),
                List.take_append_of_le_length (by simpa using long'), ← List.map_take,
                ← List.map_take, same]
          · rfl

/-- `chat_stream` as the sender of its channel. -/
def chatSender : Sender ChatEvent where
  events := chatStream entropy session encode request
  causal := chatStream_causal entropy session encode request

/-- The capacity of the channel. -/
def channelCapacity : Nat := 64

theorem length_closing_le (outcome : Except RequestFailure GenerationOutcome) :
    (closing outcome).length ≤ 2 := by
  cases outcome with
  | ok outcome => exact le_rfl
  | error failure =>
      cases failure with
      | panic => exact Nat.zero_le _
      | api error => exact Nat.le_succ 1

/-- Once its client is gone, the task makes at most four more sends. -/
theorem length_chatStream_le (accepted : Nat) :
    (chatStream entropy session encode request (upTo accepted)).length ≤ accepted + 4 := by
  rw [chatStream]
  cases prepareChat session encode request with
  | error error => exact (length_closing_le _).trans (by omega)
  | ok prepared =>
      obtain ⟨promptTokens, params⟩ := prepared
      dsimp only
      rw [List.length_cons]
      split_ifs with some_
      · have stops : ∀ deltas : List (List Char), upTo accepted deltas.length = true →
            deltas.length ≤ accepted - 1 := by
          intro deltas taken
          have below := of_decide_eq_true taken
          omega
        have few := length_runGenerationTraced_le entropy session promptTokens params stops
        have positive : 0 < accepted := of_decide_eq_true some_
        have last := length_closing_le ((runGenerationTraced entropy session promptTokens params
          fun deltas => upTo accepted deltas.length).outcome.mapError Failure.request)
        rw [List.length_append, List.length_map]
        omega
      · have last := length_closing_le (.error (.api (.internal "client disconnected")))
        omega

/-- Whatever the order of sends, receives and a disconnection, the client of a chat stream gets
the events of the undisturbed stream in order, up to where it leaves; one that stays gets them all,
and one that leaves stops the task after four more sends. -/
theorem chat_stream_delivers {w : Wire ChatEvent}
    (reached : Wire.Reachable (chatSender entropy session encode request) channelCapacity w) :
    (w.received <+: chatStream entropy session encode request fun _ => true) ∧
      (w.connected = true → w.Done (chatSender entropy session encode request) →
        w.received = chatStream entropy session encode request fun _ => true) ∧
      (w.connected = true → ∃ w', Relation.ReflTransGen
        (Wire.Step (chatSender entropy session encode request) channelCapacity) w w' ∧
          w'.received = chatStream entropy session encode request fun _ => true) ∧
      w.accepted ≤ w.received.length + channelCapacity ∧ w.failed ≤ 4 := by
  have faithful := reached.faithful
  refine ⟨faithful.begun.trans (List.take_prefix _ _), faithful.complete,
    faithful.exists_run (by decide), faithful.lost, ?_⟩
  by_cases none : w.failed = 0
  · omega
  · have stopped := faithful.stopped none
    have few := length_chatStream_le entropy session encode request w.accepted
    have : (chatSender entropy session encode request).events =
      chatStream entropy session encode request := rfl
    rw [this] at stopped
    omega

end Task

/-- A session whose texts are letters, with a template. -/
def chattySession : ModelSession (TokenDecoder Exact Nat × Nat) LocalTokenizer :=
  { plainSession with chatTemplate := some .chatMl }

def hello : ChatRequest Exact where
  model := ['m']
  messages := [⟨"user", ['h', 'i']⟩]
  maxTokens := some 1
  temperature := some (.fin 0)
  topK := none
  seed := none
  stop := none

def helloSender : Sender ChatEvent := chatSender noEntropy chattySession (fun _ _ => .ok []) hello

/-- The client leaves with the role in the channel, and the letter is not taken. -/
theorem chat_stream_delivers_left :
    ([] <+: chatStream noEntropy chattySession (fun _ _ => .ok []) hello fun _ => true) ∧
      1 ≤ 0 + channelCapacity ∧ 1 ≤ 4 := by
  have role : Wire.Step helloSender channelCapacity Wire.start
      ⟨1, 0, true, [.chunk .role none], []⟩ :=
    .send Wire.start _ rfl (by decide) (by decide +kernel)
  have left : Wire.Step helloSender channelCapacity ⟨1, 0, true, [.chunk .role none], []⟩
      ⟨1, 0, false, [], []⟩ := .hangUp _ rfl
  have letter : Wire.Step helloSender channelCapacity ⟨1, 0, false, [], []⟩
      ⟨1, 1, false, [], []⟩ :=
    .fail ⟨1, 0, false, [], []⟩ (contentChunk ['a']) rfl (by decide +kernel)
  have delivers := chat_stream_delivers noEntropy chattySession (fun _ _ => .ok []) hello
    (((Relation.ReflTransGen.single role).tail left).tail letter)
  exact ⟨delivers.1, delivers.2.2.2⟩

/-! ## What a client reads -/

/-- A member of an object. -/
def memberOf (name : String) : Json → Option Json
  | .object members => (members.find? fun entry => entry.1 = name.toList).map Prod.snd
  | _ => none

/-- The text that a client finds in the data of an event. -/
def readContent (data : List Char) : Option (List Char) :=
  (Json.parse data).bind fun value => (memberOf "choices" value).bind fun choices =>
    match choices with
    | .array (choice :: _) =>
        (memberOf "delta" choice).bind fun delta => (memberOf "content" delta).bind fun content =>
          match content with
          | .string text => some text
          | _ => none
    | _ => none

theorem sound_chunkValue (model : List Char) (created : Nat) (delta : ChatDelta)
    (finishReason : Option String) : (chunkValue model created delta finishReason).Sound := by
  have number (n : Nat) : Json.IsNumber (Nat.toDigits 10 n) := by
    cases Json.number_toDigits n with
    | number isNumber => exact isNumber
  have zero : Json.IsNumber ['0'] := number 0
  cases delta <;> cases finishReason <;>
    simp [chunkValue, ChatDelta.value, Json.Sound, Json.SoundItems, Json.SoundMembers, number, zero]

theorem readContent_chunk (model : List Char) (created : Nat) (delta : ChatDelta)
    (finishReason : Option String) :
    readContent ((ChatEvent.chunk delta finishReason).data model created) =
      match delta with
      | .content text => some text
      | _ => none := by
  rw [ChatEvent.data, readContent, Json.parse_compact (sound_chunkValue ..)]
  cases delta <;> rfl

/-- The mark at the end of a stream is no JSON text. -/
theorem readContent_done (model : List Char) (created : Nat) :
    readContent (ChatEvent.done.data model created) = none := by
  rw [ChatEvent.data, readContent, show Json.parse "[DONE]".toList = none by decide]
  rfl

/-- The text that a client puts together from a stream. -/
def readStream (model : List Char) (created : Nat) (events : List ChatEvent) : List Char :=
  (events.filterMap fun event => readContent (event.data model created)).flatten

/-- A stream is read as its contents. -/
theorem readStream_whole (model : List Char) (created : Nat) (deltas : List (List Char))
    (reason : String) :
    readStream model created (.chunk .role none :: deltas.map contentChunk ++
      [.chunk .empty (some reason), .done]) = deltas.flatten := by
  have contents : (deltas.map contentChunk).filterMap
      (fun event => readContent (event.data model created)) = deltas := by
    induction deltas with
    | nil => rfl
    | cons delta rest ih =>
        rw [List.map_cons, List.filterMap_cons_some (readContent_chunk ..), ih]
  rw [readStream, List.filterMap_append, List.filterMap_cons_none (readContent_chunk ..), contents,
    List.filterMap_cons_none (readContent_chunk ..)]
  simp [readContent_done]

/-! ## Tasks that panic -/

section Capacity

variable {tokenizer : LocalTokenizer} {stopStrings : List (List Char)}
variable {onDelta : List (List Char) → Bool} {progress : Progress}

theorem slice_ne_capacity (text : List Char) (start stop : Nat) :
    slice text start stop ≠ .error .capacity := by
  rw [slice]
  cases sliceBytes text start stop <;> simp [expect]

theorem bind_ne_capacity {α β : Type} {run : Except Failure α} {f : α → Except Failure β}
    (first : run ≠ .error .capacity) (later : ∀ a, f a ≠ .error .capacity) :
    run.bind f ≠ .error .capacity := by
  cases run with
  | error failure => exact fun same => first (congrArg Except.error (Except.error.inj same))
  | ok a => exact later a

theorem map_ne_capacity {α β : Type} {run : Except Failure α} (f : α → β)
    (first : run ≠ .error .capacity) : run.map f ≠ .error .capacity := by
  cases run with
  | error failure => exact fun same => first (congrArg Except.error (Except.error.inj same))
  | ok a => simp [Except.map]

theorem onToken_ne_capacity (token : UInt32) :
    onToken tokenizer stopStrings onDelta progress token ≠ .error .capacity := by
  rw [onToken]
  split
  · simp
  rw [onText]
  split
  · simp
  split
  · refine bind_ne_capacity (slice_ne_capacity _ _ _) fun cut => ?_
    split
    · exact map_ne_capacity _ (slice_ne_capacity _ _ _)
    · simp
  · rw [sendUpTo]
    split
    · exact map_ne_capacity _ (slice_ne_capacity _ _ _)
    · simp

theorem report_capacity {ending : Ending} {rest earlier : List UInt32}
    (failed : (TokenStream.report (onToken tokenizer stopStrings onDelta) ending rest earlier
      progress).2 = .error .capacity) : ending = .failed .capacity := by
  induction rest generalizing earlier progress with
  | nil =>
      cases ending with
      | failed failure => exact congrArg Ending.failed (Except.error.inj failed)
      | _ => cases failed
  | cons token rest ih =>
      rw [TokenStream.report] at failed
      cases called : onToken tokenizer stopStrings onDelta progress token with
      | error failure =>
          rw [called] at failed
          obtain rfl : failure = .capacity := Except.error.inj failed
          exact absurd called (onToken_ne_capacity token)
      | ok answer =>
          rw [called] at failed
          dsimp only at failed
          split_ifs at failed
          exact ih failed

theorem finalText_ne_capacity : finalText tokenizer progress ≠ .error .capacity := by
  rw [finalText]
  split
  · simp
  · refine map_ne_capacity _ ?_
    cases tokenizer.decode progress.tokens <;> simp [Except.mapError]

theorem flushTail_ne_capacity (text : List Char) :
    flushTail progress text ≠ .error .capacity := by
  rw [flushTail]
  split
  · exact map_ne_capacity _ (slice_ne_capacity _ _ _)
  · simp

theorem concludeTraced_capacity {result : Except Failure GenerationResult}
    (failed : (concludeTraced tokenizer progress result).outcome = .error .capacity) :
    result = .error .capacity := by
  unfold concludeTraced at failed
  split at failed
  next => exact congrArg Except.error (Except.error.inj failed)
  next => cases failed
  next =>
    split at failed
    next unread =>
      cases failed
      exact absurd unread finalText_ne_capacity
    next =>
      split at failed
      next unsent =>
        cases failed
        exact absurd unsent (flushTail_ne_capacity _)
      next => cases failed

end Capacity

section Agreement

variable {F S R : Type} [Scalar F] (entropy : Entropy F R)
variable (session : ModelSession (TokenDecoder F S × S) LocalTokenizer)
variable (encode : List Char → Bool → Except EngineError (List UInt32))
variable (request : ChatRequest F)

/-- The stream for a response or an error: the role, contents that are read as the content of the
response, its reason to finish and the final mark; or contents and the error; or the role alone,
when the task panics. -/
def Streams (model : List Char) (created : Nat) (events : List ChatEvent) :
    Except RequestFailure ChatResponse → Prop
  | .ok response => ∃ deltas : List (List Char),
      events = .chunk .role none :: deltas.map contentChunk ++
        [.chunk .empty (some response.finishReason), .done] ∧
      readStream model created events = response.content
  | .error (.api error) =>
      events = [.error error.message] ∨ ∃ deltas : List (List Char),
        events = .chunk .role none :: deltas.map contentChunk ++ [.error error.message]
  | .error .panic => events = [.chunk .role none]

/-- A run that panics for want of a buffer was asked for too many tokens, and has sent nothing. -/
theorem runGenerationTraced_capacity {promptTokens : List UInt32} {params : GenerationParams F}
    {onDelta : List (List Char) → Bool}
    (failed : (runGenerationTraced entropy session promptTokens params onDelta).outcome =
      .error .capacity) :
    2 ^ 63 ≤ 4 * params.config.maxTokens ∧
      (runGenerationTraced entropy session promptTokens params onDelta).deltas = [] := by
  have same : (withEos params.config session.eosToken).maxTokens = params.config.maxTokens := by
    unfold withEos
    split
    · split <;> rfl
    · rfl
  rw [runGenerationTraced, reportWith_eq_report] at failed ⊢
  have ended := report_capacity (concludeTraced_capacity failed)
  rcases tokenStream_failed _ _ _ ended with ⟨error, engine⟩ | ⟨-, large, empty⟩
  · cases engine
  · rw [empty, ended]
    exact ⟨same ▸ large, rfl⟩

theorem params_prepareChat {promptTokens : List UInt32} {params : GenerationParams F}
    (prepared : prepareChat session encode request = .ok (promptTokens, params)) :
    params = request.params := by
  rw [prepareChat] at prepared
  split at prepared
  · cases prepared
  split at prepared
  · cases prepared
  split at prepared
  · cases prepared
  · exact (congrArg Prod.snd (Except.ok.inj prepared)).symm

/-- The stream of a client that stays is the response to the same request without streaming.  Both
panic only on a request for more tokens than can be allocated. -/
theorem chat_stream_agrees (steady : session.tokenizer.Steady) (created : Nat) :
    Streams request.model created (chatStream entropy session encode request fun _ => true)
        (chatComplete entropy session encode created request) ∧
      (chatComplete entropy session encode created request = .error .panic →
        2 ^ 61 ≤ request.maxTokens.getD 256) := by
  rw [chatStream, chatComplete]
  cases prepared : prepareChat session encode request with
  | error error => exact ⟨Or.inl rfl, fun panics => by cases panics⟩
  | ok parts =>
      obtain ⟨promptTokens, params⟩ := parts
      obtain rfl := params_prepareChat session encode request prepared
      have large := @runGenerationTraced_capacity _ _ _ _ entropy session promptTokens
        request.params fun _ => true
      have sends := runGeneration_sends entropy session promptTokens request.params
        (fun _ => true) steady fun _ => rfl
      dsimp only
      rw [if_pos rfl]
      rw [runGeneration_eq_traced] at sends ⊢
      generalize runGenerationTraced entropy session promptTokens request.params
        (fun _ => true) = run at large sends ⊢
      obtain ⟨deltas, outcome⟩ := run
      cases outcome with
      | ok outcome =>
          refine ⟨⟨deltas, rfl, (readStream_whole ..).trans (sends.joined outcome deltas rfl)⟩, ?_⟩
          exact fun panics => by cases panics
      | error failure =>
          cases failure with
          | panic => exact absurd rfl sends.no_panic
          | capacity =>
              obtain ⟨many, rfl⟩ := large rfl
              refine ⟨rfl, fun _ => ?_⟩
              change 2 ^ 63 ≤ 4 * request.maxTokens.getD 256 at many
              omega
          | engine error => exact ⟨Or.inr ⟨deltas, rfl⟩, fun panics => by cases panics⟩

end Agreement

theorem chat_stream_agrees_hello :
    Streams ['m'] 7 (chatStream noEntropy chattySession (fun _ _ => .ok []) hello fun _ => true)
      (chatComplete noEntropy chattySession (fun _ _ => .ok []) 7 hello) :=
  (chat_stream_agrees noEntropy chattySession _ hello plainTokenizer_steady 7).1

end AiCoreStack.Serving
