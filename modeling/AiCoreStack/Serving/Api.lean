import AiCoreStack.Foundation.Outcome
import AiCoreStack.Foundation.Search
import AiCoreStack.Foundation.Utf8
import AiCoreStack.Serving.Session

/-!
# Streaming generation

Model of `run_generation`.  The text of all tokens so far is decoded after each
token.  A tail that may still turn into a stop string is held back, the rest goes
to `on_delta`.  What a callback answers is a function of all deltas it has seen.
-/

namespace AiCoreStack.Serving

open Foundation
open String (utf8Len)

/-- A loaded tokenizer: the text of a token list, special tokens left out. -/
structure LocalTokenizer where
  decode : List UInt32 → Except EngineError (List Char)

structure GenerationParams (F : Type) where
  config : GenerationConfig F
  stopStrings : List (List Char)

structure GenerationOutcome where
  text : List Char
  completionTokens : Nat
  finishReason : String
  deriving DecidableEq, Repr

/-- `text.find(stop)`, the byte offset of the first occurrence. -/
def findText (text stop : List Char) : Option Nat :=
  (splitOnce stop text).map fun cut => utf8Len cut.1

def earliestStop (text : List Char) (stopStrings : List (List Char)) : Option Nat :=
  ((stopStrings.filter fun stop => !stop.isEmpty).filterMap (findText text)).min?

/-- `text.char_indices()`, from a byte offset on. -/
def charIndices : Nat → List Char → List (Nat × Char)
  | _, [] => []
  | offset, c :: text => (offset, c) :: charIndices (offset + c.utf8Size) text

/-- The byte offset that keeps the last `holdback` characters back. -/
def holdbackBoundary (text : List Char) (holdback : Nat) : Nat :=
  if holdback = 0 then utf8Len text
  else ((charIndices 0 text).reverse[holdback - 1]?).elim 0 Prod.fst

/-- The number of characters to hold back. -/
def holdbackChars (stopStrings : List (List Char)) : Nat :=
  (stopStrings.map List.length).max?.getD 0 - 1

/-- `text.ends_with('\u{FFFD}')`: the last character is not complete yet. -/
def isPending (text : List Char) : Bool := text.getLast? = some '\uFFFD'

/-- `&text[start..stop]`. -/
def slice (text : List Char) (start stop : Nat) : Except Failure (List Char) :=
  expect (sliceBytes text start stop)

/-- What `run_generation` keeps between two tokens, with the deltas it has sent. -/
structure Progress where
  tokens : List UInt32 := []
  emitted : Nat := 0
  truncated : Option (List Char) := none
  decodeError : Option EngineError := none
  deltas : List (List Char) := []

section

variable (tokenizer : LocalTokenizer) (stopStrings : List (List Char))
variable (onDelta : List (List Char) → Bool)

/-- Cut the text at a stop string and send what is left of it. -/
def cutAt (progress : Progress) (full : List Char) (position : Nat) :
    Except Failure (Progress × Bool) :=
  (slice full 0 position).bind fun cut =>
    if progress.emitted < utf8Len cut then
      (slice cut progress.emitted (utf8Len cut)).map fun delta =>
        ({ progress with
            deltas := progress.deltas ++ [delta]
            emitted := utf8Len cut
            truncated := some cut }, false)
    else .ok ({ progress with truncated := some cut }, false)

/-- Send the text up to a safe end. -/
def sendUpTo (progress : Progress) (full : List Char) (safeEnd : Nat) :
    Except Failure (Progress × Bool) :=
  if progress.emitted < safeEnd then
    (slice full progress.emitted safeEnd).map fun delta =>
      ({ progress with emitted := safeEnd, deltas := progress.deltas ++ [delta] },
        onDelta (progress.deltas ++ [delta]))
  else .ok (progress, true)

/-- The text of all tokens after one more. -/
def onText (progress : Progress) (full : List Char) : Except Failure (Progress × Bool) :=
  if isPending full then .ok (progress, true)
  else
    match earliestStop full stopStrings with
    | some position => cutAt progress full position
    | none =>
        sendUpTo onDelta progress full (holdbackBoundary full (holdbackChars stopStrings))

/-- The `on_token` closure. -/
def onToken (progress : Progress) (token : UInt32) : Except Failure (Progress × Bool) :=
  match tokenizer.decode (progress.tokens ++ [token]) with
  | .error error =>
      .ok ({ progress with
        tokens := progress.tokens ++ [token]
        decodeError := some error }, false)
  | .ok full =>
      onText stopStrings onDelta { progress with tokens := progress.tokens ++ [token] } full

def finishReason (stopReason : GenerationStopReason) (stoppedOnString : Bool) : String :=
  match stopReason, stoppedOnString with
  | .stopToken, _ => "stop"
  | .maxTokens, _ => "length"
  | .cancelled, true => "stop"
  | .cancelled, false => "cancelled"

/-- The text of the run, and whether a stop string ended it. -/
def finalText (progress : Progress) : Except Failure (List Char × Bool) :=
  match progress.truncated with
  | some text => .ok (text, true)
  | none => ((tokenizer.decode progress.tokens).mapError .engine).map fun text => (text, false)

/-- Send the tail that is still held back. -/
def flushTail (progress : Progress) (text : List Char) : Except Failure (List (List Char)) :=
  if progress.emitted < utf8Len text then
    (slice text progress.emitted (utf8Len text)).map fun delta => progress.deltas ++ [delta]
  else .ok progress.deltas

/-- What follows the loop. -/
def concludeRun (result : GenerationResult) (progress : Progress) :
    Except Failure (GenerationOutcome × List (List Char)) :=
  match progress.decodeError with
  | some error => .error (.engine error)
  | none =>
      (finalText tokenizer progress).bind fun (text, stoppedOnString) =>
        (flushTail progress text).map fun deltas =>
          (⟨text, result.tokens.length, finishReason result.stopReason stoppedOnString⟩, deltas)

end

/-- The stop tokens of a session: those of the request and the end of the sequence. -/
def withEos {F : Type} (config : GenerationConfig F) (eosToken : Option UInt32) :
    GenerationConfig F :=
  match eosToken with
  | some eos =>
      if eos ∈ config.stopTokens then config
      else { config with stopTokens := config.stopTokens ++ [eos] }
  | none => config

/-- Generate a text for a prompt.  The result holds the deltas that were sent. -/
def runGeneration {F S R : Type} [Scalar F] (entropy : Entropy F R)
    (session : ModelSession (TokenDecoder F S × S) LocalTokenizer) (promptTokens : List UInt32)
    (params : GenerationParams F) (onDelta : List (List Char) → Bool) :
    Except Failure (GenerationOutcome × List (List Char)) :=
  (generateWith entropy session.decoder.1 (withEos params.config session.eosToken)
      session.decoder.2 promptTokens (fun _ => false)
      (onToken session.tokenizer params.stopStrings onDelta) {}).bind fun (result, progress) =>
    concludeRun session.tokenizer result progress

end AiCoreStack.Serving
