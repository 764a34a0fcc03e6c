import AiCoreStack.Serving.Api

/-!
# Stop strings

What `run_generation` has sent is a prefix of every later text, and it ends before
the first stop string of that text.  A run that a stop string ends sends a text
without one.  A run that ends by its length or by a stop token sends the whole text;
that text was checked in the loop unless it ends in an incomplete character.
-/

namespace AiCoreStack.Serving

open Foundation
open String (utf8Len utf8Len_append)

/-! ## Stop strings in a text -/

/-- No stop string occurs in the text. -/
def StopFree (stopStrings : List (List Char)) (text : List Char) : Prop :=
  ∀ stop ∈ stopStrings, stop ≠ [] → ¬ stop <:+: text

theorem mem_offsets_iff {text : List Char} {stopStrings : List (List Char)} {position : Nat} :
    position ∈ (stopStrings.filter fun stop => !stop.isEmpty).filterMap (findText text) ↔
      ∃ stop ∈ stopStrings, stop ≠ [] ∧
        ∃ before after, splitOnce stop text = some (before, after) ∧ utf8Len before = position := by
  simp only [List.mem_filterMap, List.mem_filter, Bool.not_eq_true', List.isEmpty_eq_false_iff,
    findText, Option.map_eq_some_iff, Prod.exists, and_assoc]

theorem earliestStop_eq_none {text : List Char} {stopStrings : List (List Char)} :
    earliestStop text stopStrings = none ↔ StopFree stopStrings text := by
  simp only [earliestStop, List.min?_eq_none_iff, List.eq_nil_iff_forall_not_mem, mem_offsets_iff]
  constructor
  · intro absent stop member nonempty occurs
    obtain ⟨before, after, found⟩ := splitOnce_isSome occurs
    exact absent _ ⟨stop, member, nonempty, before, after, found, rfl⟩
  · rintro free position ⟨stop, member, nonempty, before, after, found, _⟩
    exact free stop member nonempty ⟨before, after, (splitOnce_append found).symm⟩

/-- The earliest stop string, with no stop string before it. -/
theorem earliestStop_eq_some {text : List Char} {stopStrings : List (List Char)} {position : Nat}
    (earliest : earliestStop text stopStrings = some position) :
    ∃ stop ∈ stopStrings, stop ≠ [] ∧ ∃ before after, text = before ++ stop ++ after ∧
      utf8Len before = position ∧ StopFree stopStrings before := by
  rw [earliestStop, List.min?_eq_some_iff] at earliest
  obtain ⟨stop, member, nonempty, before, after, found, rfl⟩ := mem_offsets_iff.mp earliest.1
  have whole := splitOnce_append found
  refine ⟨stop, member, nonempty, before, after, whole, rfl, ?_⟩
  intro other otherMember otherNonempty
  rintro ⟨left, right, inside⟩
  have occurs : text = left ++ other ++ (right ++ stop ++ after) := by
    rw [whole, ← inside]
    simp
  obtain ⟨first, last, otherFound⟩ := splitOnce_isSome ⟨left, _, occurs.symm⟩
  have shorter : first <+: left :=
    leads_of_cuts ((splitOnce_append otherFound).trans (List.append_assoc ..))
      (occurs.trans (List.append_assoc ..)) (splitOnce_first otherFound occurs)
  obtain ⟨rest, rfl⟩ := shorter
  have least : utf8Len before ≤ utf8Len first :=
    earliest.2 _ (mem_offsets_iff.mpr ⟨other, otherMember, otherNonempty, first, last,
      otherFound, rfl⟩)
  have positive := utf8Len_pos otherNonempty
  rw [← inside] at least
  simp only [utf8Len_append] at least
  omega

theorem length_le_holdbackChars {stopStrings : List (List Char)} {stop : List Char}
    (member : stop ∈ stopStrings) : stop.length ≤ holdbackChars stopStrings + 1 := by
  have inside : stop.length ∈ stopStrings.map List.length := List.mem_map_of_mem member
  cases largest : (stopStrings.map List.length).max? with
  | none =>
      rw [List.max?_eq_none_iff] at largest
      simp [largest] at inside
  | some bound =>
      have below := (List.max?_eq_some_iff.mp largest).2 _ inside
      simp only [holdbackChars, largest, Option.getD_some]
      omega

/-! ## The safe end -/

theorem charIndices_length (offset : Nat) (text : List Char) :
    (charIndices offset text).length = text.length := by
  induction text generalizing offset with
  | nil => rfl
  | cons c text ih => simp [charIndices, ih]

theorem charIndices_get (offset : Nat) (text : List Char) (i : Nat) :
    (charIndices offset text)[i]? =
      text[i]?.map fun c => (offset + utf8Len (text.take i), c) := by
  induction text generalizing offset i with
  | nil => rfl
  | cons c text ih =>
      cases i with
      | zero => simp [charIndices]
      | succ i =>
          simp only [charIndices, List.getElem?_cons_succ, ih, List.take_succ_cons,
            String.utf8Len_cons]
          congr 1
          funext letter
          rw [Nat.add_assoc, Nat.add_comm c.utf8Size]

/-- The boundary leaves out the last `holdback` characters. -/
theorem holdbackBoundary_eq (text : List Char) (holdback : Nat) :
    holdbackBoundary text holdback = utf8Len (text.take (text.length - holdback)) := by
  simp only [holdbackBoundary]
  split
  next none => simp [none]
  next some =>
    by_cases enough : holdback ≤ text.length
    · have inside : holdback - 1 < (charIndices 0 text).length := by
        rw [charIndices_length]
        omega
      have index : text.length - 1 - (holdback - 1) = text.length - holdback := by omega
      have present : text.length - holdback < text.length := by omega
      rw [List.getElem?_reverse inside, charIndices_length, index, charIndices_get,
        List.getElem?_eq_getElem present]
      simp
    · have outside : (charIndices 0 text).reverse.length ≤ holdback - 1 := by
        rw [List.length_reverse, charIndices_length]
        omega
      have zero : text.length - holdback = 0 := by omega
      rw [List.getElem?_eq_none outside, zero]
      rfl

theorem slice_append (before middle after : List Char) :
    slice (before ++ middle ++ after) (utf8Len before) (utf8Len before + utf8Len middle) =
      .ok middle := by
  rw [slice, sliceBytes_append]
  rfl

/-- Slicing a text from the end of a prefix to the end of a longer one. -/
theorem slice_prefixes {text front back : List Char} (leads : front <+: back)
    (inside : back <+: text) :
    ∃ delta, slice text (utf8Len front) (utf8Len back) = .ok delta ∧ front ++ delta = back := by
  obtain ⟨delta, rfl⟩ := leads
  obtain ⟨after, rfl⟩ := inside
  refine ⟨delta, ?_, rfl⟩
  rw [utf8Len_append]
  exact slice_append front delta after

/-- A prefix that is not shorter in bytes is the whole. -/
theorem eq_of_prefix_of_utf8Len_le {front text : List Char} (leads : front <+: text)
    (long : utf8Len text ≤ utf8Len front) : front = text := by
  obtain ⟨rest, rfl⟩ := leads
  rw [utf8Len_append] at long
  have empty : rest = [] := by
    rw [← String.utf8Len_eq_zero]
    omega
  rw [empty, List.append_nil]

theorem utf8Len_le_of_prefix {front text : List Char} (leads : front <+: text) :
    utf8Len front ≤ utf8Len text := by
  obtain ⟨rest, rfl⟩ := leads
  rw [utf8Len_append]
  exact Nat.le_add_right _ _

/-! ## The run -/

/-- A text that does not end in an incomplete character stays when tokens follow. -/
def LocalTokenizer.Steady (tokenizer : LocalTokenizer) : Prop :=
  ∀ tokens more text text', tokenizer.decode tokens = .ok text → isPending text = false →
    tokenizer.decode (tokens ++ more) = .ok text' → text <+: text'

section

variable (tokenizer : LocalTokenizer) (stopStrings : List (List Char))

/-- The sent text may still be followed by anything: it is empty, or the head of an
earlier text without stop strings that leaves out what is held back. -/
def Safe (tokens : List UInt32) (sent : List Char) : Prop :=
  sent = [] ∨ ∃ earlier later full, tokens = earlier ++ later ∧
    tokenizer.decode earlier = .ok full ∧ isPending full = false ∧ StopFree stopStrings full ∧
    sent <+: full.take (full.length - holdbackChars stopStrings)

/-- The state of a run that has gone through `tokens`. -/
structure Running (tokens : List UInt32) (progress : Progress) : Prop where
  tokens_eq : progress.tokens = tokens
  untruncated : progress.truncated = none
  decoded : progress.decodeError = none
  emitted_eq : progress.emitted = utf8Len progress.deltas.flatten
  safe : Safe tokenizer stopStrings tokens progress.deltas.flatten

/-- The state of a run that a stop string has ended. -/
structure Stopped (progress : Progress) : Prop where
  truncated_eq : progress.truncated = some progress.deltas.flatten
  decoded : progress.decodeError = none
  emitted_eq : progress.emitted = utf8Len progress.deltas.flatten
  free : StopFree stopStrings progress.deltas.flatten

/-- The loop goes past a token list: its text is pending or has no stop string. -/
def Passes (tokens : List UInt32) : Prop :=
  ∃ text, tokenizer.decode tokens = .ok text ∧
    (isPending text = true ∨ StopFree stopStrings text)

end

section

variable {tokenizer : LocalTokenizer} {stopStrings : List (List Char)}

theorem Safe.append {tokens : List UInt32} {sent : List Char}
    (safe : Safe tokenizer stopStrings tokens sent) (more : List UInt32) :
    Safe tokenizer stopStrings (tokens ++ more) sent := by
  rcases safe with empty | ⟨earlier, later, full, rfl, rest⟩
  · exact .inl empty
  · exact .inr ⟨earlier, later ++ more, full, List.append_assoc .., rest⟩

theorem Safe.prefix_text {tokens : List UInt32} {sent text : List Char}
    (steady : tokenizer.Steady) (safe : Safe tokenizer stopStrings tokens sent)
    (decoded : tokenizer.decode tokens = .ok text) : sent <+: text := by
  rcases safe with rfl | ⟨earlier, later, full, rfl, before, complete, _, head⟩
  · exact List.nil_prefix
  · exact (head.trans (List.take_prefix ..)).trans
      (steady earlier later full text before complete decoded)

/-- Nothing sent belongs to a later stop string. -/
theorem Safe.prefix_before {tokens : List UInt32} {sent before stop after : List Char}
    (steady : tokenizer.Steady) (safe : Safe tokenizer stopStrings tokens sent)
    (member : stop ∈ stopStrings) (nonempty : stop ≠ [])
    (decoded : tokenizer.decode tokens = .ok (before ++ stop ++ after)) : sent <+: before := by
  rcases safe with rfl | ⟨earlier, later, full, rfl, read, complete, free, head⟩
  · exact List.nil_prefix
  · have leads := steady earlier later full _ read complete decoded
    have crossing := length_lt_of_not_infix leads (free stop member nonempty) rfl
    have held := length_le_holdbackChars member
    have positive := List.length_pos_of_ne_nil nonempty
    apply List.prefix_of_prefix_length_le ((head.trans (List.take_prefix ..)).trans leads)
      ⟨stop ++ after, (List.append_assoc ..).symm⟩
    have short := head.length_le
    rw [List.length_take] at short
    omega

/-- Cutting at the earliest stop string. -/
theorem cutAt_stopped {tokens : List UInt32} {progress : Progress} {full : List Char}
    {position : Nat} (steady : tokenizer.Steady)
    (running : Running tokenizer stopStrings tokens progress)
    (decoded : tokenizer.decode tokens = .ok full)
    (earliest : earliestStop full stopStrings = some position) :
    ∃ next, cutAt progress full position = .ok (next, false) ∧ Stopped stopStrings next := by
  obtain ⟨stop, member, nonempty, before, after, rfl, rfl, free⟩ := earliestStop_eq_some earliest
  have sent := running.safe.prefix_before steady member nonempty decoded
  have cut : slice (before ++ stop ++ after) 0 (utf8Len before) = .ok before := by
    have whole := slice_append [] before (stop ++ after)
    simpa using whole
  simp only [cutAt, cut, Except.bind]
  split
  next more =>
    obtain ⟨delta, sliced, rfl⟩ := slice_prefixes sent (List.prefix_refl before)
    rw [running.emitted_eq, sliced]
    refine ⟨_, rfl, ?_⟩
    constructor
    · simp
    · exact running.decoded
    · simp
    · simpa using free
  next none =>
    rw [running.emitted_eq] at none
    have same := eq_of_prefix_of_utf8Len_le sent (Nat.le_of_not_lt none)
    refine ⟨_, rfl, ?_⟩
    constructor
    · rw [same]
    · exact running.decoded
    · exact running.emitted_eq
    · rw [same]
      exact free

/-- Sending up to the safe end: the callback is asked if there is something to send. -/
theorem sendUpTo_cases (onDelta : List (List Char) → Bool) {tokens : List UInt32}
    {progress : Progress} {full : List Char} (steady : tokenizer.Steady)
    (running : Running tokenizer stopStrings tokens progress)
    (decoded : tokenizer.decode tokens = .ok full) (complete : isPending full = false)
    (free : StopFree stopStrings full) :
    (progress.emitted < utf8Len (full.take (full.length - holdbackChars stopStrings)) ∧
      ∃ next delta, sendUpTo onDelta progress full
          (holdbackBoundary full (holdbackChars stopStrings)) = .ok (next, onDelta next.deltas) ∧
        next.deltas = progress.deltas ++ [delta] ∧
        progress.deltas.flatten ++ delta =
          full.take (full.length - holdbackChars stopStrings) ∧
        Running tokenizer stopStrings tokens next) ∨
    (¬ progress.emitted < utf8Len (full.take (full.length - holdbackChars stopStrings)) ∧
      sendUpTo onDelta progress full (holdbackBoundary full (holdbackChars stopStrings)) =
        .ok (progress, true)) := by
  rw [holdbackBoundary_eq, sendUpTo]
  split
  next more =>
    have leads : progress.deltas.flatten <+:
        full.take (full.length - holdbackChars stopStrings) := by
      rcases List.prefix_or_prefix_of_prefix (running.safe.prefix_text steady decoded)
        (List.take_prefix (full.length - holdbackChars stopStrings) full) with shorter | longer
      · exact shorter
      · have widths := utf8Len_le_of_prefix longer
        rw [running.emitted_eq] at more
        omega
    obtain ⟨delta, sliced, joined⟩ := slice_prefixes leads (List.take_prefix ..)
    refine .inl ⟨more, ?_⟩
    rw [running.emitted_eq, sliced]
    refine ⟨_, delta, rfl, rfl, joined, ?_⟩
    constructor
    · exact running.tokens_eq
    · exact running.untruncated
    · exact running.decoded
    · simp [joined]
    · refine .inr ⟨tokens, [], full, (List.append_nil _).symm, decoded, complete, free, ?_⟩
      simp [joined]
  next none => exact .inr ⟨none, rfl⟩

/-- A callback that always goes on lets the run go on. -/
theorem sendUpTo_running {onDelta : List (List Char) → Bool} {tokens : List UInt32}
    {progress : Progress} {full : List Char} (steady : tokenizer.Steady)
    (listening : ∀ deltas, onDelta deltas = true)
    (running : Running tokenizer stopStrings tokens progress)
    (decoded : tokenizer.decode tokens = .ok full) (complete : isPending full = false)
    (free : StopFree stopStrings full) :
    ∃ next, sendUpTo onDelta progress full
        (holdbackBoundary full (holdbackChars stopStrings)) = .ok (next, true) ∧
      Running tokenizer stopStrings tokens next := by
  rcases sendUpTo_cases onDelta steady running decoded complete free with
    ⟨-, next, _, sent, -, -, kept⟩ | ⟨-, sent⟩
  · rw [listening] at sent
    exact ⟨next, sent, kept⟩
  · exact ⟨progress, sent, running⟩

theorem Running.push {tokens : List UInt32} {progress : Progress}
    (running : Running tokenizer stopStrings tokens progress) (token : UInt32) :
    Running tokenizer stopStrings (tokens ++ [token])
      { progress with tokens := progress.tokens ++ [token] } where
  tokens_eq := by rw [running.tokens_eq]
  untruncated := running.untruncated
  decoded := running.decoded
  emitted_eq := running.emitted_eq
  safe := running.safe.append [token]

/-- What one token does: a decode error ends the run, a passed token list goes on, and
a stop string ends the run with a clean text. -/
theorem onToken_cases {onDelta : List (List Char) → Bool} {tokens : List UInt32}
    {progress : Progress} (steady : tokenizer.Steady)
    (listening : ∀ deltas, onDelta deltas = true)
    (running : Running tokenizer stopStrings tokens progress) (token : UInt32) :
    (∃ next error, onToken tokenizer stopStrings onDelta progress token = .ok (next, false) ∧
        ¬ Passes tokenizer stopStrings (tokens ++ [token]) ∧ next.decodeError = some error) ∨
      (∃ next, onToken tokenizer stopStrings onDelta progress token = .ok (next, true) ∧
        Passes tokenizer stopStrings (tokens ++ [token]) ∧
        Running tokenizer stopStrings (tokens ++ [token]) next) ∨
      (∃ next, onToken tokenizer stopStrings onDelta progress token = .ok (next, false) ∧
        ¬ Passes tokenizer stopStrings (tokens ++ [token]) ∧ Stopped stopStrings next) := by
  have pushed := running.push token
  simp only [onToken, running.tokens_eq] at pushed ⊢
  cases decoded : tokenizer.decode (tokens ++ [token]) with
  | error error =>
      refine .inl ⟨_, error, rfl, ?_, rfl⟩
      rintro ⟨text, read, _⟩
      simp [decoded] at read
  | ok full =>
      simp only [onText]
      cases pending : isPending full with
      | true => exact .inr (.inl ⟨_, rfl, ⟨full, decoded, .inl pending⟩, pushed⟩)
      | false =>
          simp only [Bool.false_eq_true, if_false]
          cases earliest : earliestStop full stopStrings with
          | none =>
              have free := earliestStop_eq_none.mp earliest
              obtain ⟨next, sent, kept⟩ :=
                sendUpTo_running steady listening pushed decoded pending free
              exact .inr (.inl ⟨next, sent, ⟨full, decoded, .inr free⟩, kept⟩)
          | some position =>
              obtain ⟨next, cut, stopped⟩ := cutAt_stopped steady pushed decoded earliest
              refine .inr (.inr ⟨next, cut, ?_, stopped⟩)
              rintro ⟨text, read, either⟩
              rw [decoded] at read
              rw [← Except.ok.inj read, pending, ← earliestStop_eq_none, earliest] at either
              simp at either

/-! ## The end of the run -/

/-- A run in which no slice or index fails and whose deltas make up its text. -/
structure Sends (run : Except Failure (GenerationOutcome × List (List Char))) : Prop where
  no_panic : run ≠ .error .panic
  joined : ∀ outcome deltas, run = .ok (outcome, deltas) → deltas.flatten = outcome.text

/-- What a run promises: it sends its text, and there is no stop string in it. -/
structure Delivers (stopStrings : List (List Char))
    (run : Except Failure (GenerationOutcome × List (List Char))) : Prop extends Sends run where
  free : ∀ outcome deltas, run = .ok (outcome, deltas) → StopFree stopStrings outcome.text

theorem Sends.of_ok {outcome : GenerationOutcome} {deltas : List (List Char)}
    (joined : deltas.flatten = outcome.text) : Sends (.ok (outcome, deltas)) where
  no_panic := by simp
  joined := by
    intro other sent same
    obtain ⟨rfl, rfl⟩ := Prod.mk.inj (Except.ok.inj same)
    exact joined

theorem Sends.of_error {failure : Failure} (noPanic : failure ≠ .panic) :
    Sends (.error failure) where
  no_panic := by
    intro same
    exact noPanic (Except.error.inj same)
  joined := by simp

theorem Sends.delivers_iff {outcome : GenerationOutcome} {deltas : List (List Char)}
    (sends : Sends (.ok (outcome, deltas))) :
    Delivers stopStrings (.ok (outcome, deltas)) ↔ StopFree stopStrings outcome.text := by
  constructor
  · intro delivers
    exact delivers.free outcome deltas rfl
  · intro free
    refine ⟨sends, ?_⟩
    intro other sent same
    obtain ⟨rfl, rfl⟩ := Prod.mk.inj (Except.ok.inj same)
    exact free

theorem Delivers.of_error {failure : Failure} (noPanic : failure ≠ .panic) :
    Delivers stopStrings (.error failure) :=
  ⟨.of_error noPanic, by simp⟩

theorem conclude_failed {progress : Progress} {error : EngineError} (result : GenerationResult)
    (failed : progress.decodeError = some error) :
    Delivers stopStrings (concludeRun tokenizer result progress) := by
  simp only [concludeRun, failed]
  exact .of_error (by simp)

theorem conclude_stopped {progress : Progress} (result : GenerationResult)
    (stopped : Stopped stopStrings progress) :
    Delivers stopStrings (concludeRun tokenizer result progress) := by
  simp only [concludeRun, stopped.decoded, finalText, stopped.truncated_eq, Except.bind, flushTail,
    stopped.emitted_eq, Nat.lt_irrefl, if_false, Except.map]
  exact (Sends.of_ok rfl).delivers_iff.mpr stopped.free

/-- A run that no stop string ends sends the whole text. -/
theorem conclude_running {tokens : List UInt32} {progress : Progress} (result : GenerationResult)
    (steady : tokenizer.Steady) (running : Running tokenizer stopStrings tokens progress) :
    Sends (concludeRun tokenizer result progress) ∧
      (Delivers stopStrings (concludeRun tokenizer result progress) ↔
        ∀ text, tokenizer.decode tokens = .ok text → StopFree stopStrings text) := by
  simp only [concludeRun, running.decoded, finalText, running.untruncated, running.tokens_eq]
  cases decoded : tokenizer.decode tokens with
  | error error =>
      refine ⟨.of_error (by simp), ?_, fun _ => .of_error (by simp)⟩
      intro _ text same
      simp at same
  | ok text =>
      have sent := running.safe.prefix_text steady decoded
      have flushed : ∃ deltas, flushTail progress text = .ok deltas ∧ deltas.flatten = text := by
        simp only [flushTail, running.emitted_eq]
        split
        next more =>
          obtain ⟨delta, sliced, joined⟩ := slice_prefixes sent (List.prefix_refl text)
          rw [sliced]
          exact ⟨_, rfl, by simpa using joined⟩
        next none => exact ⟨_, rfl, eq_of_prefix_of_utf8Len_le sent (Nat.le_of_not_lt none)⟩
      obtain ⟨deltas, flush, joined⟩ := flushed
      simp only [Except.mapError, Except.map, Except.bind, flush]
      refine ⟨.of_ok joined, ?_⟩
      rw [(Sends.of_ok joined).delivers_iff]
      constructor
      · intro free other same
        rw [← Except.ok.inj same]
        exact free
      · intro free
        exact free text rfl

/-- The loop goes past every token of the stream, and the text at its end holds a stop
string: it ends in an incomplete character, or there is no token at all. -/
structure Unchecked (tokenizer : LocalTokenizer) (stopStrings : List (List Char))
    (stream : TokenStream) : Prop where
  ended : ∀ failure, stream.ending ≠ .failed failure
  passed : ∀ seen, seen <+: stream.tokens → seen ≠ [] → Passes tokenizer stopStrings seen
  found : ∃ text, tokenizer.decode stream.tokens = .ok text ∧ ¬ StopFree stopStrings text

/-- The same with tokens before the stream. -/
def UncheckedAfter (tokenizer : LocalTokenizer) (stopStrings : List (List Char))
    (ending : Ending) (earlier rest : List UInt32) : Prop :=
  (∀ failure, ending ≠ .failed failure) ∧
    (∀ seen, seen <+: rest → seen ≠ [] → Passes tokenizer stopStrings (earlier ++ seen)) ∧
    ∃ text, tokenizer.decode (earlier ++ rest) = .ok text ∧ ¬ StopFree stopStrings text

theorem uncheckedAfter_cons {ending : Ending} {earlier rest : List UInt32} {token : UInt32} :
    UncheckedAfter tokenizer stopStrings ending earlier (token :: rest) ↔
      Passes tokenizer stopStrings (earlier ++ [token]) ∧
        UncheckedAfter tokenizer stopStrings ending (earlier ++ [token]) rest := by
  simp only [UncheckedAfter, List.append_assoc, List.singleton_append]
  constructor
  · rintro ⟨ended, passed, found⟩
    refine ⟨passed [token] (by simp) (by simp), ended, ?_, found⟩
    intro seen leads _
    exact passed (token :: seen) (by simpa using leads) (by simp)
  · rintro ⟨first, ended, passed, found⟩
    refine ⟨ended, ?_, found⟩
    intro seen leads nonempty
    cases seen with
    | nil => exact absurd rfl nonempty
    | cons head seen =>
        obtain ⟨rfl, tail⟩ := List.cons_prefix_cons.mp leads
        cases seen with
        | nil => exact first
        | cons next seen => exact passed (next :: seen) tail (by simp)

theorem start_running (tokenizer : LocalTokenizer) (stopStrings : List (List Char)) :
    Running tokenizer stopStrings [] {} where
  tokens_eq := rfl
  untruncated := rfl
  decoded := rfl
  emitted_eq := rfl
  safe := .inl rfl

variable {onDelta : List (List Char) → Bool} {ending : Ending} {earlier : List UInt32}
  {progress : Progress} (steady : tokenizer.Steady)
  (listening : ∀ deltas, onDelta deltas = true) (noPanic : ending ≠ .failed .panic)
  (running : Running tokenizer stopStrings earlier progress) (rest reported : List UInt32)

include steady listening noPanic running

/-- A run over a stream keeps its promise exactly when no text is left unchecked. -/
theorem follow_delivers_iff :
    Delivers stopStrings
        ((TokenStream.follow (onToken tokenizer stopStrings onDelta) ending rest reported
          progress).bind fun answer => concludeRun tokenizer answer.1 answer.2) ↔
      ¬ UncheckedAfter tokenizer stopStrings ending earlier rest := by
  induction rest generalizing earlier progress reported with
  | nil =>
      have unchecked : (∀ failure, ending ≠ .failed failure) →
          (¬ UncheckedAfter tokenizer stopStrings ending earlier [] ↔
            ∀ text, tokenizer.decode earlier = .ok text → StopFree stopStrings text) := by
        intro ended
        simp [UncheckedAfter, ended]
      cases ending with
      | maxTokens =>
          rw [unchecked (by simp)]
          exact (conclude_running _ steady running).2
      | stopToken token =>
          rw [unchecked (by simp)]
          exact (conclude_running _ steady running).2
      | failed failure =>
          constructor
          · intro _ unchecked
            exact unchecked.1 failure rfl
          · intro _
            apply Delivers.of_error
            intro panic
            exact noPanic (congrArg Ending.failed panic)
  | cons token rest ih =>
      rw [uncheckedAfter_cons]
      simp only [TokenStream.follow]
      obtain ⟨next, error, step, blocked, failed⟩ | ⟨next, step, passes, kept⟩ |
        ⟨next, step, blocked, stopped⟩ := onToken_cases steady listening running token
      · simp only [step, Except.bind, Bool.false_eq_true, if_false]
        simp only [blocked, false_and, not_false_eq_true, iff_true]
        exact conclude_failed _ failed
      · simp only [passes, true_and, ← ih kept (reported ++ [token]), step]
        rfl
      · simp only [step, Except.bind, Bool.false_eq_true, if_false]
        simp only [blocked, false_and, not_false_eq_true, iff_true]
        exact conclude_stopped _ stopped

/-- A run over a stream sends its text, checked or not. -/
theorem follow_sends :
    Sends ((TokenStream.follow (onToken tokenizer stopStrings onDelta) ending rest reported
      progress).bind fun answer => concludeRun tokenizer answer.1 answer.2) := by
  induction rest generalizing earlier progress reported with
  | nil =>
      cases ending with
      | maxTokens => exact (conclude_running _ steady running).1
      | stopToken token => exact (conclude_running _ steady running).1
      | failed failure =>
          apply Sends.of_error
          intro panic
          exact noPanic (congrArg Ending.failed panic)
  | cons token rest ih =>
      simp only [TokenStream.follow]
      obtain ⟨next, error, step, _, failed⟩ | ⟨next, step, _, kept⟩ |
        ⟨next, step, _, stopped⟩ := onToken_cases steady listening running token
      · simp only [step, Except.bind, Bool.false_eq_true, if_false]
        exact (conclude_failed _ failed : Delivers stopStrings _).toSends
      · have later := ih kept (reported ++ [token])
        simp only [step]
        exact later
      · simp only [step, Except.bind, Bool.false_eq_true, if_false]
        exact (conclude_stopped _ stopped).toSends

end

/-- For a callback that always goes on, no slice or index of `run_generation` fails and its
deltas make up its text. -/
theorem runGeneration_sends {F S R : Type} [Scalar F] (entropy : Entropy F R)
    (session : ModelSession (TokenDecoder F S × S) LocalTokenizer) (promptTokens : List UInt32)
    (params : GenerationParams F) (onDelta : List (List Char) → Bool)
    (steady : session.tokenizer.Steady) (listening : ∀ deltas, onDelta deltas = true) :
    Sends (runGeneration entropy session promptTokens params onDelta) := by
  simp only [runGeneration, generateWith_eq_follow]
  have noPanic := tokenStream_ne_panic entropy session.decoder.1
    (withEos params.config session.eosToken) session.decoder.2 promptTokens
  exact follow_sends steady listening noPanic
    (start_running session.tokenizer params.stopStrings) _ []

/-- It also keeps every stop string out of the text, unless the stream ends on a text
that the loop has not checked. -/
theorem runGeneration_delivers_iff {F S R : Type} [Scalar F] (entropy : Entropy F R)
    (session : ModelSession (TokenDecoder F S × S) LocalTokenizer) (promptTokens : List UInt32)
    (params : GenerationParams F) (onDelta : List (List Char) → Bool)
    (steady : session.tokenizer.Steady) (listening : ∀ deltas, onDelta deltas = true) :
    Delivers params.stopStrings (runGeneration entropy session promptTokens params onDelta) ↔
      ¬ Unchecked session.tokenizer params.stopStrings
        (tokenStream entropy session.decoder.1 (withEos params.config session.eosToken)
          session.decoder.2 promptTokens) := by
  have whole := follow_delivers_iff steady listening
    (tokenStream_ne_panic entropy session.decoder.1 (withEos params.config session.eosToken)
      session.decoder.2 promptTokens) (start_running session.tokenizer params.stopStrings)
    (tokenStream entropy session.decoder.1 (withEos params.config session.eosToken)
      session.decoder.2 promptTokens).tokens []
  simp only [runGeneration, generateWith_eq_follow]
  refine whole.trans (not_congr ?_)
  constructor
  · rintro ⟨ended, passed, found⟩
    exact ⟨ended, passed, found⟩
  · rintro ⟨ended, passed, found⟩
    exact ⟨ended, passed, found⟩

/-! ## A byte-level vocabulary -/

/-- Token 1 is a letter.  Token 2 is a blank with the first byte of a Hangul syllable,
which decodes to the replacement character until the rest follows. -/
def plainTokenizer : LocalTokenizer where
  decode := fun tokens => .ok (tokens.flatMap fun token =>
    if token = 1 then ['a'] else if token = 2 then [' ', '\uFFFD'] else [])

theorem plainTokenizer_steady : plainTokenizer.Steady := by
  intro tokens more text text' read _ later
  rw [← Except.ok.inj read, ← Except.ok.inj later, List.flatMap_append]
  exact List.prefix_append ..

/-- A decoder whose logits favour a token, then the one after it. -/
def risingDecoder : TokenDecoder Exact Nat where
  prefill := fun _ _ => .ok ([.fin 0, .fin 1, .fin 0, .fin 0], 1)
  decode := fun last _ =>
    .ok (if last = 1 then [.fin 0, .fin 0, .fin 1, .fin 0] else [.fin 0, .fin 0, .fin 0, .fin 1],
      last + 1)

def plainSession : ModelSession (TokenDecoder Exact Nat × Nat) LocalTokenizer where
  decoder := (risingDecoder, 0)
  tokenizer := plainTokenizer
  eosToken := none
  chatTemplate := none

def greedyParams (maxTokens : Nat) (stopStrings : List (List Char)) : GenerationParams Exact where
  config :=
    { maxTokens := maxTokens
      temperature := .fin 0
      topK := some 40
      seed := 0
      stopTokens := [] }
  stopStrings := stopStrings

/-- Greedy sampling draws nothing. -/
def noEntropy : Entropy Exact Unit where
  seed := fun _ => ()
  random := fun state => (.fin 0, state)
  exp := id

/-- After one token the text is checked, and the run keeps its promise. -/
theorem runGeneration_delivers_one_token :
    Delivers [['a', ' ']]
      (runGeneration noEntropy plainSession [] (greedyParams 1 [['a', ' ']]) fun _ => true) := by
  apply (runGeneration_delivers_iff noEntropy plainSession [] (greedyParams 1 [['a', ' ']])
    (fun _ => true) plainTokenizer_steady (fun _ => rfl)).mpr
  intro unchecked
  obtain ⟨text, read, found⟩ := unchecked.found
  have tokens : (tokenStream noEntropy plainSession.decoder.1
      (withEos (greedyParams 1 [['a', ' ']]).config plainSession.eosToken)
      plainSession.decoder.2 []).tokens = [1] := by decide +kernel
  rw [tokens] at read
  apply found
  rw [← Except.ok.inj read, ← earliestStop_eq_none]
  decide +kernel

/-- With two tokens the stop string is in the text that is returned. -/
theorem stop_string_in_pending_text :
    plainSession.tokenizer.Steady ∧
    (runGeneration noEntropy plainSession [] (greedyParams 2 [['a', ' ']])
        fun _ => true).toOption =
      some (⟨['a', ' ', '\uFFFD'], 2, "length"⟩, [['a', ' ', '\uFFFD']]) ∧
    ¬ StopFree [['a', ' ']] ['a', ' ', '\uFFFD'] := by
  rw [← earliestStop_eq_none]
  exact ⟨plainTokenizer_steady, by decide +kernel⟩

end AiCoreStack.Serving
