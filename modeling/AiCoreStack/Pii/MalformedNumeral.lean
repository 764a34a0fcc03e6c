import AiCoreStack.Pii.NumeralReading
import AiCoreStack.Pii.SentenceEnding

/-!
# Two digits side by side

The unit reading gives up when it meets a digit while it holds one.  What it holds is a
number, so a held zero goes unnoticed: exactly the readings with a larger digit in front
of a digit are given up, besides those whose value leaves the 64-bit range.
-/

namespace AiCoreStack.Pii.Hangul

/-! ## What the tokens spell -/

/-- Whether a token stays inside a section. -/
def Token.isInner : Token → Bool
  | .digit _ => true
  | .unit u => u < 10000

/-- Worth of a section: each unit counts for the digit in front of it, a last digit for
itself. -/
def sectionWorth : List Token → Nat
  | [] => 0
  | [.digit d] => d
  | .digit d :: .unit u :: rest => coefficient d * u + sectionWorth rest
  | .digit _ :: .digit e :: rest => sectionWorth (.digit e :: rest)
  | .unit u :: rest => u + sectionWorth rest

/-- Number that the tokens spell: every section counts for the large unit that closes
it. -/
def spelled (tokens : List Token) : Nat :=
  match _ : tokens.dropWhile Token.isInner with
  | .unit u :: rest =>
      coefficient (sectionWorth (tokens.takeWhile Token.isInner)) * u + spelled rest
  | _ => sectionWorth tokens
termination_by tokens.length
decreasing_by
  have bound := (List.dropWhile_suffix Token.isInner (l := tokens)).length_le
  rw [‹tokens.dropWhile Token.isInner = _›, List.length_cons] at bound
  omega

/-- A digit other than zero stands in front of a digit. -/
def Crowded (tokens : List Token) : Prop :=
  ∃ d e, d ≠ 0 ∧ [.digit d, .digit e] <:+: tokens

theorem not_crowded_nil : ¬ Crowded [] := by
  rintro ⟨d, e, _, infix_⟩
  simp at infix_

theorem crowded_unit (u : Nat) (tokens : List Token) :
    Crowded (.unit u :: tokens) ↔ Crowded tokens := by
  simp [Crowded, List.infix_cons_iff]

theorem crowded_zero (tokens : List Token) :
    Crowded (.digit 0 :: tokens) ↔ Crowded tokens := by
  constructor
  · rintro ⟨d, e, positive, occurs⟩
    rcases List.infix_cons_iff.mp occurs with front | behind
    · rw [List.cons_prefix_cons, Token.digit.injEq] at front
      exact absurd front.1 positive
    · exact ⟨d, e, positive, behind⟩
  · rintro ⟨d, e, positive, occurs⟩
    exact ⟨d, e, positive, List.infix_cons occurs⟩

theorem crowded_pair {d : Nat} (positive : d ≠ 0) (e : Nat) (tokens : List Token) :
    Crowded (.digit d :: .digit e :: tokens) :=
  ⟨d, e, positive, ⟨[], tokens, rfl⟩⟩

theorem crowded_digit_unit (d u : Nat) (tokens : List Token) :
    Crowded (.digit d :: .unit u :: tokens) ↔ Crowded tokens := by
  simp [Crowded, List.infix_cons_iff]

theorem not_crowded_single (d : Nat) : ¬ Crowded [.digit d] := by
  simp [Crowded, List.infix_cons_iff]

/-! ## The reading -/

/-- The digit that the reading holds, as a token; a zero leaves no trace. -/
def held (current : Nat) : List Token := if current = 0 then [] else [.digit current]

/-- Number that the tokens spell behind a section begun before them. -/
def spelledFrom (section_ : Nat) (tokens : List Token) : Nat :=
  match tokens.dropWhile Token.isInner with
  | .unit u :: rest =>
      coefficient (section_ + sectionWorth (tokens.takeWhile Token.isInner)) * u + spelled rest
  | _ => section_ + sectionWorth tokens

theorem spelledFrom_zero (tokens : List Token) : spelledFrom 0 tokens = spelled tokens := by
  rw [spelledFrom, spelled]
  simp only [Nat.zero_add]
  split
  next u rest closed =>
    split
    next u' rest' closed' =>
      obtain ⟨sameUnit, sameRest⟩ := List.cons.inj (closed.symm.trans closed')
      rw [Token.unit.inj sameUnit, sameRest]
    next other => exact absurd closed (other u rest)
  next other =>
    split
    next u rest closed => exact absurd closed (other u rest)
    next => rfl

theorem sectionWorth_zero (tokens : List Token) :
    sectionWorth (.digit 0 :: tokens) = sectionWorth tokens := by
  cases tokens with
  | nil => rfl
  | cons token tokens =>
      cases token with
      | digit d => rw [sectionWorth]
      | unit u => rw [sectionWorth, sectionWorth, coefficient, if_pos rfl, Nat.one_mul]

theorem spelledFrom_digit_zero (section_ : Nat) (tokens : List Token) :
    spelledFrom section_ (.digit 0 :: tokens) = spelledFrom section_ tokens := by
  have inner : Token.isInner (.digit 0) = true := rfl
  simp only [spelledFrom, List.dropWhile_cons_of_pos inner, List.takeWhile_cons_of_pos inner,
    sectionWorth_zero]

theorem sectionWorth_held (current u : Nat) (tokens : List Token) :
    sectionWorth (held current ++ .unit u :: tokens) =
      coefficient current * u + sectionWorth tokens := by
  rw [held]
  split
  next zero => rw [List.nil_append, sectionWorth, zero, coefficient, if_pos rfl, Nat.one_mul]
  next => rw [List.singleton_append, sectionWorth]

theorem sectionWorth_held_nil (current : Nat) : sectionWorth (held current) = current := by
  rw [held]
  split
  next zero => rw [zero, sectionWorth]
  next => rw [sectionWorth]

theorem isInner_held (current : Nat) : ∀ token ∈ held current, token.isInner = true := by
  rw [held]
  split <;> simp [Token.isInner]

theorem spelledFrom_large {section_ current u : Nat} (large : 10000 ≤ u) (tokens : List Token) :
    spelledFrom section_ (held current ++ .unit u :: tokens) =
      coefficient (section_ + current) * u + spelled tokens := by
  have outer : Token.isInner (.unit u) = false := decide_eq_false (by omega)
  rw [spelledFrom, List.dropWhile_append_of_pos (isInner_held current),
    List.takeWhile_append_of_pos (isInner_held current), List.dropWhile_cons_of_neg (by simp [outer]),
    List.takeWhile_cons_of_neg (by simp [outer]), List.append_nil, sectionWorth_held_nil]

theorem spelledFrom_small {section_ current u : Nat} (small : ¬ 10000 ≤ u) (tokens : List Token) :
    spelledFrom section_ (held current ++ .unit u :: tokens) =
      spelledFrom (section_ + coefficient current * u) tokens := by
  have inner : Token.isInner (.unit u) = true := decide_eq_true (by omega)
  rw [spelledFrom, spelledFrom, List.dropWhile_append_of_pos (isInner_held current),
    List.takeWhile_append_of_pos (isInner_held current), List.dropWhile_cons_of_pos inner,
    List.takeWhile_cons_of_pos inner]
  simp only [sectionWorth_held, Nat.add_assoc]

theorem spelledFrom_held (section_ current : Nat) :
    spelledFrom section_ (held current) = section_ + current := by
  rw [spelledFrom, List.dropWhile_eq_nil_iff.mpr (isInner_held current), sectionWorth_held_nil]

theorem crowded_held_unit (current u : Nat) (tokens : List Token) :
    Crowded (held current ++ .unit u :: tokens) ↔ Crowded tokens := by
  rw [held]
  split
  next => rw [List.nil_append, crowded_unit]
  next => rw [List.singleton_append, crowded_digit_unit]

theorem held_digit (d : Nat) (tokens : List Token) :
    (Crowded (held d ++ tokens) ↔ Crowded (.digit d :: tokens)) ∧
      ∀ section_, spelledFrom section_ (held d ++ tokens) =
        spelledFrom section_ (.digit d :: tokens) := by
  rw [held]
  split
  next zero =>
    rw [zero, List.nil_append]
    exact ⟨(crowded_zero tokens).symm, fun section_ => (spelledFrom_digit_zero section_ tokens).symm⟩
  next => exact ⟨Iff.rfl, fun section_ => rfl⟩

/-- The unbounded value of the tokens behind a held digit: none when a larger digit than
zero meets a digit, and else what they spell. -/
theorem valueFrom_spelled (tokens : List Token) (total section_ current : Nat) :
    (Crowded (held current ++ tokens) → valueFrom total section_ current tokens = none) ∧
      (¬ Crowded (held current ++ tokens) → valueFrom total section_ current tokens =
        some (total + spelledFrom section_ (held current ++ tokens))) := by
  induction tokens generalizing total section_ current with
  | nil =>
      rw [List.append_nil, spelledFrom_held, valueFrom, Nat.add_assoc]
      refine ⟨fun crowded => ?_, fun _ => rfl⟩
      rw [held] at crowded
      split at crowded
      next => exact absurd crowded not_crowded_nil
      next => exact absurd crowded (not_crowded_single current)
  | cons token tokens ih =>
      cases token with
      | digit d =>
          rw [valueFrom]
          by_cases empty : current = 0
          · have state := ih total section_ d
            rw [(held_digit d tokens).1, (held_digit d tokens).2] at state
            rw [if_neg (not_not.mpr empty), held, if_pos empty, List.nil_append]
            exact state
          · rw [if_pos empty, held, if_neg empty]
            exact ⟨fun _ => rfl, fun apart => absurd (crowded_pair empty d tokens) apart⟩
      | unit u =>
          rw [valueFrom, crowded_held_unit]
          by_cases large : 10000 ≤ u
          · have state := ih (total + coefficient (section_ + current) * u) 0 0
            rw [held, if_pos rfl, List.nil_append, spelledFrom_zero, Nat.add_assoc] at state
            rw [if_pos large, spelledFrom_large large]
            exact state
          · have state := ih total (section_ + coefficient current * u) 0
            rw [held, if_pos rfl, List.nil_append] at state
            rw [if_neg large, spelledFrom_small large]
            exact state

/-- The reading has no value exactly when a larger digit than zero meets a digit or the
number does not fit into 64 bits. -/
theorem evalUnitReading_eq_none_iff (tokens : List Token) :
    evalUnitReading tokens = none ↔ Crowded tokens ∨ 2 ^ 64 ≤ spelled tokens := by
  have value := valueFrom_spelled tokens 0 0 0
  rw [held, if_pos rfl, List.nil_append, spelledFrom_zero, Nat.zero_add] at value
  rw [evalUnitReading, evalUnitFrom_eq]
  by_cases crowded : Crowded tokens
  · rw [value.1 crowded]
    exact ⟨fun _ => .inl crowded, fun _ => rfl⟩
  · rw [value.2 crowded, Option.filter_eq_none_iff]
    simp [crowded, fitsWord]

/-! ## Malformed runs -/

/-- At least one unit, and somewhere two digits side by side. -/
structure Malformed (tokens : List Token) : Prop where
  unit : ∃ u, .unit u ∈ tokens
  adjacent : ∃ d e, [.digit d, .digit e] <:+: tokens

/-- The tokens are not converted, and a run of a text that reads as them is left to the
builder to keep. -/
structure Abandoned (tokens : List Token) : Prop where
  unconverted : convert tokens = none
  kept : ∀ cfg text front rest, Stops text front rest → (scanRun rest).1 = tokens →
    ∀ offset < (scanRun rest).2,
      callCovering (calls cfg [] text) (front.length + offset) =
        some (.keep (rest.take (scanRun rest).2))

theorem convert_of_malformed {tokens : List Token} (malformed : Malformed tokens) :
    convert tokens = (evalUnitReading tokens).map fun value => (Nat.toDigits 10 value, ruleUnit) := by
  obtain ⟨u, isUnit⟩ := malformed.unit
  obtain ⟨d, e, before, after, same⟩ := malformed.adjacent
  have isDigit : .digit d ∈ tokens := by
    rw [← same]
    simp
  have hasUnit : tokens.any Token.isUnit = true := List.any_eq_true.mpr ⟨_, isUnit, rfl⟩
  have hasDigit : tokens.any (fun token => !token.isUnit) = true :=
    List.any_eq_true.mpr ⟨_, isDigit, rfl⟩
  rw [convert, if_pos hasUnit, if_neg (not_not.mpr hasDigit)]

/-- A run that is not converted stays in the text. -/
theorem keep_of_unconverted {cfg : NumeralConfig} {text front rest : List Char}
    (stop : Stops text front rest) (unconverted : convert (scanRun rest).1 = none)
    (nonempty : (scanRun rest).1 ≠ []) {offset : Nat} (within : offset < (scanRun rest).2) :
    callCovering (calls cfg [] text) (front.length + offset) =
      some (.keep (rest.take (scanRun rest).2)) := by
  have moves : advance rest = (scanRun rest).2 := by rw [advance, if_neg nonempty]
  have inside : (scanRun rest).2 ≤ rest.length :=
    (trimSentenceEnding_le rest (runLength rest)).trans (runLength_le rest)
  have unread : readAs cfg front.reverse rest = none := by
    rw [readAs, if_neg nonempty, unconverted]
    rfl
  rw [stop.covering cfg (by rwa [moves]) (Nat.lt_of_lt_of_le within inside), callAt, unread, moves]

/-- A malformed run is given up exactly when the digit in front of a digit is not zero
somewhere, or the number does not fit into 64 bits. -/
theorem abandoned_iff {tokens : List Token} (malformed : Malformed tokens) :
    Abandoned tokens ↔ Crowded tokens ∨ 2 ^ 64 ≤ spelled tokens := by
  have read := evalUnitReading_eq_none_iff tokens
  constructor
  · intro abandoned
    have unconverted := abandoned.unconverted
    rw [convert_of_malformed malformed, Option.map_eq_none_iff] at unconverted
    exact read.mp unconverted
  · intro given
    have unconverted : convert tokens = none := by
      rw [convert_of_malformed malformed, read.mpr given]
      rfl
    refine ⟨unconverted, ?_⟩
    intro cfg text front rest stop same offset within
    obtain ⟨u, isUnit⟩ := malformed.unit
    apply keep_of_unconverted stop (same ▸ unconverted) _ within
    rw [same]
    exact List.ne_nil_of_mem isUnit

/-- Two, three, ten: given up. -/
theorem abandoned_iff_twoThreeTen :
    Malformed [.digit 2, .digit 3, .unit 10] ∧ Abandoned [.digit 2, .digit 3, .unit 10] := by
  have malformed : Malformed [.digit 2, .digit 3, .unit 10] :=
    ⟨⟨10, by simp⟩, ⟨2, 3, [], [.unit 10], rfl⟩⟩
  exact ⟨malformed, (abandoned_iff malformed).mpr (.inl (crowded_pair (by decide) 3 [.unit 10]))⟩

/-- Zero, five, ten in front of a numeric marker: read as fifty. -/
theorem not_abandoned_zeroFiveTen :
    Malformed [.digit 0, .digit 5, .unit 10] ∧ ¬ Abandoned [.digit 0, .digit 5, .unit 10] ∧
      (apply ['공', '오', '십', '년'] {}).1 = ['5', '0', '년'] := by
  have value : convert [.digit 0, .digit 5, .unit 10] = some (['5', '0'], ruleUnit) := by decide
  refine ⟨⟨⟨10, by simp⟩, ⟨0, 5, [], [.unit 10], rfl⟩⟩, ?_, ?_⟩
  · intro abandoned
    have unconverted := abandoned.unconverted
    rw [value] at unconverted
    cases unconverted
  · have zero : nextToken ['공', '오', '십', '년'] = some (.digit 0, 1) := rfl
    have five : nextToken ['오', '십', '년'] = some (.digit 5, 1) := rfl
    have ten : nextToken ['십', '년'] = some (.unit 10, 1) := rfl
    have ended : nextToken ['년'] = none := rfl
    have length : runLength ['공', '오', '십', '년'] = 3 := by
      rw [runLength_of_some zero, List.drop_one, List.tail_cons, runLength_of_some five,
        List.drop_one, List.tail_cons, runLength_of_some ten, List.drop_one, List.tail_cons,
        runLength_of_none ended]
    have scanned : scanRun ['공', '오', '십', '년'] =
        ([.digit 0, .digit 5, .unit 10], 3) := by
      have whole : trimSentenceEnding ['공', '오', '십', '년'] 3 = 3 := rfl
      rw [scanRun, length, whole, tokensWithin_of_some zero (by decide) (by decide), List.drop_one,
        List.tail_cons, tokensWithin_of_some five (by decide) (by decide), List.drop_one,
        List.tail_cons, tokensWithin_of_some ten (by decide) (by decide), tokensWithin_zero]
    rw [apply_text, loop_of_converted scanned (by simp) value, if_pos (by rfl)]
    change (loop {} _ _ [] ['년']).out = _
    rw [loop_of_none ended, loop]
    rfl

end AiCoreStack.Pii.Hangul
