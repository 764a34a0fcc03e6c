import AiCoreStack.Foundation.Text
import AiCoreStack.Pii.Span

/-!
# Normalisation passes

Model of `normalize/`: the five passes and the pipeline that composes their span
maps.  Of a pass, the text from the cursor on is the recursion argument, `pending`
is the text between the flush mark and the cursor, and `before` is the text in
front of the cursor in reverse, for the passes that look back.
-/

namespace AiCoreStack.Pii

open AiCoreStack.Foundation

/-- `char::is_ascii_digit`. -/
def isAsciiDigit (c : Char) : Bool := '0' ≤ c ∧ c ≤ '9'

theorem isAsciiDigit_of_isDigit {c : Char} (digit : c.isDigit) : isAsciiDigit c := by
  simpa [isAsciiDigit, Char.isDigit, Char.le_def, UInt32.le_iff_toNat_le] using digit

/-- `char::from_u32`. -/
def charFromU32 (n : Nat) : Option Char :=
  if n.isValidChar then some (Char.ofNat n) else none

/-- A character range `low..=high`. -/
def inRange (low high : Nat) (c : Char) : Bool := low ≤ c.toNat ∧ c.toNat ≤ high

/-- Keep the text between the flush mark and the cursor. -/
def SpanMapBuilder.flush (builder : SpanMapBuilder) (pending : List Char) : SpanMapBuilder :=
  if pending = [] then builder else builder.keep pending

/-! ## Pass 1: Hangul jamo -/

namespace Nfc

def ruleJamo : RuleId := "nfc.hangul_jamo"

def lBase : Nat := 0x1100
def vBase : Nat := 0x1161
def tBase : Nat := 0x11A7
def sBase : Nat := 0xAC00
def vCount : Nat := 21
def tCount : Nat := 28
def sCount : Nat := 19 * vCount * tCount

def isLead (c : Char) : Bool := inRange 0x1100 0x1112 c

def isVowel (c : Char) : Bool := inRange 0x1161 0x1175 c

def isTrail (c : Char) : Bool := inRange 0x11A8 0x11C2 c

/-- A complete syllable without a final consonant. -/
def isLvSyllable (c : Char) : Bool :=
  let s := c.toNat
  (sBase ≤ s ∧ s < sBase + sCount) ∧ (s - sBase) % tCount = 0

def hasConjoiningJamo (text : List Char) : Bool :=
  text.any fun c => isLead c || isVowel c || isTrail c

/-- Compose the jamo sequence at the head of the text. Returns the syllable and
the number of characters consumed. -/
def composeAt : List Char → Option (Char × Nat)
  | [] => none
  | c0 :: rest =>
      if isLead c0 then
        match rest with
        | [] => none
        | c1 :: rest =>
            if ¬ isVowel c1 then none
            else
              let l := c0.toNat - lBase
              let v := c1.toNat - vBase
              let (t, consumed) :=
                match rest with
                | c2 :: _ => if isTrail c2 then (c2.toNat - tBase, 3) else (0, 2)
                | [] => (0, 2)
              (charFromU32 (sBase + (l * vCount + v) * tCount + t)).map (·, consumed)
      else if isLvSyllable c0 then
        match rest with
        | [] => none
        | c1 :: _ =>
            if isTrail c1 then (charFromU32 (c0.toNat + (c1.toNat - tBase))).map (·, 2)
            else none
      else none

theorem composeAt_consumed {text : List Char} {syllable : Char} {consumed : Nat}
    (composed : composeAt text = some (syllable, consumed)) : 0 < consumed ∧ text ≠ [] := by
  cases text with
  | nil => exact absurd composed (by simp [composeAt])
  | cons c0 rest =>
      refine ⟨?_, by simp⟩
      simp only [composeAt] at composed
      split at composed
      · split at composed
        · exact absurd composed (by simp)
        · split at composed
          · exact absurd composed (by simp)
          · obtain ⟨syllable', -, pair⟩ := Option.map_eq_some_iff.mp composed
            simp only [Prod.mk.injEq] at pair
            rw [← pair.2]
            split <;> (try split) <;> simp
      · split at composed
        · split at composed
          · exact absurd composed (by simp)
          · split at composed
            · obtain ⟨syllable', -, pair⟩ := Option.map_eq_some_iff.mp composed
              simp only [Prod.mk.injEq] at pair
              omega
            · exact absurd composed (by simp)
        · exact absurd composed (by simp)

/-- The composing walk. -/
def loop (builder : SpanMapBuilder) (pending : List Char) : List Char → SpanMapBuilder
  | [] => builder.flush pending
  | c :: rest =>
      match composed : composeAt (c :: rest) with
      | some (syllable, consumed) =>
          have := composeAt_consumed composed
          loop ((builder.flush pending).replace ((c :: rest).take consumed) [syllable] ruleJamo)
            [] ((c :: rest).drop consumed)
      | none => loop builder (pending ++ [c]) rest
termination_by text => text.length
decreasing_by
  · simp only [List.length_drop, List.length_cons]
    omega
  · simp

def apply (text : List Char) : List Char × SpanMap :=
  if ¬ hasConjoiningJamo text then (text, SpanMap.identity text)
  else (loop {} [] text).finish

end Nfc

/-! ## Pass 2: full-width folding -/

namespace Fold

def ruleFullwidth : RuleId := "fold.fullwidth"
def ruleSpace : RuleId := "fold.space"
def ruleDash : RuleId := "fold.dash"

/-- The character this one folds to. -/
def foldChar (c : Char) : Option (Char × RuleId) :=
  let n := c.toNat
  if inRange 0xFF01 0xFF5E c then (charFromU32 (n - 0xFEE0)).map (·, ruleFullwidth)
  else if n = 0x00A0 ∨ inRange 0x2000 0x200A c ∨ n = 0x202F ∨ n = 0x205F ∨ n = 0x3000 then
    some (' ', ruleSpace)
  else if n = 0x00AD ∨ inRange 0x2010 0x2015 c ∨ n = 0x2043 ∨ n = 0x2212 ∨ n = 0xFE58 ∨
      n = 0xFE63 then
    some ('-', ruleDash)
  else none

def loop (builder : SpanMapBuilder) (pending : List Char) : List Char → SpanMapBuilder
  | [] => builder.flush pending
  | c :: rest =>
      match foldChar c with
      | none => loop builder (pending ++ [c]) rest
      | some (folded, rule) =>
          loop ((builder.flush pending).replace [c] [folded] rule) [] rest

def apply (text : List Char) : List Char × SpanMap :=
  if ¬ text.any fun c => (foldChar c).isSome then (text, SpanMap.identity text)
  else (loop {} [] text).finish

end Fold

/-! ## Pass 3: Hangul numerals -/

/-- Suppression thresholds of the numeral pass. -/
structure NumeralConfig where
  minDigitsWithoutContext : Nat := 6
  minDigitsWithContext : Nat := 2
  contextWindow : Nat := 2
  deriving DecidableEq, Repr

namespace Hangul

def ruleDigit : RuleId := "hangul.digit_reading"
def ruleUnit : RuleId := "hangul.unit_reading"

/-- Two-syllable numerals, looked up before the one-syllable ones. -/
def digitTwoSyllable : List (List Char × Nat) :=
  [(['하', '나'], 1), (['다', '섯'], 5), (['여', '섯'], 6), (['일', '곱'], 7),
    (['여', '덟'], 8), (['아', '홉'], 9)]

def digitOneSyllable : List (Char × Nat) :=
  [('공', 0), ('영', 0), ('빵', 0), ('일', 1), ('이', 2), ('삼', 3), ('사', 4), ('오', 5),
    ('육', 6), ('륙', 6), ('칠', 7), ('팔', 8), ('구', 9), ('둘', 2), ('셋', 3), ('넷', 4)]

def unitSyllable : List (Char × Nat) :=
  [('십', 10), ('백', 100), ('천', 1000), ('만', 10000), ('억', 100000000)]

def numericMarkers : List Char :=
  ['년', '월', '일', '번', '호', '생', '세', '원', '차', '기', '시', '분', '초']

inductive Token where
  | digit (value : Nat)
  | unit (value : Nat)
  deriving DecidableEq, Repr

/-- Read one numeral token from the head of the text. Returns the token and the
number of characters consumed. -/
def nextToken (rest : List Char) : Option (Token × Nat) :=
  match digitTwoSyllable.find? (fun entry => entry.1.isPrefixOf rest) with
  | some (word, value) => some (.digit value, word.length)
  | none =>
      match rest with
      | [] => none
      | c :: _ =>
          match digitOneSyllable.find? (fun entry => entry.1 == c) with
          | some (_, value) => some (.digit value, 1)
          | none =>
              match unitSyllable.find? (fun entry => entry.1 == c) with
              | some (_, value) => some (.unit value, 1)
              | none => none

def mayStartNumeral (c : Char) : Bool :=
  digitOneSyllable.any (fun entry => entry.1 == c) ||
    unitSyllable.any (fun entry => entry.1 == c) ||
    digitTwoSyllable.any (fun entry => entry.1.head? == some c)

theorem nextToken_consumed {rest : List Char} {token : Token} {consumed : Nat}
    (read : nextToken rest = some (token, consumed)) :
    0 < consumed ∧ consumed ≤ rest.length := by
  unfold nextToken at read
  split at read
  next word value found =>
      simp only [Option.some.injEq, Prod.mk.injEq] at read
      have member := List.mem_of_find?_eq_some found
      have isPrefix := List.find?_some found
      simp only [List.isPrefixOf_iff_prefix] at isPrefix
      rw [← read.2]
      refine ⟨?_, isPrefix.length_le⟩
      simp only [digitTwoSyllable, List.mem_cons, Prod.mk.injEq, List.not_mem_nil, or_false]
        at member
      rcases member with ⟨rfl, -⟩ | ⟨rfl, -⟩ | ⟨rfl, -⟩ | ⟨rfl, -⟩ | ⟨rfl, -⟩ | ⟨rfl, -⟩ <;>
        simp
  next =>
      split at read
      · exact absurd read (by simp)
      · split at read
        · simp only [Option.some.injEq, Prod.mk.injEq] at read
          simp only [List.length_cons]
          omega
        · split at read
          · simp only [Option.some.injEq, Prod.mk.injEq] at read
            simp only [List.length_cons]
            omega
          · exact absurd read (by simp)

/-- `u64::checked_add`. -/
def checkedAdd (left right : Nat) : Option Nat :=
  if left + right < 2 ^ 64 then some (left + right) else none

/-- `u64::checked_mul`. -/
def checkedMul (left right : Nat) : Option Nat :=
  if left * right < 2 ^ 64 then some (left * right) else none

/-- Unit reading of the tokens from an accumulated total, section and digit. -/
def evalUnitFrom (total section_ current : Nat) : List Token → Option Nat
  | [] => do checkedAdd (← checkedAdd total section_) current
  | .digit d :: tokens =>
      if current ≠ 0 then none else evalUnitFrom total section_ d tokens
  | .unit u :: tokens =>
      if 10000 ≤ u then do
        let multiplicand ← checkedAdd section_ current
        let multiplicand := if multiplicand = 0 then 1 else multiplicand
        let total ← checkedAdd total (← checkedMul multiplicand u)
        evalUnitFrom total 0 0 tokens
      else do
        let multiplicand := if current = 0 then 1 else current
        let section_ ← checkedAdd section_ (← checkedMul multiplicand u)
        evalUnitFrom total section_ 0 tokens

def evalUnitReading (tokens : List Token) : Option Nat := evalUnitFrom 0 0 0 tokens

def Token.isUnit : Token → Bool
  | .unit _ => true
  | .digit _ => false

/-- The character of one digit; a unit has none. -/
def Token.digitChar : Token → Option Char
  | .digit d => some (Char.ofNat ('0'.toNat + d))
  | .unit _ => none

/-- Digits of a token run. -/
def convert (tokens : List Token) : Option (List Char × RuleId) :=
  if tokens.any Token.isUnit then
    if ¬ tokens.any (fun token => !token.isUnit) then none
    else (evalUnitReading tokens).map fun value => (Nat.toDigits 10 value, ruleUnit)
  else (tokens.mapM Token.digitChar).map (·, ruleDigit)

/-- First character of a walk that skips at most `window` blanks. -/
def skipBlanks (window : Nat) : Nat → List Char → Option Char
  | _, [] => none
  | skipped, c :: rest =>
      if isWhitespace c then
        if window < skipped + 1 then none else skipBlanks window (skipped + 1) rest
      else some c

/-- `before` is the text in front of the run, in reverse. -/
def charBefore (before : List Char) (window : Nat) : Option Char := skipBlanks window 0 before

def charAfter (after : List Char) (window : Nat) : Option Char := skipBlanks window 0 after

def isNumericContext (c : Char) : Bool :=
  isAsciiDigit c || c == '-' || numericMarkers.contains c

def hasNumericContext (before after : List Char) (cfg : NumeralConfig) : Bool :=
  (charBefore before cfg.contextWindow).any isNumericContext ||
    (charAfter after cfg.contextWindow).any isNumericContext

/-- Sentence endings that start with a numeral syllable: the end of the run and
what follows it. -/
def sentenceEndings : List (List Char × List Char) :=
  [(['이', '구'], ['요']), (['이'], ['래', '요']), (['이'], ['에', '요']),
    (['이'], ['예', '요']), (['이'], ['요']), (['이'], ['고'])]

/-- Length of the run without a swallowed sentence ending. -/
def trimSentenceEnding (text : List Char) (stop : Nat) : Nat :=
  let run := text.take stop
  let rest := text.drop stop
  match sentenceEndings.find? (fun entry =>
      entry.1.isSuffixOf run && entry.2.isPrefixOf rest && entry.1.length < run.length) with
  | some (tail, _) => stop - tail.length
  | none => stop

/-- Length of the longest numeral run at the head of the text. -/
def runLength (text : List Char) : Nat :=
  match read : nextToken text with
  | some (_, consumed) =>
      have := nextToken_consumed read
      consumed + runLength (text.drop consumed)
  | none => 0
termination_by text.length
decreasing_by
  simp only [List.length_drop]
  omega

/-- Tokens of the first `stop` characters of the text. -/
def tokensWithin (text : List Char) (stop : Nat) : List Token :=
  if stop = 0 then []
  else
    match read : nextToken text with
    | none => []
    | some (token, consumed) =>
        have := nextToken_consumed read
        if stop < consumed then []
        else token :: tokensWithin (text.drop consumed) (stop - consumed)
termination_by stop

theorem tokensWithin_zero (text : List Char) : tokensWithin text 0 = [] := by
  rw [tokensWithin, if_pos rfl]

/-- Whether the digits of a run are long enough to be trusted. -/
def longEnough (cfg : NumeralConfig) (digits before after : List Char) : Bool :=
  cfg.minDigitsWithoutContext ≤ digits.length ||
    (cfg.minDigitsWithContext ≤ digits.length && hasNumericContext before after cfg)

/-- Tokens and length of the numeral run at the head of the text. -/
def scanRun (text : List Char) : List Token × Nat :=
  let stop := trimSentenceEnding text (runLength text)
  (tokensWithin text stop, stop)

theorem scanRun_positive {text : List Char} {token : Token} {tokens : List Token} {stop : Nat}
    (scanned : scanRun text = (token :: tokens, stop)) : 0 < stop := by
  simp only [scanRun, Prod.mk.injEq] at scanned
  rw [scanned.2] at scanned
  rcases Nat.eq_zero_or_pos stop with rfl | positive
  · rw [tokensWithin_zero] at scanned
    exact absurd scanned.1 (by simp)
  · exact positive

/-- The converting walk. -/
def loop (cfg : NumeralConfig) (builder : SpanMapBuilder) (before pending : List Char) :
    List Char → SpanMapBuilder
  | [] => builder.flush pending
  | c :: rest =>
      match scanned : scanRun (c :: rest) with
      | ([], _) => loop cfg builder (c :: before) (pending ++ [c]) rest
      | (token :: tokens, stop) =>
          have := scanRun_positive scanned
          match convert (token :: tokens) with
          | some (digits, rule) =>
              if longEnough cfg digits before ((c :: rest).drop stop) then
                loop cfg ((builder.flush pending).numeral ((c :: rest).take stop) digits rule)
                  (((c :: rest).take stop).reverse ++ before) [] ((c :: rest).drop stop)
              else
                loop cfg builder (((c :: rest).take stop).reverse ++ before)
                  (pending ++ (c :: rest).take stop) ((c :: rest).drop stop)
          | none =>
              loop cfg builder (((c :: rest).take stop).reverse ++ before)
                (pending ++ (c :: rest).take stop) ((c :: rest).drop stop)
termination_by text => text.length
decreasing_by
  · simp
  all_goals
    simp only [List.length_drop, List.length_cons]
    omega

def apply (text : List Char) (cfg : NumeralConfig) : List Char × SpanMap :=
  if ¬ text.any mayStartNumeral then (text, SpanMap.identity text)
  else (loop cfg {} [] [] text).finish

end Hangul

/-! ## Pass 4: digit look-alikes -/

/-- Characters that stand in a digit's place, masks included. -/
def isDigitLike (c : Char) : Bool := isAsciiDigit c || c == '*' || c == 'X' || c == 'x'

namespace Lookalike

def ruleLookalike : RuleId := "lookalike.digit"

def lookalikeDigit (c : Char) : Option Char :=
  if c = 'O' ∨ c = 'o' then some '0'
  else if c = 'l' ∨ c = 'I' then some '1'
  else none

def isSkippable (c : Char) : Bool :=
  ['-', '.', ',', '(', ')', '·', '・'].contains c || c == ' ' || c == '\t'

/-- Whether the nearest character that is not skippable stands for a digit. The
left side is passed in reverse. -/
def sideIsDigit : List Char → Bool
  | [] => false
  | c :: side => if isDigitLike c then true else if ¬ isSkippable c then false else sideIsDigit side

def loop (builder : SpanMapBuilder) (before pending : List Char) : List Char → SpanMapBuilder
  | [] => builder.flush pending
  | c :: rest =>
      match (lookalikeDigit c).filter (fun _ => sideIsDigit before && sideIsDigit rest) with
      | some digit =>
          loop ((builder.flush pending).replace [c] [digit] ruleLookalike) (c :: before) [] rest
      | none => loop builder (c :: before) (pending ++ [c]) rest

def apply (text : List Char) : List Char × SpanMap :=
  if ¬ text.any fun c => (lookalikeDigit c).isSome then (text, SpanMap.identity text)
  else (loop {} [] [] text).finish

end Lookalike

/-! ## Pass 5: separators -/

namespace Separator

def ruleWhitespace : RuleId := "separator.whitespace"
def ruleHyphen : RuleId := "separator.hyphen"
def ruleDot : RuleId := "separator.dot"
def ruleParen : RuleId := "separator.paren"
def ruleComma : RuleId := "separator.comma"
def ruleMiddot : RuleId := "separator.middot"

/-- Rule and penalty class of an absorbable character. -/
def separatorClass (c : Char) : Option (RuleId × Absorbed) :=
  if c = ' ' ∨ c = '\t' then some (ruleWhitespace, .whitespace)
  else if c = '-' then some (ruleHyphen, .separator)
  else if c = '.' then some (ruleDot, .separator)
  else if c = '(' ∨ c = ')' then some (ruleParen, .separator)
  else if c = ',' then some (ruleComma, .separator)
  else if c = '·' ∨ c = '・' then some (ruleMiddot, .separator)
  else none

def isSeparator (c : Char) : Bool := (separatorClass c).isSome

def hasRule (rule : RuleId) (c : Char) : Bool := (separatorClass c).any fun entry => entry.1 == rule

/-- Absorb a run of separators, one group of equal rules at a time. -/
def absorbRun (builder : SpanMapBuilder) : List Char → SpanMapBuilder
  | [] => builder
  | c :: rest =>
      match separatorClass c with
      | none => builder
      | some (rule, kind) =>
          absorbRun (builder.absorb (c :: rest.takeWhile (hasRule rule)) rule kind)
            (rest.dropWhile (hasRule rule))
termination_by text => text.length
decreasing_by
  have bound := (List.dropWhile_suffix (hasRule rule) (l := rest)).length_le
  simp only [List.length_cons]
  omega

/-- The absorbing walk. -/
def loop (builder : SpanMapBuilder) (before pending : List Char) : List Char → SpanMapBuilder
  | [] => builder.flush pending
  | c :: rest =>
      if ¬ isSeparator c ∨ ¬ before.head?.any isDigitLike then
        loop builder (c :: before) (pending ++ [c]) rest
      else if (rest.dropWhile isSeparator).head?.any isDigitLike then
        loop (absorbRun (builder.flush pending) (c :: rest.takeWhile isSeparator))
          ((c :: rest.takeWhile isSeparator).reverse ++ before) [] (rest.dropWhile isSeparator)
      else
        loop builder ((c :: rest.takeWhile isSeparator).reverse ++ before)
          (pending ++ c :: rest.takeWhile isSeparator) (rest.dropWhile isSeparator)
termination_by text => text.length
decreasing_by
  all_goals
    have bound := (List.dropWhile_suffix isSeparator (l := rest)).length_le
    simp only [List.length_cons]
    omega

def apply (text : List Char) : List Char × SpanMap :=
  if ¬ text.any isSeparator then (text, SpanMap.identity text)
  else (loop {} [] [] text).finish

end Separator

/-! ## Pipeline -/

/-- Normalised text with its span map. -/
structure Normalized where
  text : List Char
  map : SpanMap

/-- Pipeline configuration. -/
structure NormalizeConfig where
  nfc : Bool := true
  fold : Bool := true
  hangul : Bool := true
  lookalike : Bool := true
  separator : Bool := true
  numeral : NumeralConfig := {}
  deriving DecidableEq, Repr

/-- Only the passes that look at no context. -/
def NormalizeConfig.contextFree : NormalizeConfig :=
  { hangul := false, lookalike := false, separator := false }

/-- Run one pass if it is switched on. -/
def applyPass (enabled : Bool) (pass : List Char → List Char × SpanMap)
    (current : Normalized) : Result Normalized :=
  if enabled then
    match SpanMap.compose current.map (pass current.text).2 with
    | .ok map => .ok ⟨(pass current.text).1, map⟩
    | .error error => .error error
  else .ok current

/-- Switches and passes in pipeline order. -/
def passes (cfg : NormalizeConfig) : List (Bool × (List Char → List Char × SpanMap)) :=
  [(cfg.nfc, Nfc.apply), (cfg.fold, Fold.apply),
    (cfg.hangul, fun text => Hangul.apply text cfg.numeral),
    (cfg.lookalike, Lookalike.apply), (cfg.separator, Separator.apply)]

/-- Apply the pipeline. -/
def normalize (text : List Char) (cfg : NormalizeConfig) : Result Normalized :=
  (passes cfg).foldlM (fun current pass => applyPass pass.1 pass.2 current)
    ⟨text, SpanMap.identity text⟩

end AiCoreStack.Pii
