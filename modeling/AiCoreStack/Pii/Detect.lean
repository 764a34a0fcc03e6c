import AiCoreStack.Pii.Entity
import AiCoreStack.Pii.SpanLayout

/-!
# Scanners and detection

Model of `detect/scanner.rs` and `detect/mod.rs`.  A scanner walks the normalised
text with a cursor; the texts on either side of it are arguments here.  `detect`
weighs what the scanners report and carries the survivors back to the source
text.  A slicing panic is a `Failure`.
-/

namespace AiCoreStack.Pii

open AiCoreStack.Foundation

/-! ## Scanners -/

namespace Scanner

def isAsciiUppercase (c : Char) : Bool := 'A' ≤ c ∧ c ≤ 'Z'

def isAsciiAlphabetic (c : Char) : Bool := isAsciiUppercase c || ('a' ≤ c ∧ c ≤ 'z')

def isAsciiAlphanumeric (c : Char) : Bool := isAsciiAlphabetic c || isAsciiDigit c

def isLocalPart (c : Char) : Bool :=
  isAsciiAlphanumeric c || c == '.' || c == '_' || c == '%' || c == '+' || c == '-'

def isDomainPart (c : Char) : Bool := isAsciiAlphanumeric c || c == '.' || c == '-'

def isRunChar (c : Char) : Bool := isAsciiDigit c || c == '*' || c == 'X' || c == 'x'

/-- At least two real digits. -/
def runIsCandidate (run : List Char) : Bool := 2 ≤ run.countP isAsciiDigit

/-- Report a finished run. -/
def closeRun (before run : List Char) : List Span :=
  if runIsCandidate run then [spanAt before run] else []

/-- The walk over digit runs; `run` is the open run, which starts after `before`. -/
def digitRunsFrom (before run : List Char) : List Char → List Span
  | [] => closeRun before run
  | c :: rest =>
      if isRunChar c then digitRunsFrom before (run ++ [c]) rest
      else closeRun before run ++ digitRunsFrom (before ++ run ++ [c]) [] rest

def digitRuns (text : List Char) : List Span := digitRunsFrom [] [] text

def plausibleDomain (domain : List Char) : Bool :=
  let labels := domain.splitOn '.'
  let tld := labels.getLastD []
  2 ≤ labels.length && labels.all (· ≠ []) && 2 ≤ tld.length && tld.all isAsciiAlphabetic

/-- Local part in front of an at sign: the characters that may stand there, less
leading dots. -/
def localPart (before : List Char) : List Char :=
  (before.rtakeWhile isLocalPart).dropWhile (· == '.')

/-- Domain after an at sign, less trailing dots and hyphens. -/
def domainPart (after : List Char) : List Char :=
  (after.takeWhile isDomainPart).rdropWhile fun c => c == '.' || c == '-'

/-- Whether the at sign between two texts joins an address. -/
def isAddress (before after : List Char) : Bool :=
  localPart before ≠ [] && before.getLast? ≠ some '.' && domainPart after ≠ [] &&
    plausibleDomain (domainPart after)

/-- The walk over at signs, at most `fuel` steps.  An address moves the cursor to
its end. -/
def emailsFrom : Nat → List Char → List Char → List Span
  | 0, _, _ => []
  | _ + 1, _, [] => []
  | fuel + 1, before, c :: rest =>
      if c = '@' ∧ isAddress before rest then
        spanAt (before.rdrop (localPart before).length)
            (localPart before ++ '@' :: domainPart rest) ::
          emailsFrom fuel (before ++ '@' :: domainPart rest)
            (rest.drop (domainPart rest).length)
      else emailsFrom fuel (before ++ [c]) rest

def emails (text : List Char) : List Span :=
  if '@' ∈ text then emailsFrom text.length [] text else []

/-- Up to two capital letters. -/
def passportLetters (text : List Char) : List Char := (text.take 2).takeWhile isAsciiUppercase

/-- Digits after the capital letters. -/
def passportDigits (text : List Char) : List Char :=
  (text.drop (passportLetters text).length).takeWhile isAsciiDigit

/-- The shape of a passport number: letters and digits. -/
def isShaped (letters digits : List Char) : Bool :=
  (7 ≤ digits.length ∧ digits.length ≤ 8) ∧
    8 ≤ letters.length + digits.length ∧ letters.length + digits.length ≤ 9

/-- The walk over passport numbers, at most `fuel` steps. -/
def passportsFrom : Nat → List Char → List Char → List Span
  | 0, _, _ => []
  | _ + 1, _, [] => []
  | fuel + 1, before, c :: rest =>
      if before.getLast?.any isAsciiAlphanumeric ∨ passportLetters (c :: rest) = [] then
        passportsFrom fuel (before ++ [c]) rest
      else
        let found := passportLetters (c :: rest) ++ passportDigits (c :: rest)
        let after := (c :: rest).drop found.length
        (if isShaped (passportLetters (c :: rest)) (passportDigits (c :: rest)) ∧
            ¬ after.head?.any isAsciiAlphanumeric then [spanAt before found] else []) ++
          passportsFrom fuel (before ++ found) after

def passports (text : List Char) : List Span := passportsFrom text.length [] text

end Scanner

/-! ## Detection -/

/-- Why an operation gave no result: a panic, or an error it returned. -/
inductive Failure where
  | panic
  | error (error : Error)
  deriving DecidableEq, Repr

/-- The value of an operation that panics on `none`. -/
def orPanic {α : Type} : Option α → Except Failure α
  | some value => .ok value
  | none => .error .panic

/-- Score weights. -/
structure Weights (F : Type) where
  checksumPassed : F
  checksumFailed : F
  context : F
  absorbedWhitespace : F
  absorbedSeparator : F
  expandedSyllable : F
  replacedChar : F

/-- Detection configuration. -/
structure Config (F : Type) where
  normalize : NormalizeConfig
  contextWindow : Nat
  minScore : F
  minContext : F
  minVeto : F
  weights : Weights F

section

variable {F : Type} [Scalar F]

/-- `Weights::default`. -/
def Weights.standard : Weights F where
  checksumPassed := Scalar.lit 0.6
  checksumFailed := Scalar.lit 0.25
  context := Scalar.lit 0.5
  absorbedWhitespace := Scalar.lit 0.08
  absorbedSeparator := Scalar.lit 0.01
  expandedSyllable := Scalar.lit 0.01
  replacedChar := Scalar.lit 0.002

/-- `Config::default`. -/
def Config.standard : Config F where
  normalize := {}
  contextWindow := 24
  minScore := Scalar.lit 0.5
  minContext := Scalar.lit 0.3
  minVeto := Scalar.lit 0.5
  weights := .standard

end

/-- Why a candidate was reported. -/
structure Evidence (F : Type) where
  rule : String
  checksum : ChecksumResult
  contextHits : List (ContextHit F)
  normalizations : List RuleId
  cost : NormalizationCost
  snapped : Bool

/-- One reported piece of personal information. -/
structure Finding (F : Type) where
  entity : EntityKind
  source : Span
  normalized : Span
  certainty : Certainty
  score : F
  evidence : Evidence F

inductive RejectReason where
  | checksumFailed
  | noContext
  | belowThreshold
  | outranked
  | businessContext
  deriving DecidableEq, Repr

/-- A candidate with the right shape that was not reported. -/
structure Rejection (F : Type) where
  entity : EntityKind
  source : Span
  reason : RejectReason
  score : F

structure Report (F : Type) where
  findings : List (Finding F)
  rejections : List (Rejection F)
  normalizedText : List Char

/-- Score and grade of a candidate. -/
structure Evaluated (F : Type) where
  score : F
  certainty : Certainty

section

variable {F : Type} [Scalar F]

/-- Weigh a candidate. -/
def evaluate (candidate : Candidate F) (contextTotal : F) (cost : NormalizationCost)
    (weights : Weights F) : Evaluated F :=
  let penalty (score : F) (count : UInt16) (weight : F) : F :=
    Scalar.sub score (Scalar.mul (Scalar.ofNat count.toNat) weight)
  let score := candidate.base
  let score :=
    if candidate.checksum.isPassed then Scalar.add score weights.checksumPassed
    else if candidate.checksum.isFailed then Scalar.sub score weights.checksumFailed
    else score
  let score := Scalar.add score (Scalar.mul contextTotal weights.context)
  let score := penalty score cost.absorbedWhitespace weights.absorbedWhitespace
  let score := penalty score cost.absorbedSeparators weights.absorbedSeparator
  let score := penalty score cost.expandedSyllables weights.expandedSyllable
  let score := penalty score cost.replacedChars weights.replacedChar
  let certainty : Certainty :=
    if candidate.checksum.isPassed then .certain
    else if Scalar.lt (Scalar.lit 0) contextTotal then .probable
    else .possible
  ⟨Scalar.clamp score (Scalar.lit 0) (Scalar.lit 2), certainty.min candidate.ceiling⟩

def vetoTotal (text : List Char) (span : Span) (cfg : Config F) : Except Failure F :=
  (orPanic (Context.find text span cfg.contextWindow Context.exclude)).map Context.total

/-- Whether contrary context throws the candidate out. -/
def vetoed (candidate : Candidate F) (contextTotal veto : F) (cfg : Config F) : Bool :=
  !candidate.checksum.isPassed && Scalar.le cfg.minVeto veto && Scalar.lt contextTotal veto

/-- Why a candidate is not reported, if it is not.  Passport numbers always need
context. -/
def rejectReason (candidate : Candidate F) (contextTotal veto : F) (evaluated : Evaluated F)
    (cfg : Config F) : Option RejectReason :=
  if vetoed candidate contextTotal veto cfg then some .businessContext
  else if candidate.needsContext && Scalar.lt contextTotal cfg.minContext then some .noContext
  else if Scalar.lt evaluated.score cfg.minScore then
    some (if candidate.checksum.isFailed then .checksumFailed else .belowThreshold)
  else none

/-- A weighed candidate: its finding, and why it is not reported if it is not. -/
structure Weighed (F : Type) where
  finding : Finding F
  reason : Option RejectReason

/-- The rejection that a finding becomes. -/
def Finding.reject (finding : Finding F) (reason : RejectReason) : Rejection F :=
  ⟨finding.entity, finding.source, reason, finding.score⟩

/-- Weigh one candidate of a span. -/
def weigh (cfg : Config F) (normalized : Normalized) (span : Span) (veto : F)
    (candidate : Candidate F) : Except Failure (Weighed F) := do
  let hits ← orPanic (Context.find normalized.text span cfg.contextWindow candidate.cues)
  let source := normalized.map.toSource span
  let contextTotal := Context.total hits
  let evaluated := evaluate candidate contextTotal source.cost cfg.weights
  return {
    finding := {
      entity := candidate.entity
      source := source.span
      normalized := span
      certainty := evaluated.certainty
      score := evaluated.score
      evidence := {
        rule := candidate.rule
        checksum := candidate.checksum
        contextHits := hits
        normalizations := source.rules
        cost := source.cost
        snapped := source.snapped } }
    reason := rejectReason candidate contextTotal veto evaluated cfg }

/-- The finding of an address. -/
def emailFinding (normalized : Normalized) (span : Span) : Finding F :=
  let source := normalized.map.toSource span
  { entity := .email
    source := source.span
    normalized := span
    certainty := .probable
    score := Scalar.lit 0.9
    evidence := {
      rule := "email.structural"
      checksum := .notApplicable "이메일에는 검증식이 없다"
      contextHits := []
      normalizations := source.rules
      cost := source.cost
      snapped := source.snapped } }

/-- What a scanned span contributes: at most one finding, and rejections. -/
structure Contribution (F : Type) where
  finding : Option (Finding F)
  rejections : List (Rejection F)

/-- Weigh a passport number. -/
def weighPassport (cfg : Config F) (normalized : Normalized) (span : Span) :
    Except Failure (Contribution F) := do
  let veto ← vetoTotal normalized.text span cfg
  let weighed ← weigh cfg normalized span veto Entity.passportCandidate
  match weighed.reason with
  | some reason => return ⟨none, [weighed.finding.reject reason]⟩
  | none => return ⟨some weighed.finding, []⟩

/-- Take one more candidate of a span into account.  The best score wins, the
first one among equals. -/
def compete (state : Contribution F) (weighed : Weighed F) : Contribution F :=
  match weighed.reason with
  | some reason => ⟨state.finding, state.rejections ++ [weighed.finding.reject reason]⟩
  | none =>
      match state.finding with
      | none => ⟨some weighed.finding, state.rejections⟩
      | some best =>
          if Scalar.lt best.score weighed.finding.score then
            ⟨some weighed.finding, state.rejections ++ [best.reject .outranked]⟩
          else ⟨some best, state.rejections ++ [weighed.finding.reject .outranked]⟩

/-- Weigh every reading of a digit run. -/
def weighRun (cfg : Config F) (normalized : Normalized) (span : Span) :
    Except Failure (Contribution F) := do
  match Checksum.toDigits (← orPanic (span.slice normalized.text)) with
  | none => return ⟨none, []⟩
  | some digits =>
      let veto ← vetoTotal normalized.text span cfg
      let weighed ← (Entity.candidates digits).mapM (weigh cfg normalized span veto)
      return weighed.foldl compete ⟨none, []⟩

/-- Whether a span lies in another that is wider. -/
def swallowed (spans : List Span) (mine : Span) : Bool :=
  spans.any fun other =>
    other.byte.start ≤ mine.byte.start && mine.byte.stop ≤ other.byte.stop &&
      mine.byte.stop - mine.byte.start < other.byte.stop - other.byte.start

/-- Throw out findings that lie in wider ones. -/
def dropContained (findings : List (Finding F)) : List (Finding F) × List (Rejection F) :=
  let spans := findings.map Finding.source
  (findings.filter fun finding => !swallowed spans finding.source,
    (findings.filter fun finding => swallowed spans finding.source).map
      fun finding => finding.reject .outranked)

/-- Position order of spans: start, then end. -/
def Span.before (left right : Span) : Prop :=
  left.byte.start < right.byte.start ∨
    left.byte.start = right.byte.start ∧ left.byte.stop ≤ right.byte.stop

instance (left right : Span) : Decidable (left.before right) :=
  inferInstanceAs (Decidable (_ ∨ _))

/-- Detect personal information in a text. -/
def detect (text : List Char) (cfg : Config F) : Except Failure (Report F) := do
  let normalized ← (normalize text cfg.normalize).mapError Failure.error
  let emails := (Scanner.emails normalized.text).map (emailFinding normalized)
  let passports ← (Scanner.passports normalized.text).mapM (weighPassport cfg normalized)
  let runs ← (Scanner.digitRuns normalized.text).mapM (weighRun cfg normalized)
  let contributions := passports ++ runs
  let found := emails ++ contributions.filterMap Contribution.finding
  let dropped := dropContained found
  return {
    findings := dropped.1.insertionSort fun left right => left.source.before right.source
    rejections := (contributions.flatMap Contribution.rejections ++ dropped.2).insertionSort
      fun left right => left.source.before right.source
    normalizedText := normalized.text }

end

end AiCoreStack.Pii
