import AiCoreStack.Pii.Detect

/-!
# Masking and restoring

Model of `mask/`: policies, the restore table, and the masking loop.  `usize` is
the 64-bit type of the supported targets, with the wrapping arithmetic of a
release build.  A `none` result is a run that ends in a panic or does not end.
The keyed digest behind the hash policy comes from outside and is a parameter.
-/

namespace AiCoreStack.Pii

open AiCoreStack.Foundation
open String (utf8Len)

/-! ## Policies -/

inductive Redaction where
  | label
  | code
  | fill (char : Char)
  | fixed (text : List Char)
  deriving DecidableEq

inductive Policy where
  | redact (redaction : Redaction)
  | partialReveal (keepPrefix keepSuffix : UInt64) (fill : Char)
  | hash (key : List UInt8) (len : UInt64)
  | tokenize
  deriving DecidableEq

/-- A default policy with exceptions for some entities. -/
structure PolicySet where
  default : Policy
  overrides : List (EntityKind × Policy) := []

namespace PolicySet

/-- Replace the policy of an entity, or add it. -/
def setPolicy (entity : EntityKind) (policy : Policy) :
    List (EntityKind × Policy) → List (EntityKind × Policy)
  | [] => [(entity, policy)]
  | entry :: rest =>
      if entry.1 = entity then (entity, policy) :: rest
      else entry :: setPolicy entity policy rest

/-- `with`: give one entity its own policy. -/
def withPolicy (policies : PolicySet) (entity : EntityKind) (policy : Policy) : PolicySet :=
  { policies with overrides := setPolicy entity policy policies.overrides }

def policyFor (policies : PolicySet) (entity : EntityKind) : Policy :=
  match policies.overrides.find? (fun entry => entry.1 = entity) with
  | some entry => entry.2
  | none => policies.default

def usesTokenize (policies : PolicySet) : Bool :=
  policies.default = .tokenize || policies.overrides.any fun entry => entry.2 = .tokenize

end PolicySet

/-! ## Restore table -/

structure RestoreEntry where
  token : List Char
  original : List Char
  entity : EntityKind
  deriving DecidableEq

structure RestoreMap where
  tokenPrefix : List Char
  entries : List RestoreEntry
  deriving DecidableEq

/-- The token prefix that is tried first. -/
def basePrefix : List Char := ['P', 'I', 'I']

/-- Decimal digits of a number. -/
def decimal (n : Nat) : List Char := Nat.toDigits 10 n

/-- What a token starts with. -/
def opener (tokenPrefix : List Char) : List Char := '[' :: '[' :: tokenPrefix ++ [':']

/-- What a token ends with. -/
def closer : List Char := [']', ']']

namespace RestoreMap

/-- Look for a token prefix that the text does not contain.  The counter is a
`u32`; after as many steps as there are prefixes the walk has come round. -/
def searchPrefix (text : List Char) : Nat → UInt32 → List Char → Option (List Char)
  | 0, _, _ => none
  | fuel + 1, nth, tokenPrefix =>
      if (splitOnce (opener tokenPrefix) text).isSome then
        searchPrefix text fuel (nth + 1) (basePrefix ++ decimal nth.toNat)
      else some tokenPrefix

/-- An empty table whose tokens do not clash with the text. -/
def forText (text : List Char) : Option RestoreMap :=
  (searchPrefix text (2 ^ 32 + 1) 0 basePrefix).map fun tokenPrefix => ⟨tokenPrefix, []⟩

/-- The token of an entry. -/
def tokenAt (tokenPrefix : List Char) (index : Nat) : List Char :=
  opener tokenPrefix ++ decimal index ++ closer

/-- Enter an original and return the token that stands for it. -/
def push (map : RestoreMap) (entity : EntityKind) (original : List Char) :
    List Char × RestoreMap :=
  let token := tokenAt map.tokenPrefix map.entries.length
  (token, { map with entries := map.entries ++ [⟨token, original, entity⟩] })

end RestoreMap

/-- Drop a leading plus sign. -/
def stripPlus : List Char → List Char
  | '+' :: rest => rest
  | text => text

/-- `str::parse::<usize>`. -/
def parseUsize (text : List Char) : Option Nat :=
  let digits := stripPlus text
  if digits = [] ∨ ¬ digits.all isAsciiDigit then none
  else
    let value := Nat.ofDigitChars 10 digits 0
    if value < 2 ^ 64 then some value else none

/-- The restoring walk over what is left of the masked text. -/
def unmaskFrom (map : RestoreMap) (rest : List Char) : Result (List Char) :=
  match found : splitOnce (opener map.tokenPrefix) rest with
  | none => .ok rest
  | some (head, after) =>
      match closed : splitOnce closer after with
      | none => .error (.restoreToken
          (String.ofList (opener map.tokenPrefix) ++ "...  에 닫는 괄호가 없다"))
      | some (inside, rest') =>
          match parseUsize inside with
          | none => .error (.restoreToken
              ("토큰 번호가 숫자가 아니다: '" ++ String.ofList inside ++ "'"))
          | some index =>
              match map.entries[index]? with
              | none => .error (.restoreToken
                  ("표에 없는 토큰 번호 " ++ toString index))
              | some entry =>
                  have : rest'.length < rest.length := by
                    rw [splitOnce_append found, splitOnce_append closed]
                    simp [closer]
                    omega
                  match unmaskFrom map rest' with
                  | .ok restored => .ok (head ++ entry.original ++ restored)
                  | .error error => .error error
termination_by rest.length

/-- Restore a masked text. -/
def unmask (masked : List Char) (map : RestoreMap) : Result (List Char) := unmaskFrom map masked

/-! ## Masking -/

/-- Keep some characters at both ends and cover the middle.  Sums wrap, as they do in a release
build. -/
def partialReveal (original : List Char) (keepPrefix keepSuffix : UInt64) (fill : Char) :
    Option (List Char) :=
  let total := UInt64.ofNat original.length
  if total ≤ keepPrefix + keepSuffix then some (List.replicate original.length fill)
  else if keepPrefix ≤ total ∧ total - keepSuffix ≤ total then
    some (original.take keepPrefix.toNat ++
      List.replicate (total - keepPrefix - keepSuffix).toNat fill ++
      original.drop (total - keepSuffix).toNat)
  else none

/-- HMAC with SHA-256.  It takes a key of any length. -/
class Hmac where
  sha256 (key data : List UInt8) : Vector UInt8 32

/-- A digit of `HEX`. -/
def hexDigit (nibble : UInt8) : Char := "0123456789abcdef".toList.getD nibble.toNat '0'

/-- The loop of `hmac_hex` over the bytes that are left. -/
def hexFrom (len : Nat) (out : List Char) : List UInt8 → List Char
  | [] => out
  | byte :: rest =>
      if len ≤ out.length then out
      else
        let high := out ++ [hexDigit (byte >>> 4)]
        if len ≤ high.length then high
        else hexFrom len (high ++ [hexDigit (byte &&& 0x0f)]) rest

variable [Hmac]

/-- `hmac_hex`.  A capacity of more than `isize::MAX` bytes panics. -/
def hmacHex (key : List UInt8) (data : List Char) (len : UInt64) : Option (List Char) :=
  let bytes := Hmac.sha256 key (data.flatMap String.utf8EncodeChar)
  if len.toNat < 2 ^ 63 then some (hexFrom len.toNat [] bytes.toList) else none

/-- What stands in the place of an original under a policy that cannot be undone.
A token cannot be made here. -/
def placeholder (policy : Policy) (original : List Char) (entity : EntityKind) :
    Option (List Char) :=
  match policy with
  | .redact .label => some ('[' :: entity.label.toList ++ [']'])
  | .redact .code => some ('[' :: entity.codeUpper.toList ++ [']'])
  | .redact (.fill char) => some (List.replicate original.length char)
  | .redact (.fixed text) => some text
  | .partialReveal keepPrefix keepSuffix fill =>
      partialReveal original keepPrefix keepSuffix fill
  | .hash key len => (hmacHex key original len).map fun hex =>
      '[' :: entity.codeUpper.toList ++ ':' :: hex ++ [']']
  | .tokenize => some ('[' :: entity.label.toList ++ [']'])

/-- Apply a policy to an original. -/
def render (policy : Policy) (original : List Char) (entity : EntityKind)
    (restore : Option RestoreMap) : Option (List Char × Option RestoreMap) :=
  match policy, restore with
  | .tokenize, some map =>
      let (token, map) := map.push entity original
      some (token, some map)
  | policy, restore => (placeholder policy original entity).map fun text => (text, restore)

structure MaskOutput (F : Type) where
  text : List Char
  applied : List (Finding F)
  skipped : List (Finding F)
  restore : Option RestoreMap

/-- State of the masking loop: the output so far and the end of the last applied
span. -/
structure MaskState (F : Type) where
  output : MaskOutput F
  cursor : Nat

section

variable {F : Type}

/-- Whether a span cannot be applied any more. -/
def misplaced (text : List Char) (cursor : Nat) (source : Span) : Bool :=
  source.byte.start.toNat < cursor || utf8Len text < source.byte.stop.toNat ||
    source.byte.stop < source.byte.start

/-- One round of the masking loop. -/
def maskStep (text : List Char) (policies : PolicySet) (state : MaskState F)
    (finding : Finding F) : Option (MaskState F) :=
  let out := state.output
  if misplaced text state.cursor finding.source then
    some { state with output := { out with skipped := out.skipped ++ [finding] } }
  else
    (sliceBytes text state.cursor finding.source.byte.start.toNat).bind fun gap =>
    (finding.source.slice text).bind fun original =>
    (render (policies.policyFor finding.entity) original finding.entity out.restore).map
      fun rendered => {
        output := { out with
          text := out.text ++ gap ++ rendered.1
          applied := out.applied ++ [finding]
          restore := rendered.2 }
        cursor := finding.source.byte.stop.toNat }

/-- The masking loop and the copy of the tail. -/
def maskFrom (text : List Char) (policies : PolicySet) (state : MaskState F)
    (findings : List (Finding F)) : Option (MaskOutput F) :=
  (findings.foldlM (maskStep text policies) state).bind fun state =>
  (sliceBytes text state.cursor (utf8Len text)).map fun rest =>
    { state.output with text := state.output.text ++ rest }

/-- Findings in position order. -/
def ordered (findings : List (Finding F)) : List (Finding F) :=
  findings.insertionSort fun left right => left.source.before right.source

/-- Mask the spans of the findings. -/
def maskFindings (text : List Char) (findings : List (Finding F)) (policies : PolicySet) :
    Option (MaskOutput F) :=
  (if policies.usesTokenize then (RestoreMap.forText text).map some else some none).bind
    fun restore => maskFrom text policies ⟨⟨[], [], [], restore⟩, 0⟩ (ordered findings)

/-- Mask with a report at hand. -/
def maskReport (text : List Char) (report : Report F) (policies : PolicySet) :
    Option (MaskOutput F) := maskFindings text report.findings policies

/-- Detect and mask. -/
def mask [Scalar F] (text : List Char) (cfg : Config F) (policies : PolicySet) :
    Except Failure (MaskOutput F) := do
  let report ← detect text cfg
  orPanic (maskReport text report policies)

end

end AiCoreStack.Pii
