import AiCoreStack.Foundation.Utf8

/-!
# Span maps

Model of `span.rs`: the segment table that ties a source text to its normalised
text, the builder that normalisation passes drive, composition of two tables,
and the lookup of a normalised range in the source.  Offsets are `u32`, with the
wrapping arithmetic of a release build; `text.len() as u32` truncates.  Costs are
saturating `u16` counters.  Texts are lists of scalar values.
-/

namespace AiCoreStack.Pii

open AiCoreStack.Foundation
open String (utf8Len)

/-- Crate-wide error. The `detail` texts are the ones the source formats. -/
inductive Error where
  | spanMapInvariant (index : Nat) (detail : String)
  | spanMapMismatch (detail : String)
  | restoreToken (detail : String)
  deriving DecidableEq, Repr

/-- Result of a fallible operation. -/
abbrev Result (α : Type) := Except Error α

/-- Rule identifiers are static strings, compared by name. -/
abbrev RuleId := String

/-- Half-open `u32` range. -/
structure Range32 where
  start : UInt32
  stop : UInt32
  deriving DecidableEq, Repr

/-- `u32::saturating_sub`. -/
def saturatingSub (left right : UInt32) : UInt32 :=
  if right ≤ left then left - right else 0

/-- One text range in byte and in character coordinates. -/
structure Span where
  byte : Range32
  char : Range32
  deriving DecidableEq, Repr

namespace Span

/-- Zero-width span at a position. -/
def emptyAt (byte char : UInt32) : Span := ⟨⟨byte, byte⟩, ⟨char, char⟩⟩

def isEmpty (span : Span) : Bool := span.byte.stop ≤ span.byte.start

def byteLen (span : Span) : UInt32 := saturatingSub span.byte.stop span.byte.start

def charLen (span : Span) : UInt32 := saturatingSub span.char.stop span.char.start

/-- Text under the span; `none` is the slicing panic. -/
def slice (span : Span) (text : List Char) : Option (List Char) :=
  sliceBytes text span.byte.start.toNat span.byte.stop.toNat

end Span

/-- What a segment does to its source range. -/
inductive SegmentKind where
  | identity
  | replace
  | delete
  | expand
  deriving DecidableEq, Repr

/-- Class of an absorbed source fragment. -/
inductive Absorbed where
  | whitespace
  | separator
  | other
  deriving DecidableEq, Repr

/-- `u16::saturating_add`. -/
def saturatingAdd (left right : UInt16) : UInt16 :=
  UInt16.ofNat (min (left.toNat + right.toNat) 65535)

/-- How far a span has moved from the source. -/
structure NormalizationCost where
  absorbedWhitespace : UInt16 := 0
  absorbedSeparators : UInt16 := 0
  expandedSyllables : UInt16 := 0
  replacedChars : UInt16 := 0
  deriving DecidableEq, Repr

namespace NormalizationCost

def isZero (cost : NormalizationCost) : Bool := cost = {}

/-- Field-wise addition, saturating at the `u16` maximum. -/
def add (cost other : NormalizationCost) : NormalizationCost where
  absorbedWhitespace := saturatingAdd cost.absorbedWhitespace other.absorbedWhitespace
  absorbedSeparators := saturatingAdd cost.absorbedSeparators other.absorbedSeparators
  expandedSyllables := saturatingAdd cost.expandedSyllables other.expandedSyllables
  replacedChars := saturatingAdd cost.replacedChars other.replacedChars

end NormalizationCost

/-- One row of a span map. -/
structure Segment where
  src : Span
  dst : Span
  kind : SegmentKind
  rules : List RuleId
  cost : NormalizationCost
  deriving DecidableEq, Repr

/-- Result of looking a normalised range up in the source. -/
structure SourceSpan where
  span : Span
  snapped : Bool
  rules : List RuleId
  cost : NormalizationCost
  deriving DecidableEq, Repr

/-- Monotone segment table between a source text and a normalised text. -/
structure SpanMap where
  segments : List Segment
  deriving DecidableEq, Repr

/-! ## Internal helpers -/

/-- Segment kind from the two lengths; the source side is never empty. -/
def classify (src dst : Span) : SegmentKind :=
  if dst.isEmpty then .delete
  else if dst.charLen > src.charLen then .expand
  else .replace

def clampU16 (n : UInt32) : UInt16 := UInt16.ofNat (min n.toNat 65535)

/-- Sort rule names in ascending order and drop repetitions. -/
def canonicalizeRules (rules : List RuleId) : List RuleId :=
  (rules.insertionSort (· ≤ ·)).destutter (· ≠ ·)

/-- Move the ends of an identity segment to those of its successor. -/
def Segment.extendTo (last : Segment) (src dst : Span) : Segment :=
  { last with
    src := ⟨⟨last.src.byte.start, src.byte.stop⟩, ⟨last.src.char.start, src.char.stop⟩⟩
    dst := ⟨⟨last.dst.byte.start, dst.byte.stop⟩, ⟨last.dst.char.start, dst.char.stop⟩⟩ }

/-- Append an identity range, extending a trailing identity segment in place. -/
def pushIdentity (segments : List Segment) (src dst : Span) : List Segment :=
  match segments.getLast? with
  | some last =>
      if last.kind = .identity then segments.dropLast ++ [last.extendTo src dst]
      else segments ++ [⟨src, dst, .identity, [], {}⟩]
  | none => segments ++ [⟨src, dst, .identity, [], {}⟩]

/-- Fold identity segments that a composition has split. -/
def mergeAdjacentIdentity (segments : List Segment) : List Segment :=
  segments.foldl (fun out segment =>
    if segment.kind = .identity then
      match out.getLast? with
      | some last =>
          if last.kind = .identity then
            out.dropLast ++ [last.extendTo segment.src segment.dst]
          else out ++ [segment]
      | none => out ++ [segment]
    else out ++ [segment]) []

/-! ## Builder -/

/-- Builds the normalised text and its span map at the same time. -/
structure SpanMapBuilder where
  segments : List Segment := []
  out : List Char := []
  srcByte : UInt32 := 0
  srcChar : UInt32 := 0
  dstByte : UInt32 := 0
  dstChar : UInt32 := 0

namespace SpanMapBuilder

def advanceSrc (builder : SpanMapBuilder) (text : List Char) :
    SpanMapBuilder × Span :=
  let srcByte := builder.srcByte + UInt32.ofNat (utf8Len text)
  let srcChar := builder.srcChar + UInt32.ofNat text.length
  ({ builder with srcByte, srcChar },
    ⟨⟨builder.srcByte, srcByte⟩, ⟨builder.srcChar, srcChar⟩⟩)

def advanceDst (builder : SpanMapBuilder) (text : List Char) :
    SpanMapBuilder × Span :=
  let dstByte := builder.dstByte + UInt32.ofNat (utf8Len text)
  let dstChar := builder.dstChar + UInt32.ofNat text.length
  ({ builder with out := builder.out ++ text, dstByte, dstChar },
    ⟨⟨builder.dstByte, dstByte⟩, ⟨builder.dstChar, dstChar⟩⟩)

def pushTransform (builder : SpanMapBuilder) (src dst : Span) (rule : RuleId)
    (cost : NormalizationCost) : SpanMapBuilder :=
  { builder with
    segments := builder.segments ++ [⟨src, dst, classify src dst, [rule], cost⟩] }

/-- Pass a source fragment through; consecutive calls share one segment. -/
def keep (builder : SpanMapBuilder) (text : List Char) : SpanMapBuilder :=
  if text = [] then builder
  else
    let (builder, src) := builder.advanceSrc text
    let (builder, dst) := builder.advanceDst text
    { builder with segments := pushIdentity builder.segments src dst }

/-- Character folding. -/
def replace (builder : SpanMapBuilder) (srcText dstText : List Char) (rule : RuleId) :
    SpanMapBuilder :=
  if srcText = [] then builder
  else
    let (builder, src) := builder.advanceSrc srcText
    let (builder, dst) := builder.advanceDst dstText
    builder.pushTransform src dst rule { replacedChars := clampU16 src.charLen }

/-- Numeral conversion; the cost counts consumed syllables. -/
def numeral (builder : SpanMapBuilder) (srcText dstText : List Char) (rule : RuleId) :
    SpanMapBuilder :=
  if srcText = [] then builder
  else
    let (builder, src) := builder.advanceSrc srcText
    let (builder, dst) := builder.advanceDst dstText
    builder.pushTransform src dst rule { expandedSyllables := clampU16 src.charLen }

/-- Absorb (delete) a source fragment. -/
def absorb (builder : SpanMapBuilder) (srcText : List Char) (rule : RuleId)
    (kind : Absorbed) : SpanMapBuilder :=
  if srcText = [] then builder
  else
    let (builder, src) := builder.advanceSrc srcText
    let dst := Span.emptyAt builder.dstByte builder.dstChar
    let count := clampU16 src.charLen
    let cost : NormalizationCost :=
      match kind with
      | .whitespace => { absorbedWhitespace := count }
      | .separator => { absorbedSeparators := count }
      | .other => {}
    builder.pushTransform src dst rule cost

/-- The normalised text and its map. -/
def finish (builder : SpanMapBuilder) : List Char × SpanMap :=
  (builder.out, ⟨builder.segments⟩)

end SpanMapBuilder

/-! ## Span map operations -/

namespace SpanMap

/-- The map of a text onto itself. -/
def identity (text : List Char) : SpanMap :=
  (({} : SpanMapBuilder).keep text).finish.2

/-- Source end in byte and character coordinates. -/
def srcEnd (map : SpanMap) : UInt32 × UInt32 :=
  match map.segments.getLast? with
  | some segment => (segment.src.byte.stop, segment.src.char.stop)
  | none => (0, 0)

/-- Destination end in byte and character coordinates. -/
def dstEnd (map : SpanMap) : UInt32 × UInt32 :=
  match map.segments.getLast? with
  | some segment => (segment.dst.byte.stop, segment.dst.char.stop)
  | none => (0, 0)

/-- Carry a position from the near side of a segment to its far side. Only the
interior of an identity segment can be entered. -/
def carryPoint (kind : SegmentKind) (near far : Span) (pByte pChar : UInt32) :
    Option (UInt32 × UInt32) :=
  if near.byte.start = pByte then some (far.byte.start, far.char.start)
  else if near.byte.stop = pByte then some (far.byte.stop, far.char.stop)
  else if kind = .identity ∧ near.byte.start < pByte ∧ pByte < near.byte.stop then
    some (far.byte.start + (pByte - near.byte.start),
      far.char.start + (pChar - near.char.start))
  else none

/-- Carry one destination position back to the source. `idx` is the segment
responsible for it. -/
def backwardPoint (map : SpanMap) (idx : Nat) (pByte pChar : UInt32) :
    Result (UInt32 × UInt32) :=
  match map.segments[idx]? with
  | none => .ok map.srcEnd
  | some segment =>
      match carryPoint segment.kind segment.dst segment.src pByte pChar with
      | some point => .ok point
      | none => .error (.spanMapMismatch ("dst byte " ++ toString pByte ++
          " falls inside non-identity segment " ++ toString idx))

/-- Carry one source position forward to the destination. -/
def forwardPoint (map : SpanMap) (idx : Nat) (pByte pChar : UInt32) :
    Result (UInt32 × UInt32) :=
  match map.segments[idx]? with
  | none => .ok map.dstEnd
  | some segment =>
      match carryPoint segment.kind segment.src segment.dst pByte pChar with
      | some point => .ok point
      | none => .error (.spanMapMismatch ("src byte " ++ toString pByte ++
          " falls inside non-identity segment " ++ toString idx))

/-- Group of segments `gi..=i` and `gj..=j` that a legal cut closes. The last
segment of either side may extend past the cut. -/
structure Group where
  innerDone : List Segment
  innerLast : Segment
  innerRest : List Segment
  outerDone : List Segment
  outerLast : Segment
  outerRest : List Segment
  cutByte : UInt32
  cutChar : UInt32

namespace Group

/-- Inner segments left after the group; a partly consumed one stays. -/
def innerNext (group : Group) : List Segment :=
  if group.innerLast.dst.byte.stop ≤ group.cutByte then group.innerRest
  else group.innerLast :: group.innerRest

/-- Outer segments left after the group. -/
def outerNext (group : Group) : List Segment :=
  if group.outerLast.src.byte.stop ≤ group.cutByte then group.outerRest
  else group.outerLast :: group.outerRest

end Group

/-- Widen the current group until both sides can be cut at one position. -/
def widen (bb : UInt32) (innerDone : List Segment) (inner : Segment)
    (innerRest outerDone : List Segment) (outer : Segment) (outerRest : List Segment) :
    Result Group :=
  let close (cutByte cutChar : UInt32) : Group :=
    ⟨innerDone, inner, innerRest, outerDone, outer, outerRest, cutByte, cutChar⟩
  if inner.dst.byte.stop = outer.src.byte.stop then
    .ok (close inner.dst.byte.stop inner.dst.char.stop)
  else if inner.dst.byte.stop < outer.src.byte.stop then
    if outer.kind = .identity then
      .ok (close inner.dst.byte.stop inner.dst.char.stop)
    else
      match innerRest with
      | [] => .error (.spanMapMismatch
          ("inner exhausted while grouping at B byte " ++ toString bb))
      | next :: innerRest =>
          widen bb (innerDone ++ [inner]) next innerRest outerDone outer outerRest
  else
    if inner.kind = .identity then
      .ok (close outer.src.byte.stop outer.src.char.stop)
    else
      match outerRest with
      | [] => .error (.spanMapMismatch
          ("outer exhausted while grouping at B byte " ++ toString bb))
      | next :: outerRest =>
          widen bb innerDone inner innerRest (outerDone ++ [outer]) next outerRest
termination_by innerRest.length + outerRest.length

theorem Group.innerNext_of_le {group : Group}
    (consumed : group.innerLast.dst.byte.stop ≤ group.cutByte) :
    group.innerNext = group.innerRest :=
  if_pos consumed

theorem Group.outerNext_of_le {group : Group}
    (consumed : group.outerLast.src.byte.stop ≤ group.cutByte) :
    group.outerNext = group.outerRest :=
  if_pos consumed

theorem Group.innerNext_length_le (group : Group) :
    group.innerNext.length ≤ (group.innerLast :: group.innerRest).length := by
  unfold innerNext
  split <;> simp

theorem Group.outerNext_length_le (group : Group) :
    group.outerNext.length ≤ (group.outerLast :: group.outerRest).length := by
  unfold outerNext
  split <;> simp

/-- Every closed group consumes at least one segment. -/
theorem widen_consumes {bb : UInt32} {innerDone innerRest outerDone outerRest : List Segment}
    {inner outer : Segment} {group : Group}
    (closed : widen bb innerDone inner innerRest outerDone outer outerRest = .ok group) :
    group.innerNext.length + group.outerNext.length <
      (inner :: innerRest).length + (outer :: outerRest).length := by
  fun_induction widen bb innerDone inner innerRest outerDone outer outerRest with
  | case1 innerDone inner innerRest outerDone outer outerRest close same =>
      cases closed
      have bound := (close inner.dst.byte.stop inner.dst.char.stop).outerNext_length_le
      rw [Group.innerNext_of_le (UInt32.le_refl _)]
      exact Nat.add_lt_add_of_lt_of_le (by simp [close]) bound
  | case2 innerDone inner innerRest outerDone outer outerRest close differ before identity =>
      cases closed
      have bound := (close inner.dst.byte.stop inner.dst.char.stop).outerNext_length_le
      rw [Group.innerNext_of_le (UInt32.le_refl _)]
      exact Nat.add_lt_add_of_lt_of_le (by simp [close]) bound
  | case3 | case6 => exact absurd closed (by simp)
  | case4 innerDone inner outerDone outer outerRest differ before other next innerRest ih =>
      have smaller := ih closed
      simp only [List.length_cons] at *
      omega
  | case5 innerDone inner innerRest outerDone outer outerRest close differ after identity =>
      cases closed
      have bound := (close outer.src.byte.stop outer.src.char.stop).innerNext_length_le
      rw [Group.outerNext_of_le (UInt32.le_refl _)]
      exact Nat.add_lt_add_of_le_of_lt bound (by simp [close])
  | case7 innerDone inner innerRest outerDone outer differ after other next outerRest ih =>
      have smaller := ih closed
      simp only [List.length_cons] at *
      omega

/-- Rules, cost, and identity flag accumulated over the segments of a group. -/
def gather (segments : List Segment) (rules : List RuleId) (cost : NormalizationCost)
    (allIdentity : Bool) : List RuleId × NormalizationCost × Bool :=
  segments.foldl (fun (rules, cost, allIdentity) segment =>
    if segment.kind = .identity then (rules, cost, allIdentity)
    else (rules ++ segment.rules, cost.add segment.cost, false))
    (rules, cost, allIdentity)

/-- The segment that stands for a closed group. -/
def groupSegment (group : Group) (src dst : Span) : Segment :=
  let (rules, cost, allIdentity) :=
    gather (group.innerDone ++ [group.innerLast]) [] {} true
  let (rules, cost, allIdentity) :=
    gather (group.outerDone ++ [group.outerLast]) rules cost allIdentity
  ⟨src, dst, if allIdentity then .identity else classify src dst,
    canonicalizeRules rules, cost⟩

/-- Merge traversal of two tables. `is` and `js` are the segments from the
source's indices `i` and `j` on; `bb` and `bc` are the position in the shared
middle text. -/
def composeLoop (inner outer : SpanMap) (is js : List Segment) (bb bc : UInt32)
    (out : List Segment) : Result (List Segment) :=
  let i := inner.segments.length - is.length
  let j := outer.segments.length - js.length
  let exhausted : Error := .spanMapMismatch
    ("segment exhausted at B byte " ++ toString bb ++ " (inner " ++ toString i ++ "/" ++
      toString inner.segments.length ++ ", outer " ++ toString j ++ "/" ++
      toString outer.segments.length ++ ")")
  let insertion : Error := .spanMapMismatch
    ("outer segment " ++ toString j ++
      " has an empty source range; insertion is not supported")
  match is, js with
  | [], [] => .ok out
  | [], segJ :: _ => if segJ.src.isEmpty then .error insertion else .error exhausted
  | segI :: restI, js =>
      if segI.dst.isEmpty then
        match outer.forwardPoint j bb bc with
        | .error error => .error error
        | .ok (cb, cc) =>
            composeLoop inner outer restI js bb bc
              (out ++ [⟨segI.src, Span.emptyAt cb cc, .delete, segI.rules, segI.cost⟩])
      else
        match js with
        | [] => .error exhausted
        | segJ :: restJ =>
            if segJ.src.isEmpty then .error insertion
            else
              match closed : widen bb [] segI restI [] segJ restJ with
              | .error error => .error error
              | .ok group =>
                  let iEnd := i + group.innerDone.length
                  let jEnd := j + group.outerDone.length
                  match inner.backwardPoint i bb bc,
                    inner.backwardPoint iEnd group.cutByte group.cutChar,
                    outer.forwardPoint j bb bc,
                    outer.forwardPoint jEnd group.cutByte group.cutChar with
                  | .error error, _, _, _ => .error error
                  | .ok _, .error error, _, _ => .error error
                  | .ok _, .ok _, .error error, _ => .error error
                  | .ok _, .ok _, .ok _, .error error => .error error
                  | .ok (ab0, ac0), .ok (ab1, ac1), .ok (cb0, cc0), .ok (cb1, cc1) =>
                      have := widen_consumes closed
                      composeLoop inner outer group.innerNext group.outerNext
                        group.cutByte group.cutChar
                        (out ++ [groupSegment group ⟨⟨ab0, ab1⟩, ⟨ac0, ac1⟩⟩
                          ⟨⟨cb0, cb1⟩, ⟨cc0, cc1⟩⟩])
termination_by is.length + js.length

/-- `(a, b)` as `Debug` prints it. -/
def debugPair (pair : UInt32 × UInt32) : String :=
  "(" ++ toString pair.1 ++ ", " ++ toString pair.2 ++ ")"

/-- Compose a map from `A` to `B` with a map from `B` to `C`. -/
def compose (inner outer : SpanMap) : Result SpanMap :=
  if inner.dstEnd ≠ outer.srcEnd then
    .error (.spanMapMismatch ("inner output " ++ debugPair inner.dstEnd ++
      " != outer input " ++ debugPair outer.srcEnd))
  else
    match composeLoop inner outer inner.segments outer.segments 0 0 [] with
    | .error error => .error error
    | .ok out => .ok ⟨mergeAdjacentIdentity out⟩

/-- `partition_point`: how many leading segments satisfy the predicate.  The
callers' predicates hold on a leading part of the table. -/
def partitionPoint (map : SpanMap) (below : Segment → Bool) : Nat :=
  (map.segments.takeWhile below).length

/-- Lookup at a place that no segment covers. -/
def pointSource (byte char : UInt32) : SourceSpan := ⟨Span.emptyAt byte char, false, [], {}⟩

/-- Start of a lookup in its first segment, and whether it was widened. -/
def sourceStart (first : Segment) (dst : Span) : (UInt32 × UInt32) × Bool :=
  if first.kind = .identity ∧ first.dst.byte.start < dst.byte.start then
    ((first.src.byte.start + (dst.byte.start - first.dst.byte.start),
      first.src.char.start + (dst.char.start - first.dst.char.start)), false)
  else
    ((first.src.byte.start, first.src.char.start), dst.byte.start ≠ first.dst.byte.start)

/-- End of a lookup in its last segment, and whether it was widened. -/
def sourceStop (last : Segment) (dst : Span) : (UInt32 × UInt32) × Bool :=
  if last.kind = .identity ∧ dst.byte.stop < last.dst.byte.stop then
    ((last.src.byte.start + (dst.byte.stop - last.dst.byte.start),
      last.src.char.start + (dst.char.stop - last.dst.char.start)), false)
  else
    ((last.src.byte.stop, last.src.char.stop), dst.byte.stop ≠ last.dst.byte.stop)

/-- Carry a normalised range back to the source. -/
def toSource (map : SpanMap) (dst : Span) : SourceSpan :=
  if map.segments = [] then pointSource 0 0
  else
    let firstIdx := map.partitionPoint (fun segment => segment.dst.byte.stop ≤ dst.byte.start)
    let afterIdx := map.partitionPoint (fun segment => segment.dst.byte.start < dst.byte.stop)
    let covered := (map.segments.take afterIdx).drop firstIdx
    match covered.head?, covered.getLast? with
    | some first, some last =>
        let (start, startSnapped) := sourceStart first dst
        let (stop, stopSnapped) := sourceStop last dst
        let cost := covered.foldl (fun cost segment => cost.add segment.cost) {}
        let rules := covered.flatMap Segment.rules
        ⟨⟨⟨start.1, stop.1⟩, ⟨start.2, stop.2⟩⟩, startSnapped || stopSnapped,
          canonicalizeRules rules, cost⟩
    | _, _ =>
        -- `firstIdx ≥ afterIdx`: a zero-width query, only the position is carried back
        let idx := min firstIdx (map.segments.length - 1)
        match map.backwardPoint idx dst.byte.start dst.char.start with
        | .ok (byte, char) => pointSource byte char
        | .error _ => pointSource map.srcEnd.1 map.srcEnd.2

/-- Consistency of one segment's kind with its lengths and payload. -/
def validateKind (index : Nat) (segment : Segment) : Result Unit :=
  match segment.kind with
  | .identity =>
      if segment.src.byteLen ≠ segment.dst.byteLen ∨
          segment.src.charLen ≠ segment.dst.charLen then
        .error (.spanMapInvariant index "identity segment has unequal lengths")
      else if segment.rules ≠ [] ∨ ¬ segment.cost.isZero then
        .error (.spanMapInvariant index "identity segment carries rules or cost")
      else .ok ()
  | .delete =>
      if ¬ segment.dst.isEmpty ∨ segment.src.isEmpty then
        .error (.spanMapInvariant index "delete segment must consume src and produce nothing")
      else .ok ()
  | .expand =>
      if segment.dst.charLen ≤ segment.src.charLen then
        .error (.spanMapInvariant index "expand segment must grow in chars")
      else .ok ()
  | .replace =>
      if segment.src.isEmpty ∨ segment.dst.isEmpty then
        .error (.spanMapInvariant index "replace segment must have both sides")
      else .ok ()

/-- Text of a contiguity failure on one side. -/
def notContiguous (side : String) (byte char : UInt32) (found : Span) : String :=
  side ++ " not contiguous: expected byte " ++ toString byte ++ " char " ++ toString char ++
    ", found byte " ++ toString found.byte.start ++ " char " ++ toString found.char.start

/-- Segment checks from `index` on, with the ends of the previous segment. -/
def validateFrom (index : Nat) (sb sc db dc : UInt32) : List Segment → Result Unit
  | [] => .ok ()
  | segment :: segments =>
      if segment.src.byte.start ≠ sb ∨ segment.src.char.start ≠ sc then
        .error (.spanMapInvariant index (notContiguous "src" sb sc segment.src))
      else if segment.dst.byte.start ≠ db ∨ segment.dst.char.start ≠ dc then
        .error (.spanMapInvariant index (notContiguous "dst" db dc segment.dst))
      else if segment.src.byte.stop < segment.src.byte.start ∨
          segment.dst.byte.stop < segment.dst.byte.start then
        .error (.spanMapInvariant index "reversed byte range")
      else if segment.src.char.stop < segment.src.char.start ∨
          segment.dst.char.stop < segment.dst.char.start then
        .error (.spanMapInvariant index "reversed char range")
      else
        match validateKind index segment with
        | .error error => .error error
        | .ok () =>
            if segment.src.isEmpty then
              .error (.spanMapInvariant index
                "segment has an empty source range; insertion is not supported")
            else
              validateFrom (index + 1) segment.src.byte.stop segment.src.char.stop
                segment.dst.byte.stop segment.dst.char.stop segments

/-- Order, contiguity and coverage of the table, and kinds that match lengths. -/
def validate (map : SpanMap) : Result Unit := validateFrom 0 0 0 0 0 map.segments

end SpanMap

end AiCoreStack.Pii
