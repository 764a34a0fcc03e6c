import AiCoreStack.Foundation.Groups
import AiCoreStack.Pii.StepwiseLookup

/-!
# Evidence under composition

Rules and costs of two maps, and where they are in the composed map.  A group of the
composition takes up every rewritten segment of both maps once, so the counters add up and
a rule is on a composed segment exactly when a rewritten segment that it contains has it.
-/

namespace AiCoreStack.Pii

open AiCoreStack.Foundation
open AiCoreStack.Foundation.Alignment (Atom Consuming Composes Grouped)
open String (utf8Len)

/-! ## Counters -/

/-- The four counters of a cost. -/
inductive Counter where
  | absorbedWhitespace
  | absorbedSeparators
  | expandedSyllables
  | replacedChars

def NormalizationCost.count (cost : NormalizationCost) : Counter → UInt16
  | .absorbedWhitespace => cost.absorbedWhitespace
  | .absorbedSeparators => cost.absorbedSeparators
  | .expandedSyllables => cost.expandedSyllables
  | .replacedChars => cost.replacedChars

/-- Sum of a counter over the segments of a map. -/
def SpanMap.total (map : SpanMap) (counter : Counter) : Nat :=
  (map.segments.map fun segment => (segment.cost.count counter).toNat).sum

theorem NormalizationCost.count_add (first second : NormalizationCost) (counter : Counter) :
    ((first + second).count counter).toNat =
      min ((first.count counter).toNat + (second.count counter).toNat) 65535 := by
  cases counter <;> exact saturatingAdd_toNat _ _

/-- Saturating addition gives the sum of the counters, as far as it fits. -/
theorem count_sum (segments : List Segment) (counter : Counter) :
    ((segments.map Segment.cost).sum.count counter).toNat =
      min ((⟨segments⟩ : SpanMap).total counter) 65535 := by
  induction segments with
  | nil => cases counter <;> rfl
  | cons segment segments ih =>
      rw [List.map_cons, List.sum_cons, NormalizationCost.count_add, ih]
      change _ = min ((segment.cost.count counter).toNat + (⟨segments⟩ : SpanMap).total counter) 65535
      omega

/-- The costs of a table add up to the weight of its alignment. -/
theorem cost_layout (before after : List Char) (tiles : List Tile) :
    ((layout before after tiles).map Segment.cost).sum =
      (Alignment.weight (expand tiles)).cost := by
  induction tiles generalizing before after with
  | nil => rfl
  | cons tile tiles ih =>
      have costEq : (tile.segment before after).cost = tile.weight.cost := by cases tile <;> rfl
      rw [layout_cons, List.map_cons, List.sum_cons, ih, costEq, expand_cons,
        Alignment.weight_append, Tile.weight_atoms]
      rfl

/-- The counters of a composition add up, as far as they fit. -/
theorem total_composes {inner outer result : List (Atom Char Weight)}
    (composes : Composes inner outer result) (counter : Counter) :
    min ((tableOf (pack result)).total counter) 65535 =
      min (min ((tableOf (pack inner)).total counter) 65535 +
        min ((tableOf (pack outer)).total counter) 65535) 65535 := by
  have along (atoms : List (Atom Char Weight)) :
      min ((tableOf (pack atoms)).total counter) 65535 =
        ((Alignment.weight atoms).cost.count counter).toNat := by
    rw [tableOf, ← count_sum, cost_layout, expand_pack]
  rw [along, along, along, composes.weight_eq]
  exact NormalizationCost.count_add _ _ _

/-! ## Rewritten segments of a table -/

/-- Segment of a rewritten block behind some atoms. -/
def blockSegment (front : List (Atom Char Weight)) (source target : List Char) (weight : Weight) :
    Segment :=
  (Tile.block source target weight).segment (Alignment.src front) (Alignment.dst front)

/-- A block of an alignment is a segment of its table. -/
theorem blockSegment_mem {atoms front back : List (Atom Char Weight)} {source target : List Char}
    {weight : Weight} (split : atoms = front ++ .block source target weight :: back) :
    blockSegment front source target weight ∈ (tableOf (pack atoms)).segments := by
  rw [split, pack_append_block, tableOf, layout_split, srcText_pack, dstText_pack]
  exact List.mem_append_right _ List.mem_cons_self

/-- A rewritten segment of a table comes from a block of the alignment. -/
theorem exists_blockSegment {atoms : List (Atom Char Weight)} {segment : Segment}
    (member : segment ∈ (tableOf (pack atoms)).segments) (rewritten : segment.kind ≠ .identity) :
    ∃ front source target weight back, atoms = front ++ .block source target weight :: back ∧
      segment = blockSegment front source target weight := by
  obtain ⟨left, tile, right, split, segmentEq⟩ := mem_layout member
  have atomsEq := congrArg expand split
  rw [expand_pack, expand_append, expand_cons] at atomsEq
  cases tile with
  | run text =>
      rw [segmentEq, ne_eq, Tile.segment_identity] at rewritten
      exact absurd rfl rewritten
  | block source target weight =>
      refine ⟨expand left, source, target, weight, expand right, atomsEq, ?_⟩
      rw [segmentEq, blockSegment, src_expand, dst_expand, List.nil_append, List.nil_append]

/-- The source of an alignment around one of its blocks. -/
theorem src_around {atoms front back : List (Atom Char Weight)} {source target : List Char}
    {weight : Weight} (split : atoms = front ++ .block source target weight :: back) :
    Alignment.src front ++ source ++ Alignment.src back = Alignment.src atoms := by
  rw [split, Alignment.src_append, Alignment.src_cons, Atom.src, List.append_assoc]

theorem mem_weight_rules {rule : RuleId} {atoms : List (Atom Char Weight)} :
    rule ∈ (Alignment.weight atoms).rules ↔ ∃ atom ∈ atoms, rule ∈ atom.weight.rules := by
  induction atoms with
  | nil => simp
  | cons atom atoms ih => simp [ih]

/-- Only a block has a rule. -/
theorem exists_block_of_rule {rule : RuleId} {atom : Atom Char Weight}
    (has : rule ∈ atom.weight.rules) :
    ∃ source target weight, atom = .block source target weight ∧ rule ∈ weight.rules := by
  cases atom with
  | keep letter => exact absurd has (Finset.notMem_empty rule)
  | block source target weight => exact ⟨source, target, weight, rfl, has⟩

theorem mem_blockSegment_rules {rule : RuleId} {front : List (Atom Char Weight)}
    {source target : List Char} {weight : Weight} :
    rule ∈ (blockSegment front source target weight).rules ↔ rule ∈ weight.rules :=
  Finset.mem_sort _

/-! ## Containment -/

/-- A segment of the first map lies in a segment of the composition. -/
def Segment.GoesInto (segment whole : Segment) : Prop := segment.src.Within whole.src

/-- A segment of the second map lies in a segment of the composition: what it reads comes
from the source of that segment, and what it writes is in its destination. -/
def Segment.FollowsInto (first : SpanMap) (segment whole : Segment) : Prop :=
  (first.toSource segment.src).span.Within whole.src ∧ segment.dst.Within whole.dst

/-- Nothing of the evidence of two maps is lost or counted twice in a third one. -/
structure KeepsEvidence (first second map : SpanMap) : Prop where
  totals : ∀ counter, map.total counter = first.total counter + second.total counter
  inner : ∀ segment ∈ first.segments, segment.kind ≠ .identity →
    ∃! whole, whole ∈ map.segments ∧ segment.GoesInto whole
  outer : ∀ segment ∈ second.segments, segment.kind ≠ .identity →
    ∃! whole, whole ∈ map.segments ∧ segment.FollowsInto first whole
  rules : ∀ whole ∈ map.segments, ∀ rule, rule ∈ whole.rules ↔
    (∃ segment ∈ first.segments, segment.kind ≠ .identity ∧ segment.GoesInto whole ∧
      rule ∈ segment.rules) ∨
    ∃ segment ∈ second.segments, segment.kind ≠ .identity ∧ segment.FollowsInto first whole ∧
      rule ∈ segment.rules

section

variable {inner outer result : List (Atom Char Weight)}
variable {front back : List (Atom Char Weight)} {source target : List Char} {weight : Weight}

/-- The segment of the composition that stands for a group. -/
theorem exists_groupSegment (group : Grouped inner outer result) {atom : Atom Char Weight}
    (member : atom ∈ group.innerHead ∨ atom ∈ group.outerHead) (rewritten : atom.isKeep = false) :
    ∃ whole ∈ (tableOf (pack result)).segments,
      whole.src = spanAt (Alignment.src group.innerFront) (Alignment.src group.innerHead) ∧
      whole.dst = spanAt (Alignment.dst group.front) (Alignment.dst group.outerHead) ∧
      ∀ rule ∈ atom.weight.rules, rule ∈ whole.rules := by
  have blockEq := group.atom_eq_block member rewritten
  refine ⟨blockSegment group.front (Alignment.src group.innerHead)
    (Alignment.dst group.outerHead)
    (Alignment.weight group.innerHead + Alignment.weight group.outerHead), ?_, ?_, rfl, ?_⟩
  · have resultEq : result = group.front ++ group.atom :: group.back := group.resultEq
    rw [blockEq] at resultEq
    exact blockSegment_mem resultEq
  · rw [← group.front_src]
    rfl
  · intro rule has
    rw [mem_blockSegment_rules, Weight.add_rules, Finset.mem_union, mem_weight_rules,
      mem_weight_rules]
    exact member.imp (fun member => ⟨atom, member, has⟩) fun member => ⟨atom, member, has⟩

/-- A block of a group of the inner alignment lies in the source of the group. -/
theorem goesInto_group (fitsSrc : Fits (Alignment.src inner))
    (group : Grouped inner outer result) {pre post : List (Atom Char Weight)}
    (headEq : group.innerHead = pre ++ .block source target weight :: post) {whole : Segment}
    (srcEq : whole.src =
      spanAt (Alignment.src group.innerFront) (Alignment.src group.innerHead)) :
    (blockSegment (group.innerFront ++ pre) source target weight).GoesInto whole := by
  have inText : Piece.In ⟨Alignment.src (group.innerFront ++ pre), source⟩ (Alignment.src inner)
      (Alignment.src (post ++ group.innerBack)) := by
    have textEq := congrArg Alignment.src group.innerEq
    rw [headEq] at textEq
    simpa [Piece.In, Piece.through, Atom.src] using textEq
  have inText' : Piece.In ⟨Alignment.src group.innerFront, Alignment.src group.innerHead⟩
      (Alignment.src inner) (Alignment.src group.innerBack) := by
    have textEq := congrArg Alignment.src group.innerEq
    simpa [Piece.In, Piece.through] using textEq
  rw [Segment.GoesInto, srcEq]
  apply Piece.span_within fitsSrc inText inText'
  · rw [Alignment.src_append, List.length_append]
    exact Nat.le_add_right _ _
  · rw [Piece.through, Piece.through, headEq]
    simp only [Alignment.src_append, Alignment.src_cons, Atom.src, List.length_append]
    omega

/-- A block of a group of the outer alignment lies in the group on both sides. -/
theorem followsInto_group (consuming : Consuming inner) (consuming' : Consuming outer)
    (texts : Alignment.dst inner = Alignment.src outer) (fitsSrc : Fits (Alignment.src inner))
    (fitsMiddle : Fits (Alignment.dst inner)) (fitsDst : Fits (Alignment.dst outer))
    (group : Grouped inner outer result) {pre post : List (Atom Char Weight)}
    (headEq : group.outerHead = pre ++ .block source target weight :: post) {whole : Segment}
    (srcEq : whole.src =
      spanAt (Alignment.src group.innerFront) (Alignment.src group.innerHead))
    (dstEq : whole.dst = spanAt (Alignment.dst group.front) (Alignment.dst group.outerHead)) :
    (blockSegment (group.outerFront ++ pre) source target weight).FollowsInto
      (tableOf (pack inner)) whole := by
  obtain ⟨fronts, heads⟩ := group.middle texts
  have outerEq : outer = (group.outerFront ++ pre) ++ .block source target weight ::
      (post ++ group.outerBack) := by
    have split := group.outerEq
    rw [headEq] at split
    simpa using split
  have someSource : source ≠ [] := by
    apply consuming' (.block source target weight)
    rw [outerEq]
    simp
  -- what the block reads, as a piece of the middle text
  have inMiddle : Piece.In ⟨Alignment.src (group.outerFront ++ pre), source⟩
      (Alignment.dst inner) (Alignment.src (post ++ group.outerBack)) := by
    have textEq := texts.trans (congrArg Alignment.src outerEq)
    simpa [Piece.In, Piece.through, Atom.src] using textEq
  obtain ⟨origin, rest, inSource, -, spanEq, beforeEq, throughEq⟩ :=
    toSource_pack consuming fitsMiddle inMiddle someSource
  have width := List.length_pos_of_ne_nil someSource
  replace beforeEq := beforeEq.trans (congrArg (Alignment.startIn · _) group.innerEq)
  replace throughEq := throughEq.trans (congrArg (Alignment.stopIn · _) group.innerEq)
  have inGroup : Piece.In ⟨Alignment.src group.innerFront, Alignment.src group.innerHead⟩
      (Alignment.src inner) (Alignment.src group.innerBack) := by
    have textEq := congrArg Alignment.src group.innerEq
    simpa [Piece.In, Piece.through] using textEq
  constructor
  · change ((tableOf (pack inner)).toSource
      (Piece.span ⟨Alignment.src (group.outerFront ++ pre), source⟩)).span.Within _
    rw [spanEq, srcEq]
    apply Piece.span_within fitsSrc inSource inGroup
    · rw [beforeEq, Alignment.startIn_append_of_le, List.length_append]
      · exact Nat.le_add_right _ _
      · rw [Alignment.src_append, List.length_append, fronts]
        exact Nat.le_add_right _ _
    · have headWidth : (Alignment.src pre).length + source.length ≤
          (Alignment.dst group.innerHead).length := by
        rw [heads, headEq]
        simp only [Alignment.src_append, Alignment.src_cons, Atom.src, List.length_append]
        omega
      have place : (Piece.through ⟨Alignment.src (group.outerFront ++ pre), source⟩).length -
          (Alignment.dst group.innerFront).length =
            (Alignment.src pre).length + source.length := by
        rw [Piece.through, Alignment.src_append, fronts]
        simp only [List.length_append]
        omega
      rw [throughEq, Alignment.stopIn_append_of_lt, place, Piece.through, List.length_append,
        List.length_append]
      · exact Nat.add_le_add_left (Alignment.stopIn_le (by omega) headWidth) _
      · rw [Piece.through, Alignment.src_append, fronts]
        simp only [List.length_append]
        omega
  · have inText : Piece.In ⟨Alignment.dst (group.outerFront ++ pre), target⟩
        (Alignment.dst outer) (Alignment.dst (post ++ group.outerBack)) := by
      have textEq := congrArg Alignment.dst outerEq
      simpa [Piece.In, Piece.through, Atom.dst] using textEq
    have inText' : Piece.In ⟨Alignment.dst group.front, Alignment.dst group.outerHead⟩
        (Alignment.dst outer) (Alignment.dst group.outerBack) := by
      have textEq := congrArg Alignment.dst group.outerEq
      rw [group.front_dst texts]
      simpa [Piece.In, Piece.through] using textEq
    rw [dstEq]
    apply Piece.span_within fitsDst inText inText'
    · rw [group.front_dst texts, Alignment.dst_append, List.length_append]
      exact Nat.le_add_right _ _
    · rw [Piece.through, Piece.through, group.front_dst texts, headEq]
      simp only [Alignment.dst_append, Alignment.dst_cons, Atom.dst, List.length_append]
      omega

end

/-- A range that is not empty lies in one segment of a table at most. -/
theorem eq_of_within {tiles : List Tile} (solid : Solid tiles) (fitsSrc : Fits (srcText tiles))
    (fitsDst : Fits (dstText tiles)) {whole whole' : Segment}
    (member : whole ∈ (tableOf tiles).segments) (member' : whole' ∈ (tableOf tiles).segments)
    {span : Span} (nonempty : span.byte.start < span.byte.stop) (within : span.Within whole.src)
    (within' : span.Within whole'.src) : whole = whole' := by
  have ordered := List.pairwise_map.mp (tableOf_monotone solid fitsSrc fitsDst byteAxis).ordered
  have apart {left right : Segment} (before : (byteAxis.row left).Before (byteAxis.row right))
      (inLeft : span.Within left.src) (inRight : span.Within right.src) : False := by
    have order : left.src.byte.stop.toNat ≤ right.src.byte.start.toNat := before.1
    have low := inRight.1.1
    have high := inLeft.1.2
    rw [UInt32.le_iff_toNat_le] at low high
    rw [UInt32.lt_iff_toNat_lt] at nonempty
    omega
  rcases pairwise_trichotomy ordered member member' with same | before | behind
  · exact same
  · exact (apart before within within').elim
  · exact (apart behind within' within).elim

section

variable {inner outer result : List (Atom Char Weight)} (composes : Composes inner outer result)
variable (consuming : Consuming inner) (consuming' : Consuming outer)
variable (texts : Alignment.dst inner = Alignment.src outer)
variable (fitsSrc : Fits (Alignment.src inner)) (fitsMiddle : Fits (Alignment.dst inner))
variable (fitsDst : Fits (Alignment.dst outer))

include composes consuming consuming' texts fitsSrc fitsDst

/-- A rewritten segment of the inner map goes into one segment, which has its rules. -/
theorem goesInto_unique {segment : Segment}
    (member : segment ∈ (tableOf (pack inner)).segments) (rewritten : segment.kind ≠ .identity) :
    ∃ whole ∈ (tableOf (pack result)).segments, segment.GoesInto whole ∧
      (∀ rule ∈ segment.rules, rule ∈ whole.rules) ∧
      ∀ other ∈ (tableOf (pack result)).segments, segment.GoesInto other → other = whole := by
  obtain ⟨front, source, target, weight, back, split, rfl⟩ := exists_blockSegment member rewritten
  obtain ⟨group, pre, post, headEq, rfl⟩ := composes.group_of_inner split
  have inHead : Atom.block source target weight ∈ group.innerHead := by simp [headEq]
  obtain ⟨whole, inTable, srcEq, -, has⟩ := exists_groupSegment group (.inl inHead) rfl
  have goes := goesInto_group fitsSrc group headEq srcEq
  refine ⟨whole, inTable, goes, ?_, ?_⟩
  · intro rule ruled
    exact has rule (mem_blockSegment_rules.mp ruled)
  · intro other inTable' goes'
    have someSource : source ≠ [] := consuming (.block source target weight) (by simp [split])
    have fits : Fits (Alignment.src (group.innerFront ++ pre) ++ source) :=
      fitsSrc.of_leads ⟨Alignment.src back, src_around split⟩
    refine eq_of_within (solid_pack (composes.consuming consuming consuming')) ?_ ?_ inTable'
      inTable (mark_lt_append fits someSource) goes' goes
    · rwa [srcText_pack, composes.src_eq]
    · rwa [dstText_pack, composes.dst_eq texts]

include fitsMiddle

/-- A rewritten segment of the outer map follows into one segment, which has its rules. -/
theorem followsInto_unique {segment : Segment}
    (member : segment ∈ (tableOf (pack outer)).segments) (rewritten : segment.kind ≠ .identity) :
    ∃ whole ∈ (tableOf (pack result)).segments,
      segment.FollowsInto (tableOf (pack inner)) whole ∧
      (∀ rule ∈ segment.rules, rule ∈ whole.rules) ∧
      ∀ other ∈ (tableOf (pack result)).segments,
        segment.FollowsInto (tableOf (pack inner)) other → other = whole := by
  obtain ⟨front, source, target, weight, back, split, rfl⟩ := exists_blockSegment member rewritten
  obtain ⟨group, pre, post, headEq, rfl⟩ := composes.group_of_outer split
  have inHead : Atom.block source target weight ∈ group.outerHead := by simp [headEq]
  obtain ⟨whole, inTable, srcEq, dstEq, has⟩ := exists_groupSegment group (.inr inHead) rfl
  have follows := followsInto_group consuming consuming' texts fitsSrc fitsMiddle fitsDst group
    headEq srcEq dstEq
  refine ⟨whole, inTable, follows, ?_, ?_⟩
  · intro rule ruled
    exact has rule (mem_blockSegment_rules.mp ruled)
  · intro other inTable' follows'
    have someSource : source ≠ [] := consuming' (.block source target weight) (by simp [split])
    have inMiddle : Piece.In ⟨Alignment.src (group.outerFront ++ pre), source⟩
        (Alignment.dst inner) (Alignment.src back) := by
      rw [texts]
      exact (src_around split).symm
    obtain ⟨origin, rest, inSource, someOrigin, spanEq, -, -⟩ :=
      toSource_pack consuming fitsMiddle inMiddle someSource
    have fits : Fits (origin.before ++ origin.body) := fitsSrc.of_leads ⟨rest, inSource.symm⟩
    refine eq_of_within (solid_pack (composes.consuming consuming consuming')) ?_ ?_ inTable'
      inTable ?_ follows'.1 follows.1
    · rwa [srcText_pack, composes.src_eq]
    · rwa [dstText_pack, composes.dst_eq texts]
    · change ((tableOf (pack inner)).toSource
        (Piece.span ⟨Alignment.src (group.outerFront ++ pre), source⟩)).span.byte.start <
          ((tableOf (pack inner)).toSource
            (Piece.span ⟨Alignment.src (group.outerFront ++ pre), source⟩)).span.byte.stop
      rw [spanEq]
      exact mark_lt_append fits someOrigin

/-- A rule of a composed segment comes from a rewritten segment that lies in it. -/
theorem exists_of_rule {whole : Segment} (member : whole ∈ (tableOf (pack result)).segments)
    {rule : RuleId} (has : rule ∈ whole.rules) :
    (∃ segment ∈ (tableOf (pack inner)).segments, segment.kind ≠ .identity ∧
      segment.GoesInto whole ∧ rule ∈ segment.rules) ∨
    ∃ segment ∈ (tableOf (pack outer)).segments, segment.kind ≠ .identity ∧
      segment.FollowsInto (tableOf (pack inner)) whole ∧ rule ∈ segment.rules := by
  have rewritten : whole.kind ≠ .identity := by
    obtain ⟨left, tile, right, -, rfl⟩ := mem_layout member
    cases tile with
    | run text => exact absurd has (by simp [Tile.segment])
    | block source target weight => simp [Tile.segment_identity, Tile.isRun]
  obtain ⟨front, source, target, weight, back, split, rfl⟩ := exists_blockSegment member rewritten
  obtain ⟨group, rfl, atomEq⟩ := composes.group_of_result split
  rw [mem_blockSegment_rules] at has
  have srcEq : (blockSegment group.front source target weight).src =
      spanAt (Alignment.src group.innerFront) (Alignment.src group.innerHead) := by
    rw [← group.front_src, ← group.atom_src, atomEq]
    rfl
  have dstEq : (blockSegment group.front source target weight).dst =
      spanAt (Alignment.dst group.front) (Alignment.dst group.outerHead) := by
    rw [← group.atom_dst texts, atomEq]
    rfl
  have weightEq : weight = Alignment.weight group.innerHead + Alignment.weight group.outerHead := by
    rw [← Alignment.fuse_weight]
    change _ = group.atom.weight
    rw [atomEq]
    rfl
  rw [weightEq, Weight.add_rules, Finset.mem_union, mem_weight_rules, mem_weight_rules] at has
  rcases has with ⟨atom, inHead, has⟩ | ⟨atom, inHead, has⟩
  · left
    obtain ⟨source', target', weight', rfl, has⟩ := exists_block_of_rule has
    obtain ⟨pre, post, headEq⟩ := List.append_of_mem inHead
    refine ⟨blockSegment (group.innerFront ++ pre) source' target' weight', ?_, ?_, ?_,
      mem_blockSegment_rules.mpr has⟩
    · apply blockSegment_mem
      have innerEq := group.innerEq
      rw [headEq] at innerEq
      simpa using innerEq
    · simp [blockSegment, Tile.segment_identity, Tile.isRun]
    · exact goesInto_group fitsSrc group headEq srcEq
  · right
    obtain ⟨source', target', weight', rfl, has⟩ := exists_block_of_rule has
    obtain ⟨pre, post, headEq⟩ := List.append_of_mem inHead
    refine ⟨blockSegment (group.outerFront ++ pre) source' target' weight', ?_, ?_, ?_,
      mem_blockSegment_rules.mpr has⟩
    · apply blockSegment_mem
      have outerEq := group.outerEq
      rw [headEq] at outerEq
      simpa using outerEq
    · simp [blockSegment, Tile.segment_identity, Tile.isRun]
    · exact followsInto_group consuming consuming' texts fitsSrc fitsMiddle fitsDst group headEq
        srcEq dstEq

/-- A composition keeps the evidence of both maps. -/
theorem tableOf_keepsEvidence
    (bounded : ∀ counter, (tableOf (pack inner)).total counter +
      (tableOf (pack outer)).total counter < 65535) :
    KeepsEvidence (tableOf (pack inner)) (tableOf (pack outer)) (tableOf (pack result)) where
  totals counter := by
    have sums := total_composes composes counter
    have bound := bounded counter
    omega
  inner segment member rewritten := by
    obtain ⟨whole, inTable, goes, -, unique⟩ := goesInto_unique composes consuming consuming' texts
      fitsSrc fitsDst member rewritten
    exact ⟨whole, ⟨inTable, goes⟩, fun other found => unique other found.1 found.2⟩
  outer segment member rewritten := by
    obtain ⟨whole, inTable, follows, -, unique⟩ := followsInto_unique composes consuming consuming'
      texts fitsSrc fitsMiddle fitsDst member rewritten
    exact ⟨whole, ⟨inTable, follows⟩, fun other found => unique other found.1 found.2⟩
  rules whole member rule := by
    constructor
    · exact exists_of_rule composes consuming consuming' texts fitsSrc fitsMiddle fitsDst member
    · rintro (⟨segment, inTable, rewritten, goes, has⟩ | ⟨segment, inTable, rewritten, follows, has⟩)
      · obtain ⟨other, -, -, covers, unique⟩ := goesInto_unique composes consuming consuming' texts
          fitsSrc fitsDst inTable rewritten
        obtain rfl := unique whole member goes
        exact covers rule has
      · obtain ⟨other, -, -, covers, unique⟩ := followsInto_unique composes consuming consuming'
          texts fitsSrc fitsMiddle fitsDst inTable rewritten
        obtain rfl := unique whole member follows
        exact covers rule has

end

/-- The composition of two runs keeps the evidence of both. -/
def ConservesEvidence (first second : List Call) : Prop :=
  ∃ map, SpanMap.compose (build first).2 (build second).2 = .ok map ∧
    KeepsEvidence (build first).2 (build second).2 map

/-- Two runs that feed one another and whose counters together do not saturate. -/
theorem compose_conservesEvidence (first second : List Call)
    (feeds : second.flatMap Call.source = (build first).1)
    (fits0 : Fits (first.flatMap Call.source)) (fits1 : Fits (build first).1)
    (fits2 : Fits (build second).1)
    (bounded : ∀ counter,
      (build first).2.total counter + (build second).2.total counter < 65535) :
    ConservesEvidence first second := by
  rw [ConservesEvidence]
  rw [build_eq fits0 fits1, build_eq (feeds ▸ fits1) fits2] at bounded ⊢
  rw [build_text] at fits1 fits2 feeds
  rw [← src_callAtoms] at fits0 feeds
  have consuming := consuming_callAtoms first
  have consuming' := consuming_callAtoms second
  obtain ⟨result, composes, composed⟩ := compose_eq consuming consuming' feeds.symm fits0 fits1
    fits2
  exact ⟨_, composed, tableOf_keepsEvidence composes consuming consuming' feeds.symm fits0 fits1
    fits2 bounded⟩

theorem compose_conservesEvidence_absorbed :
    (build [.replace "x".toList "1 2".toList "fold", .keep "y".toList]).1 = "1 2y".toList ∧
      ConservesEvidence [.replace "x".toList "1 2".toList "fold", .keep "y".toList]
        [.keep "1".toList, .absorb " ".toList "space" .whitespace, .keep "2y".toList] := by
  refine ⟨by decide, compose_conservesEvidence _ _ (by decide) (by unfold Fits; decide)
    (by unfold Fits; decide) (by unfold Fits; decide) ?_⟩
  intro counter
  cases counter <;> decide

/-- A run that rewrites a whole text has one segment. -/
theorem build_replace {text : List Char} (nonempty : text ≠ []) (fits : Fits text)
    (rule : RuleId) :
    callAtoms [.replace text text rule] =
        [.block text text ⟨{rule}, { replacedChars := Call.count text }⟩] ∧
      (build [.replace text text rule]).1 = text ∧
      (build [.replace text text rule]).2 = tableOf (pack (callAtoms [.replace text text rule])) := by
  have atomsEq : callAtoms [.replace text text rule] =
      [.block text text ⟨{rule}, { replacedChars := Call.count text }⟩] := by
    simp [callAtoms, Call.atoms, Call.source, nonempty, Call.tile, Tile.atoms]
  have textEq : (build [.replace text text rule]).1 = text := by
    rw [build_text, atomsEq, Alignment.dst_cons, Alignment.dst_nil, List.append_nil]
    rfl
  refine ⟨atomsEq, textEq, build_eq ?_ ?_⟩
  · rwa [List.flatMap_singleton]
  · rwa [textEq]

theorem total_block (source target : List Char) (weight : Weight) (counter : Counter) :
    (tableOf (pack [.block source target weight])).total counter =
      (weight.cost.count counter).toNat := by
  rw [SpanMap.total]
  exact Nat.add_zero _

/-- The counters of one segment saturate when two long rewritings meet in it. -/
theorem not_conservesEvidence_saturated {text : List Char} (length : text.length = 40000)
    (fits : Fits text) :
    (∀ counter, (build [.replace text text "fold"]).2.total counter < 65535) ∧
      (∀ counter, (build [.replace text text "case"]).2.total counter < 65535) ∧
      ¬ ConservesEvidence [.replace text text "fold"] [.replace text text "case"] := by
  have nonempty : text ≠ [] := List.ne_nil_of_length_pos (by omega)
  have counted : (Call.count text).toNat = 40000 := by
    rw [Call.count, length]
    decide
  have total (rule : RuleId) (counter : Counter) :
      (build [.replace text text rule]).2.total counter =
        if counter matches .replacedChars then 40000 else 0 := by
    rw [(build_replace nonempty fits rule).2.2, (build_replace nonempty fits rule).1, total_block]
    cases counter with
    | replacedChars => exact counted
    | absorbedWhitespace | absorbedSeparators | expandedSyllables => rfl
  refine ⟨?_, ?_, ?_⟩
  · intro counter
    rw [total]
    split <;> decide
  · intro counter
    rw [total]
    split <;> decide
  · rintro ⟨map, composed, kept⟩
    have sums := kept.totals .replacedChars
    rw [total, total] at sums
    obtain ⟨foldAtoms, -, foldEq⟩ := build_replace nonempty fits "fold"
    obtain ⟨caseAtoms, -, caseEq⟩ := build_replace nonempty fits "case"
    rw [foldEq, caseEq, foldAtoms, caseAtoms] at composed
    generalize (⟨{"fold"}, { replacedChars := Call.count text }⟩ : Weight) = inner at composed
    generalize (⟨{"case"}, { replacedChars := Call.count text }⟩ : Weight) = outer at composed
    have textEq (weight : Weight) :
        Alignment.src [Atom.block text text weight] = text ∧
          Alignment.dst [Atom.block text text weight] = text := by
      simp [Atom.src, Atom.dst]
    have consuming (weight : Weight) : Consuming [Atom.block text text weight] := by
      intro atom member
      rw [List.mem_singleton.mp member]
      exact nonempty
    obtain ⟨result, composes, eq⟩ := compose_eq (consuming inner) (consuming outer)
      ((textEq inner).2.trans (textEq outer).1.symm) (by rwa [(textEq inner).1])
      (by rwa [(textEq inner).2]) (by rwa [(textEq outer).2])
    rw [composed, Except.ok.injEq] at eq
    obtain rfl := composes.unique (consuming outer)
      (.single (Alignment.single_irreducible rfl nonempty))
    rw [eq, Alignment.fuse, if_neg (by simp [Atom.isKeep]), total_block] at sums
    have bound := UInt16.toNat_lt (NormalizationCost.count
      (Alignment.weight [Atom.block text text inner] +
        Alignment.weight [Atom.block text text outer]).cost .replacedChars)
    change _ = 40000 + 40000 at sums
    omega

/-- A text of `2 ^ 32` bytes has no composed map; a folded text of forty thousand letters
that is folded once more has one whose counter saturates. -/
theorem not_conservesEvidence :
    ([Call.keep (List.replicate (2 ^ 32) 'a')].flatMap Call.source =
        (build [.keep (List.replicate (2 ^ 32) 'a')]).1 ∧
      (∀ counter, (build [.keep (List.replicate (2 ^ 32) 'a')]).2.total counter = 0) ∧
      ¬ ConservesEvidence [.keep (List.replicate (2 ^ 32) 'a')]
        [.keep (List.replicate (2 ^ 32) 'a')]) ∧
    [Call.replace (List.replicate 40000 'a') (List.replicate 40000 'a') "case"].flatMap
        Call.source =
      (build [.replace (List.replicate 40000 'a') (List.replicate 40000 'a') "fold"]).1 ∧
    (∀ counter, (build [.replace (List.replicate 40000 'a') (List.replicate 40000 'a')
      "fold"]).2.total counter < 65535) ∧
    (∀ counter, (build [.replace (List.replicate 40000 'a') (List.replicate 40000 'a')
      "case"]).2.total counter < 65535) ∧
    ¬ ConservesEvidence
      [.replace (List.replicate 40000 'a') (List.replicate 40000 'a') "fold"]
      [.replace (List.replicate 40000 'a') (List.replicate 40000 'a') "case"] := by
  constructor
  · obtain ⟨text, textEq, width, length, -, feeds⟩ := exists_wrapped
    rw [textEq]
    refine ⟨feeds, ?_, ?_⟩
    · intro counter
      rw [build_keep_wraps width length]
      cases counter <;> rfl
    · rintro ⟨map, composed, -⟩
      rw [build_keep_wraps width length] at composed
      exact compose_wrapped _ composed
  · generalize textEq : List.replicate 40000 'a' = text
    have length : text.length = 40000 := by rw [← textEq, List.length_replicate]
    have fits : Fits text := by
      rw [Fits, ← textEq, utf8Len_replicate]
      decide
    have nonempty : text ≠ [] := List.ne_nil_of_length_pos (by omega)
    refine ⟨?_, not_conservesEvidence_saturated length fits⟩
    rw [(build_replace nonempty fits "fold").2.1, List.flatMap_singleton]
    rfl

end AiCoreStack.Pii
