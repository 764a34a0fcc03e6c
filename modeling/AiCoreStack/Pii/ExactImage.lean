import AiCoreStack.Foundation.Rows
import AiCoreStack.Pii.Lookup
import AiCoreStack.Pii.SpanLaws

/-!
# What a lookup returns

A span map is a monotone table in bytes and in characters.  Looking a range up gives the
hull of the pre-images of its places, on both lines, with the rules and the cost of the
segments under it.
-/

namespace AiCoreStack.Pii

open AiCoreStack.Foundation
open AiCoreStack.Foundation.Alignment (Atom Consuming)
open String (utf8Len utf8Len_append)

/-! ## Maps that runs and compositions give -/

/-- Maps between two texts that are obtained from builder runs and compositions, where
every text that takes part is admissible. -/
inductive Obtained (Admissible : List Char → Prop) : List Char → List Char → SpanMap → Prop where
  | run (calls : List Call) (source : Admissible (calls.flatMap Call.source))
      (target : Admissible (build calls).1) :
      Obtained Admissible (calls.flatMap Call.source) (build calls).1 (build calls).2
  | compose {text middle out : List Char} {inner outer map : SpanMap}
      (first : Obtained Admissible text middle inner)
      (second : Obtained Admissible middle out outer)
      (composed : SpanMap.compose inner outer = .ok map) : Obtained Admissible text out map

/-- A map between texts that fit is the table of an alignment. -/
theorem Obtained.exists_atoms {text out : List Char} {map : SpanMap}
    (obtained : Obtained Fits text out map) :
    ∃ atoms : List (Atom Char Weight), Consuming atoms ∧ Alignment.src atoms = text ∧
      Alignment.dst atoms = out ∧ map = tableOf (pack atoms) ∧ Fits text ∧ Fits out := by
  induction obtained with
  | run calls fitsSrc fitsDst =>
      exact ⟨callAtoms calls, consuming_callAtoms calls, src_callAtoms calls,
        (build_text calls).symm, build_eq fitsSrc fitsDst, fitsSrc, fitsDst⟩
  | compose first second composed ihFirst ihSecond =>
      obtain ⟨atoms, consuming, rfl, rfl, rfl, fitsSrc, fitsMiddle⟩ := ihFirst
      obtain ⟨atoms', consuming', middleEq, rfl, rfl, -, fitsDst⟩ := ihSecond
      obtain ⟨result, composes, eq⟩ := compose_eq consuming consuming' middleEq.symm fitsSrc
        fitsMiddle fitsDst
      rw [eq, Except.ok.injEq] at composed
      exact ⟨result, composes.consuming consuming consuming', composes.src_eq,
        composes.dst_eq middleEq.symm, composed.symm, fitsSrc, fitsDst⟩

/-! ## The two lines -/

/-- A coordinate of spans. -/
structure Axis where
  range : Span → Range32
  size : List Char → Nat
  size_append : ∀ left right, size (left ++ right) = size left + size right
  size_pos : ∀ text, text ≠ [] → 0 < size text
  spanAt_start : ∀ before body, Fits (before ++ body) →
    (range (spanAt before body)).start.toNat = size before
  spanAt_stop : ∀ before body, Fits (before ++ body) →
    (range (spanAt before body)).stop.toNat = size (before ++ body)

/-- Bytes. -/
def byteAxis : Axis where
  range := Span.byte
  size := utf8Len
  size_append := utf8Len_append
  size_pos _ := utf8Len_pos
  spanAt_start _ _ fits := (covers_spanAt fits).byteStart
  spanAt_stop _ _ fits := (covers_spanAt fits).byteStop

/-- Characters. -/
def charAxis : Axis where
  range := Span.char
  size := List.length
  size_append _ _ := List.length_append
  size_pos _ := List.length_pos_of_ne_nil
  spanAt_start _ _ fits := (covers_spanAt fits).charStart
  spanAt_stop _ _ fits := (covers_spanAt fits).charStop

namespace Axis

variable (axis : Axis)

/-- A segment as a row of one coordinate. -/
def row (segment : Segment) : Row where
  srcStart := (axis.range segment.src).start.toNat
  srcStop := (axis.range segment.src).stop.toNat
  dstStart := (axis.range segment.dst).start.toNat
  dstStop := (axis.range segment.dst).stop.toNat
  shifts := segment.kind = .identity

theorem row_segment {before after : List Char} {tile : Tile} (fitsSrc : Fits (before ++ tile.src))
    (fitsDst : Fits (after ++ tile.dst)) :
    axis.row (tile.segment before after) =
      ⟨axis.size before, axis.size before + axis.size tile.src, axis.size after,
        axis.size after + axis.size tile.dst, tile.isRun⟩ := by
  have identity := Tile.segment_identity before after tile
  rw [row, Tile.segment_src, Tile.segment_dst, axis.spanAt_start _ _ fitsSrc,
    axis.spanAt_stop _ _ fitsSrc, axis.spanAt_start _ _ fitsDst, axis.spanAt_stop _ _ fitsDst,
    axis.size_append, axis.size_append]
  cases isRun : tile.isRun <;> simp [identity, isRun]

theorem size_nil : axis.size [] = 0 := by
  have twice := axis.size_append [] []
  rw [List.append_nil] at twice
  omega

theorem size_leads {left right : List Char} (leading : left <+: right) :
    axis.size left ≤ axis.size right := by
  obtain ⟨rest, rfl⟩ := leading
  rw [axis.size_append]
  exact Nat.le_add_right _ _

theorem size_lt_iff {left right text : List Char} (leadsLeft : left <+: text)
    (leadsRight : right <+: text) : axis.size left < axis.size right ↔ left.length < right.length :=
  size_lt_iff_length axis.size_append axis.size_pos leadsLeft leadsRight

theorem size_le_iff {left right text : List Char} (leadsLeft : left <+: text)
    (leadsRight : right <+: text) :
    axis.size left ≤ axis.size right ↔ left.length ≤ right.length := by
  rw [← Nat.not_lt, axis.size_lt_iff leadsRight leadsLeft, Nat.not_lt]

end Axis

/-- The table of a tile list is monotone on either line. -/
theorem layout_monotone (axis : Axis) {before after : List Char} {tiles : List Tile}
    (solid : Solid tiles) (fitsSrc : Fits (before ++ srcText tiles))
    (fitsDst : Fits (after ++ dstText tiles)) :
    Monotone ((layout before after tiles).map axis.row) := by
  have exactRow : ∀ segment ∈ layout before after tiles, ∃ left tile right,
      tiles = left ++ tile :: right ∧ axis.row segment =
        ⟨axis.size (before ++ srcText left), axis.size (before ++ srcText left) + axis.size tile.src,
          axis.size (after ++ dstText left), axis.size (after ++ dstText left) + axis.size tile.dst,
          tile.isRun⟩ := by
    intro segment member
    obtain ⟨left, tile, right, rfl, rfl⟩ := mem_layout member
    refine ⟨left, tile, right, rfl, axis.row_segment ?_ ?_⟩
    · rw [srcText_append, srcText_cons, ← List.append_assoc, ← List.append_assoc] at fitsSrc
      exact fitsSrc.of_append_left
    · rw [dstText_append, dstText_cons, ← List.append_assoc, ← List.append_assoc] at fitsDst
      exact fitsDst.of_append_left
  constructor
  · clear exactRow
    induction tiles generalizing before after with
    | nil => exact .nil
    | cons tile tiles ih =>
        rw [srcText_cons, ← List.append_assoc] at fitsSrc
        rw [dstText_cons, ← List.append_assoc] at fitsDst
        rw [layout_cons, List.map_cons, List.pairwise_cons]
        refine ⟨?_, ih (solid_cons.mp solid).2 fitsSrc fitsDst⟩
        intro row member
        obtain ⟨segment, inside, rfl⟩ := List.mem_map.mp member
        obtain ⟨left, other, right, rfl, rfl⟩ := mem_layout inside
        rw [srcText_append, srcText_cons, ← List.append_assoc, ← List.append_assoc] at fitsSrc
        rw [dstText_append, dstText_cons, ← List.append_assoc, ← List.append_assoc] at fitsDst
        rw [axis.row_segment fitsSrc.of_append_left.of_append_left.of_append_left
            fitsDst.of_append_left.of_append_left.of_append_left,
          axis.row_segment fitsSrc.of_append_left fitsDst.of_append_left]
        simp only [Row.Before, axis.size_append]
        omega
  · intro row member
    obtain ⟨segment, inside, rfl⟩ := List.mem_map.mp member
    obtain ⟨left, tile, right, rfl, rowEq⟩ := exactRow segment inside
    have nonempty : tile.src ≠ [] := solid tile (by simp)
    have positive := axis.size_pos _ nonempty
    rw [rowEq]
    refine ⟨by dsimp only; omega, by dsimp only; omega, ?_⟩
    intro shifts
    rw [Tile.isRun_dst shifts]
    dsimp only
    omega

/-- The table of a tile list leaves out no place. -/
theorem layout_covers (axis : Axis) {before after : List Char} {tiles : List Tile}
    (fitsSrc : Fits (before ++ srcText tiles)) (fitsDst : Fits (after ++ dstText tiles))
    {place : Nat} (below : axis.size after ≤ place)
    (above : place < axis.size after + axis.size (dstText tiles)) :
    ∃ segment ∈ layout before after tiles,
      (axis.row segment).dstStart ≤ place ∧ place < (axis.row segment).dstStop := by
  induction tiles generalizing before after with
  | nil =>
      rw [dstText_nil, axis.size_nil] at above
      omega
  | cons tile tiles ih =>
      rw [srcText_cons, ← List.append_assoc] at fitsSrc
      rw [dstText_cons, ← List.append_assoc] at fitsDst
      rw [dstText_cons, axis.size_append] at above
      by_cases here : place < axis.size after + axis.size tile.dst
      · refine ⟨_, List.mem_cons_self, ?_⟩
        rw [axis.row_segment fitsSrc.of_append_left fitsDst.of_append_left]
        exact ⟨below, here⟩
      · rw [Nat.not_lt, ← axis.size_append] at here
        obtain ⟨segment, member, inside⟩ := ih fitsSrc fitsDst here
          (by rw [axis.size_append]; omega)
        exact ⟨segment, List.mem_cons_of_mem _ member, inside⟩

/-! ## The ends of a lookup -/

/-- The first and the last row under a range, and where the lookup's ends lie in them. -/
theorem toSource_reaches (axis : Axis) {tiles : List Tile} (solid : Solid tiles)
    (fitsSrc : Fits (srcText tiles)) (fitsDst : Fits (dstText tiles)) {piece : Piece}
    {after : List Char} (inText : piece.In (dstText tiles) after) (nonempty : piece.body ≠ []) :
    ∃ first last, Reaches ((tableOf tiles).segments.map axis.row)
        (axis.range piece.span).start.toNat (axis.range piece.span).stop.toNat
        (axis.row first) (axis.row last) ∧
      (axis.range ((tableOf tiles).toSource piece.span).span).start.toNat =
        (axis.row first).pullStart (axis.range piece.span).start.toNat ∧
      (axis.range ((tableOf tiles).toSource piece.span).span).stop.toNat =
        (axis.row last).pullStop (axis.range piece.span).stop.toNat ∧
      ((tableOf tiles).toSource piece.span).snapped =
        ((SpanMap.sourceStart first piece.span).2 || (SpanMap.sourceStop last piece.span).2) ∧
      first ∈ (tableOf tiles).segments ∧ last ∈ (tableOf tiles).segments := by
  have leads : piece.through <+: dstText tiles := ⟨after, inText.symm⟩
  have leadsBefore : piece.before <+: dstText tiles := (List.prefix_append _ _).trans leads
  have fitsPiece : Fits (piece.before ++ piece.body) := fitsDst.of_leads leads
  have starts : (axis.range piece.span).start.toNat = axis.size piece.before :=
    axis.spanAt_start _ _ fitsPiece
  have stops : (axis.range piece.span).stop.toNat = axis.size piece.through :=
    axis.spanAt_stop _ _ fitsPiece
  obtain ⟨left, first, right, left', last, right', ⟨split, below, above, start⟩,
    ⟨split', below', above', stop⟩, -, snapped⟩ := toSource_ends fitsDst inText nonempty
  obtain ⟨source, rest, inSource, someSource, spanEq, beforeEq, throughEq⟩ :=
    toSource_piece solid fitsDst inText nonempty
  have fitsSource : Fits (source.before ++ source.body) := fitsSrc.of_leads ⟨rest, inSource.symm⟩
  have inTable {left right : List Tile} {tile : Tile} (split : tiles = left ++ tile :: right) :
      tile.segment (srcText left) (dstText left) ∈ (tableOf tiles).segments := by
    rw [split, tableOf, layout_split]
    simp
  have rowEq {left right : List Tile} {tile : Tile} (split : tiles = left ++ tile :: right) :
      axis.row (tile.segment (srcText left) (dstText left)) =
        ⟨axis.size (srcText left), axis.size (srcText left) + axis.size tile.src,
          axis.size (dstText left), axis.size (dstText left) + axis.size tile.dst, tile.isRun⟩ := by
    apply axis.row_segment
    · rw [split, srcText_append, srcText_cons, ← List.append_assoc] at fitsSrc
      exact fitsSrc.of_append_left
    · rw [split, dstText_append, dstText_cons, ← List.append_assoc] at fitsDst
      exact fitsDst.of_append_left
  have leadsLeft {left right : List Tile} {tile : Tile} (split : tiles = left ++ tile :: right) :
      dstText left <+: dstText tiles ∧ dstText left ++ tile.dst <+: dstText tiles := by
    rw [split]
    exact ⟨dstText_left_leads, dstText_tile_leads⟩
  refine ⟨_, _, ⟨List.mem_map_of_mem (inTable split), ?_, ?_, List.mem_map_of_mem (inTable split'),
    ?_, ?_, ?_⟩, ?_, ?_, snapped, inTable split, inTable split'⟩
  · rw [rowEq split, starts]
    exact (axis.size_le_iff (leadsLeft split).1 leadsBefore).mpr below
  · have reach := (axis.size_lt_iff leadsBefore (leadsLeft split).2).mpr above
    rw [axis.size_append] at reach
    rwa [rowEq split, starts]
  · rw [rowEq split', stops]
    exact (axis.size_lt_iff (leadsLeft split').1 leads).mpr below'
  · have reach := (axis.size_le_iff leads (leadsLeft split').2).mpr above'
    rw [axis.size_append] at reach
    rwa [rowEq split', stops]
  · rw [starts, stops, axis.size_lt_iff leadsBefore leads, Piece.through, List.length_append]
    exact Nat.lt_add_of_pos_right (List.length_pos_of_ne_nil nonempty)
  · have inner := leading_split (dstText_split ▸ split ▸ leadsBefore) below (by omega)
    have sized := congrArg axis.size inner
    rw [axis.size_append] at sized
    rw [spanEq, Piece.span, axis.spanAt_start _ _ fitsSource, beforeEq, start, rowEq split, starts,
      Row.pullStart, axis.size_append, sized, Nat.add_sub_cancel_left]
    cases isRun : first.isRun with
    | true => rw [if_pos rfl, if_pos rfl, Tile.isRun_dst isRun]
    | false => simp [axis.size_nil]
  · have inner := leading_split (dstText_split ▸ split' ▸ leads) (by omega) above'
    have sized := congrArg axis.size inner
    rw [axis.size_append] at sized
    rw [spanEq, Piece.span, axis.spanAt_stop _ _ fitsSource]
    change axis.size source.through = _
    rw [throughEq, stop, rowEq split', stops,
      Row.pullStop, axis.size_append, sized, Nat.add_sub_cancel_left]
    cases isRun : last.isRun with
    | true => rw [if_pos rfl, if_pos rfl, Tile.isRun_dst isRun]
    | false => rfl

/-! ## Rules and cost -/

/-- Whether a segment lies under a range: a deletion only strictly inside it. -/
def Segment.under (dst : Span) (segment : Segment) : Bool :=
  !(segment.dst.byte.stop ≤ dst.byte.start) && segment.dst.byte.start < dst.byte.stop

/-- Rules and cost of a lookup are those of the segments between the two searches. -/
theorem toSource_payload_covered (map : SpanMap) (dst : Span) :
    let covered := (map.segments.take
      (map.partitionPoint fun segment => segment.dst.byte.start < dst.byte.stop)).drop
        (map.partitionPoint fun segment => segment.dst.byte.stop ≤ dst.byte.start)
    (map.toSource dst).rules = canonicalizeRules (covered.flatMap Segment.rules) ∧
      (map.toSource dst).cost = covered.foldl (fun cost segment => cost.add segment.cost) {} := by
  intro covered
  have none : canonicalizeRules [] = [] := rfl
  rw [SpanMap.toSource]
  split
  next empty => simp [covered, empty, SpanMap.pointSource, none]
  next nonempty =>
    dsimp only
    split
    next first last head tail => exact ⟨rfl, rfl⟩
    next absent =>
      have noneCovered : covered = [] := by
        cases coveredEq : covered with
        | nil => rfl
        | cons first rest =>
            have head : covered.head? = some first := by rw [coveredEq, List.head?_cons]
            have nonempty : covered ≠ [] := by simp [coveredEq]
            exact (absent first _ head (List.getLast?_eq_some_getLast nonempty)).elim
      rw [noneCovered]
      split <;> simp [SpanMap.pointSource, none]

/-- In a monotone table these are the segments under the range. -/
theorem toSource_payload {map : SpanMap} (monotone : Monotone (map.segments.map byteAxis.row))
    (dst : Span) :
    (map.toSource dst).rules =
        canonicalizeRules ((map.segments.filter (Segment.under dst)).flatMap Segment.rules) ∧
      (map.toSource dst).cost = ((map.segments.filter (Segment.under dst)).map Segment.cost).sum := by
  have ordered := List.pairwise_map.mp monotone.ordered
  have forward : ∀ segment ∈ map.segments,
      segment.dst.byte.start.toNat ≤ segment.dst.byte.stop.toNat := by
    intro segment member
    exact (monotone.sound _ (List.mem_map_of_mem member)).forward
  have skips : map.segments.Pairwise fun left right =>
      decide (right.dst.byte.stop ≤ dst.byte.start) = true →
        decide (left.dst.byte.stop ≤ dst.byte.start) = true := by
    apply ordered.imp_of_mem
    intro left right inLeft inRight before
    have order : left.dst.byte.stop.toNat ≤ right.dst.byte.start.toNat := before.2
    have width := forward right inRight
    simp only [decide_eq_true_eq, UInt32.le_iff_toNat_le]
    omega
  have reaches : map.segments.Pairwise fun left right =>
      decide (right.dst.byte.start < dst.byte.stop) = true →
        decide (left.dst.byte.start < dst.byte.stop) = true := by
    apply ordered.imp_of_mem
    intro left right inLeft inRight before
    have order : left.dst.byte.stop.toNat ≤ right.dst.byte.start.toNat := before.2
    have width := forward left inLeft
    simp only [decide_eq_true_eq, UInt32.lt_iff_toNat_lt]
    omega
  obtain ⟨rulesEq, costEq⟩ := toSource_payload_covered map dst
  have covered := take_drop_eq_filter skips reaches
  change (map.segments.take (map.partitionPoint _)).drop (map.partitionPoint _) =
    map.segments.filter (Segment.under dst) at covered
  rw [covered] at rulesEq costEq
  refine ⟨rulesEq, costEq.trans ?_⟩
  rw [List.sum_eq_foldl, List.foldl_map]
  rfl

/-! ## Snapping -/

/-- A range that starts or stops strictly inside a rewritten segment. -/
def Snaps (map : SpanMap) (dst : Span) : Prop :=
  ∃ segment ∈ map.segments, segment.kind ≠ .identity ∧
    ((segment.dst.byte.start < dst.byte.start ∧ dst.byte.start < segment.dst.byte.stop) ∨
      (segment.dst.byte.start < dst.byte.stop ∧ dst.byte.stop < segment.dst.byte.stop))

theorem sourceStart_snapped {first : Segment} {dst : Span}
    (below : first.dst.byte.start ≤ dst.byte.start) :
    (SpanMap.sourceStart first dst).2 = true ↔
      first.kind ≠ .identity ∧ first.dst.byte.start < dst.byte.start := by
  rw [UInt32.le_iff_toNat_le] at below
  simp only [SpanMap.sourceStart, UInt32.lt_iff_toNat_lt]
  split
  next inside => simp [inside.1]
  next outside =>
    simp only [ne_eq, decide_eq_true_eq, ← UInt32.toNat_inj]
    constructor
    · intro differs
      have strict : first.dst.byte.start.toNat < dst.byte.start.toNat := by omega
      exact ⟨fun identity => outside ⟨identity, strict⟩, strict⟩
    · rintro ⟨-, strict⟩
      omega

theorem sourceStop_snapped {last : Segment} {dst : Span}
    (above : dst.byte.stop ≤ last.dst.byte.stop) :
    (SpanMap.sourceStop last dst).2 = true ↔
      last.kind ≠ .identity ∧ dst.byte.stop < last.dst.byte.stop := by
  rw [UInt32.le_iff_toNat_le] at above
  simp only [SpanMap.sourceStop, UInt32.lt_iff_toNat_lt]
  split
  next inside => simp [inside.1]
  next outside =>
    simp only [ne_eq, decide_eq_true_eq, ← UInt32.toNat_inj]
    constructor
    · intro differs
      have strict : dst.byte.stop.toNat < last.dst.byte.stop.toNat := by omega
      exact ⟨fun identity => outside ⟨identity, strict⟩, strict⟩
    · rintro ⟨-, strict⟩
      omega

/-! ## The exact image -/

/-- The range that a lookup returns lies within that of another lookup. -/
def Span.Within (inner outer : Span) : Prop :=
  (outer.byte.start ≤ inner.byte.start ∧ inner.byte.stop ≤ outer.byte.stop) ∧
    outer.char.start ≤ inner.char.start ∧ inner.char.stop ≤ outer.char.stop

/-- What a lookup returns is the exact inverse image of the range. -/
structure ExactImage (map : SpanMap) (dst : Span) : Prop where
  /-- Every byte has a pre-image. -/
  total : ∀ place, dst.byte.start.toNat ≤ place → place < dst.byte.stop.toNat →
    ∃ origin, Image (map.segments.map byteAxis.row) place (place + 1) origin
  /-- The bytes are the hull of the pre-images of the bytes. -/
  bytes : ∀ origin,
    (map.toSource dst).span.byte.start.toNat ≤ origin ∧
        origin < (map.toSource dst).span.byte.stop.toNat ↔
      Hull (Image (map.segments.map byteAxis.row) dst.byte.start.toNat dst.byte.stop.toNat) origin
  /-- So are the characters. -/
  chars : ∀ origin,
    (map.toSource dst).span.char.start.toNat ≤ origin ∧
        origin < (map.toSource dst).span.char.stop.toNat ↔
      Hull (Image (map.segments.map charAxis.row) dst.char.start.toNat dst.char.stop.toNat) origin
  /-- A deletion strictly inside the range is included. -/
  interior : ∀ segment ∈ map.segments, segment.dst.byte.start = segment.dst.byte.stop →
    segment.under dst = true → segment.src.Within (map.toSource dst).span
  /-- A deletion at an edge or beyond is excluded. -/
  edges : ∀ segment ∈ map.segments, segment.dst.byte.start = segment.dst.byte.stop →
    segment.under dst = false →
      segment.src.byte.stop ≤ (map.toSource dst).span.byte.start ∨
        (map.toSource dst).span.byte.stop ≤ segment.src.byte.start
  snapped : (map.toSource dst).snapped = true ↔ Snaps map dst
  rules : (map.toSource dst).rules =
    ((map.segments.filter (Segment.under dst)).flatMap Segment.rules).toFinset.sort (· ≤ ·)
  cost : (map.toSource dst).cost =
    ((map.segments.filter (Segment.under dst)).map Segment.cost).sum

section

variable {tiles : List Tile} (solid : Solid tiles) (fitsSrc : Fits (srcText tiles))
variable (fitsDst : Fits (dstText tiles)) {piece : Piece} {after : List Char}
variable (inText : piece.In (dstText tiles) after) (nonempty : piece.body ≠ [])

include solid fitsSrc fitsDst

theorem tableOf_monotone (axis : Axis) : Monotone ((tableOf tiles).segments.map axis.row) :=
  layout_monotone axis solid (by simpa using fitsSrc) (by simpa using fitsDst)

theorem toSource_total (inText : piece.In (dstText tiles) after) {place : Nat}
    (above : place < piece.span.byte.stop.toNat) :
    ∃ origin, Image ((tableOf tiles).segments.map byteAxis.row) place (place + 1) origin := by
  have leads : piece.through <+: dstText tiles := ⟨after, inText.symm⟩
  have fitsPiece : Fits (piece.before ++ piece.body) := fitsDst.of_leads leads
  have stops : piece.span.byte.stop.toNat = byteAxis.size piece.through :=
    byteAxis.spanAt_stop _ _ fitsPiece
  have within := byteAxis.size_leads leads
  obtain ⟨segment, member, starts', stops'⟩ := @layout_covers byteAxis [] [] tiles
    (by simpa using fitsSrc) (by simpa using fitsDst) place (Nat.zero_le place)
    (by rw [byteAxis.size_nil]; omega)
  have inTable := List.mem_map_of_mem (f := byteAxis.row) member
  have sound := (tableOf_monotone solid fitsSrc fitsDst byteAxis).sound _ inTable
  obtain ⟨origin, preimage⟩ := sound.exists_preimage starts' stops'
  exact ⟨origin, _, inTable, place, Nat.le_refl _, Nat.lt_succ_self _, preimage⟩

include inText nonempty

theorem toSource_hull (axis : Axis) (origin : Nat) :
    (axis.range ((tableOf tiles).toSource piece.span).span).start.toNat ≤ origin ∧
        origin < (axis.range ((tableOf tiles).toSource piece.span).span).stop.toNat ↔
      Hull (Image ((tableOf tiles).segments.map axis.row) (axis.range piece.span).start.toNat
        (axis.range piece.span).stop.toNat) origin := by
  obtain ⟨first, last, reaches, startEq, stopEq, -⟩ :=
    toSource_reaches axis solid fitsSrc fitsDst inText nonempty
  rw [startEq, stopEq]
  exact (tableOf_monotone solid fitsSrc fitsDst axis).hull_image reaches origin

/-- A deletion is one on either line, and inside or outside on both. -/
theorem toSource_deleted (axis : Axis) {segment : Segment}
    (member : segment ∈ (tableOf tiles).segments)
    (empty : segment.dst.byte.start = segment.dst.byte.stop) :
    (segment.under piece.span = true →
      (axis.range ((tableOf tiles).toSource piece.span).span).start ≤
          (axis.range segment.src).start ∧
        (axis.range segment.src).stop ≤
          (axis.range ((tableOf tiles).toSource piece.span).span).stop) ∧
    (segment.under piece.span = false →
      (axis.range segment.src).stop ≤
          (axis.range ((tableOf tiles).toSource piece.span).span).start ∨
        (axis.range ((tableOf tiles).toSource piece.span).span).stop ≤
          (axis.range segment.src).start) := by
  have leads : piece.through <+: dstText tiles := ⟨after, inText.symm⟩
  have leadsBefore : piece.before <+: dstText tiles := (List.prefix_append _ _).trans leads
  have fitsPiece : Fits (piece.before ++ piece.body) := fitsDst.of_leads leads
  obtain ⟨first, last, reaches, startEq, stopEq, -⟩ :=
    toSource_reaches axis solid fitsSrc fitsDst inText nonempty
  have inTable := List.mem_map_of_mem (f := axis.row) member
  obtain ⟨left, tile, right, rfl, segmentEq⟩ := mem_layout member
  rw [List.nil_append, List.nil_append] at segmentEq
  have leadsLeft : dstText left <+: dstText (left ++ tile :: right) := dstText_left_leads
  have fitsTile : Fits (dstText left ++ tile.dst) := fitsDst.of_leads dstText_tile_leads
  have place (axis : Axis) : (axis.range segment.dst).start.toNat = axis.size (dstText left) ∧
      (axis.range segment.dst).stop.toNat = axis.size (dstText left) + axis.size tile.dst := by
    rw [segmentEq, Tile.segment_dst, axis.spanAt_start _ _ fitsTile, axis.spanAt_stop _ _ fitsTile,
      axis.size_append]
    exact ⟨rfl, rfl⟩
  have nothing : tile.dst = [] := by
    have same : (byteAxis.range segment.dst).start.toNat = (byteAxis.range segment.dst).stop.toNat :=
      congrArg UInt32.toNat empty
    rw [(place byteAxis).1, (place byteAxis).2] at same
    by_contra something
    have positive := byteAxis.size_pos _ something
    omega
  have emptyRow : (axis.row segment).dstStart = (axis.row segment).dstStop := by
    change (axis.range segment.dst).start.toNat = (axis.range segment.dst).stop.toNat
    rw [(place axis).1, (place axis).2, nothing, axis.size_nil, Nat.add_zero]
  have inside (axis : Axis) : ((axis.range piece.span).start.toNat < (axis.row segment).dstStart ∧
      (axis.row segment).dstStart < (axis.range piece.span).stop.toNat) ↔
        piece.before.length < (dstText left).length ∧
          (dstText left).length < piece.through.length := by
    change (_ < (axis.range segment.dst).start.toNat ∧ (axis.range segment.dst).start.toNat < _) ↔ _
    rw [(place axis).1, Piece.span, axis.spanAt_start _ _ fitsPiece, axis.spanAt_stop _ _ fitsPiece,
      axis.size_lt_iff leadsBefore leadsLeft]
    exact and_congr_right fun _ => axis.size_lt_iff leadsLeft leads
  have under : segment.under piece.span = true ↔
      (axis.range piece.span).start.toNat < (axis.row segment).dstStart ∧
        (axis.row segment).dstStart < (axis.range piece.span).stop.toNat := by
    rw [Segment.under, ← empty, Bool.and_eq_true, Bool.not_eq_true', decide_eq_false_iff_not,
      UInt32.not_le, decide_eq_true_eq, UInt32.lt_iff_toNat_lt, UInt32.lt_iff_toNat_lt]
    exact (inside byteAxis).trans (inside axis).symm
  have deleted := (tableOf_monotone solid fitsSrc fitsDst axis).deleted reaches inTable emptyRow
  rw [← startEq, ← stopEq, ← under, Bool.not_eq_true] at deleted
  simp only [UInt32.le_iff_toNat_le]
  exact deleted

/-- A lookup is widened exactly when an end of the range cuts a rewritten segment. -/
theorem toSource_snapped :
    ((tableOf tiles).toSource piece.span).snapped = true ↔ Snaps (tableOf tiles) piece.span := by
  obtain ⟨first, last, reaches, -, -, snappedEq, firstMem, lastMem⟩ :=
    toSource_reaches byteAxis solid fitsSrc fitsDst inText nonempty
  have firstStart := UInt32.le_iff_toNat_le.mpr reaches.firstStart
  have firstStop := UInt32.lt_iff_toNat_lt.mpr reaches.firstStop
  have lastStart := UInt32.lt_iff_toNat_lt.mpr reaches.lastStart
  have lastStop := UInt32.le_iff_toNat_le.mpr reaches.lastStop
  have same {segment other : Segment} (member : segment ∈ (tableOf tiles).segments)
      (member' : other ∈ (tableOf tiles).segments) {place : UInt32}
      (inside : segment.dst.byte.start ≤ place ∧ place ≤ segment.dst.byte.stop)
      (inside' : other.dst.byte.start < place ∧ place < other.dst.byte.stop)
      (rewritten : other.kind ≠ .identity) :
      segment.kind ≠ .identity ∧ segment.dst.byte.start < place ∧
        place < segment.dst.byte.stop := by
    simp only [UInt32.le_iff_toNat_le, UInt32.lt_iff_toNat_lt] at inside inside' ⊢
    have rows := (tableOf_monotone solid fitsSrc fitsDst byteAxis).eq_of_inside
      (List.mem_map_of_mem member) (List.mem_map_of_mem member') inside inside'
    have starts : segment.dst.byte.start.toNat = other.dst.byte.start.toNat :=
      congrArg Row.dstStart rows
    have stops : segment.dst.byte.stop.toNat = other.dst.byte.stop.toNat :=
      congrArg Row.dstStop rows
    have kinds : decide (segment.kind = .identity) = decide (other.kind = .identity) :=
      congrArg Row.shifts rows
    rw [starts, stops]
    refine ⟨?_, inside'⟩
    intro identity
    rw [decide_eq_decide] at kinds
    exact rewritten (kinds.mp identity)
  rw [snappedEq, Bool.or_eq_true, sourceStart_snapped firstStart, sourceStop_snapped lastStop]
  constructor
  · rintro (⟨rewritten, strict⟩ | ⟨rewritten, strict⟩)
    · exact ⟨first, firstMem, rewritten, .inl ⟨strict, firstStop⟩⟩
    · exact ⟨last, lastMem, rewritten, .inr ⟨lastStart, strict⟩⟩
  · rintro ⟨segment, member, rewritten, inside | inside⟩
    · left
      have cut := same firstMem member ⟨firstStart, UInt32.le_of_lt firstStop⟩ inside rewritten
      exact ⟨cut.1, cut.2.1⟩
    · right
      have cut := same lastMem member ⟨UInt32.le_of_lt lastStart, lastStop⟩ inside rewritten
      exact ⟨cut.1, cut.2.2⟩

/-- A lookup in the table of a tile list returns the exact inverse image. -/
theorem tableOf_exactImage : ExactImage (tableOf tiles) piece.span where
  total _ _ above := toSource_total solid fitsSrc fitsDst inText above
  bytes := toSource_hull solid fitsSrc fitsDst inText nonempty byteAxis
  chars := toSource_hull solid fitsSrc fitsDst inText nonempty charAxis
  interior segment member empty under :=
    ⟨(toSource_deleted solid fitsSrc fitsDst inText nonempty byteAxis member empty).1 under,
      (toSource_deleted solid fitsSrc fitsDst inText nonempty charAxis member empty).1 under⟩
  edges segment member empty :=
    (toSource_deleted solid fitsSrc fitsDst inText nonempty byteAxis member empty).2
  snapped := toSource_snapped solid fitsSrc fitsDst inText nonempty
  rules := by
    rw [(toSource_payload (tableOf_monotone solid fitsSrc fitsDst byteAxis) piece.span).1,
      canonicalizeRules_eq]
  cost := (toSource_payload (tableOf_monotone solid fitsSrc fitsDst byteAxis) piece.span).2

end

/-- Lookups of ranges of a text are exact, and a range within another one comes back
within what the other one gives. -/
def LooksUpExactly (out : List Char) (map : SpanMap) : Prop :=
  ∀ (piece : Piece) (after : List Char), piece.In out after → piece.body ≠ [] →
    ExactImage map piece.span ∧
      ∀ (other : Piece) (after' : List Char), other.In out after' → other.body ≠ [] →
        other.span.Within piece.span →
          (map.toSource other.span).span.Within (map.toSource piece.span).span

/-- An interval with a place in it lies within another one that has all its places. -/
theorem range_within {inner outer : Range32} (nonempty : inner.start.toNat < inner.stop.toNat)
    (within : ∀ origin, inner.start.toNat ≤ origin ∧ origin < inner.stop.toNat →
      outer.start.toNat ≤ origin ∧ origin < outer.stop.toNat) :
    outer.start ≤ inner.start ∧ inner.stop ≤ outer.stop := by
  have low := within inner.start.toNat ⟨Nat.le_refl _, nonempty⟩
  have high := within (inner.stop.toNat - 1) (by omega)
  rw [UInt32.le_iff_toNat_le, UInt32.le_iff_toNat_le]
  omega

theorem tableOf_looksUpExactly {tiles : List Tile} (solid : Solid tiles)
    (fitsSrc : Fits (srcText tiles)) (fitsDst : Fits (dstText tiles)) :
    LooksUpExactly (dstText tiles) (tableOf tiles) := by
  intro piece after inText nonempty
  refine ⟨tableOf_exactImage solid fitsSrc fitsDst inText nonempty, ?_⟩
  intro other after' inText' nonempty' within
  have grows (axis : Axis)
      (within : (axis.range piece.span).start ≤ (axis.range other.span).start ∧
        (axis.range other.span).stop ≤ (axis.range piece.span).stop) :
      (axis.range ((tableOf tiles).toSource piece.span).span).start ≤
          (axis.range ((tableOf tiles).toSource other.span).span).start ∧
        (axis.range ((tableOf tiles).toSource other.span).span).stop ≤
          (axis.range ((tableOf tiles).toSource piece.span).span).stop := by
    rw [UInt32.le_iff_toNat_le, UInt32.le_iff_toNat_le] at within
    apply range_within
    · obtain ⟨first, last, reaches, startEq, stopEq, -⟩ :=
        toSource_reaches axis solid fitsSrc fitsDst inText' nonempty'
      have image := (tableOf_monotone solid fitsSrc fitsDst axis).image_between reaches
        ((tableOf_monotone solid fitsSrc fitsDst axis).image_start reaches)
      rw [startEq, stopEq]
      exact image.2
    · intro origin inside
      rw [toSource_hull solid fitsSrc fitsDst inText' nonempty' axis] at inside
      rw [toSource_hull solid fitsSrc fitsDst inText nonempty axis]
      exact inside.mono fun place image => image.mono within.1 within.2
  exact ⟨grows byteAxis within.1, grows charAxis within.2⟩

/-- Every map that runs and compositions give between texts that fit looks up exactly. -/
theorem obtained_looksUpExactly {text out : List Char} {map : SpanMap}
    (obtained : Obtained Fits text out map) : LooksUpExactly out map := by
  obtain ⟨atoms, consuming, rfl, rfl, rfl, fitsSrc, fitsDst⟩ := obtained.exists_atoms
  have exact' := tableOf_looksUpExactly (solid_pack consuming) (by rwa [srcText_pack])
    (by rwa [dstText_pack])
  rwa [dstText_pack] at exact'

theorem obtained_looksUpExactly_folded :
    Obtained Fits "x-y".toList "12y".toList
        (build [.replace "x".toList "12".toList "fold", .absorb "-".toList "sep" .separator,
          .keep "y".toList]).2 ∧
      LooksUpExactly "12y".toList
        (build [.replace "x".toList "12".toList "fold", .absorb "-".toList "sep" .separator,
          .keep "y".toList]).2 := by
  have obtained : Obtained Fits "x-y".toList "12y".toList
      (build [.replace "x".toList "12".toList "fold", .absorb "-".toList "sep" .separator,
        .keep "y".toList]).2 :=
    Obtained.run [.replace "x".toList "12".toList "fold", .absorb "-".toList "sep" .separator,
      .keep "y".toList] (by unfold Fits; decide) (by unfold Fits; decide)
  exact ⟨obtained, obtained_looksUpExactly obtained⟩

/-- In a text of `2 ^ 32` bytes the only segment wraps to an empty one, and no byte has a
pre-image. -/
theorem not_looksUpExactly_wrapped :
    Obtained (fun _ => True) (List.replicate (2 ^ 32) 'a') (List.replicate (2 ^ 32) 'a')
        (build [.keep (List.replicate (2 ^ 32) 'a')]).2 ∧
      ¬ LooksUpExactly (List.replicate (2 ^ 32) 'a')
        (build [.keep (List.replicate (2 ^ 32) 'a')]).2 := by
  obtain ⟨text, textEq, width, length, nonempty, feeds⟩ := exists_wrapped
  rw [textEq]
  constructor
  · have ran := @Obtained.run (fun _ => True) [.keep text] trivial trivial
    rwa [← feeds, List.flatMap_singleton] at ran
  · intro looksUp
    obtain ⟨c, rest, shape⟩ := List.exists_cons_of_ne_nil nonempty
    have letter : c = 'a' := by
      have member : c ∈ List.replicate (2 ^ 32) 'a' := by
        rw [textEq, shape]
        exact List.mem_cons_self
      exact List.eq_of_mem_replicate member
    have inText : Piece.In ⟨[], ['a']⟩ text rest := letter ▸ shape
    obtain ⟨origin, row, member, place, low, high, above, below, -⟩ :=
      (looksUp _ _ inText (by simp)).1.total 0 (by decide) (by decide)
    rw [build_keep_wraps width length] at member
    obtain rfl := List.mem_singleton.mp member
    exact absurd below (by simp [Axis.row, byteAxis, Span.emptyAt])

end AiCoreStack.Pii
