import AiCoreStack.Pii.SpanGrouping

/-!
# Composition of span maps

The merge traversal of `compose` refines the composition of alignments: on the
tables of two tile lists it succeeds and returns the table of the composed
alignment, as long as the three texts are representable.  Associativity and the
unit laws of `compose` follow from those of the alignments.
-/

namespace AiCoreStack.Pii

open AiCoreStack.Foundation
open AiCoreStack.Foundation.Alignment (Atom keeps Consuming Composes)
open String (utf8Len utf8Len_nil utf8Len_cons utf8Len_append utf8Len_eq_zero)

/-! ## Partly consumed runs

Only a run can be cut in its interior.  The traversal keeps the segment of the
whole run and remembers the position; the rest of the argument works with the
tiles that remain and the text `used` of the head run that is behind. -/

/-- A tile with the consumed part of its text put back. -/
def Tile.resume (used : List Char) : Tile → Tile
  | run text => run (used ++ text)
  | block source target weight => block source target weight

/-- Put the consumed part of the head run back. -/
def resume (used : List Char) : List Tile → List Tile
  | [] => []
  | tile :: tiles => tile.resume used :: tiles

/-- Only a run at the head can be partly consumed. -/
def Resumable (used : List Char) (tiles : List Tile) : Prop :=
  used = [] ∨ ∃ text tail, tiles = .run text :: tail

/-- Consumed text of the tile that follows a group. -/
def carry (used : List Char) : List Tile → List Char
  | [] => used
  | _ :: _ => []

@[simp] theorem Tile.resume_nil (tile : Tile) : tile.resume [] = tile := by
  cases tile <;> rfl

@[simp] theorem resume_nil (tiles : List Tile) : resume [] tiles = tiles := by
  cases tiles <;> simp [resume]

theorem resume_cons (used : List Char) (tile : Tile) (tiles : List Tile) :
    resume used (tile :: tiles) = tile.resume used :: tiles := rfl

theorem Tile.resume_run (used text : List Char) :
    (Tile.run text).resume used = .run (used ++ text) := rfl

@[simp] theorem resume_length (used : List Char) (tiles : List Tile) :
    (resume used tiles).length = tiles.length := by
  cases tiles <;> rfl

@[simp] theorem Tile.resume_isRun (used : List Char) (tile : Tile) :
    (tile.resume used).isRun = tile.isRun := by
  cases tile <;> rfl

theorem resumable_nil (tiles : List Tile) : Resumable [] tiles := .inl rfl

theorem resume_append_cons (used : List Char) (group : List Tile) (tile : Tile)
    (tail : List Tile) :
    resume used (group ++ tile :: tail) =
      resume used group ++ tile.resume (carry used group) :: tail := by
  cases group <;> simp [resume, carry]

namespace Resumable

variable {used : List Char} {group tail : List Tile} {tile : Tile}

theorem resume_texts (resumable : Resumable used (group ++ tile :: tail)) :
    srcText (resume used group) ++ carry used group = used ++ srcText group ∧
      dstText (resume used group) ++ carry used group = used ++ dstText group := by
  rcases resumable with rfl | ⟨text, rest, split⟩
  · cases group <;> simp [carry, resume]
  · cases group with
    | nil => simp [resume, carry]
    | cons head group =>
        obtain ⟨rfl, -⟩ := List.cons.inj split
        simp [resume, carry, Tile.resume, Tile.src, Tile.dst]

theorem tile_carry (resumable : Resumable used (group ++ tile :: tail)) :
    carry used group = [] ∨ ∃ text, tile = .run text := by
  rcases resumable with rfl | ⟨text, rest, split⟩
  · cases group <;> simp [carry]
  · cases group with
    | nil =>
        obtain ⟨rfl, -⟩ := List.cons.inj split
        exact .inr ⟨text, rfl⟩
    | cons head group => exact .inl rfl

theorem tile_src (resumable : Resumable used (group ++ tile :: tail)) :
    (tile.resume (carry used group)).src = carry used group ++ tile.src := by
  rcases resumable.tile_carry with none | ⟨text, rfl⟩
  · simp [none]
  · rfl

theorem tile_dst (resumable : Resumable used (group ++ tile :: tail)) :
    (tile.resume (carry used group)).dst = carry used group ++ tile.dst := by
  rcases resumable.tile_carry with none | ⟨text, rfl⟩
  · simp [none]
  · rfl

theorem head_src (resumable : Resumable used (tile :: tail)) :
    (tile.resume used).src = used ++ tile.src :=
  @tile_src used [] tail tile resumable

theorem head_dst (resumable : Resumable used (tile :: tail)) :
    (tile.resume used).dst = used ++ tile.dst :=
  @tile_dst used [] tail tile resumable

end Resumable

/-- How a cut divides the tile it falls in: all of it, or a part of a run. -/
inductive Tile.Take : Tile → Tile → List Tile → Prop where
  | whole (tile : Tile) : Take tile tile []
  | part (text : List Char) {rest : List Char} (remains : rest ≠ []) :
      Take (.run (text ++ rest)) (.run text) [.run rest]

/-! ## Carrying positions over a table -/

/-- Corresponding consumed texts on the two sides of a tile. -/
inductive Tile.Reached : Tile → List Char → List Char → Prop where
  | start (tile : Tile) : Reached tile [] []
  | part (text rest : List Char) : Reached (.run (text ++ rest)) text text
  | whole (tile : Tile) : Reached tile tile.src tile.dst

theorem tableOf_get (before : List Tile) (tile : Tile) (after : List Tile) :
    (tableOf (before ++ tile :: after)).segments[before.length]? =
      some (tile.segment (srcText before) (dstText before)) := by
  simp [tableOf, layout_append]

theorem mark_ne_append {before text : List Char} (fits : Fits (before ++ text))
    (nonempty : text ≠ []) : (mark before).1 ≠ (mark (before ++ text)).1 := by
  have positive := utf8Len_pos nonempty
  rw [Ne, mark_eq_iff fits.of_append_left fits, utf8Len_append]
  omega

theorem mark_lt_append {before text : List Char} (fits : Fits (before ++ text))
    (nonempty : text ≠ []) : (mark before).1 < (mark (before ++ text)).1 := by
  have positive := utf8Len_pos nonempty
  rw [mark_lt_iff fits.of_append_left fits, utf8Len_append]
  omega

theorem carryPoint_start (kind : SegmentKind) (near far nearText farText : List Char) :
    SpanMap.carryPoint kind (spanAt near nearText) (spanAt far farText) (mark near).1
      (mark near).2 = some (mark far) := by
  simp [SpanMap.carryPoint, spanAt]

theorem carryPoint_whole (kind : SegmentKind) {near nearText farText : List Char}
    (far : List Char) (fits : Fits (near ++ nearText)) (advances : nearText = [] → farText = []) :
    SpanMap.carryPoint kind (spanAt near nearText) (spanAt far farText)
      (mark (near ++ nearText)).1 (mark (near ++ nearText)).2 =
        some (mark (far ++ farText)) := by
  by_cases empty : nearText = []
  · simpa [empty, advances empty] using carryPoint_start kind near far nearText farText
  · simp only [SpanMap.carryPoint, spanAt_byte, spanAt_char]
    rw [if_neg (mark_ne_append fits empty), if_true]

theorem carryPoint_part {near text rest : List Char} (far : List Char)
    (fits : Fits (near ++ (text ++ rest))) :
    SpanMap.carryPoint .identity (spanAt near (text ++ rest)) (spanAt far (text ++ rest))
      (mark (near ++ text)).1 (mark (near ++ text)).2 = some (mark (far ++ text)) := by
  by_cases started : text = []
  · simpa [started] using carryPoint_start .identity near far (text ++ rest) (text ++ rest)
  by_cases remains : rest = []
  · subst remains
    simpa using carryPoint_whole .identity far (by simpa using fits)
      (fun empty => absurd empty started)
  · have fitsAll : Fits ((near ++ text) ++ rest) := by simpa using fits
    have below := mark_lt_append fitsAll.of_append_left started
    have above := mark_lt_append fitsAll remains
    rw [List.append_assoc] at above
    obtain ⟨byte, char⟩ := mark_append_sub near text
    simp only [SpanMap.carryPoint, spanAt_byte, spanAt_char]
    rw [if_neg (UInt32.ne_of_lt below), if_neg (UInt32.ne_of_lt above).symm,
      if_pos ⟨trivial, below, above⟩, byte, char, mark_append far text]

/-- A reached destination position maps to the reached source position. -/
theorem backwardPoint_eq {before after : List Tile} {tile : Tile} {source target : List Char}
    (reached : tile.Reached source target) (advances : target = [] → source = [])
    (fits : Fits (dstText (before ++ tile :: after))) :
    (tableOf (before ++ tile :: after)).backwardPoint before.length
        (mark (dstText before ++ target)).1 (mark (dstText before ++ target)).2 =
      .ok (mark (srcText before ++ source)) := by
  have fitsTile : Fits (dstText before ++ tile.dst) := by
    simp only [dstText_append, dstText_cons, ← List.append_assoc] at fits
    exact fits.of_append_left
  unfold SpanMap.backwardPoint
  rw [tableOf_get]
  simp only [Tile.segment_src, Tile.segment_dst]
  cases reached with
  | start => simp [carryPoint_start]
  | whole => rw [carryPoint_whole _ _ fitsTile advances]
  | part text rest =>
      have carried := carryPoint_part (srcText before) fitsTile
      simp only [Tile.segment, Tile.src, Tile.dst] at carried ⊢
      rw [carried]

/-- A reached source position maps to the reached destination position. -/
theorem forwardPoint_eq {before after : List Tile} {tile : Tile} {source target : List Char}
    (reached : tile.Reached source target) (advances : source = [] → target = [])
    (fits : Fits (srcText (before ++ tile :: after))) :
    (tableOf (before ++ tile :: after)).forwardPoint before.length
        (mark (srcText before ++ source)).1 (mark (srcText before ++ source)).2 =
      .ok (mark (dstText before ++ target)) := by
  have fitsTile : Fits (srcText before ++ tile.src) := by
    simp only [srcText_append, srcText_cons, ← List.append_assoc] at fits
    exact fits.of_append_left
  unfold SpanMap.forwardPoint
  rw [tableOf_get]
  simp only [Tile.segment_src, Tile.segment_dst]
  cases reached with
  | start => simp [carryPoint_start]
  | whole => rw [carryPoint_whole _ _ fitsTile advances]
  | part text rest =>
      have carried := carryPoint_part (dstText before) fitsTile
      simp only [Tile.segment, Tile.src, Tile.dst] at carried ⊢
      rw [carried]

theorem tableOf_srcEnd (tiles : List Tile) : (tableOf tiles).srcEnd = mark (srcText tiles) := by
  rcases List.eq_nil_or_concat tiles with rfl | ⟨init, last, rfl⟩
  · rfl
  · simp [SpanMap.srcEnd, tableOf, layout_append, Tile.segment_src, spanAt]

theorem tableOf_dstEnd (tiles : List Tile) : (tableOf tiles).dstEnd = mark (dstText tiles) := by
  rcases List.eq_nil_or_concat tiles with rfl | ⟨init, last, rfl⟩
  · rfl
  · simp [SpanMap.dstEnd, tableOf, layout_append, Tile.segment_dst, spanAt]

/-! ## Cursors -/

/-- A position in a table: the tiles behind, the consumed part of the head run,
and the tiles that remain. -/
structure Cursor (tiles behind : List Tile) (used : List Char) (ahead : List Tile) : Prop where
  split : tiles = behind ++ resume used ahead
  resumable : Resumable used ahead

/-- Segments from a cursor on. -/
def segmentsFrom (behind : List Tile) (used : List Char) (ahead : List Tile) : List Segment :=
  layout (srcText behind) (dstText behind) (resume used ahead)

theorem cursor_start (tiles : List Tile) : Cursor tiles [] [] tiles :=
  ⟨by simp, resumable_nil tiles⟩

namespace Cursor

variable {tiles behind group tail left : List Tile} {used : List Char} {tile taken : Tile}

theorem ahead_nil (cursor : Cursor tiles behind used []) : used = [] ∧ tiles = behind := by
  obtain ⟨split, rfl | ⟨text, tail, impossible⟩⟩ := cursor
  · exact ⟨rfl, by simpa using split⟩
  · exact absurd impossible (by simp)

theorem src_eq {ahead : List Tile} (cursor : Cursor tiles behind used ahead) :
    srcText tiles = srcText behind ++ used ++ srcText ahead := by
  obtain ⟨split, resumable⟩ := cursor
  rcases resumable with rfl | ⟨text, tail, rfl⟩
  · simp [split]
  · simp [split, resume, Tile.resume, Tile.src]

theorem dst_eq {ahead : List Tile} (cursor : Cursor tiles behind used ahead) :
    dstText tiles = dstText behind ++ used ++ dstText ahead := by
  obtain ⟨split, resumable⟩ := cursor
  rcases resumable with rfl | ⟨text, tail, rfl⟩
  · simp [split]
  · simp [split, resume, Tile.resume, Tile.dst]

/-- The table around the tile that closes a group. -/
theorem at_group (cursor : Cursor tiles behind used (group ++ tile :: tail)) :
    tiles = (behind ++ resume used group) ++ tile.resume (carry used group) :: tail := by
  rw [cursor.split, resume_append_cons]
  simp

theorem src_at_group (cursor : Cursor tiles behind used (group ++ tile :: tail)) :
    srcText (behind ++ resume used group) ++ carry used group =
      srcText behind ++ used ++ srcText group := by
  rw [srcText_append, List.append_assoc, cursor.resumable.resume_texts.1, List.append_assoc]

theorem dst_at_group (cursor : Cursor tiles behind used (group ++ tile :: tail)) :
    dstText (behind ++ resume used group) ++ carry used group =
      dstText behind ++ used ++ dstText group := by
  rw [dstText_append, List.append_assoc, cursor.resumable.resume_texts.2, List.append_assoc]

/-- Positions reached in the closing tile once part of it is taken. -/
theorem reached (cursor : Cursor tiles behind used (group ++ tile :: tail))
    (take : tile.Take taken left) :
    (tile.resume (carry used group)).Reached (carry used group ++ taken.src)
      (carry used group ++ taken.dst) := by
  cases take with
  | whole =>
      rw [← cursor.resumable.tile_src, ← cursor.resumable.tile_dst]
      exact .whole _
  | part text remains =>
      simp only [Tile.resume, Tile.src, Tile.dst, ← List.append_assoc]
      exact .part _ _

/-- Positions reached in the head tile before anything is taken. -/
theorem reached_start (cursor : Cursor tiles behind used (tile :: tail)) :
    (tile.resume used).Reached used used := by
  rcases cursor.resumable with rfl | ⟨text, rest, split⟩
  · exact .start _
  · obtain ⟨rfl, -⟩ := List.cons.inj split
    exact .part _ _

end Cursor

/-! ## Widening a group -/

/-- Facts about the segment that closes a group on the inner side. -/
theorem segment_at {behind group tail : List Tile} {used : List Char} {tile : Tile}
    {done rest : List Segment} {segment : Segment} {tiles : List Tile}
    (cursor : Cursor tiles behind used (group ++ tile :: tail))
    (split : done ++ segment :: rest = segmentsFrom behind used (group ++ tile :: tail))
    (size : done.length = group.length) :
    segment = (tile.resume (carry used group)).segment
        (srcText (behind ++ resume used group)) (dstText (behind ++ resume used group)) ∧
      done = layout (srcText behind) (dstText behind) (resume used group) ∧
      rest = layout (srcText behind ++ used ++ srcText group ++ tile.src)
        (dstText behind ++ used ++ dstText group ++ tile.dst) tail := by
  rw [segmentsFrom, resume_append_cons, layout_append, layout_cons] at split
  obtain ⟨doneEq, restEq⟩ := List.append_inj split (by simpa using size)
  obtain ⟨segmentEq, tailEq⟩ := List.cons.inj restEq
  refine ⟨by simpa using segmentEq, doneEq, ?_⟩
  rw [tailEq, cursor.resumable.tile_src, cursor.resumable.tile_dst]
  simp only [← List.append_assoc, ← srcText_append, ← dstText_append, cursor.src_at_group,
    cursor.dst_at_group]

section WidenEquations

variable {bb : UInt32} {innerDone innerRest outerDone outerRest : List Segment}
variable {inner outer next : Segment}

theorem widen_same (same : inner.dst.byte.stop = outer.src.byte.stop) :
    SpanMap.widen bb innerDone inner innerRest outerDone outer outerRest =
      .ok ⟨innerDone, inner, innerRest, outerDone, outer, outerRest, inner.dst.byte.stop,
        inner.dst.char.stop⟩ := by
  rw [SpanMap.widen.eq_def, if_pos same]

theorem widen_outer_identity (before : inner.dst.byte.stop < outer.src.byte.stop)
    (identity : outer.kind = .identity) :
    SpanMap.widen bb innerDone inner innerRest outerDone outer outerRest =
      .ok ⟨innerDone, inner, innerRest, outerDone, outer, outerRest, inner.dst.byte.stop,
        inner.dst.char.stop⟩ := by
  rw [SpanMap.widen.eq_def, if_neg (UInt32.ne_of_lt before), if_pos before, if_pos identity]

theorem widen_inner_next (before : inner.dst.byte.stop < outer.src.byte.stop)
    (other : outer.kind ≠ .identity) :
    SpanMap.widen bb innerDone inner (next :: innerRest) outerDone outer outerRest =
      SpanMap.widen bb (innerDone ++ [inner]) next innerRest outerDone outer outerRest := by
  rw [SpanMap.widen.eq_def, if_neg (UInt32.ne_of_lt before), if_pos before, if_neg other]

theorem widen_inner_identity (after : outer.src.byte.stop < inner.dst.byte.stop)
    (identity : inner.kind = .identity) :
    SpanMap.widen bb innerDone inner innerRest outerDone outer outerRest =
      .ok ⟨innerDone, inner, innerRest, outerDone, outer, outerRest, outer.src.byte.stop,
        outer.src.char.stop⟩ := by
  rw [SpanMap.widen.eq_def, if_neg (UInt32.ne_of_lt after).symm,
    if_neg (UInt32.lt_asymm after), if_pos identity]

theorem widen_outer_next (after : outer.src.byte.stop < inner.dst.byte.stop)
    (other : inner.kind ≠ .identity) :
    SpanMap.widen bb innerDone inner innerRest outerDone outer (next :: outerRest) =
      SpanMap.widen bb innerDone inner innerRest (outerDone ++ [outer]) next outerRest := by
  rw [SpanMap.widen.eq_def, if_neg (UInt32.ne_of_lt after).symm,
    if_neg (UInt32.lt_asymm after), if_neg other]

end WidenEquations

/-- Two cursors at one position of the middle text. -/
structure Meeting (inner innerBehind : List Tile) (innerUsed : List Char)
    (innerAhead outer outerBehind : List Tile) (outerUsed : List Char)
    (outerAhead : List Tile) : Prop where
  innerCursor : Cursor inner innerBehind innerUsed innerAhead
  outerCursor : Cursor outer outerBehind outerUsed outerAhead
  behind : dstText innerBehind ++ innerUsed = srcText outerBehind ++ outerUsed
  ahead : dstText innerAhead = srcText outerAhead

/-- One side of a closed group: whole tiles, then the tile the cut falls in with
its taken part and what is left of it, then the tiles beyond. -/
structure GroupSide where
  tiles : List Tile
  last : Tile
  taken : Tile
  left : List Tile
  tail : List Tile

namespace GroupSide

/-- Tiles from the start of the group on. -/
def ahead (side : GroupSide) : List Tile := side.tiles ++ side.last :: side.tail

/-- Tiles inside the group. -/
def inside (side : GroupSide) : List Tile := side.tiles ++ [side.taken]

/-- Tiles from the cut on. -/
def beyond (side : GroupSide) : List Tile := side.left ++ side.tail

end GroupSide

/-- One side of a group agrees with the segments that the traversal collected. -/
structure Collects (behind : List Tile) (used : List Char) (side : GroupSide)
    (done : List Segment) (last : Segment) (rest : List Segment) : Prop where
  segments : done ++ last :: rest = segmentsFrom behind used side.ahead
  size : done.length = side.tiles.length

/-- What a closed group stands for. -/
structure Closes (middle : List Char) (innerBehind : List Tile) (innerUsed : List Char)
    (outerBehind : List Tile) (outerUsed : List Char) (inner outer : GroupSide)
    (group : SpanMap.Group) : Prop where
  innerCollects : Collects innerBehind innerUsed inner group.innerDone group.innerLast
    group.innerRest
  outerCollects : Collects outerBehind outerUsed outer group.outerDone group.outerLast
    group.outerRest
  innerTake : inner.last.Take inner.taken inner.left
  outerTake : outer.last.Take outer.taken outer.left
  widening : Widening inner.tiles inner.taken outer.tiles outer.taken
  ends : dstText inner.tiles ++ inner.taken.dst = srcText outer.tiles ++ outer.taken.src
  cut : (group.cutByte, group.cutChar) = mark (middle ++ dstText inner.inside)

section Widen

variable {p innerBehind q outerBehind : List Tile} {innerUsed outerUsed : List Char}

section Side

variable {tiles behind group tail : List Tile} {used : List Char} {tile : Tile}
variable {done rest : List Segment} {segment : Segment}

theorem Cursor.dst_split (cursor : Cursor tiles behind used (group ++ tile :: tail)) :
    dstText tiles = dstText behind ++ used ++ (dstText group ++ tile.dst) ++ dstText tail := by
  rw [cursor.dst_eq]
  simp

theorem Cursor.src_split (cursor : Cursor tiles behind used (group ++ tile :: tail)) :
    srcText tiles = srcText behind ++ used ++ (srcText group ++ tile.src) ++ srcText tail := by
  rw [cursor.src_eq]
  simp

theorem Collects.dst_stop
    (collects : Collects behind used ⟨group, tile, tile, [], tail⟩ done segment rest)
    (cursor : Cursor tiles behind used (group ++ tile :: tail)) :
    (segment.dst.byte.stop, segment.dst.char.stop) =
      mark (dstText behind ++ used ++ (dstText group ++ tile.dst)) := by
  obtain ⟨segmentEq, -, -⟩ := segment_at cursor collects.segments collects.size
  simp only [segmentEq, Tile.segment_dst, spanAt_byte, spanAt_char, cursor.resumable.tile_dst]
  rw [← List.append_assoc, cursor.dst_at_group]
  simp

theorem Collects.src_stop
    (collects : Collects behind used ⟨group, tile, tile, [], tail⟩ done segment rest)
    (cursor : Cursor tiles behind used (group ++ tile :: tail)) :
    (segment.src.byte.stop, segment.src.char.stop) =
      mark (srcText behind ++ used ++ (srcText group ++ tile.src)) := by
  obtain ⟨segmentEq, -, -⟩ := segment_at cursor collects.segments collects.size
  simp only [segmentEq, Tile.segment_src, spanAt_byte, spanAt_char, cursor.resumable.tile_src]
  rw [← List.append_assoc, cursor.src_at_group]
  simp

theorem Collects.identity_iff
    (collects : Collects behind used ⟨group, tile, tile, [], tail⟩ done segment rest)
    (cursor : Cursor tiles behind used (group ++ tile :: tail)) :
    segment.kind = .identity ↔ tile.isRun = true := by
  obtain ⟨segmentEq, -, -⟩ := segment_at cursor collects.segments collects.size
  rw [segmentEq, Tile.segment_identity, Tile.resume_isRun]

/-- Moving on to the next tile collects one more segment. -/
theorem Collects.next {next : Tile}
    (collects : Collects behind used ⟨group, tile, tile, [], next :: tail⟩ done segment rest)
    (cursor : Cursor tiles behind used (group ++ tile :: next :: tail)) :
    ∃ following rest', rest = following :: rest' ∧
      Collects behind used ⟨group ++ [tile], next, next, [], tail⟩ (done ++ [segment])
        following rest' := by
  obtain ⟨-, -, restEq⟩ := segment_at cursor collects.segments collects.size
  rw [layout_cons] at restEq
  refine ⟨_, _, restEq, ?_, by simp [collects.size]⟩
  have whole := collects.segments
  rw [restEq] at whole
  simpa [GroupSide.ahead] using whole

end Side

/-- A stop in front of the end of a stretch cuts the last text of the stretch in two. -/
theorem exists_cut {stop behind front text after : List Char}
    (whole : stop ++ behind = front ++ text ++ after) (starts : utf8Len front ≤ utf8Len stop)
    (shorter : utf8Len stop < utf8Len (front ++ text)) :
    ∃ part rest, rest ≠ [] ∧ stop = front ++ part ∧ text = part ++ rest := by
  obtain ⟨rest, stopEq, -⟩ := exists_append_of_utf8Len_le whole shorter.le
  obtain ⟨part, ends, split⟩ := exists_append_of_utf8Len_le stopEq starts
  refine ⟨part, rest, ?_, ends, split⟩
  rintro rfl
  rw [stopEq, List.append_nil] at shorter
  exact lt_irrefl _ shorter

/-- Widening always closes, with a group that cannot be cut earlier. -/
theorem widen_closes (bb : UInt32) (fits : Fits (dstText p)) (size : Nat)
    {group tail : List Tile} {tile : Tile} {group' tail' : List Tile} {tile' : Tile}
    (meeting : Meeting p innerBehind innerUsed (group ++ tile :: tail)
      q outerBehind outerUsed (group' ++ tile' :: tail'))
    (solid : Solid (group' ++ tile' :: tail'))
    {innerDone innerRest outerDone outerRest : List Segment} {inner outer : Segment}
    (innerCollects : Collects innerBehind innerUsed ⟨group, tile, tile, [], tail⟩
      innerDone inner innerRest)
    (outerCollects : Collects outerBehind outerUsed ⟨group', tile', tile', [], tail'⟩
      outerDone outer outerRest)
    (widening : Widening group tile group' tile') (measure : tail.length + tail'.length = size) :
    ∃ innerSide outerSide result,
      innerSide.ahead = group ++ tile :: tail ∧ outerSide.ahead = group' ++ tile' :: tail' ∧
      SpanMap.widen bb innerDone inner innerRest outerDone outer outerRest = .ok result ∧
      Closes (dstText innerBehind ++ innerUsed) innerBehind innerUsed outerBehind outerUsed
        innerSide outerSide result := by
  induction size using Nat.strong_induction_on generalizing group tile tail group' tile' tail'
    innerDone inner innerRest outerDone outer outerRest with
  | _ size ih =>
  have innerStop := innerCollects.dst_stop meeting.innerCursor
  have outerStop := outerCollects.src_stop meeting.outerCursor
  rw [← meeting.behind] at outerStop
  have texts := meeting.ahead
  simp only [dstText_append, dstText_cons, srcText_append, srcText_cons,
    ← List.append_assoc] at texts
  have whole := meeting.innerCursor.dst_split
  have fitsInner : Fits (dstText innerBehind ++ innerUsed ++ (dstText group ++ tile.dst)) := by
    rw [whole] at fits
    exact fits.of_append_left
  have fitsOuter :
      Fits (dstText innerBehind ++ innerUsed ++ (srcText group' ++ tile'.src)) := by
    rw [whole, List.append_assoc _ _ (dstText tail), texts, ← List.append_assoc] at fits
    exact fits.of_append_left
  have innerByte := congrArg Prod.fst innerStop
  have outerByte := congrArg Prod.fst outerStop
  simp only at innerByte outerByte
  rcases Nat.lt_trichotomy (utf8Len (dstText group ++ tile.dst))
    (utf8Len (srcText group' ++ tile'.src)) with before | same | after
  · have earlier : inner.dst.byte.stop < outer.src.byte.stop := by
      rw [innerByte, outerByte, mark_lt_iff fitsInner fitsOuter,
        utf8Len_append _ (dstText group ++ _), utf8Len_append _ (srcText group' ++ _)]
      omega
    by_cases isRun : tile'.isRun = true
    · obtain ⟨text', rfl⟩ := Tile.run_of_isRun isRun
      obtain ⟨text, rest, remains, ends, rfl⟩ := exists_cut texts widening.outerStart.le before
      exact ⟨⟨group, tile, tile, [], tail⟩,
        ⟨group', .run (text ++ rest), .run text, [.run rest], tail'⟩, _, rfl, rfl,
        widen_outer_identity earlier
          ((outerCollects.identity_iff meeting.outerCursor).mpr isRun),
        { innerCollects
          outerCollects := ⟨outerCollects.segments, outerCollects.size⟩
          innerTake := .whole tile
          outerTake := .part text remains
          widening := widening.shrink_outer ends
          ends
          cut := by simpa [GroupSide.inside] using innerStop }⟩
    · have isBlock : tile'.isRun = false := by simpa using isRun
      cases tail with
      | nil =>
          have width := congrArg utf8Len texts
          simp only [dstText_nil, utf8Len_append, utf8Len_nil] at width before
          omega
      | cons next tail =>
          obtain ⟨following, rest, rfl, collects⟩ := innerCollects.next meeting.innerCursor
          rw [widen_inner_next earlier
            (mt (outerCollects.identity_iff meeting.outerCursor).mp isRun)]
          have ahead : Meeting p innerBehind innerUsed ((group ++ [tile]) ++ next :: tail)
              q outerBehind outerUsed (group' ++ tile' :: tail') := by
            simpa using meeting
          have moved := ih (tail.length + tail'.length)
            (by simp only [List.length_cons] at measure; omega) ahead
            solid collects outerCollects (widening.inner_step before isBlock next) rfl
          simpa using moved
  · have ends := (append_inj_of_utf8Len texts same).1
    have equal : inner.dst.byte.stop = outer.src.byte.stop := by
      rw [innerByte, outerByte, ends]
    exact ⟨_, _, _, rfl, rfl, widen_same equal,
      { innerCollects, outerCollects, widening, ends
        innerTake := .whole tile
        outerTake := .whole tile'
        cut := by simpa [GroupSide.inside] using innerStop }⟩
  · have later : outer.src.byte.stop < inner.dst.byte.stop := by
      rw [innerByte, outerByte, mark_lt_iff fitsOuter fitsInner,
        utf8Len_append _ (dstText group ++ _), utf8Len_append _ (srcText group' ++ _)]
      omega
    by_cases isRun : tile.isRun = true
    · obtain ⟨text', rfl⟩ := Tile.run_of_isRun isRun
      obtain ⟨text, rest, remains, ends, rfl⟩ := exists_cut texts.symm widening.innerStart.le after
      exact ⟨⟨group, .run (text ++ rest), .run text, [.run rest], tail⟩,
        ⟨group', tile', tile', [], tail'⟩, _, rfl, rfl,
        widen_inner_identity later
          ((innerCollects.identity_iff meeting.innerCursor).mpr isRun),
        { innerCollects := ⟨innerCollects.segments, innerCollects.size⟩
          outerCollects
          innerTake := .part text remains
          outerTake := .whole tile'
          widening := widening.shrink_inner (solid tile' (by simp)) ends.symm
          ends := ends.symm
          cut := by
            rw [ends] at outerStop
            simpa [GroupSide.inside, Tile.dst] using outerStop }⟩
    · have isBlock : tile.isRun = false := by simpa using isRun
      cases tail' with
      | nil =>
          have width := congrArg utf8Len texts
          simp only [srcText_nil, utf8Len_append, utf8Len_nil] at width after
          omega
      | cons next tail' =>
          obtain ⟨following, rest, rfl, collects⟩ := outerCollects.next meeting.outerCursor
          rw [widen_outer_next later
            (mt (innerCollects.identity_iff meeting.innerCursor).mp isRun)]
          have ahead : Meeting p innerBehind innerUsed (group ++ tile :: tail)
              q outerBehind outerUsed ((group' ++ [tile']) ++ next :: tail') := by
            simpa using meeting
          have moved := ih (tail.length + tail'.length)
            (by simp only [List.length_cons] at measure; omega) ahead (by simpa using solid)
            innerCollects collects (widening.outer_step after isBlock next) rfl
          simpa using moved

end Widen

/-! ## The segment of a closed group -/

/-- Weight of a tile. -/
def Tile.weight : Tile → Weight
  | run _ => 0
  | block _ _ weight => weight

@[simp] theorem Tile.weight_atoms (tile : Tile) :
    Alignment.weight tile.atoms = tile.weight := by
  cases tile with
  | run text => simp [Tile.atoms, Tile.weight]
  | block source target weight => simp [Tile.atoms, Tile.weight, Atom.weight]

@[simp] theorem Tile.resume_weight (used : List Char) (tile : Tile) :
    (tile.resume used).weight = tile.weight := by
  cases tile <;> rfl

theorem Tile.Take.isRun {tile taken : Tile} {left : List Tile} (take : tile.Take taken left) :
    taken.isRun = tile.isRun := by
  cases take <;> rfl

theorem Tile.Take.weight {tile taken : Tile} {left : List Tile} (take : tile.Take taken left) :
    taken.weight = tile.weight := by
  cases take <;> rfl

/-- What the traversal accumulates over the segments of a tile list. -/
theorem gather_layout (before after : List Char) (tiles : List Tile) (rules : List RuleId)
    (cost : NormalizationCost) (allIdentity : Bool) :
    ∃ rules', SpanMap.gather (layout before after tiles) rules cost allIdentity =
        (rules', cost.add (Alignment.weight (expand tiles)).cost,
          allIdentity && tiles.all Tile.isRun) ∧
      rules'.toFinset = rules.toFinset ∪ (Alignment.weight (expand tiles)).rules := by
  induction tiles generalizing before after rules cost allIdentity with
  | nil => exact ⟨rules, by simp [SpanMap.gather], by simp⟩
  | cons tile tiles ih =>
      cases tile with
      | run text =>
          obtain ⟨rules', gathered, members⟩ := ih (before ++ text) (after ++ text) rules cost
            allIdentity
          refine ⟨rules', ?_, by simpa [Tile.weight] using members⟩
          simpa [SpanMap.gather, Tile.segment, Tile.weight, Tile.isRun, Tile.src, Tile.dst]
            using gathered
      | block source target weight =>
          have other : ((Tile.block source target weight).segment before after).kind ≠
              .identity := by
            simp [Tile.segment_identity, Tile.isRun]
          obtain ⟨rules', gathered, members⟩ := ih (before ++ source) (after ++ target)
            (rules ++ weight.rules.sort (· ≤ ·)) (cost.add weight.cost) false
          refine ⟨rules', ?_, by simpa [Tile.weight, Finset.union_assoc] using members⟩
          have assoc := add_assoc cost weight.cost (Alignment.weight (expand tiles)).cost
          simp only [NormalizationCost.add_eq] at assoc
          simp only [SpanMap.gather, layout_cons, List.foldl_cons, if_neg other] at gathered ⊢
          rw [show ((Tile.block source target weight).segment before after).rules =
            weight.rules.sort (· ≤ ·) from rfl,
            show ((Tile.block source target weight).segment before after).cost = weight.cost
              from rfl]
          simpa [Tile.weight, Tile.isRun, Tile.src, Tile.dst, assoc] using gathered

theorem srcText_of_all_isRun {tiles : List Tile} (runs : tiles.all Tile.isRun = true) :
    srcText tiles = dstText tiles := by
  induction tiles with
  | nil => rfl
  | cons tile tiles ih =>
      simp only [List.all_cons, Bool.and_eq_true] at runs
      obtain ⟨text, rfl⟩ := Tile.run_of_isRun runs.1
      simp [Tile.src, Tile.dst, ih runs.2]

namespace Collects

variable {tiles behind : List Tile} {used : List Char} {side : GroupSide}
variable {done rest : List Segment} {last : Segment}

/-- Segments of a group are the layout of its tiles, consumed text put back. -/
theorem inside_segments (collects : Collects behind used side done last rest)
    (cursor : Cursor tiles behind used side.ahead) :
    done ++ [last] = layout (srcText behind) (dstText behind)
      (resume used side.tiles ++ [side.last.resume (carry used side.tiles)]) := by
  obtain ⟨lastEq, doneEq, -⟩ := segment_at cursor collects.segments collects.size
  rw [layout_append, lastEq, doneEq]
  simp

theorem inside_weight (side : GroupSide) (take : side.last.Take side.taken side.left)
    (used : List Char) :
    Alignment.weight
        (expand (resume used side.tiles ++ [side.last.resume (carry used side.tiles)])) =
      Alignment.weight (expand side.inside) := by
  cases tiles : side.tiles with
  | nil => simp [GroupSide.inside, tiles, resume, take.weight]
  | cons tile group => simp [GroupSide.inside, tiles, resume, take.weight]

theorem inside_isRun (side : GroupSide) (take : side.last.Take side.taken side.left)
    (used : List Char) :
    (resume used side.tiles ++ [side.last.resume (carry used side.tiles)]).all Tile.isRun =
      side.inside.all Tile.isRun := by
  cases tiles : side.tiles with
  | nil => simp [GroupSide.inside, tiles, resume, take.isRun]
  | cons tile group => simp [GroupSide.inside, tiles, resume, take.isRun]

/-- What the traversal accumulates over one side of a group. -/
theorem gather_inside (collects : Collects behind used side done last rest)
    (cursor : Cursor tiles behind used side.ahead)
    (take : side.last.Take side.taken side.left) (rules : List RuleId)
    (cost : NormalizationCost) (allIdentity : Bool) :
    ∃ rules', SpanMap.gather (done ++ [last]) rules cost allIdentity =
        (rules', cost.add (Alignment.weight (expand side.inside)).cost,
          allIdentity && side.inside.all Tile.isRun) ∧
      rules'.toFinset = rules.toFinset ∪ (Alignment.weight (expand side.inside)).rules := by
  rw [collects.inside_segments cursor, ← inside_weight side take used,
    ← inside_isRun side take used]
  exact gather_layout _ _ _ _ _ _

/-- The cursor behind the cut. -/
theorem advance (collects : Collects behind used side done last rest)
    (cursor : Cursor tiles behind used side.ahead)
    (take : side.last.Take side.taken side.left) :
    ∃ behind' used', Cursor tiles behind' used' side.beyond ∧
      srcText behind' ++ used' = srcText behind ++ used ++ srcText side.inside ∧
      dstText behind' ++ used' = dstText behind ++ used ++ dstText side.inside ∧
      segmentsFrom behind' used' side.beyond =
        if side.left = [] then rest else last :: rest := by
  obtain ⟨lastEq, -, restEq⟩ := segment_at cursor collects.segments collects.size
  have split := cursor.at_group
  have srcAt := cursor.src_at_group
  have dstAt := cursor.dst_at_group
  have srcTile := cursor.resumable.tile_src
  have dstTile := cursor.resumable.tile_dst
  obtain ⟨group, tile, taken, left, tail⟩ := side
  simp only [GroupSide.beyond, GroupSide.inside] at *
  cases take with
  | whole =>
      refine ⟨behind ++ resume used group ++ [tile.resume (carry used group)], [],
        ⟨by simpa using split, resumable_nil _⟩, ?_, ?_, ?_⟩
      · rw [srcText_append, srcText_cons, srcTile, srcText_nil, List.append_nil, List.append_nil,
          ← List.append_assoc, srcAt]
        simp
      · rw [dstText_append, dstText_cons, dstTile, dstText_nil, List.append_nil, List.append_nil,
          ← List.append_assoc, dstAt]
        simp
      · rw [if_pos rfl, segmentsFrom, restEq, srcText_append, srcText_cons, srcTile,
          srcText_nil, List.append_nil, ← List.append_assoc, srcAt, dstText_append, dstText_cons,
          dstTile, dstText_nil, List.append_nil, ← List.append_assoc, dstAt]
        simp
  | part text remains =>
      rename_i remaining
      refine ⟨behind ++ resume used group, carry used group ++ text,
        ⟨by simpa [resume, Tile.resume] using split, .inr ⟨_, _, rfl⟩⟩, ?_, ?_, ?_⟩
      · rw [← List.append_assoc, srcAt]
        simp [Tile.src]
      · rw [← List.append_assoc, dstAt]
        simp [Tile.dst]
      · have srcEnd : srcText (behind ++ resume used group) ++
            (carry used group ++ (text ++ remaining)) =
              srcText behind ++ used ++ srcText group ++ (text ++ remaining) := by
          rw [← List.append_assoc, srcAt]
        have dstEnd : dstText (behind ++ resume used group) ++
            (carry used group ++ (text ++ remaining)) =
              dstText behind ++ used ++ dstText group ++ (text ++ remaining) := by
          rw [← List.append_assoc, dstAt]
        rw [if_neg (by simp), segmentsFrom, lastEq, restEq]
        simp only [List.cons_append, List.nil_append, resume_cons, Tile.resume_run, layout_cons,
          Tile.src, Tile.dst, List.append_assoc (carry used group) text remaining, srcEnd,
          dstEnd]

end Collects

namespace Closes

variable {p innerBehind q outerBehind : List Tile} {innerUsed outerUsed : List Char}
variable {inner outer : GroupSide} {group : SpanMap.Group}

/-- The segment of a closed group is the segment of its tile. -/
theorem groupSegment_eq
    (closes : Closes (dstText innerBehind ++ innerUsed) innerBehind innerUsed outerBehind
      outerUsed inner outer group)
    (innerCursor : Cursor p innerBehind innerUsed inner.ahead)
    (outerCursor : Cursor q outerBehind outerUsed outer.ahead)
    {before after : List Char} (fitsSrc : Fits (before ++ srcText inner.inside))
    (fitsDst : Fits (after ++ dstText outer.inside)) :
    SpanMap.groupSegment group (spanAt before (srcText inner.inside))
        (spanAt after (dstText outer.inside)) =
      (fuseTile inner.inside outer.inside).segment before after := by
  obtain ⟨innerRules, innerGathered, innerMembers⟩ :=
    closes.innerCollects.gather_inside innerCursor closes.innerTake [] {} true
  obtain ⟨outerRules, outerGathered, outerMembers⟩ :=
    closes.outerCollects.gather_inside outerCursor closes.outerTake innerRules
      (({} : NormalizationCost).add (Alignment.weight (expand inner.inside)).cost)
      (inner.inside.all Tile.isRun)
  rw [Bool.true_and] at innerGathered
  have middle : dstText inner.inside = srcText outer.inside := by
    simpa [GroupSide.inside] using closes.ends
  have rules : outerRules.toFinset =
      (Alignment.weight (expand inner.inside) + Alignment.weight (expand outer.inside)).rules := by
    rw [outerMembers, innerMembers]
    simp
  simp only [SpanMap.groupSegment, innerGathered, outerGathered, canonicalizeRules_eq, rules,
    fuseTile]
  by_cases runs : (inner.inside.all Tile.isRun && outer.inside.all Tile.isRun) = true
  · obtain ⟨innerRuns, outerRuns⟩ := Bool.and_eq_true_iff.mp runs
    have texts : dstText outer.inside = srcText inner.inside := by
      rw [srcText_of_all_isRun innerRuns, middle, srcText_of_all_isRun outerRuns]
    have free : ∀ tiles : List Tile, tiles.all Tile.isRun = true →
        Alignment.weight (expand tiles) = 0 := fun tiles all =>
      Alignment.weight_eq_zero_of_all_keep (by rw [expand_all_isKeep, all])
    simp [runs, Tile.segment, texts, free _ innerRuns, free _ outerRuns]
  · rw [if_neg runs, if_neg runs, classify_spanAt fitsSrc fitsDst]
    simp [Tile.segment]

theorem produces
    (closes : Closes (dstText innerBehind ++ innerUsed) innerBehind innerUsed outerBehind
      outerUsed inner outer group) : inner.taken.dst ≠ [] := by
  intro empty
  have start := closes.widening.innerStart
  rw [← closes.ends, empty, List.append_nil] at start
  omega

theorem consumes
    (closes : Closes (dstText innerBehind ++ innerUsed) innerBehind innerUsed outerBehind
      outerUsed inner outer group) : outer.taken.src ≠ [] := by
  intro empty
  have start := closes.widening.outerStart
  rw [closes.ends, empty, List.append_nil] at start
  omega

theorem innerNext_eq
    (closes : Closes (dstText innerBehind ++ innerUsed) innerBehind innerUsed outerBehind
      outerUsed inner outer group)
    (cursor : Cursor p innerBehind innerUsed inner.ahead) (fits : Fits (dstText p)) :
    group.innerNext =
      if inner.left = [] then group.innerRest else group.innerLast :: group.innerRest := by
  have stop := congrArg Prod.fst
    (Collects.dst_stop ⟨closes.innerCollects.segments, closes.innerCollects.size⟩ cursor)
  have cut := congrArg Prod.fst closes.cut
  have whole := cursor.dst_split
  have take := closes.innerTake
  obtain ⟨tiles, last, taken, left, tail⟩ := inner
  simp only [GroupSide.inside, dstText_append, dstText_cons, dstText_nil,
    List.append_nil] at stop cut take whole
  cases take with
  | whole =>
      rw [if_pos rfl]
      exact SpanMap.Group.innerNext_of_le (by rw [stop, cut]; exact UInt32.le_refl _)
  | part text remains =>
      rename_i rest
      rw [if_neg (by simp), SpanMap.Group.innerNext, if_neg]
      rw [stop, cut, UInt32.not_le]
      simp only [Tile.dst, ← List.append_assoc] at whole ⊢
      rw [whole] at fits
      exact mark_lt_append fits.of_append_left remains

theorem outerNext_eq
    (closes : Closes (dstText innerBehind ++ innerUsed) innerBehind innerUsed outerBehind
      outerUsed inner outer group)
    (cursor : Cursor q outerBehind outerUsed outer.ahead)
    (behind : dstText innerBehind ++ innerUsed = srcText outerBehind ++ outerUsed)
    (fits : Fits (srcText q)) :
    group.outerNext =
      if outer.left = [] then group.outerRest else group.outerLast :: group.outerRest := by
  have stop := congrArg Prod.fst
    (Collects.src_stop ⟨closes.outerCollects.segments, closes.outerCollects.size⟩ cursor)
  have cut := congrArg Prod.fst closes.cut
  have whole := cursor.src_split
  have take := closes.outerTake
  have ends := closes.ends
  obtain ⟨tiles, last, taken, left, tail⟩ := outer
  simp only [GroupSide.inside, dstText_append, dstText_cons, dstText_nil,
    List.append_nil, behind] at stop cut take whole ends
  rw [ends] at cut
  cases take with
  | whole =>
      rw [if_pos rfl]
      exact SpanMap.Group.outerNext_of_le (by rw [stop, cut]; exact UInt32.le_refl _)
  | part text remains =>
      rename_i rest
      rw [if_neg (by simp), SpanMap.Group.outerNext, if_neg]
      rw [stop, cut, UInt32.not_le]
      simp only [Tile.src, ← List.append_assoc] at whole ⊢
      rw [whole] at fits
      exact mark_lt_append fits.of_append_left remains

theorem inside_nonempty
    (closes : Closes (dstText innerBehind ++ innerUsed) innerBehind innerUsed outerBehind
      outerUsed inner outer group) (solid : Solid inner.ahead) :
    srcText inner.inside ≠ [] := by
  have produces := closes.produces
  have take := closes.innerTake
  obtain ⟨tiles, last, taken, left, tail⟩ := inner
  intro empty
  simp only [GroupSide.inside, srcText_append, srcText_cons, srcText_nil, List.append_nil,
    List.append_eq_nil_iff] at empty
  cases take with
  | whole => exact solid last (by simp [GroupSide.ahead]) empty.2
  | part text remains => exact produces empty.2

theorem composes
    (closes : Closes (dstText innerBehind ++ innerUsed) innerBehind innerUsed outerBehind
      outerUsed inner outer group) (solid : Solid outer.ahead) :
    Composes (expand inner.inside) (expand outer.inside)
      (fuseTile inner.inside outer.inside).atoms := by
  refine closes.widening.composes ?_ closes.ends
  exact solid_append.mpr
    ⟨(solid_append.mp solid).1, solid_cons.mpr ⟨closes.consumes, solid_nil⟩⟩

end Closes

theorem fuseTile_src (inner outer : List Tile) : (fuseTile inner outer).src = srcText inner := by
  unfold fuseTile
  split <;> rfl

theorem fuseTile_dst {inner outer : List Tile} (middle : dstText inner = srcText outer) :
    (fuseTile inner outer).dst = dstText outer := by
  unfold fuseTile
  split
  next runs =>
      obtain ⟨innerRuns, outerRuns⟩ := Bool.and_eq_true_iff.mp runs
      rw [← srcText_of_all_isRun outerRuns, ← middle, ← srcText_of_all_isRun innerRuns]
      rfl
  next => rfl

/-! ## The merge traversal -/

theorem Cursor.forward_start {tiles behind ahead : List Tile} {used : List Char}
    (cursor : Cursor tiles behind used ahead) (fits : Fits (srcText tiles)) :
    (tableOf tiles).forwardPoint behind.length (mark (srcText behind ++ used)).1
      (mark (srcText behind ++ used)).2 = .ok (mark (dstText behind ++ used)) := by
  cases ahead with
  | nil =>
      obtain ⟨rfl, rfl⟩ := cursor.ahead_nil
      have none : (tableOf tiles).segments[tiles.length]? = none := by simp [tableOf]
      simp only [SpanMap.forwardPoint, none, tableOf_dstEnd, List.append_nil]
  | cons tile tail =>
      have reached := cursor.reached_start
      have split := cursor.split
      rw [resume_cons] at split
      rw [split] at fits ⊢
      exact forwardPoint_eq reached id fits

theorem Cursor.backward_start {tiles behind tail : List Tile} {tile : Tile} {used : List Char}
    (cursor : Cursor tiles behind used (tile :: tail)) (fits : Fits (dstText tiles)) :
    (tableOf tiles).backwardPoint behind.length (mark (dstText behind ++ used)).1
      (mark (dstText behind ++ used)).2 = .ok (mark (srcText behind ++ used)) := by
  have reached := cursor.reached_start
  have split := cursor.split
  rw [resume_cons] at split
  rw [split] at fits ⊢
  exact backwardPoint_eq reached id fits

/-- A source-only segment passes through. -/
theorem composeLoop_delete {inner outer : SpanMap} {segment : Segment}
    {is js : List Segment} {bb bc : UInt32} {c : UInt32 × UInt32} {out : List Segment}
    (empty : segment.dst.isEmpty = true)
    (point : outer.forwardPoint (outer.segments.length - js.length) bb bc = .ok c) :
    SpanMap.composeLoop inner outer (segment :: is) js bb bc out =
      SpanMap.composeLoop inner outer is js bb bc
        (out ++ [⟨segment.src, Span.emptyAt c.1 c.2, .delete, segment.rules, segment.cost⟩]) := by
  rw [SpanMap.composeLoop.eq_def]
  simp only [empty, if_true, point]

/-- A closed group is replaced by one segment. -/
theorem composeLoop_group {inner outer : SpanMap} {segI segJ : Segment}
    {is js : List Segment} {bb bc : UInt32} {out : List Segment} {group : SpanMap.Group}
    {a0 a1 c0 c1 : UInt32 × UInt32}
    (produces : segI.dst.isEmpty = false) (consumes : segJ.src.isEmpty = false)
    (closed : SpanMap.widen bb [] segI is [] segJ js = .ok group)
    (aStart : inner.backwardPoint (inner.segments.length - (segI :: is).length) bb bc = .ok a0)
    (aStop : inner.backwardPoint
      (inner.segments.length - (segI :: is).length + group.innerDone.length)
      group.cutByte group.cutChar = .ok a1)
    (cStart : outer.forwardPoint (outer.segments.length - (segJ :: js).length) bb bc = .ok c0)
    (cStop : outer.forwardPoint
      (outer.segments.length - (segJ :: js).length + group.outerDone.length)
      group.cutByte group.cutChar = .ok c1) :
    SpanMap.composeLoop inner outer (segI :: is) (segJ :: js) bb bc out =
      SpanMap.composeLoop inner outer group.innerNext group.outerNext group.cutByte
        group.cutChar (out ++ [SpanMap.groupSegment group ⟨⟨a0.1, a1.1⟩, ⟨a0.2, a1.2⟩⟩
          ⟨⟨c0.1, c1.1⟩, ⟨c0.2, c1.2⟩⟩]) := by
  rw [SpanMap.composeLoop.eq_def]
  simp only [produces, consumes, Bool.false_eq_true, if_false]
  split
  · rename_i failed
    rw [closed] at failed
    exact absurd failed (by simp)
  · rename_i group' closed'
    rw [closed] at closed'
    cases closed'
    simp only [aStart, aStop, cStart, cStop]

namespace GroupSide

variable {side : GroupSide}

theorem expand_ahead (take : side.last.Take side.taken side.left) :
    expand side.ahead = expand side.inside ++ expand side.beyond := by
  obtain ⟨tiles, last, taken, left, tail⟩ := side
  cases take with
  | whole => simp [ahead, inside, beyond]
  | part text remains => simp [ahead, inside, beyond, Tile.atoms]

theorem srcText_ahead (take : side.last.Take side.taken side.left) :
    srcText side.ahead = srcText side.inside ++ srcText side.beyond := by
  rw [← src_expand, expand_ahead take, Alignment.src_append, src_expand, src_expand]

theorem dstText_ahead (take : side.last.Take side.taken side.left) :
    dstText side.ahead = dstText side.inside ++ dstText side.beyond := by
  rw [← dst_expand, expand_ahead take, Alignment.dst_append, dst_expand, dst_expand]

theorem solid_beyond (take : side.last.Take side.taken side.left) (solid : Solid side.ahead) :
    Solid side.beyond := by
  obtain ⟨tiles, last, taken, left, tail⟩ := side
  obtain ⟨-, rest⟩ := solid_append.mp solid
  cases take with
  | whole => exact (solid_cons.mp rest).2
  | part text remains => exact solid_cons.mpr ⟨remains, (solid_cons.mp rest).2⟩

end GroupSide

/-- The closing cut maps back to the end of the inner tiles. -/
theorem Cursor.backward_stop {tiles behind : List Tile} {used : List Char} {side : GroupSide}
    (cursor : Cursor tiles behind used side.ahead)
    (take : side.last.Take side.taken side.left) (produces : side.taken.dst ≠ [])
    (fits : Fits (dstText tiles)) :
    (tableOf tiles).backwardPoint (behind.length + side.tiles.length)
        (mark (dstText behind ++ used ++ dstText side.inside)).1
        (mark (dstText behind ++ used ++ dstText side.inside)).2 =
      .ok (mark (srcText behind ++ used ++ srcText side.inside)) := by
  have reached := cursor.reached take
  have split := cursor.at_group
  rw [split] at fits
  have point := backwardPoint_eq reached (fun empty => by simp_all) fits
  rw [← split, ← List.append_assoc, cursor.dst_at_group, ← List.append_assoc,
    cursor.src_at_group] at point
  simpa [GroupSide.inside] using point

/-- The closing cut maps forward to the end of the outer tiles. -/
theorem Cursor.forward_stop {tiles behind : List Tile} {used : List Char} {side : GroupSide}
    (cursor : Cursor tiles behind used side.ahead)
    (take : side.last.Take side.taken side.left) (consumes : side.taken.src ≠ [])
    (fits : Fits (srcText tiles)) :
    (tableOf tiles).forwardPoint (behind.length + side.tiles.length)
        (mark (srcText behind ++ used ++ srcText side.inside)).1
        (mark (srcText behind ++ used ++ srcText side.inside)).2 =
      .ok (mark (dstText behind ++ used ++ dstText side.inside)) := by
  have reached := cursor.reached take
  have split := cursor.at_group
  rw [split] at fits
  have point := forwardPoint_eq reached (fun empty => by simp_all) fits
  rw [← split, ← List.append_assoc, cursor.src_at_group, ← List.append_assoc,
    cursor.dst_at_group] at point
  simpa [GroupSide.inside] using point

theorem Cursor.index {tiles behind ahead : List Tile} {used : List Char}
    (cursor : Cursor tiles behind used ahead) :
    (tableOf tiles).segments.length - (segmentsFrom behind used ahead).length =
      behind.length := by
  simp [tableOf, segmentsFrom, cursor.split]

theorem Cursor.segmentsFrom_cons {tiles behind tail : List Tile} {tile : Tile}
    {used : List Char} (cursor : Cursor tiles behind used (tile :: tail)) :
    segmentsFrom behind used (tile :: tail) =
      (tile.resume used).segment (srcText behind) (dstText behind) ::
        layout (srcText behind ++ used ++ tile.src) (dstText behind ++ used ++ tile.dst) tail := by
  have src := cursor.resumable.head_src
  have dst := cursor.resumable.head_dst
  simp [segmentsFrom, resume_cons, src, dst]

/-- A head tile that produces text has a nonempty destination span. -/
theorem Cursor.head_dst {tiles behind tail : List Tile} {tile : Tile} {used : List Char}
    (cursor : Cursor tiles behind used (tile :: tail)) (produces : tile.dst ≠ [])
    (fits : Fits (dstText tiles)) :
    ((tile.resume used).segment (srcText behind) (dstText behind)).dst.isEmpty = false := by
  have dst := cursor.resumable.head_dst
  rw [cursor.dst_eq, dstText_cons, ← List.append_assoc] at fits
  rw [Tile.segment_dst, dst, Bool.eq_false_iff, Ne,
    spanAt_isEmpty (by simpa using fits.of_append_left)]
  simp [produces]

/-- A head tile that consumes text has a nonempty source span. -/
theorem Cursor.head_src {tiles behind tail : List Tile} {tile : Tile} {used : List Char}
    (cursor : Cursor tiles behind used (tile :: tail)) (consumes : tile.src ≠ [])
    (fits : Fits (srcText tiles)) :
    ((tile.resume used).segment (srcText behind) (dstText behind)).src.isEmpty = false := by
  have src := cursor.resumable.head_src
  rw [cursor.src_eq, srcText_cons, ← List.append_assoc] at fits
  rw [Tile.segment_src, src, Bool.eq_false_iff, Ne,
    spanAt_isEmpty (by simpa using fits.of_append_left)]
  simp [consumes]

section Loop

variable {p q : List Tile}

/-- From the given cursors on, the traversal lays out the composed alignment. -/
def Traverses (p q innerBehind : List Tile) (innerUsed : List Char)
    (innerAhead outerBehind : List Tile) (outerUsed : List Char) (outerAhead : List Tile) :
    Prop :=
  ∀ out, ∃ result,
    SpanMap.composeLoop (tableOf p) (tableOf q) (segmentsFrom innerBehind innerUsed innerAhead)
        (segmentsFrom outerBehind outerUsed outerAhead)
        (mark (dstText innerBehind ++ innerUsed)).1 (mark (dstText innerBehind ++ innerUsed)).2
        out =
      .ok (out ++ layout (srcText innerBehind ++ innerUsed) (dstText outerBehind ++ outerUsed)
        result) ∧
    Composes (expand innerAhead) (expand outerAhead) (expand result) ∧ Solid result

variable {innerBehind innerTail outerBehind outerTail outerAhead : List Tile}
variable {innerUsed outerUsed : List Char} {tile tile' : Tile}

theorem deleteSegment_eq (before middle after source : List Char) (weight : Weight) :
    (⟨((Tile.block source [] weight).segment before middle).src,
        Span.emptyAt (mark after).1 (mark after).2, .delete,
        ((Tile.block source [] weight).segment before middle).rules,
        ((Tile.block source [] weight).segment before middle).cost⟩ : Segment) =
      (Tile.block source [] weight).segment before after := by
  simp [Tile.segment, Tile.kindOf, Span.emptyAt, spanAt]

/-- A block that produces nothing is passed through. -/
theorem traverses_delete {source : List Char} {weight : Weight}
    (meeting : Meeting p innerBehind innerUsed (.block source [] weight :: innerTail)
      q outerBehind outerUsed outerAhead)
    (fits : Fits (dstText p)) (same : dstText p = srcText q) (nonempty : source ≠ [])
    (rest : ∀ innerBehind', Meeting p innerBehind' [] innerTail q outerBehind outerUsed
      outerAhead → Traverses p q innerBehind' [] innerTail outerBehind outerUsed outerAhead) :
    Traverses p q innerBehind innerUsed (.block source [] weight :: innerTail)
      outerBehind outerUsed outerAhead := by
  have started : innerUsed = [] := by
    simpa [Resumable] using meeting.innerCursor.resumable
  subst started
  intro out
  have moved : Meeting p (innerBehind ++ [.block source [] weight]) [] innerTail
      q outerBehind outerUsed outerAhead :=
    ⟨⟨by simpa using meeting.innerCursor.split, resumable_nil _⟩, meeting.outerCursor,
      by simpa [Tile.dst] using meeting.behind, by simpa [Tile.dst] using meeting.ahead⟩
  obtain ⟨result, looped, composes, solid⟩ := rest _ moved
    (out ++ [(Tile.block source [] weight).segment (srcText innerBehind)
      (dstText outerBehind ++ outerUsed)])
  refine ⟨.block source [] weight :: result, ?_, ?_, solid_cons.mpr ⟨nonempty, solid⟩⟩
  · rw [same] at fits
    have point := meeting.outerCursor.forward_start fits
    rw [← meeting.behind, ← meeting.outerCursor.index] at point
    rw [meeting.innerCursor.segmentsFrom_cons, Tile.resume_nil,
      composeLoop_delete (by simp [Tile.segment_dst, Tile.dst, Span.isEmpty]) point,
      deleteSegment_eq]
    simpa [segmentsFrom, Tile.src, Tile.dst] using looped
  · have grouped := Composes.group (Alignment.delete_irreducible source weight) composes
    simpa [Alignment.fuse, Atom.isKeep, Atom.src, Tile.atoms, Atom.weight] using grouped

/-- A closed group becomes one tile. -/
theorem traverses_group
    (meeting : Meeting p innerBehind innerUsed (tile :: innerTail)
      q outerBehind outerUsed (tile' :: outerTail))
    (fitsSrc : Fits (srcText p)) (fitsMiddle : Fits (dstText p)) (fitsDst : Fits (dstText q))
    (same : dstText p = srcText q) (innerSolid : Solid (tile :: innerTail))
    (outerSolid : Solid (tile' :: outerTail)) (produces : tile.dst ≠ [])
    (rest : ∀ innerBehind' innerUsed' innerAhead' outerBehind' outerUsed' outerAhead',
      Meeting p innerBehind' innerUsed' innerAhead' q outerBehind' outerUsed' outerAhead' →
      Solid innerAhead' → Solid outerAhead' →
      innerAhead'.length + outerAhead'.length <
        (tile :: innerTail).length + (tile' :: outerTail).length →
      Traverses p q innerBehind' innerUsed' innerAhead' outerBehind' outerUsed' outerAhead') :
    Traverses p q innerBehind innerUsed (tile :: innerTail) outerBehind outerUsed
      (tile' :: outerTail) := by
  intro out
  have consumes : tile'.src ≠ [] := (solid_cons.mp outerSolid).1
  have innerCons := meeting.innerCursor.segmentsFrom_cons
  have outerCons := meeting.outerCursor.segmentsFrom_cons
  have start : Meeting p innerBehind innerUsed ([] ++ tile :: innerTail)
      q outerBehind outerUsed ([] ++ tile' :: outerTail) := meeting
  have innerStart : Collects innerBehind innerUsed ⟨[], tile, tile, [], innerTail⟩ [] _ _ :=
    ⟨innerCons.symm, rfl⟩
  have outerStart : Collects outerBehind outerUsed ⟨[], tile', tile', [], outerTail⟩ [] _ _ :=
    ⟨outerCons.symm, rfl⟩
  obtain ⟨inner, outer, group, innerEq, outerEq, widened, closes⟩ :=
    widen_closes (mark (dstText innerBehind ++ innerUsed)).1 fitsMiddle _ start outerSolid
      innerStart outerStart (widening_start produces consumes) rfl
  simp only [List.nil_append] at innerEq outerEq
  have innerCursor := meeting.innerCursor
  have outerCursor := meeting.outerCursor
  have fitsOuter := fitsMiddle
  rw [same] at fitsOuter
  have aStart := innerCursor.backward_start fitsMiddle
  have cStart := outerCursor.forward_start fitsOuter
  rw [← innerEq] at innerCursor innerSolid
  rw [← outerEq] at outerCursor outerSolid
  obtain ⟨innerBehind', innerUsed', innerCursor', innerSrc, innerDst, innerSegments⟩ :=
    closes.innerCollects.advance innerCursor closes.innerTake
  obtain ⟨outerBehind', outerUsed', outerCursor', outerSrc, outerDst, outerSegments⟩ :=
    closes.outerCollects.advance outerCursor closes.outerTake
  have middle : dstText inner.inside = srcText outer.inside := by
    simpa [GroupSide.inside] using closes.ends
  have aStop := innerCursor.backward_stop closes.innerTake closes.produces fitsMiddle
  have cStop := outerCursor.forward_stop closes.outerTake closes.consumes fitsOuter
  have innerNext := closes.innerNext_eq innerCursor fitsMiddle
  have outerNext := closes.outerNext_eq outerCursor meeting.behind fitsOuter
  rw [← innerSegments] at innerNext
  rw [← outerSegments] at outerNext
  have moved : Meeting p innerBehind' innerUsed' inner.beyond q outerBehind' outerUsed'
      outer.beyond := by
    refine ⟨innerCursor', outerCursor', ?_, ?_⟩
    · rw [innerDst, outerSrc, meeting.behind, middle]
    · have ahead := meeting.ahead
      rw [← innerEq, ← outerEq, GroupSide.dstText_ahead closes.innerTake,
        GroupSide.srcText_ahead closes.outerTake, middle] at ahead
      exact List.append_cancel_left ahead
  have smaller := SpanMap.widen_consumes widened
  rw [innerNext, outerNext] at smaller
  simp only [segmentsFrom, layout_length, resume_length, List.length_cons] at smaller
  have fused := fuseTile_dst middle
  obtain ⟨result, looped, composes, solid⟩ := rest _ _ _ _ _ _ moved
    (GroupSide.solid_beyond closes.innerTake innerSolid)
    (GroupSide.solid_beyond closes.outerTake outerSolid) (by simpa using smaller)
    (out ++ [(fuseTile inner.inside outer.inside).segment (srcText innerBehind ++ innerUsed)
      (dstText outerBehind ++ outerUsed)])
  have whole := closes.composes outerSolid
  refine ⟨fuseTile inner.inside outer.inside :: result, ?_, ?_, ?_⟩
  · have innerIndex := meeting.innerCursor.index
    have outerIndex := meeting.outerCursor.index
    rw [innerCons] at innerIndex
    rw [outerCons] at outerIndex
    have cutByte : group.cutByte = _ := congrArg Prod.fst closes.cut
    have cutChar : group.cutChar = _ := congrArg Prod.snd closes.cut
    have fitsInside : Fits (srcText innerBehind ++ innerUsed ++ srcText inner.inside) := by
      rw [innerCursor'.src_eq, innerSrc] at fitsSrc
      exact fitsSrc.of_append_left
    have fitsOutside : Fits (dstText outerBehind ++ outerUsed ++ dstText outer.inside) := by
      rw [outerCursor'.dst_eq, outerDst] at fitsDst
      exact fitsDst.of_append_left
    rw [← meeting.behind] at cStart
    rw [← meeting.behind, ← middle] at cStop
    rw [← closes.innerCollects.size, ← innerIndex, ← cutByte, ← cutChar] at aStop
    rw [← closes.outerCollects.size, ← outerIndex, ← cutByte, ← cutChar] at cStop
    rw [← innerIndex] at aStart
    rw [← outerIndex] at cStart
    rw [innerCons, outerCons, composeLoop_group
      (meeting.innerCursor.head_dst produces fitsMiddle)
      (meeting.outerCursor.head_src consumes fitsOuter) widened aStart aStop cStart cStop,
      innerNext, outerNext, cutByte, cutChar, ← innerDst]
    have segment := closes.groupSegment_eq innerCursor outerCursor fitsInside fitsOutside
    rw [spanAt, spanAt] at segment
    rw [segment, looped, innerSrc, outerDst, layout_cons, fuseTile_src, fused]
    simp
  · rw [← innerEq, ← outerEq, GroupSide.expand_ahead closes.innerTake,
      GroupSide.expand_ahead closes.outerTake, expand_cons]
    exact whole.append composes
  · refine solid_cons.mpr ⟨?_, solid⟩
    rw [fuseTile_src]
    exact closes.inside_nonempty innerSolid

/-- The traversal lays out the composed alignment from any pair of cursors. -/
theorem traverses (fitsSrc : Fits (srcText p)) (fitsMiddle : Fits (dstText p))
    (fitsDst : Fits (dstText q)) (same : dstText p = srcText q) (size : Nat)
    {innerAhead : List Tile}
    (meeting : Meeting p innerBehind innerUsed innerAhead q outerBehind outerUsed outerAhead)
    (innerSolid : Solid innerAhead) (outerSolid : Solid outerAhead)
    (measure : innerAhead.length + outerAhead.length = size) :
    Traverses p q innerBehind innerUsed innerAhead outerBehind outerUsed outerAhead := by
  induction size using Nat.strong_induction_on generalizing innerBehind innerUsed innerAhead
    outerBehind outerUsed outerAhead with
  | _ size ih =>
  cases innerAhead with
  | nil =>
      have none : outerAhead = [] := by
        cases outerAhead with
        | nil => rfl
        | cons tile tail =>
            have texts := meeting.ahead
            simp only [dstText_nil, srcText_cons] at texts
            exact absurd (List.append_eq_nil_iff.mp texts.symm).1 (solid_cons.mp outerSolid).1
      subst none
      intro out
      exact ⟨[], by simp [segmentsFrom, resume, SpanMap.composeLoop], .nil, solid_nil⟩
  | cons tile innerTail =>
      by_cases empty : tile.dst = []
      · cases tile with
        | run text => exact absurd empty (solid_cons.mp innerSolid).1
        | block source target weight =>
            simp only [Tile.dst] at empty
            subst empty
            refine traverses_delete meeting fitsMiddle same (solid_cons.mp innerSolid).1
              fun innerBehind' moved => ?_
            exact ih _ (by simp only [List.length_cons] at measure; omega) moved
              (solid_cons.mp innerSolid).2 outerSolid rfl
      · cases outerAhead with
        | nil =>
            have texts := meeting.ahead
            simp only [dstText_cons, srcText_nil] at texts
            exact absurd (List.append_eq_nil_iff.mp texts).1 empty
        | cons tile' outerTail =>
            refine traverses_group meeting fitsSrc fitsMiddle fitsDst same innerSolid outerSolid
              empty fun _ _ _ _ _ _ moved solid solid' smaller => ?_
            exact ih _ (by omega) moved solid solid' rfl

end Loop

/-- Composition of two tables is the table of the composed alignment. -/
theorem compose_eq {first second : List (Atom Char Weight)} (firstConsuming : Consuming first)
    (secondConsuming : Consuming second)
    (texts : Alignment.dst first = Alignment.src second) (fitsSrc : Fits (Alignment.src first))
    (fitsMiddle : Fits (Alignment.dst first)) (fitsDst : Fits (Alignment.dst second)) :
    ∃ result, Composes first second result ∧
      SpanMap.compose (tableOf (pack first)) (tableOf (pack second)) =
        .ok (tableOf (pack result)) := by
  have meeting : Meeting (pack first) [] [] (pack first) (pack second) [] [] (pack second) :=
    ⟨cursor_start _, cursor_start _, rfl, by simpa using texts⟩
  obtain ⟨result, looped, composes, solid⟩ :=
    traverses (by simpa using fitsSrc) (by simpa using fitsMiddle) (by simpa using fitsDst)
      (by simpa using texts) _ meeting (solid_pack firstConsuming) (solid_pack secondConsuming)
      rfl []
  refine ⟨expand result, by simpa using composes, ?_⟩
  have start : SpanMap.composeLoop (tableOf (pack first)) (tableOf (pack second))
      (tableOf (pack first)).segments (tableOf (pack second)).segments 0 0 [] =
        .ok (layout [] [] result) := by
    simpa [segmentsFrom, mark, tableOf] using looped
  rw [SpanMap.compose, if_neg, start]
  · simp only [mergeAdjacentIdentity_layout solid, tableOf]
  · simp [tableOf_srcEnd, tableOf_dstEnd, texts]

end AiCoreStack.Pii
