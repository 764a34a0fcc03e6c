import AiCoreStack.Foundation.Intervals
import AiCoreStack.Pii.NormalizeTiling

/-!
# Looking a range up in the source

`to_source` finds the first and the last segment under a range and carries the
ends back.  The start of a range moves to the front of a block that it cuts, the
end moves to the back of it.  Ranges that cut no block keep their order.
-/

namespace AiCoreStack.Pii

open AiCoreStack.Foundation
open AiCoreStack.Foundation.Alignment (Atom keeps Consuming)
open String (utf8Len utf8Len_append)

/-- A piece of a text, with the text in front of it. -/
structure Piece where
  before : List Char
  body : List Char

namespace Piece

def span (piece : Piece) : Span := spanAt piece.before piece.body

/-- The text up to the end of the piece. -/
def through (piece : Piece) : List Char := piece.before ++ piece.body

/-- The piece lies in the text, in front of `after`. -/
def In (piece : Piece) (text after : List Char) : Prop := text = piece.through ++ after

end Piece

/-! ## Offsets of leading parts -/

theorem utf8Len_le_of_leads {left right : List Char} (leading : left <+: right) :
    utf8Len left ≤ utf8Len right := by
  obtain ⟨rest, rfl⟩ := leading
  rw [utf8Len_append]
  exact Nat.le_add_right _ _

theorem Fits.of_leads {left text : List Char} (fits : Fits text) (leading : left <+: text) :
    Fits left :=
  Nat.lt_of_le_of_lt (utf8Len_le_of_leads leading) fits

/-- Leading parts of one text are ordered by their sizes as by their lengths. -/
theorem size_lt_iff_length {size : List Char → Nat}
    (add : ∀ left right, size (left ++ right) = size left + size right)
    (pos : ∀ text, text ≠ [] → 0 < size text) {left right text : List Char}
    (leadsLeft : left <+: text) (leadsRight : right <+: text) :
    size left < size right ↔ left.length < right.length := by
  constructor
  · intro narrower
    by_contra long
    obtain ⟨rest, rfl⟩ := List.prefix_of_prefix_length_le leadsRight leadsLeft (by omega)
    rw [add] at narrower
    omega
  · intro shorter
    obtain ⟨rest, rfl⟩ := List.prefix_of_prefix_length_le leadsLeft leadsRight (by omega)
    have nonempty : rest ≠ [] := by
      rintro rfl
      simp at shorter
    rw [add]
    exact Nat.lt_add_of_pos_right (pos rest nonempty)

theorem mark_lt_iff_length {left right text : List Char} (fits : Fits text)
    (leadsLeft : left <+: text) (leadsRight : right <+: text) :
    (mark left).1 < (mark right).1 ↔ left.length < right.length := by
  rw [mark_lt_iff (fits.of_leads leadsLeft) (fits.of_leads leadsRight),
    size_lt_iff_length utf8Len_append (fun _ => utf8Len_pos) leadsLeft leadsRight]

theorem mark_le_iff_length {left right text : List Char} (fits : Fits text)
    (leadsLeft : left <+: text) (leadsRight : right <+: text) :
    (mark left).1 ≤ (mark right).1 ↔ left.length ≤ right.length := by
  rw [← UInt32.not_lt, mark_lt_iff_length fits leadsRight leadsLeft, Nat.not_lt]

/-! ## Ends of a lookup -/

/-- Source text in front of a range that starts after so many letters. -/
def pullStart : List Tile → Nat → List Char
  | [], _ => []
  | tile :: tiles, start =>
      if start < tile.dst.length then (if tile.isRun then tile.src.take start else [])
      else tile.src ++ pullStart tiles (start - tile.dst.length)

/-- Source text up to the end of a range that stops after so many letters. -/
def pullStop : List Tile → Nat → List Char
  | [], _ => []
  | tile :: tiles, stop =>
      if stop ≤ tile.dst.length then (if tile.isRun then tile.src.take stop else tile.src)
      else tile.src ++ pullStop tiles (stop - tile.dst.length)

/-- No block of the tile list is cut after so many letters. -/
def Uncut : List Tile → Nat → Prop
  | [], _ => True
  | tile :: tiles, cut =>
      (tile.isRun = true ∨ cut = 0 ∨ tile.dst.length ≤ cut) ∧
        Uncut tiles (cut - tile.dst.length)

theorem Tile.isRun_dst {tile : Tile} (isRun : tile.isRun = true) : tile.dst = tile.src := by
  obtain ⟨text, rfl⟩ := Tile.run_of_isRun isRun
  rfl

theorem pullStart_leads (tiles : List Tile) (start : Nat) :
    pullStart tiles start <+: srcText tiles := by
  induction tiles generalizing start with
  | nil => exact List.prefix_refl _
  | cons tile tiles ih =>
      rw [pullStart, srcText_cons]
      split
      · split
        · exact (List.take_prefix _ _).trans (List.prefix_append _ _)
        · exact List.nil_prefix
      · exact (List.prefix_append_right_inj _).mpr (ih _)

theorem pullStop_leads (tiles : List Tile) (stop : Nat) :
    pullStop tiles stop <+: srcText tiles := by
  induction tiles generalizing stop with
  | nil => exact List.prefix_refl _
  | cons tile tiles ih =>
      rw [pullStop, srcText_cons]
      split
      · split
        · exact (List.take_prefix _ _).trans (List.prefix_append _ _)
        · exact List.prefix_append _ _
      · exact (List.prefix_append_right_inj _).mpr (ih _)

/-- A range that is not empty comes back as one that is not. -/
theorem pullStart_lt_pullStop {tiles : List Tile} (solid : Solid tiles) {start stop : Nat}
    (positive : start < stop) (inside : stop ≤ (dstText tiles).length) :
    (pullStart tiles start).length < (pullStop tiles stop).length := by
  induction tiles generalizing start stop with
  | nil =>
      simp only [dstText_nil, List.length_nil] at inside
      omega
  | cons tile tiles ih =>
      obtain ⟨nonempty, solidTail⟩ := solid_cons.mp solid
      have width := List.length_pos_of_ne_nil nonempty
      rw [dstText_cons, List.length_append] at inside
      rw [pullStart, pullStop]
      by_cases stops : stop ≤ tile.dst.length
      · rw [if_pos stops, if_pos (by omega)]
        cases isRun : tile.isRun with
        | true =>
            have same := Tile.isRun_dst isRun
            simp only [if_true, List.length_take, ← same]
            omega
        | false => simpa using width
      · rw [if_neg stops]
        by_cases starts : start < tile.dst.length
        · have later : 0 < (pullStop tiles (stop - tile.dst.length)).length :=
            Nat.zero_lt_of_lt (ih solidTail (Nat.sub_pos_of_lt (by omega)) (by omega))
          rw [if_pos starts, List.length_append]
          cases isRun : tile.isRun with
          | true =>
              simp only [if_true, List.length_take]
              omega
          | false =>
              simp only [Bool.false_eq_true, if_false, List.length_nil]
              omega
        · have step := ih solidTail
            (show start - tile.dst.length < stop - tile.dst.length by omega) (by omega)
          rw [if_neg starts, List.length_append, List.length_append]
          omega

/-- A range that ends at a clean cut comes back in front of what follows it. -/
theorem pullStop_le_pullStart {tiles : List Tile} {start stop : Nat} (positive : 0 < stop)
    (order : stop ≤ start) (inside : start < (dstText tiles).length) (uncut : Uncut tiles stop) :
    (pullStop tiles stop).length ≤ (pullStart tiles start).length := by
  induction tiles generalizing start stop with
  | nil => simp [pullStop]
  | cons tile tiles ih =>
      obtain ⟨clean, uncutTail⟩ := uncut
      rw [dstText_cons, List.length_append] at inside
      rw [pullStart, pullStop]
      by_cases stops : stop ≤ tile.dst.length
      · rw [if_pos stops]
        by_cases starts : start < tile.dst.length
        · rw [if_pos starts]
          have isRun : tile.isRun = true := clean.resolve_right (by omega)
          simp only [isRun, if_true, List.length_take]
          omega
        · rw [if_neg starts, List.length_append]
          split
          · rw [List.length_take]
            omega
          · exact Nat.le_add_right _ _
      · have step := ih (show 0 < stop - tile.dst.length by omega)
          (show stop - tile.dst.length ≤ start - tile.dst.length by omega) (by omega) uncutTail
        rw [if_neg stops, if_neg (by omega), List.length_append, List.length_append]
        omega

theorem pullStart_lt_pullStart {tiles : List Tile} (solid : Solid tiles) {start start' : Nat}
    (order : start < start') (inside : start' < (dstText tiles).length)
    (uncut : Uncut tiles start') :
    (pullStart tiles start).length < (pullStart tiles start').length :=
  Nat.lt_of_lt_of_le (pullStart_lt_pullStop solid order (by omega))
    (pullStop_le_pullStart (by omega) (le_refl _) inside uncut)

theorem pullStop_lt_pullStop {tiles : List Tile} (solid : Solid tiles) {stop stop' : Nat}
    (positive : 0 < stop) (order : stop < stop') (inside : stop' ≤ (dstText tiles).length)
    (uncut : Uncut tiles stop) :
    (pullStop tiles stop).length < (pullStop tiles stop').length :=
  Nat.lt_of_le_of_lt (pullStop_le_pullStart positive (le_refl _) (by omega) uncut)
    (pullStart_lt_pullStop solid order inside)

theorem pullStart_le_iff {tiles : List Tile} (solid : Solid tiles) {low high : Nat}
    (insideLow : low < (dstText tiles).length) (insideHigh : high < (dstText tiles).length)
    (uncutLow : Uncut tiles low) (uncutHigh : Uncut tiles high) :
    (pullStart tiles low).length ≤ (pullStart tiles high).length ↔ low ≤ high := by
  rcases Nat.lt_trichotomy low high with less | rfl | greater
  · have strict := pullStart_lt_pullStart solid less insideHigh uncutHigh
    omega
  · simp
  · have strict := pullStart_lt_pullStart solid greater insideLow uncutLow
    omega

theorem pullStop_le_iff {tiles : List Tile} (solid : Solid tiles) {low high : Nat}
    (someLow : 0 < low) (someHigh : 0 < high) (insideLow : low ≤ (dstText tiles).length)
    (insideHigh : high ≤ (dstText tiles).length) (uncutLow : Uncut tiles low)
    (uncutHigh : Uncut tiles high) :
    (pullStop tiles low).length ≤ (pullStop tiles high).length ↔ low ≤ high := by
  rcases Nat.lt_trichotomy low high with less | rfl | greater
  · have strict := pullStop_lt_pullStop solid someLow less insideHigh uncutLow
    omega
  · simp
  · have strict := pullStop_lt_pullStop solid someHigh greater insideLow uncutHigh
    omega

theorem pullStop_le_pullStart_iff {tiles : List Tile} (solid : Solid tiles) {start stop : Nat}
    (someStop : 0 < stop) (insideStart : start < (dstText tiles).length)
    (insideStop : stop ≤ (dstText tiles).length) (uncutStop : Uncut tiles stop) :
    (pullStop tiles stop).length ≤ (pullStart tiles start).length ↔ stop ≤ start := by
  constructor
  · intro order
    by_contra crossed
    have strict := pullStart_lt_pullStop solid (Nat.lt_of_not_le crossed) insideStop
    omega
  · intro order
    exact pullStop_le_pullStart someStop order insideStart uncutStop

/-! ## The first and the last segment -/

/-- The tile that holds the letter a range starts with. -/
theorem pullStart_split {tiles : List Tile} {start : Nat}
    (inside : start < (dstText tiles).length) :
    ∃ left tile right, tiles = left ++ tile :: right ∧ (dstText left).length ≤ start ∧
      start < (dstText left ++ tile.dst).length ∧
      pullStart tiles start = srcText left ++
        (if tile.isRun then tile.src.take (start - (dstText left).length) else []) := by
  induction tiles generalizing start with
  | nil => simp at inside
  | cons tile tiles ih =>
      rw [dstText_cons, List.length_append] at inside
      rw [pullStart]
      by_cases starts : start < tile.dst.length
      · refine ⟨[], tile, tiles, rfl, Nat.zero_le _, starts, ?_⟩
        rw [if_pos starts]
        simp
      · obtain ⟨left, tile', right, split, below, above, pulled⟩ :=
          ih (show start - tile.dst.length < (dstText tiles).length by omega)
        refine ⟨tile :: left, tile', right, by rw [split, List.cons_append], ?_, ?_, ?_⟩
        · rw [dstText_cons, List.length_append]
          omega
        · simp only [dstText_cons, List.length_append] at above ⊢
          omega
        · rw [if_neg starts, pulled, srcText_cons, dstText_cons, List.length_append,
            List.append_assoc, Nat.sub_sub]

/-- The tile that holds the letter a range ends with. -/
theorem pullStop_split {tiles : List Tile} {stop : Nat} (positive : 0 < stop)
    (inside : stop ≤ (dstText tiles).length) :
    ∃ left tile right, tiles = left ++ tile :: right ∧ (dstText left).length < stop ∧
      stop ≤ (dstText left ++ tile.dst).length ∧
      pullStop tiles stop = srcText left ++
        (if tile.isRun then tile.src.take (stop - (dstText left).length) else tile.src) := by
  induction tiles generalizing stop with
  | nil =>
      simp only [dstText_nil, List.length_nil] at inside
      omega
  | cons tile tiles ih =>
      rw [dstText_cons, List.length_append] at inside
      rw [pullStop]
      by_cases stops : stop ≤ tile.dst.length
      · refine ⟨[], tile, tiles, rfl, positive, stops, ?_⟩
        rw [if_pos stops]
        simp
      · obtain ⟨left, tile', right, split, below, above, pulled⟩ :=
          ih (show 0 < stop - tile.dst.length by omega)
            (show stop - tile.dst.length ≤ (dstText tiles).length by omega)
        refine ⟨tile :: left, tile', right, by rw [split, List.cons_append], ?_, ?_, ?_⟩
        · rw [dstText_cons, List.length_append]
          omega
        · simp only [dstText_cons, List.length_append] at above ⊢
          omega
        · rw [if_neg stops, pulled, srcText_cons, dstText_cons, List.length_append,
            List.append_assoc, Nat.sub_sub]

/-- Where a segment of a table lies in the destination text. -/
theorem mem_layout_dst {before after : List Char} {tiles : List Tile} {segment : Segment}
    (member : segment ∈ layout before after tiles) :
    ∃ front body, segment.dst = spanAt (after ++ front) body ∧ front ++ body <+: dstText tiles := by
  obtain ⟨left, tile, right, rfl, rfl⟩ := mem_layout member
  refine ⟨dstText left, tile.dst, Tile.segment_dst _ _ _, ?_⟩
  rw [dstText_append, dstText_cons, ← List.append_assoc]
  exact List.prefix_append _ _

/-- A leading part that ends in the body of a text is a leading part of the body. -/
theorem leading_split {text front body rest : List Char} (leading : text <+: front ++ (body ++ rest))
    (below : front.length ≤ text.length) (above : text.length ≤ (front ++ body).length) :
    text = front ++ body.take (text.length - front.length) := by
  rw [List.length_append] at above
  have taken := List.prefix_iff_eq_take.mp leading
  rw [List.take_append, List.take_of_length_le below, List.take_append,
    Nat.sub_eq_zero_of_le (show text.length - front.length ≤ body.length by omega),
    List.take_zero, List.append_nil] at taken
  exact taken

section

variable {left right : List Tile} {tile : Tile}

theorem layout_split :
    layout [] [] (left ++ tile :: right) = layout [] [] left ++
      tile.segment (srcText left) (dstText left) ::
        layout (srcText left ++ tile.src) (dstText left ++ tile.dst) right := by
  rw [layout_append, layout_cons]
  rfl

theorem dstText_split :
    dstText (left ++ tile :: right) = dstText left ++ (tile.dst ++ dstText right) := by
  rw [dstText_append, dstText_cons]

theorem dstText_left_leads : dstText left <+: dstText (left ++ tile :: right) := by
  rw [dstText_split]
  exact List.prefix_append _ _

theorem dstText_tile_leads : dstText left ++ tile.dst <+: dstText (left ++ tile :: right) := by
  rw [dstText_split, ← List.append_assoc]
  exact List.prefix_append _ _

variable (fits : Fits (dstText (left ++ tile :: right)))

include fits

/-- The first segment that ends behind a position. -/
theorem partitionPoint_first {front : List Char}
    (leading : front <+: dstText (left ++ tile :: right))
    (below : (dstText left).length ≤ front.length)
    (above : front.length < (dstText left ++ tile.dst).length) :
    (tableOf (left ++ tile :: right)).partitionPoint
      (fun segment => segment.dst.byte.stop ≤ (mark front).1) = left.length := by
  unfold SpanMap.partitionPoint tableOf
  rw [layout_split, List.takeWhile_append_of_pos, List.takeWhile_cons_of_neg, List.append_nil,
    layout_length]
  · rw [Tile.segment_dst, spanAt_byte, decide_eq_true_eq, UInt32.not_le,
      mark_lt_iff_length fits leading dstText_tile_leads]
    exact above
  · intro segment member
    obtain ⟨start, body, dst, inside⟩ := mem_layout_dst member
    rw [dst, List.nil_append, spanAt_byte, decide_eq_true_eq,
      mark_le_iff_length fits (inside.trans dstText_left_leads) leading]
    exact inside.length_le.trans below

/-- The last segment that starts in front of a position. -/
theorem partitionPoint_last {front : List Char}
    (leading : front <+: dstText (left ++ tile :: right))
    (below : (dstText left).length < front.length)
    (above : front.length ≤ (dstText left ++ tile.dst).length) :
    (tableOf (left ++ tile :: right)).partitionPoint
      (fun segment => segment.dst.byte.start < (mark front).1) = left.length + 1 := by
  unfold SpanMap.partitionPoint tableOf
  have next : (layout (srcText left ++ tile.src) (dstText left ++ tile.dst) right).takeWhile
      (fun segment => segment.dst.byte.start < (mark front).1) = [] := by
    cases right with
    | nil => rfl
    | cons other right =>
        rw [layout_cons, List.takeWhile_cons_of_neg]
        rw [Tile.segment_dst, spanAt_byte, decide_eq_true_eq,
          mark_lt_iff_length fits dstText_tile_leads leading]
        exact Nat.not_lt.mpr above
  rw [layout_split, List.takeWhile_append_of_pos, List.takeWhile_cons_of_pos, next,
    List.length_append, layout_length, List.length_singleton]
  · rw [Tile.segment_dst, spanAt_byte, decide_eq_true_eq,
      mark_lt_iff_length fits dstText_left_leads leading]
    exact below
  · intro segment member
    obtain ⟨start, body, dst, inside⟩ := mem_layout_dst member
    rw [dst, List.nil_append, spanAt_byte, decide_eq_true_eq,
      mark_lt_iff_length fits ((List.prefix_append _ _).trans
        (inside.trans dstText_left_leads)) leading]
    have bound := inside.length_le
    rw [List.length_append] at bound
    omega

/-- The start of a range is carried back within its first segment. -/
theorem sourceStart_eq (front body : List Char)
    (leading : front <+: dstText (left ++ tile :: right))
    (below : (dstText left).length ≤ front.length)
    (above : front.length < (dstText left ++ tile.dst).length) :
    (SpanMap.sourceStart (tile.segment (srcText left) (dstText left)) (spanAt front body)).1 =
      mark (srcText left ++
        (if tile.isRun then tile.src.take (front.length - (dstText left).length) else [])) := by
  have inner := leading_split (dstText_split ▸ leading) below (by omega)
  simp only [SpanMap.sourceStart, Tile.segment_identity, Tile.segment_src, Tile.segment_dst]
  cases isRun : tile.isRun with
  | false => simp [spanAt]
  | true =>
      simp only [true_and, if_true, spanAt_byte, spanAt_char, ← Tile.isRun_dst isRun]
      generalize taken : tile.dst.take (front.length - (dstText left).length) = text at inner ⊢
      split
      · rw [inner, (mark_append_sub _ _).1, (mark_append_sub _ _).2, ← mark_append]
      next starts =>
        rw [mark_lt_iff_length fits dstText_left_leads leading] at starts
        have empty : text = [] := by
          rw [← taken, Nat.sub_eq_zero_of_le (by omega), List.take_zero]
        rw [empty, List.append_nil]

/-- The end of a range is carried back within its last segment. -/
theorem sourceStop_eq (before body : List Char) {front : List Char}
    (through : front = before ++ body) (leading : front <+: dstText (left ++ tile :: right))
    (below : (dstText left).length < front.length)
    (above : front.length ≤ (dstText left ++ tile.dst).length) :
    (SpanMap.sourceStop (tile.segment (srcText left) (dstText left)) (spanAt before body)).1 =
      mark (srcText left ++
        (if tile.isRun then tile.src.take (front.length - (dstText left).length)
          else tile.src)) := by
  have inner := leading_split (dstText_split ▸ leading) (by omega) above
  simp only [SpanMap.sourceStop, Tile.segment_identity, Tile.segment_src, Tile.segment_dst]
  cases isRun : tile.isRun with
  | false => simp [spanAt]
  | true =>
      simp only [true_and, if_true, spanAt_byte, spanAt_char, ← Tile.isRun_dst isRun, ← through]
      generalize taken : tile.dst.take (front.length - (dstText left).length) = text at inner ⊢
      split
      · rw [inner, (mark_append_sub _ _).1, (mark_append_sub _ _).2, ← mark_append]
      next stops =>
        rw [mark_lt_iff_length fits leading dstText_tile_leads] at stops
        have whole : text = tile.dst := by
          rw [List.length_append] at *
          rw [← taken, List.take_of_length_le (by omega)]
        rw [whole]

end

theorem splits_le {left right left' right' : List Tile} {tile tile' : Tile}
    (same : left ++ tile :: right = left' ++ tile' :: right')
    (overlap : (dstText left).length < (dstText left' ++ tile'.dst).length) :
    left.length ≤ left'.length := by
  by_contra longer
  have cut : left ++ tile :: right = (left' ++ [tile']) ++ right' := by
    rw [same, List.append_assoc, List.singleton_append]
  have inside : left' ++ [tile'] <+: left := by
    apply leads_of_cuts cut rfl
    rw [List.length_append, List.length_singleton]
    omega
  obtain ⟨rest, rfl⟩ := inside
  simp only [dstText_append, dstText_cons, dstText_nil, List.length_append, List.append_nil]
    at overlap
  omega

/-- The first and the last tile under a nonempty range, and what a lookup makes of
them. -/
theorem toSource_ends {tiles : List Tile} (fits : Fits (dstText tiles)) {piece : Piece}
    {after : List Char} (inText : piece.In (dstText tiles) after) (nonempty : piece.body ≠ []) :
    ∃ left first right left' last right',
      (tiles = left ++ first :: right ∧ (dstText left).length ≤ piece.before.length ∧
        piece.before.length < (dstText left ++ first.dst).length ∧
        pullStart tiles piece.before.length = srcText left ++
          (if first.isRun then first.src.take (piece.before.length - (dstText left).length)
            else [])) ∧
      (tiles = left' ++ last :: right' ∧ (dstText left').length < piece.through.length ∧
        piece.through.length ≤ (dstText left' ++ last.dst).length ∧
        pullStop tiles piece.through.length = srcText left' ++
          (if last.isRun then last.src.take (piece.through.length - (dstText left').length)
            else last.src)) ∧
      let start := SpanMap.sourceStart (first.segment (srcText left) (dstText left)) piece.span
      let stop := SpanMap.sourceStop (last.segment (srcText left') (dstText left')) piece.span
      ((tableOf tiles).toSource piece.span).span =
          ⟨⟨start.1.1, stop.1.1⟩, ⟨start.1.2, stop.1.2⟩⟩ ∧
        ((tableOf tiles).toSource piece.span).snapped = (start.2 || stop.2) := by
  have leads : piece.through <+: dstText tiles := ⟨after, inText.symm⟩
  have leadsBefore : piece.before <+: dstText tiles := (List.prefix_append _ _).trans leads
  have width : piece.before.length < piece.through.length := by
    simpa [Piece.through] using List.length_pos_of_ne_nil nonempty
  obtain ⟨left, first, right, split, below, above, start⟩ :=
    pullStart_split (Nat.lt_of_lt_of_le width leads.length_le)
  obtain ⟨left', last, right', split', below', above', stop⟩ :=
    pullStop_split (Nat.zero_lt_of_lt width) leads.length_le
  have order : left.length ≤ left'.length := splits_le (split.symm.trans split') (by omega)
  have firstIdx : (tableOf tiles).partitionPoint
      (fun segment => segment.dst.byte.stop ≤ piece.span.byte.start) = left.length := by
    rw [split] at fits leadsBefore ⊢
    exact partitionPoint_first fits leadsBefore below above
  have afterIdx : (tableOf tiles).partitionPoint
      (fun segment => segment.dst.byte.start < piece.span.byte.stop) = left'.length + 1 := by
    rw [split'] at fits leads ⊢
    exact partitionPoint_last fits leads below' above'
  have firstAt : (tableOf tiles).segments[left.length]? =
      some (first.segment (srcText left) (dstText left)) := by
    rw [split, tableOf, layout_split, List.getElem?_append_right (by simp)]
    simp
  have lastAt : (tableOf tiles).segments[left'.length]? =
      some (last.segment (srcText left') (dstText left')) := by
    rw [split', tableOf, layout_split, List.getElem?_append_right (by simp)]
    simp
  have bound := (List.getElem?_eq_some_iff.mp lastAt).1
  have solid : (tableOf tiles).segments ≠ [] := by
    intro empty
    simp [empty] at bound
  have head : (((tableOf tiles).segments.take (left'.length + 1)).drop left.length).head? =
      some (first.segment (srcText left) (dstText left)) := by
    rw [List.head?_drop, List.getElem?_take_of_lt (by omega), firstAt]
  have tail : (((tableOf tiles).segments.take (left'.length + 1)).drop left.length).getLast? =
      some (last.segment (srcText left') (dstText left')) := by
    rw [List.getLast?_drop, if_neg (by simp; omega), List.getLast?_take, if_neg (by omega)]
    simp [lastAt]
  refine ⟨left, first, right, left', last, right', ⟨split, below, above, start⟩,
    ⟨split', below', above', stop⟩, ?_⟩
  rw [SpanMap.toSource, if_neg solid]
  simp only [firstIdx, afterIdx, head, tail]
  exact ⟨trivial, trivial⟩

/-- The ends of a nonempty range, carried back by the table of a tile list. -/
theorem toSource_span {tiles : List Tile} (fits : Fits (dstText tiles)) {piece : Piece}
    {after : List Char} (inText : piece.In (dstText tiles) after) (nonempty : piece.body ≠ []) :
    ((tableOf tiles).toSource piece.span).span =
      ⟨⟨(mark (pullStart tiles piece.before.length)).1,
          (mark (pullStop tiles piece.through.length)).1⟩,
        ⟨(mark (pullStart tiles piece.before.length)).2,
          (mark (pullStop tiles piece.through.length)).2⟩⟩ := by
  have leads : piece.through <+: dstText tiles := ⟨after, inText.symm⟩
  have leadsBefore : piece.before <+: dstText tiles := (List.prefix_append _ _).trans leads
  obtain ⟨left, first, right, left', last, right', ⟨split, below, above, start⟩,
    ⟨split', below', above', stop⟩, spanEq, -⟩ := toSource_ends fits inText nonempty
  have startEq := sourceStart_eq (split ▸ fits) piece.before piece.body (split ▸ leadsBefore)
    below above
  have stopEq := sourceStop_eq (split' ▸ fits) piece.before piece.body
    (show piece.through = _ from rfl) (split' ▸ leads) below' above'
  rw [← start] at startEq
  rw [← stop] at stopEq
  rw [spanEq]
  unfold Piece.span
  rw [startEq, stopEq]

/-- A lookup gives a piece of the source text. -/
theorem toSource_piece {tiles : List Tile} (solid : Solid tiles) (fits : Fits (dstText tiles))
    {piece : Piece} {after : List Char} (inText : piece.In (dstText tiles) after)
    (nonempty : piece.body ≠ []) :
    ∃ (source : Piece) (rest : List Char), source.In (srcText tiles) rest ∧ source.body ≠ [] ∧
      ((tableOf tiles).toSource piece.span).span = source.span ∧
      source.before = pullStart tiles piece.before.length ∧
      source.through = pullStop tiles piece.through.length := by
  have width : piece.before.length < piece.through.length := by
    simpa [Piece.through] using List.length_pos_of_ne_nil nonempty
  have inside : piece.through.length ≤ (dstText tiles).length :=
    List.IsPrefix.length_le ⟨after, inText.symm⟩
  have grows := pullStart_lt_pullStop solid width inside
  obtain ⟨body, through⟩ := List.prefix_of_prefix_length_le (pullStart_leads tiles _)
    (pullStop_leads tiles _) grows.le
  obtain ⟨rest, whole⟩ := pullStop_leads tiles piece.through.length
  refine ⟨⟨pullStart tiles piece.before.length, body⟩, rest, ?_, ?_, ?_, rfl, through⟩
  · rw [Piece.In, Piece.through, through, whole]
  · rintro rfl
    rw [← through, List.append_nil] at grows
    exact absurd grows (Nat.lt_irrefl _)
  · rw [toSource_span fits inText nonempty, ← through]
    rfl

/-! ## Clean cuts -/

theorem uncut_zero (tiles : List Tile) : Uncut tiles 0 := by
  induction tiles with
  | nil => trivial
  | cons tile tiles ih => exact ⟨.inr (.inl rfl), by rwa [Nat.zero_sub]⟩

/-- A seam between atoms cuts no block. -/
theorem uncut_of_seam {tiles : List Tile} {front back : List (Atom Char Weight)}
    (split : expand tiles = front ++ back) : Uncut tiles (Alignment.dst front).length := by
  induction tiles generalizing front with
  | nil => trivial
  | cons tile tiles ih =>
      rw [expand_cons] at split
      rcases List.append_eq_append_iff.mp split with ⟨rest, frontEq, restEq⟩ | ⟨rest, tileEq, backEq⟩
      · have width : (Alignment.dst front).length =
            tile.dst.length + (Alignment.dst rest).length := by
          rw [frontEq, Alignment.dst_append, Tile.dst_atoms, List.length_append]
        refine ⟨.inr (.inr (by omega)), ?_⟩
        rw [width, Nat.add_sub_cancel_left]
        exact ih restEq
      · have within : (Alignment.dst front).length ≤ tile.dst.length := by
          rw [← Tile.dst_atoms, tileEq, Alignment.dst_append, List.length_append]
          exact Nat.le_add_right _ _
        refine ⟨?_, ?_⟩
        · cases tile with
          | run text => exact .inl rfl
          | block source target weight =>
              right
              cases front with
              | nil => exact .inl rfl
              | cons atom front =>
                  right
                  rw [Tile.atoms, List.cons_append, List.cons.injEq] at tileEq
                  rw [← tileEq.1, Alignment.dst_cons, List.length_append]
                  exact Nat.le_add_right _ _
        · rw [Nat.sub_eq_zero_of_le within]
          exact uncut_zero tiles

theorem uncut_append {left right : List Tile} {cut : Nat} :
    Uncut (left ++ right) cut ↔ Uncut left cut ∧ Uncut right (cut - (dstText left).length) := by
  induction left generalizing cut with
  | nil => simp [Uncut]
  | cons tile left ih =>
      simp only [List.cons_append, Uncut, ih, dstText_cons, List.length_append, Nat.sub_sub,
        and_assoc]

/-- A lookup between clean cuts widens nothing. -/
theorem toSource_unsnapped {tiles : List Tile} (fits : Fits (dstText tiles)) {piece : Piece}
    {after : List Char} (inText : piece.In (dstText tiles) after) (nonempty : piece.body ≠ [])
    (uncutStart : Uncut tiles piece.before.length) (uncutStop : Uncut tiles piece.through.length) :
    ((tableOf tiles).toSource piece.span).snapped = false := by
  have leads : piece.through <+: dstText tiles := ⟨after, inText.symm⟩
  have leadsBefore : piece.before <+: dstText tiles := (List.prefix_append _ _).trans leads
  obtain ⟨left, first, right, left', last, right', ⟨split, below, above, -⟩,
    ⟨split', below', above', -⟩, -, snappedEq⟩ := toSource_ends fits inText nonempty
  have starts : (SpanMap.sourceStart (first.segment (srcText left) (dstText left))
      piece.span).2 = false := by
    rw [split] at fits uncutStart leadsBefore
    obtain ⟨-, clean, -⟩ := uncut_append.mp uncutStart
    rw [List.length_append] at above
    simp only [SpanMap.sourceStart, Tile.segment_identity, Tile.segment_dst]
    split
    · rfl
    next other =>
      rw [decide_eq_false_iff_not, not_not]
      rw [Piece.span, spanAt_byte, spanAt_byte] at other ⊢
      rw [mark_lt_iff_length fits dstText_left_leads leadsBefore] at other
      have level : piece.before.length = (dstText left).length := by
        rcases clean with isRun | level
        · have notBelow := mt (And.intro isRun) other
          omega
        · omega
      have same : piece.before = dstText left :=
        List.IsPrefix.eq_of_length (List.prefix_of_prefix_length_le leadsBefore dstText_left_leads
          level.le) level
      rw [same]
  have stops : (SpanMap.sourceStop (last.segment (srcText left') (dstText left'))
      piece.span).2 = false := by
    rw [split'] at fits uncutStop leads
    obtain ⟨-, clean, -⟩ := uncut_append.mp uncutStop
    simp only [SpanMap.sourceStop, Tile.segment_identity, Tile.segment_dst]
    split
    · rfl
    next other =>
      rw [decide_eq_false_iff_not, not_not]
      rw [Piece.span, spanAt_byte, spanAt_byte] at other ⊢
      change ¬ (_ ∧ (mark piece.through).1 < _) at other
      rw [mark_lt_iff_length fits leads dstText_tile_leads] at other
      rw [List.length_append] at above' other
      have level : piece.through.length = (dstText left' ++ last.dst).length := by
        rw [List.length_append]
        rcases clean with isRun | level
        · have notBelow := mt (And.intro isRun) other
          omega
        · omega
      have same : piece.through = dstText left' ++ last.dst :=
        List.IsPrefix.eq_of_length (List.prefix_of_prefix_length_le leads dstText_tile_leads
          level.le) level
      change (mark piece.through).1 = _
      rw [same]
  rw [snappedEq, starts, stops]
  rfl

/-- A normalised text that is tied to its source by the table of a tile list.  A
cut next to a character that is no digit cuts no block. -/
structure Tiled (text : List Char) (normalized : Normalized) (tiles : List Tile) : Prop where
  solid : Solid tiles
  source : srcText tiles = text
  target : dstText tiles = normalized.text
  map : normalized.map = tableOf tiles
  fitsSource : Fits text
  fitsTarget : Fits normalized.text
  uncut : ∀ front back, normalized.text = front ++ back → Alignment.Clean Digit front back →
    Uncut tiles front.length

/-- The pipeline ties its result to its input. -/
theorem normalize_tiled {text : List Char} {cfg : NormalizeConfig}
    (fits : ∀ seam ∈ pipelineTexts (passes cfg) text, Fits seam) :
    ∃ normalized tiles, normalize text cfg = .ok normalized ∧ Tiled text normalized tiles := by
  have fitsText : Fits text := fits text (by simp [passes, pipelineTexts])
  obtain ⟨final, ran, ⟨atoms, consuming, srcEq, dstEq, mapEq, glued⟩, fitsFinal⟩ :=
    pipeline_aligned (passes cfg) (passes_isPass cfg) (aligned_identity text) fitsText fits
  refine ⟨final, pack atoms, ran, solid_pack consuming, by rw [srcText_pack, srcEq],
    by rw [dstText_pack, dstEq], mapEq, fitsText, fitsFinal, ?_⟩
  intro front back texts clean
  obtain ⟨frontAtoms, backAtoms, split, frontEq, -⟩ :=
    Alignment.exists_seam glued (dstEq.trans texts) clean
  rw [← frontEq]
  apply uncut_of_seam
  rw [expand_pack, split]

/-! ## Order of lookups -/

/-- Spans on the line of byte offsets. -/
def spanPlace : Placement Span Nat where
  start span := span.byte.start.toNat
  stop span := span.byte.stop.toNat

/-- Pieces on the line of character positions. -/
def piecePlace : Placement Piece Nat where
  start piece := piece.before.length
  stop piece := piece.through.length

/-- Spans of pieces of one text lie as the pieces do. -/
theorem Piece.span_place {text afterLeft afterRight : List Char} {left right : Piece}
    (fits : Fits text) (inLeft : left.In text afterLeft) (inRight : right.In text afterRight) :
    (spanPlace.Apart left.span right.span ↔ piecePlace.Apart left right) ∧
      (spanPlace.Within left.span right.span ↔ piecePlace.Within left right) := by
  have throughLeft : left.through <+: text := ⟨afterLeft, inLeft.symm⟩
  have throughRight : right.through <+: text := ⟨afterRight, inRight.symm⟩
  have beforeLeft : left.before <+: text := (List.prefix_append _ _).trans throughLeft
  have beforeRight : right.before <+: text := (List.prefix_append _ _).trans throughRight
  simp only [Placement.Apart, Placement.Within, spanPlace, piecePlace, Piece.span, spanAt_byte,
    ← UInt32.le_iff_toNat_le]
  change ((mark left.through).1 ≤ _ ∨ (mark right.through).1 ≤ _ ↔ _) ∧
    (_ ∧ (mark left.through).1 ≤ (mark right.through).1 ↔ _)
  rw [mark_le_iff_length fits throughLeft beforeRight,
    mark_le_iff_length fits throughRight beforeLeft, mark_le_iff_length fits beforeRight beforeLeft,
    mark_le_iff_length fits throughLeft throughRight]
  exact ⟨Iff.rfl, Iff.rfl⟩

/-- A nonempty piece of a text with a clean cut at either end. -/
structure Piece.CleanIn (piece : Piece) (text : List Char) : Prop where
  inText : ∃ after, piece.In text after ∧ Alignment.Clean Digit piece.before (piece.body ++ after) ∧
    Alignment.Clean Digit piece.through after
  nonempty : piece.body ≠ []

namespace Tiled

variable {text : List Char} {normalized : Normalized} {tiles : List Tile}

/-- A lookup gives a piece of the source text. -/
theorem toSource (tiled : Tiled text normalized tiles) {piece : Piece} {after : List Char}
    (inText : piece.In normalized.text after) (nonempty : piece.body ≠ []) :
    ∃ (source : Piece) (rest : List Char), source.In text rest ∧ source.body ≠ [] ∧
      (normalized.map.toSource piece.span).span = source.span ∧
      source.before = pullStart tiles piece.before.length ∧
      source.through = pullStop tiles piece.through.length := by
  have fits := tiled.fitsTarget
  rw [← tiled.target] at inText fits
  rw [← tiled.source, tiled.map]
  exact toSource_piece tiled.solid fits inText nonempty

theorem place (tiled : Tiled text normalized tiles) {left right : Piece}
    (cleanLeft : left.CleanIn normalized.text) (cleanRight : right.CleanIn normalized.text) :
    (spanPlace.Apart (normalized.map.toSource left.span).span
        (normalized.map.toSource right.span).span ↔ piecePlace.Apart left right) ∧
      (spanPlace.Within (normalized.map.toSource left.span).span
        (normalized.map.toSource right.span).span ↔ piecePlace.Within left right) := by
  obtain ⟨⟨afterLeft, inLeft, startLeft, stopLeft⟩, someLeft⟩ := cleanLeft
  obtain ⟨⟨afterRight, inRight, startRight, stopRight⟩, someRight⟩ := cleanRight
  obtain ⟨source, rest, inSource, -, spanEq, beforeEq, throughEq⟩ := tiled.toSource inLeft someLeft
  obtain ⟨source', rest', inSource', -, spanEq', beforeEq', throughEq'⟩ :=
    tiled.toSource inRight someRight
  have uncutStartLeft := tiled.uncut _ _ (by rw [← List.append_assoc]; exact inLeft) startLeft
  have uncutStartRight := tiled.uncut _ _ (by rw [← List.append_assoc]; exact inRight) startRight
  have uncutStopLeft := tiled.uncut _ _ inLeft stopLeft
  have uncutStopRight := tiled.uncut _ _ inRight stopRight
  have widthLeft : left.before.length < left.through.length := by
    simpa [Piece.through] using List.length_pos_of_ne_nil someLeft
  have widthRight : right.before.length < right.through.length := by
    simpa [Piece.through] using List.length_pos_of_ne_nil someRight
  have insideLeft : left.through.length ≤ (dstText tiles).length := by
    rw [tiled.target]
    exact List.IsPrefix.length_le ⟨afterLeft, inLeft.symm⟩
  have insideRight : right.through.length ≤ (dstText tiles).length := by
    rw [tiled.target]
    exact List.IsPrefix.length_le ⟨afterRight, inRight.symm⟩
  rw [spanEq, spanEq', (Piece.span_place tiled.fitsSource inSource inSource').1,
    (Piece.span_place tiled.fitsSource inSource inSource').2]
  simp only [Placement.Apart, Placement.Within, piecePlace, beforeEq, throughEq, beforeEq',
    throughEq']
  rw [pullStop_le_pullStart_iff tiled.solid (by omega) (by omega) insideLeft uncutStopLeft,
    pullStop_le_pullStart_iff tiled.solid (by omega) (by omega) insideRight uncutStopRight,
    pullStart_le_iff tiled.solid (by omega) (by omega) uncutStartRight uncutStartLeft,
    pullStop_le_iff tiled.solid (by omega) (by omega) insideLeft insideRight uncutStopLeft
      uncutStopRight]
  exact ⟨Iff.rfl, Iff.rfl⟩

theorem crosses_iff (tiled : Tiled text normalized tiles) {left right : Piece}
    (cleanLeft : left.CleanIn normalized.text) (cleanRight : right.CleanIn normalized.text) :
    spanPlace.Crosses (normalized.map.toSource left.span).span
      (normalized.map.toSource right.span).span ↔ piecePlace.Crosses left right := by
  unfold Placement.Crosses
  rw [(tiled.place cleanLeft cleanRight).1, (tiled.place cleanLeft cleanRight).2,
    (tiled.place cleanRight cleanLeft).2]

end Tiled

end AiCoreStack.Pii
