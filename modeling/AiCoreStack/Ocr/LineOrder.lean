import AiCoreStack.Foundation.Runs
import AiCoreStack.Ocr.XyRuns

/-!
# Lines below each other

When a box comes in front of a box below it: always, except in a group of boxes that no gap
separates on either axis, which is read from left to right.
-/

namespace AiCoreStack.Ocr

open AiCoreStack.Foundation
open scoped List

/-! ## The order inside a band -/

/-- The order inside a band: by the left edge, then by the top edge, then by the index. -/
def Reads (a b : Placed) : Prop :=
  a.rect.left < b.rect.left ∨ a.rect.left = b.rect.left ∧
    (a.rect.top < b.rect.top ∨ a.rect.top = b.rect.top ∧ a.index < b.index)

theorem Reads.asymm {a b : Placed} (first : Reads a b) (second : Reads b a) : False := by
  unfold Reads at first second
  omega

/-- Boxes of one corner come in the order of their indices. -/
def Arranged (items : List Placed) : Prop :=
  items.Pairwise fun a b =>
    a.rect.left = b.rect.left → a.rect.top = b.rect.top → a.index < b.index

variable {minGap fuel : Nat} {items group : List Placed} {res : List Nat}

theorem arranged_placed (rects : List Rect) : Arranged (placed rects) := by
  rw [Arranged, placed, List.pairwise_map]
  exact (pairwise_zipIdx rects).imp fun below _ _ => below

theorem Arranged.pairwise_reads (arranged : Arranged items) {band : List Placed}
    (inBands : band ∈ xyBands minGap items) : band.Pairwise Reads := by
  obtain ⟨row, -, rfl⟩ := List.mem_map.mp inBands
  have byTop := StableSort.pairwise_sortByKey (fun item : Placed => item.rect.start .y) arranged
  have byLeft := StableSort.pairwise_sortByKey (fun item : Placed => item.rect.start .x)
    (byTop.sublist (List.filter_sublist (p := fun item : Placed =>
      decide (row.1 ≤ item.rect.start .y) && decide (item.rect.start .y < row.2))))
  refine byLeft.imp ?_
  rintro a b ⟨left, tied⟩
  rcases Nat.lt_or_eq_of_le left with before | same
  · exact .inl before
  · obtain ⟨top, tied⟩ := tied same
    rcases Nat.lt_or_eq_of_le top with before | level
    · exact .inr ⟨same, .inl before⟩
    · exact .inr ⟨same, .inr ⟨level, tied level same level⟩⟩

theorem arranged_column {band column : List Placed} (ordered : band.Pairwise Reads)
    (inColumns : column ∈ xyColumns minGap band) : Arranged column := by
  obtain ⟨span, -, rfl⟩ := List.mem_map.mp inColumns
  refine (ordered.sublist List.filter_sublist).imp ?_
  intro a b reads left top
  unfold Reads at reads
  omega

/-! ## Groups that no gap separates -/

/-- Two rectangles of a group between whose near edges the group leaves as many coordinates in a
row free as the gap is wide. -/
def Apart (minGap : Nat) (group : List Rect) (axis : Axis) (a b : Rect) : Prop :=
  ∃ c, a.start axis ≤ c ∧ c + minGap < b.start axis ∧
    ∀ i, c < i → i ≤ c + minGap → ∀ rect ∈ group, ¬ (rect.start axis ≤ i ∧ i < rect.stop axis)

/-- A group of rectangles that no gap separates on either axis. -/
def Unseparated (minGap : Nat) (group : List Rect) : Prop :=
  ∀ axis, ∀ a ∈ group, ∀ b ∈ group, ¬ Apart minGap group axis a b

theorem Unseparated.of_mem_iff {group group' : List Rect}
    (same : ∀ rect, rect ∈ group ↔ rect ∈ group') (unseparated : Unseparated minGap group) :
    Unseparated minGap group' := by
  rintro axis a inA b inB ⟨c, starts, ends, free⟩
  refine unseparated axis a ((same a).mpr inA) b ((same b).mpr inB) ⟨c, starts, ends, ?_⟩
  exact fun i behind near rect member => free i behind near rect ((same rect).mp member)

/-- Rectangles that start in one interval are not apart. -/
theorem not_apart {axis : Axis} {span : Nat × Nat} (inCuts : span ∈ xyCuts axis minGap items)
    {a b : Rect} (insideA : Inside span (a.start axis)) (insideB : Inside span (b.start axis)) :
    ¬ Apart minGap (items.map Placed.rect) axis a b := by
  rintro ⟨c, starts, ends, free⟩
  have reached := insideA.1
  have within := insideB.2
  obtain ⟨i, behind, near, item, member, covers⟩ :=
    exists_near_xyCuts inCuts (c := c) (by omega) (by omega)
  exact free i behind near item.rect (List.mem_map_of_mem member) covers

/-- A gap in a band is a gap in all the boxes: no box that starts outside the band reaches
into it. -/
theorem Apart.of_band {row : Nat × Nat} (inCuts : row ∈ xyCuts .y minGap items)
    {band : List Placed} (holds : ∀ item ∈ items, Inside row (item.rect.start .y) → item ∈ band)
    {a b : Rect} (insideA : Inside row (a.start .y)) (insideB : Inside row (b.start .y))
    (apart : Apart minGap (band.map Placed.rect) .y a b) :
    Apart minGap (items.map Placed.rect) .y a b := by
  obtain ⟨c, starts, ends, free⟩ := apart
  refine ⟨c, starts, ends, ?_⟩
  rintro i behind near _ inMap covers
  obtain ⟨item, member, rfl⟩ := List.mem_map.mp inMap
  have inside : Inside row i := by
    have reached := insideA.1
    have within := insideB.2
    exact ⟨by omega, by omega⟩
  have started := inside_xyCuts_of_covers (by omega) inCuts member covers.1 covers.2 inside
  exact free i behind near item.rect (List.mem_map_of_mem (holds item member started)) covers

theorem not_apart_rows {band : List Placed} (inBands : band ∈ xyBands minGap items) {a b : Placed}
    (inA : a ∈ band) (inB : b ∈ band) :
    ¬ Apart minGap (band.map Placed.rect) .y a.rect b.rect := by
  obtain ⟨row, inCuts, rfl⟩ := List.mem_map.mp inBands
  rw [mem_xySort] at inA inB
  have insideA := (mem_xySelect.mp inA).2
  have insideB := (mem_xySelect.mp inB).2
  intro apart
  refine not_apart inCuts insideA insideB (apart.of_band inCuts ?_ insideA insideB)
  exact fun item member started => mem_xySort.mpr (mem_xySelect.mpr ⟨member, started⟩)

theorem not_apart_column {band : List Placed} (one : (xyColumns minGap band).length = 1)
    {a b : Placed} (inA : a ∈ band) (inB : b ∈ band) (wideA : a.rect.Covers .x)
    (wideB : b.rect.Covers .x) : ¬ Apart minGap (band.map Placed.rect) .x a.rect b.rect := by
  rw [xyColumns, List.length_map] at one
  obtain ⟨span, only⟩ := List.length_eq_one_iff.mp one
  have inside {item : Placed} (member : item ∈ band) (wide : item.rect.Covers .x) :
      Inside span (item.rect.start .x) := by
    obtain ⟨other, inCuts, inside⟩ := exists_inside_xyCuts .x minGap member (Nat.le_refl _) wide
    rw [only] at inCuts
    rwa [← List.mem_singleton.mp inCuts]
  exact not_apart (only ▸ List.mem_singleton_self span) (inside inA wideA) (inside inB wideB)

/-- No gap separates a band of one column. -/
theorem unseparated_band {band : List Placed} (inBands : band ∈ xyBands minGap items)
    (one : (xyColumns minGap band).length = 1) (wide : ∀ item ∈ band, item.rect.Covers .x) :
    Unseparated minGap (band.map Placed.rect) := by
  intro axis _ inMap _ inMap'
  obtain ⟨a, inA, rfl⟩ := List.mem_map.mp inMap
  obtain ⟨b, inB, rfl⟩ := List.mem_map.mp inMap'
  cases axis with
  | x => exact not_apart_column one inA inB (wide a inA) (wide b inB)
  | y => exact not_apart_rows inBands inA inB

/-- A gap lies in front of each interval. -/
theorem apart_of_before {axis : Axis} (sub : group ⊆ items) {a b : Placed} (inA : a ∈ group)
    (covers : a.rect.Covers axis) {span : Nat × Nat} (inCuts : span ∈ xyCuts axis minGap items)
    (before : a.rect.start axis < span.1) (behind : span.1 ≤ b.rect.start axis) :
    Apart minGap (group.map Placed.rect) axis a.rect b.rect := by
  have far := apart_xyCuts inCuts (sub inA) (Nat.le_refl _) covers before
  refine ⟨span.1 - minGap - 1, by omega, by omega, ?_⟩
  rintro i after near _ inMap ⟨starts, ends⟩
  obtain ⟨item, member, rfl⟩ := List.mem_map.mp inMap
  have := apart_xyCuts inCuts (sub member) starts ends (by omega)
  omega

/-- Rectangles that no gap separates start in one interval. -/
theorem Unseparated.inside (unseparated : Unseparated minGap (group.map Placed.rect))
    (sub : group ⊆ items) {axis : Axis} (covers : ∀ item ∈ items, item.rect.Covers axis)
    {a b : Placed} (inA : a ∈ group) (inB : b ∈ group) {span : Nat × Nat}
    (inCuts : span ∈ xyCuts axis minGap items) (insideA : Inside span (a.rect.start axis)) :
    Inside span (b.rect.start axis) := by
  obtain ⟨other, inCuts', insideB⟩ :=
    exists_inside_xyCuts axis minGap (sub inB) (Nat.le_refl _) (covers b (sub inB))
  by_contra outside
  have distinct : span ≠ other := by
    rintro rfl
    exact outside insideB
  have ordered {left right : Nat × Nat} (between : [left, right] <+ xyCuts axis minGap items) :
      left.2 ≤ right.1 := List.pairwise_iff_forall_sublist.mp inOrder_xyCuts between
  have mapped {item : Placed} (member : item ∈ group) :=
    List.mem_map_of_mem (f := Placed.rect) member
  rcases StableSort.pair_sublist_or distinct inCuts inCuts' with first | second
  · exact unseparated axis _ (mapped inA) _ (mapped inB) (apart_of_before sub inA
      (covers a (sub inA)) inCuts' (Nat.lt_of_lt_of_le insideA.2 (ordered first)) insideB.1)
  · exact unseparated axis _ (mapped inB) _ (mapped inA) (apart_of_before sub inB
      (covers b (sub inB)) inCuts (Nat.lt_of_lt_of_le insideB.2 (ordered second)) insideA.1)

/-- No gap separates some of the boxes around these two. -/
def Clustered (minGap : Nat) (items : List Placed) (a b : Placed) : Prop :=
  ∃ group, group ⊆ items ∧ a ∈ group ∧ b ∈ group ∧ Unseparated minGap (group.map Placed.rect)

theorem Clustered.mono {items' : List Placed} {a b : Placed} (clustered : Clustered minGap items' a b)
    (sub : items' ⊆ items) : Clustered minGap items a b := by
  obtain ⟨group, within, both⟩ := clustered
  exact ⟨group, List.Subset.trans within sub, both⟩

/-- Boxes that no gap separates are in one part of any cut. -/
theorem Clustered.select {axis : Axis} {a b : Placed} (clustered : Clustered minGap items a b)
    (covers : ∀ item ∈ items, item.rect.Covers axis) {span : Nat × Nat}
    (inCuts : span ∈ xyCuts axis minGap items) (insideA : Inside span (a.rect.start axis)) :
    Clustered minGap (xySelect axis span items) a b := by
  obtain ⟨group, sub, inA, inB, unseparated⟩ := clustered
  exact ⟨group, fun item member => mem_xySelect.mpr
    ⟨sub member, unseparated.inside sub covers inA member inCuts insideA⟩, inA, inB, unseparated⟩

theorem Clustered.band {a b : Placed} (clustered : Clustered minGap items a b)
    (high : ∀ item ∈ items, item.rect.Covers .y) {band : List Placed}
    (inBands : band ∈ xyBands minGap items) (inA : a ∈ band) : Clustered minGap band a b := by
  obtain ⟨row, inCuts, rfl⟩ := List.mem_map.mp inBands
  have insideA := (mem_xySelect.mp (mem_xySort.mp inA)).2
  have sorted : Clustered minGap (xySort .y items) a b := clustered.mono fun _ => mem_xySort.mpr
  exact (sorted.select (fun item member => high item (mem_xySort.mp member)) inCuts
    insideA).mono fun _ => mem_xySort.mpr

theorem Clustered.right_mem {a b : Placed} (clustered : Clustered minGap items a b) : b ∈ items := by
  obtain ⟨group, sub, -, inB, -⟩ := clustered
  exact sub inB

/-! ## A box and one below it -/

/-- A box that starts above another one, with a column of pixels in common. -/
structure Over (a b : Placed) : Prop where
  top : a.rect.top ≤ b.rect.top
  left : a.rect.left < b.rect.right
  right : b.rect.left < a.rect.right

theorem pair_sublist_flatten {α : Type} {parts : List (List α)} {first second : List α} {a b : α}
    (sub : [first, second] <+ parts) (inFirst : a ∈ first) (inSecond : b ∈ second) :
    [a, b] <+ parts.flatten := by
  have both : [a] ++ [b] <+ first ++ second :=
    (List.singleton_sublist.mpr inFirst).append (List.singleton_sublist.mpr inSecond)
  refine both.trans ?_
  have flat := sub.flatten
  rwa [List.flatten_cons, List.flatten_singleton] at flat

/-- Boxes with a column of pixels in common are in one column. -/
theorem Over.column {band : List Placed} {a b : Placed} (above : Over a b)
    (opened : Opened minGap band) (inA : a ∈ band) (inB : b ∈ band) {span : Nat × Nat}
    (inCuts : span ∈ xyCuts .x minGap band) (inside : Inside span (a.rect.start .x)) :
    Inside span (b.rect.start .x) := by
  rcases Nat.le_total b.rect.left a.rect.left with left | right
  · exact opened.inside_of_covers inCuts inB left above.left inside
  · obtain ⟨other, inCuts', inside'⟩ := exists_inside_xyCuts .x minGap inA
      (i := b.rect.start .x) right above.right
    have starts := opened.inside_of_covers inCuts' inA right above.right inside'
    rwa [inOrder_xyCuts.eq_of_inside inCuts inCuts' inside starts]

variable (minGap) in
theorem exists_band_or_before (solid : ∀ item ∈ items, item.rect.Solid) {a b : Placed}
    (inA : a ∈ items) (inB : b ∈ items) (top : a.rect.top ≤ b.rect.top) :
    (∃ band ∈ xyBands minGap items, a ∈ band ∧ b ∈ band) ∨
      ∃ first second, [first, second] <+ xyBands minGap items ∧ a ∈ first ∧ b ∈ second := by
  have reached : ∀ item ∈ xySort .y items, ∃ span ∈ xyCuts .y minGap (xySort .y items),
      Inside span (item.rect.start .y) := fun item member =>
    exists_inside_xyCuts .y minGap member (Nat.le_refl _) (solid item (mem_xySort.mp member)).high
  rw [xyBands_eq_map]
  rcases same_or_before_cutAt inOrder_xyCuts (mem_xySort.mpr inA) (mem_xySort.mpr inB) top reached
    with ⟨part, inParts, both⟩ | ⟨first, second, sub, both⟩
  · refine .inl ⟨_, List.mem_map_of_mem inParts, ?_⟩
    rwa [mem_xySort, mem_xySort]
  · refine .inr ⟨_, _, sub.map (xySort .x), ?_⟩
    rwa [mem_xySort, mem_xySort]

/-- A pair in a part of a list comes in the order it has there. -/
theorem pair_sublist_iff {α : Type} {part whole : List α} (nodup : whole.Nodup)
    (sub : part <+ whole) {a b : α} (inA : a ∈ part) (inB : b ∈ part) :
    [a, b] <+ whole ↔ [a, b] <+ part := by
  refine ⟨fun before => ?_, fun before => before.trans sub⟩
  have distinct : a ≠ b := by
    rintro rfl
    exact StableSort.not_both_orders nodup before before
  rcases StableSort.pair_sublist_or distinct inA inB with kept | swapped
  · exact kept
  · exact (StableSort.not_both_orders nodup before (swapped.trans sub)).elim

/-- In a band of one column the one further left comes first. -/
theorem pair_sublist_iff_reads {band : List Placed} (ordered : band.Pairwise Reads)
    (nodup : (band.map Placed.index).Nodup) {a b : Placed} (inA : a ∈ band) (inB : b ∈ band) :
    [a.index, b.index] <+ band.map Placed.index ↔ Reads a b := by
  rw [StableSort.pair_sublist_map_iff nodup inA inB]
  refine ⟨List.pairwise_iff_forall_sublist.mp ordered, fun reads => ?_⟩
  have distinct : a ≠ b := by
    rintro rfl
    exact reads.asymm reads
  refine (StableSort.pair_sublist_or distinct inA inB).resolve_right fun swapped => ?_
  exact reads.asymm (List.pairwise_iff_forall_sublist.mp ordered swapped)

/-- What a band adds reads a box in front of one below it exactly when that is so in its columns. -/
theorem Over.band_before_iff {a b : Placed} (above : Over a b)
    {again : List Placed → Option (List Nat)} {band : List Placed} {piece : List Nat}
    (run : BandRun minGap again band piece) (inBands : band ∈ xyBands minGap items)
    (ordered : band.Pairwise Reads)
    (wide : ∀ item ∈ band, item.rect.Covers .x) (opened : Opened minGap band)
    (kept : ∀ column res, again column = some res → ∀ item ∈ column, item ∈ band →
      item.index ∈ res)
    (each : ∀ column res, column ∈ xyColumns minGap band → again column = some res → res.Nodup →
      a ∈ column → b ∈ column →
        ([a.index, b.index] <+ res ↔ Reads a b ∨ ¬ Clustered minGap column a b))
    (nodup : piece.Nodup) (inA : a ∈ band) (inB : b ∈ band) :
    [a.index, b.index] <+ piece ↔ Reads a b ∨ ¬ Clustered minGap band a b := by
  obtain ⟨span, inCuts, insideA⟩ := exists_inside_xyCuts .x minGap inA (Nat.le_refl _) (wide a inA)
  have insideB := above.column opened inA inB inCuts insideA
  have inColumns : xySelect .x span band ∈ xyColumns minGap band := List.mem_map_of_mem inCuts
  cases run with
  | nothing no =>
      rw [no] at inColumns
      exact absurd inColumns List.not_mem_nil
  | single one =>
      have clustered : Clustered minGap band a b :=
        ⟨band, fun _ => id, inA, inB, unseparated_band inBands one wide⟩
      rw [pair_sublist_iff_reads ordered nodup inA inB]
      exact ⟨.inl, fun condition => condition.resolve_right (not_not_intro clustered)⟩
  | several more read =>
      have selectedA := mem_xySelect.mpr ⟨inA, insideA⟩
      have selectedB := mem_xySelect.mpr ⟨inB, insideB⟩
      obtain ⟨piece, inPieces, ran⟩ := exists_beside read inColumns
      have inside := List.sublist_flatten_of_mem inPieces
      have column : Clustered minGap (xySelect .x span band) a b ↔ Clustered minGap band a b :=
        ⟨fun clustered => clustered.mono fun _ member => (mem_xySelect.mp member).1,
          fun clustered => clustered.select wide inCuts insideA⟩
      rw [pair_sublist_iff nodup inside (kept _ _ ran a selectedA inA)
          (kept _ _ ran b selectedB inB),
        each _ _ inColumns ran (nodup.sublist inside) selectedA selectedB, column]

/-- A box comes in front of one below it exactly when it is read first or a gap separates every
group that holds both. -/
theorem Over.before_iff {a b : Placed} (above : Over a b)
    (solid : ∀ item ∈ items, item.rect.Solid) (opened : Opened minGap items)
    (arranged : Arranged items) (nodup : res.Nodup)
    (ran : xyCutRec minGap fuel items = some res) (inA : a ∈ items) (inB : b ∈ items) :
    [a.index, b.index] <+ res ↔ Reads a b ∨ ¬ Clustered minGap items a b := by
  induction fuel generalizing items res with
  | zero => cases ran
  | succ fuel ih =>
      obtain ⟨pieces, read, rfl⟩ := (xyCutRec_succ_iff (List.ne_nil_of_mem inA)).mp ran
      have high : ∀ item ∈ items, item.rect.Covers .y := fun item member => (solid item member).high
      rcases exists_band_or_before minGap solid inA inB above.top with
        ⟨band, inBands, inA', inB'⟩ | ⟨first, second, sub, inFirst, inSecond⟩
      · obtain ⟨piece, inPieces, run⟩ := exists_beside read inBands
        have within : band ⊆ items := fun _ => mem_of_mem_xyBands inBands
        have wide : ∀ item ∈ band, item.rect.Covers .x := fun item member =>
          (solid item (within member)).wide
        have kept : ∀ column res, xyCutRec minGap fuel column = some res → ∀ item ∈ column,
            item ∈ band → item.index ∈ res := fun _ _ ran item member inBand =>
          index_mem_xyCutRec (solid item (within inBand)) ran member
        have added {item : Placed} (member : item ∈ band) : item.index ∈ piece :=
          run.index_mem (fun _ _ ran inColumn => kept _ _ ran item inColumn member) member
            (wide item member)
        have whole : Clustered minGap band a b ↔ Clustered minGap items a b :=
          ⟨fun clustered => clustered.mono within, fun clustered => clustered.band high inBands inA'⟩
        have inside := List.sublist_flatten_of_mem inPieces
        have ordered := arranged.pairwise_reads inBands
        rw [pair_sublist_iff nodup inside (added inA') (added inB'), ← whole]
        refine above.band_before_iff run inBands ordered wide (opened.mono within) kept ?_
          (nodup.sublist inside) inA' inB'
        intro column res inColumns ran nodup inA inB
        have inColumn : column ⊆ band := by
          obtain ⟨span, -, rfl⟩ := List.mem_map.mp inColumns
          exact fun _ member => (mem_xySelect.mp member).1
        exact ih (fun item member => solid item (within (inColumn member)))
          (opened.mono (List.Subset.trans inColumn within)) (arranged_column ordered inColumns)
          nodup ran inA inB
      · obtain ⟨piece, piece', inPieces, run, run'⟩ := exists_pair_beside read sub
        have addedA := run.index_mem (fun _ _ => index_mem_xyCutRec (solid a inA)) inFirst
          (solid a inA).wide
        have addedB := run'.index_mem (fun _ _ => index_mem_xyCutRec (solid b inB)) inSecond
          (solid b inB).wide
        refine iff_of_true (pair_sublist_flatten inPieces addedA addedB) (.inr fun clustered => ?_)
        -- the index of `b` would be in both pieces
        have inFirst' := (clustered.band high (sub.subset List.mem_cons_self) inFirst).right_mem
        have again := run.index_mem (fun _ _ => index_mem_xyCutRec (solid b inB)) inFirst'
          (solid b inB).wide
        have twice := pair_sublist_flatten inPieces again addedB
        exact StableSort.not_both_orders nodup twice twice

/-! ## Boxes -/

/-- A box that ends above another one, with a column of pixels in common. -/
structure BBox.LiesOver (upper lower : BBox) : Prop where
  above : upper.y + upper.height ≤ lower.y
  left : upper.x < lower.x + lower.width
  right : lower.x < upper.x + upper.width

instance (upper lower : BBox) : Decidable (upper.LiesOver lower) :=
  decidable_of_iff (upper.y + upper.height ≤ lower.y ∧ upper.x < lower.x + lower.width ∧
      lower.x < upper.x + upper.width)
    ⟨fun all => ⟨all.1, all.2.1, all.2.2⟩, fun lies => ⟨lies.above, lies.left, lies.right⟩⟩

theorem BBox.LiesOver.over {upper lower : BBox} (lies : upper.LiesOver lower) (i j : Nat) :
    Over ⟨upper.rect, i⟩ ⟨lower.rect, j⟩ where
  top := by
    have above := lies.above
    simp only [BBox.rect]
    omega
  left := by
    have left := lies.left
    simp only [BBox.rect]
    omega
  right := by
    have right := lies.right
    simp only [BBox.rect]
    omega

/-- The boxes of a group of placed rectangles. -/
theorem exists_boxes {boxes : List BBox} (sub : group ⊆ placed (boxes.map BBox.rect)) :
    ∃ held ⊆ boxes, held.map BBox.rect = group.map Placed.rect ∧
      ∀ i box, boxes[i]? = some box → ⟨box.rect, i⟩ ∈ group → box ∈ held := by
  have found : ∀ item ∈ group, (boxes[item.index]?).map BBox.rect = some item.rect := by
    intro item member
    rw [← List.getElem?_map]
    exact mem_placed.mp (sub member)
  refine ⟨group.filterMap fun item => boxes[item.index]?, ?_, ?_, ?_⟩
  · intro box member
    obtain ⟨item, -, at'⟩ := List.mem_filterMap.mp member
    exact List.mem_of_getElem? at'
  · rw [List.map_filterMap, List.filterMap_congr found, ← List.filterMap_eq_map]
    rfl
  · exact fun i box atI member => List.mem_filterMap.mpr ⟨⟨box.rect, i⟩, member, atI⟩

/-- The placed rectangles of a group of boxes. -/
theorem exists_placed {boxes held : List BBox} (sub : held ⊆ boxes) :
    ∃ group ⊆ placed (boxes.map BBox.rect),
      (∀ rect, rect ∈ held.map BBox.rect ↔ rect ∈ group.map Placed.rect) ∧
      ∀ i box, boxes[i]? = some box → box ∈ held → ⟨box.rect, i⟩ ∈ group := by
  refine ⟨(placed (boxes.map BBox.rect)).filter fun item => item.rect ∈ held.map BBox.rect,
    List.filter_sublist.subset, fun rect => ⟨fun member => ?_, fun member => ?_⟩, ?_⟩
  · obtain ⟨box, inHeld, rfl⟩ := List.mem_map.mp member
    obtain ⟨i, atI⟩ := List.mem_iff_getElem?.mp (sub inHeld)
    refine List.mem_map.mpr ⟨⟨box.rect, i⟩, List.mem_filter.mpr ⟨?_, decide_eq_true member⟩, rfl⟩
    exact mem_placed_of_getElem? atI
  · obtain ⟨item, kept, rfl⟩ := List.mem_map.mp member
    exact of_decide_eq_true (List.mem_filter.mp kept).2
  · intro i box atI inHeld
    exact List.mem_filter.mpr
      ⟨mem_placed_of_getElem? atI, decide_eq_true (List.mem_map_of_mem inHeld)⟩

theorem BBox.LiesOver.before_iff {boxes : List BBox} (splits : Splits boxes minGap)
    (ran : xyCutRec minGap fuel (placed (boxes.map BBox.rect)) = some res) {i j : Nat}
    {upper lower : BBox} (atI : boxes[i]? = some upper) (atJ : boxes[j]? = some lower)
    (lies : upper.LiesOver lower) :
    [i, j] <+ res ↔
      (upper.x < lower.x ∨ upper.x = lower.x ∧
          (upper.y < lower.y ∨ upper.y = lower.y ∧ i < j)) ∨
        ∀ group ⊆ boxes, upper ∈ group → lower ∈ group →
          ¬ Unseparated minGap (group.map BBox.rect) := by
  have nodup : res.Nodup := (xyCutRec_placed_perm ran).nodup_iff.mpr List.nodup_range
  refine ((lies.over i j).before_iff (fun item => placed_solid) splits.opened
    (arranged_placed _) nodup ran (mem_placed_of_getElem? atI)
    (mem_placed_of_getElem? atJ)).trans (or_congr Iff.rfl ⟨?_, ?_⟩)
  · intro separated held sub inHeld inHeld' unseparated
    obtain ⟨group, sub', same, inGroup⟩ := exists_placed sub
    exact separated ⟨group, sub', inGroup i upper atI inHeld, inGroup j lower atJ inHeld',
      unseparated.of_mem_iff same⟩
  · rintro separated ⟨group, sub, inGroup, inGroup', unseparated⟩
    obtain ⟨held, sub', same, inHeld⟩ := exists_boxes sub
    exact separated held sub' (inHeld i upper atI inGroup) (inHeld j lower atJ inGroup')
      (same ▸ unseparated)

/-- XY-cut ends in both build profiles and reads one box before another. -/
def ReadsBefore (boxes : List BBox) (minGap i j : Nat) : Prop :=
  ∀ checks, ∃ order, (∀ fuel, boxes.length < fuel →
    xyCutOrder checks fuel boxes minGap = some order) ∧ [i, j] <+ order

/-- XY-cut reads a box before one below it exactly when every rectangle has `u32` edges, columns
start where boxes start, and the upper box is further left or a gap separates every group of the
boxes that holds both. -/
theorem readsBefore_iff {boxes : List BBox} {minGap i j : Nat} {upper lower : BBox}
    (atI : boxes[i]? = some upper) (atJ : boxes[j]? = some lower) (lies : upper.LiesOver lower) :
    ReadsBefore boxes minGap i j ↔
      (∀ box ∈ boxes, box.RectFits) ∧ Splits boxes minGap ∧
        ((upper.x < lower.x ∨ upper.x = lower.x ∧
            (upper.y < lower.y ∨ upper.y = lower.y ∧ i < j)) ∨
          ∀ group ⊆ boxes, upper ∈ group → lower ∈ group →
            ¬ Unseparated minGap (group.map BBox.rect)) := by
  constructor
  · intro before
    obtain ⟨order, ran, sub⟩ := before true
    have ended := ran _ (Nat.lt_succ_self _)
    have nodup : order.Nodup := (xyCutOrder_perm ended).nodup_iff.mpr List.nodup_range
    have distinct : i ≠ j := by
      rintro rfl
      exact StableSort.not_both_orders nodup sub sub
    have two : 2 ≤ boxes.length := by
      obtain ⟨belowI, -⟩ := List.getElem?_eq_some_iff.mp atI
      obtain ⟨belowJ, -⟩ := List.getElem?_eq_some_iff.mp atJ
      omega
    obtain ⟨fits, splits⟩ := xyCutOrder_checked two ended
    obtain ⟨order', -, ran'⟩ := exists_xyCutRec_placed splits
    have cut := ran' _ (Nat.lt_succ_self _)
    obtain rfl : order' = order :=
      Option.some.inj ((xyCutOrder_of_xyCutRec two fits cut).symm.trans ended)
    exact ⟨fits, splits, (lies.before_iff splits cut atI atJ).mp sub⟩
  · rintro ⟨fits, splits, condition⟩ checks
    obtain ⟨order, perm, ran⟩ := exists_xyCutRec_placed splits
    refine ⟨order, fun fuel enough => ?_,
      (lies.before_iff splits (ran _ (Nat.lt_succ_self _)) atI atJ).mpr condition⟩
    by_cases two : 2 ≤ boxes.length
    · exact xyCutOrder_of_xyCutRec two fits (ran fuel enough)
    · exact xyCutOrder_of_few (Nat.lt_of_not_le two) perm

theorem readsBefore_column :
    ReadsBefore [⟨0, 0, 4, 9⟩, ⟨8, 0, 4, 3⟩, ⟨9, 5, 4, 3⟩] 1 1 2 :=
  (@readsBefore_iff [⟨0, 0, 4, 9⟩, ⟨8, 0, 4, 3⟩, ⟨9, 5, 4, 3⟩] 1 1 2 ⟨8, 0, 4, 3⟩ ⟨9, 5, 4, 3⟩
    rfl rfl (by decide)).mpr ⟨by decide, .inl (Nat.le_refl 1), .inl (.inl (by decide))⟩

/-- Two lines less than the gap apart, the lower one further left: it is read first. -/
theorem not_readsBefore :
    (⟨5, 0, 10, 4⟩ : BBox).Fits ∧ (⟨0, 6, 10, 4⟩ : BBox).Fits ∧
      (⟨5, 0, 10, 4⟩ : BBox).LiesOver ⟨0, 6, 10, 4⟩ ∧
      (∀ checks, xyCutOrder checks 3 [⟨5, 0, 10, 4⟩, ⟨0, 6, 10, 4⟩] 8 = some [1, 0]) ∧
      ¬ ReadsBefore [⟨5, 0, 10, 4⟩, ⟨0, 6, 10, 4⟩] 8 0 1 := by
  have lowerFirst (checks : Bool) :
      xyCutOrder checks 3 [⟨5, 0, 10, 4⟩, ⟨0, 6, 10, 4⟩] 8 = some [1, 0] := by
    cases checks <;> decide +kernel
  refine ⟨by decide, by decide, by decide, lowerFirst, fun before => ?_⟩
  obtain ⟨order, ran, sub⟩ := before true
  obtain rfl := Option.some.inj ((ran 3 (by decide)).symm.trans (lowerFirst true))
  exact absurd sub (by decide)

end AiCoreStack.Ocr
