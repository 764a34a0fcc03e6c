import AiCoreStack.Foundation.Buffers
import AiCoreStack.Foundation.Spans
import AiCoreStack.Ocr.Boxes

/-!
# XY-cut

Model of the recursive projection cut in `postprocess.rs`: boxes are projected on the vertical
axis and cut into bands, each band is projected on the horizontal axis and cut into columns, and
a band that falls into several columns is cut again, column by column.
-/

namespace AiCoreStack.Ocr

open AiCoreStack.Foundation
open scoped List

inductive Axis where
  | x
  | y
  deriving DecidableEq, Repr

structure Rect where
  left : Nat
  top : Nat
  right : Nat
  bottom : Nat
  deriving DecidableEq, Repr

def Rect.start (rect : Rect) : Axis → Nat
  | .x => rect.left
  | .y => rect.top

def Rect.stop (rect : Rect) : Axis → Nat
  | .x => rect.right
  | .y => rect.bottom

/-- A rectangle with the index of its box. -/
structure Placed where
  rect : Rect
  index : Nat
  deriving DecidableEq, Repr

/-- `xy_projection`: how many boxes cover each coordinate of an axis. -/
def xyProjection (boxes : List Rect) (axis : Axis) : List Nat :=
  let max := (boxes.map fun b => b.stop axis).max?.getD 0
  boxes.foldl
    (fun hist b => hist.mapIdx fun i h =>
      if b.start axis ≤ i ∧ i < min (b.stop axis) max then h + 1 else h)
    (List.replicate max 0)

/-- `xy_split`: the intervals of the coordinates with more than `minValue` boxes, cut where the
next coordinate is more than `minGap` away. -/
def xySplit (hist : List Nat) (minValue minGap : Nat) : List (Nat × Nat) :=
  let idx := (hist.zipIdx.filter fun entry => decide (minValue < entry.1)).map Prod.snd
  match idx with
  | [] => []
  | first :: rest =>
      let cuts := ((first :: rest).zip rest).foldl
        (fun cuts w => if minGap < w.2 - w.1 then (cuts.1 ++ [w.2], cuts.2 ++ [w.1]) else cuts)
        ([first], [])
      let ends := cuts.2 ++ [rest.getLastD first]
      (cuts.1.zip ends).map fun cut => (cut.1, cut.2 + 1)

/-- The boxes whose near edge lies in an interval. -/
def xySelect (axis : Axis) (span : Nat × Nat) (items : List Placed) : List Placed :=
  items.filter fun item =>
    decide (span.1 ≤ item.rect.start axis) && decide (item.rect.start axis < span.2)

/-- `sort_by_key` on the near edge. -/
def xySort (axis : Axis) (items : List Placed) : List Placed :=
  StableSort.sortByKey (fun item => item.rect.start axis) items

/-- The intervals into which the boxes fall on an axis. -/
def xyCuts (axis : Axis) (minGap : Nat) (items : List Placed) : List (Nat × Nat) :=
  xySplit (xyProjection (items.map Placed.rect) axis) 0 minGap

/-- The columns of a band. -/
def xyColumns (minGap : Nat) (xb : List Placed) : List (List Placed) :=
  (xyCuts .x minGap xb).map fun column => xySelect .x column xb

/-- The bands of some boxes, each from left to right. -/
def xyBands (minGap : Nat) (items : List Placed) : List (List Placed) :=
  let yb := xySort .y items
  (xyCuts .y minGap yb).map fun row => xySort .x (xySelect .y row yb)

/-- What one band adds to the result. -/
def xyBand (minGap : Nat) (again : List Placed → Option (List Nat)) (xb : List Placed) :
    Option (List Nat) :=
  match xyColumns minGap xb with
  | [] => some []
  | [_] => some (xb.map Placed.index)
  | columns => (columns.mapM again).map List.flatten

/-- `xy_cut_rec`, with the boxes and their indices in one list.  The fuel bounds the depth of the
recursion. -/
def xyCutRec (minGap : Nat) : Nat → List Placed → Option (List Nat)
  | 0, _ => none
  | fuel + 1, items =>
      if items.isEmpty then some []
      else ((xyBands minGap items).mapM (xyBand minGap (xyCutRec minGap fuel))).map List.flatten

/-- The rectangle of a box, at least one pixel wide and high. -/
def Rect.ofBox (checks : Bool) (box : BBox) : Option Rect := do
  let right ← addU32 checks box.x (max box.width 1)
  let bottom ← addU32 checks box.y (max box.height 1)
  return ⟨box.x, box.y, right, bottom⟩

def placed (rects : List Rect) : List Placed := rects.zipIdx.map fun entry => ⟨entry.1, entry.2⟩

/-- `xy_cut_order`: no value when a sum overflows in a build with overflow checks, and when the
fuel is used up. -/
def xyCutOrder (checks : Bool) (fuel : Nat) (boxes : List BBox) (minGap : Nat) :
    Option (List Nat) :=
  if boxes.length < 2 then some (List.range boxes.length)
  else do
    let rects ← boxes.mapM (Rect.ofBox checks)
    let res ← xyCutRec minGap fuel (placed rects)
    if res.length < boxes.length then
      return res ++ (List.range boxes.length).filter fun i => !res.contains i
    else
      return res

/-! ## Projections -/

/-- The coordinates that some box covers, from the lowest on. -/
def covered (axis : Axis) (items : List Placed) : List Nat :=
  (List.range (((items.map Placed.rect).map fun b => b.stop axis).max?.getD 0)).filter fun i =>
    items.any fun item => decide (item.rect.start axis ≤ i) && decide (i < item.rect.stop axis)

variable {axis : Axis} {minGap : Nat} {items : List Placed}

theorem pairwise_covered : (covered axis items).Pairwise (· < ·) :=
  List.pairwise_lt_range.filter _

theorem mem_covered {i : Nat} : i ∈ covered axis items ↔
    ∃ item ∈ items, item.rect.start axis ≤ i ∧ i < item.rect.stop axis := by
  rw [covered, List.mem_filter, List.any_eq_true]
  simp only [Bool.and_eq_true, decide_eq_true_eq, List.mem_range]
  refine and_iff_right_of_imp ?_
  rintro ⟨item, member, -, below⟩
  refine Nat.lt_of_lt_of_le below ?_
  have inMap : item.rect.stop axis ∈ (items.map Placed.rect).map fun b => b.stop axis :=
    List.mem_map_of_mem (List.mem_map_of_mem member)
  cases most : ((items.map Placed.rect).map fun b => b.stop axis).max? with
  | none => simp [List.max?_eq_none_iff.mp most] at inMap
  | some bound => exact (List.max?_eq_some_iff.mp most).2 _ inMap

theorem foldl_count {α : Type} (counted : α → Prop) [DecidablePred counted] (boxes : List α)
    (n : Nat) : boxes.foldl (fun h b => if counted b then h + 1 else h) n =
      n + boxes.countP fun b => decide (counted b) := by
  induction boxes generalizing n with
  | nil => rfl
  | cons b rest ih =>
      rw [List.foldl_cons, ih, List.countP_cons]
      by_cases counts : counted b
      · simp [counts]
        omega
      · simp [counts]

theorem positions_range {n minValue : Nat} (g : Nat → Nat) :
    ((((List.range n).map g).zipIdx.filter fun entry => decide (minValue < entry.1)).map Prod.snd) =
      (List.range n).filter fun i => decide (minValue < g i) := by
  have indexed : ((List.range n).map g).zipIdx = (List.range n).map fun i => (g i, i) := by
    apply List.ext_getElem
    · simp
    · simp
  rw [indexed, List.filter_map, List.map_map]
  simp [Function.comp_def]

theorem positions_xyProjection :
    (((xyProjection (items.map Placed.rect) axis).zipIdx.filter fun entry =>
      decide (0 < entry.1)).map Prod.snd) = covered axis items := by
  rw [xyProjection]
  rw [foldl_mapIdx_replicate
    (fun i h (b : Rect) => if b.start axis ≤ i ∧ i < min (b.stop axis) _ then h + 1 else h),
    positions_range, covered]
  apply List.filter_congr
  intro i inside
  rw [List.mem_range] at inside
  rw [Bool.eq_iff_iff, decide_eq_true_eq, foldl_count, Nat.zero_add, List.countP_pos_iff,
    List.any_eq_true]
  simp only [List.mem_map, exists_exists_and_eq_and, decide_eq_true_eq, Bool.and_eq_true,
    lt_min_iff, inside, and_true]

/-- The loop over neighbouring positions cuts them into spans. -/
theorem loop_eq_spansFrom {gap start last : Nat} {rest starts ends : List Nat}
    (even : starts.length = ends.length) :
    let cuts := ((last :: rest).zip rest).foldl
      (fun cuts w => if gap < w.2 - w.1 then (cuts.1 ++ [w.2], cuts.2 ++ [w.1]) else cuts)
      (starts ++ [start], ends)
    (cuts.1.zip (cuts.2 ++ [rest.getLastD last])).map (fun cut => (cut.1, cut.2 + 1)) =
      (starts.zip ends).map (fun cut => (cut.1, cut.2 + 1)) ++ spansFrom gap start last rest := by
  induction rest generalizing start last starts ends with
  | nil => simp [List.zip_append even, spansFrom]
  | cons next rest ih =>
      rw [List.zip_cons_cons, List.foldl_cons, spansFrom, List.getLastD_cons]
      split
      · have even' : (starts ++ [start]).length = (ends ++ [last]).length := by simp [even]
        refine Eq.trans (ih even') ?_
        rw [List.zip_append even]
        simp
      · exact ih even

theorem xyCuts_eq_spans : xyCuts axis minGap items = spans minGap (covered axis items) := by
  rw [xyCuts, xySplit, positions_xyProjection]
  cases covered axis items with
  | nil => rfl
  | cons first rest =>
      rw [spans, ← List.nil_append (spansFrom minGap first first rest)]
      exact @loop_eq_spansFrom minGap first first rest [] [] rfl

/-- A coordinate that a box covers in front of an interval is more than a gap away from it. -/
theorem apart_xyCuts {span : Nat × Nat} (inCuts : span ∈ xyCuts axis minGap items)
    {item : Placed} (member : item ∈ items) {i : Nat} (starts : item.rect.start axis ≤ i)
    (ends : i < item.rect.stop axis) (before : i < span.1) : i + minGap < span.1 := by
  rw [xyCuts_eq_spans] at inCuts
  exact (opens_spans pairwise_covered inCuts).2 i (mem_covered.mpr ⟨item, member, starts, ends⟩)
    before

/-- Inside an interval no coordinates as many as the gap are free in a row. -/
theorem exists_near_xyCuts {span : Nat × Nat} (inCuts : span ∈ xyCuts axis minGap items) {c : Nat}
    (starts : span.1 ≤ c) (ends : c + minGap + 1 < span.2) :
    ∃ i, c < i ∧ i ≤ c + minGap ∧
      ∃ item ∈ items, item.rect.start axis ≤ i ∧ i < item.rect.stop axis := by
  rw [xyCuts_eq_spans] at inCuts
  obtain ⟨i, reached, behind, near⟩ := exists_near_spans pairwise_covered inCuts starts ends
  exact ⟨i, behind, near, mem_covered.mp reached⟩

theorem inOrder_xyCuts : InOrder (xyCuts axis minGap items) := by
  rw [xyCuts_eq_spans]
  exact inOrder_spans pairwise_covered

/-- An interval into which the boxes fall starts in a box. -/
theorem exists_at_start {span : Nat × Nat} (member : span ∈ xyCuts axis minGap items) :
    ∃ item ∈ items, item.rect.start axis ≤ span.1 ∧ span.1 < item.rect.stop axis := by
  rw [xyCuts_eq_spans] at member
  exact mem_covered.mp (opens_spans pairwise_covered member).1

theorem inside_xyCuts_start {span : Nat × Nat} (member : span ∈ xyCuts axis minGap items) :
    Inside span span.1 := by
  rw [xyCuts_eq_spans] at member
  exact inside_start pairwise_covered member

theorem nodup_xyCuts : (xyCuts axis minGap items).Nodup := by
  refine inOrder_xyCuts.imp_of_mem fun {left right} inLeft _ behind same => ?_
  have inside := (inside_xyCuts_start inLeft).2
  rw [same] at inside behind
  omega

variable (axis minGap) in
/-- Each coordinate that a box covers lies in one of the intervals. -/
theorem exists_inside_xyCuts {item : Placed} (member : item ∈ items) {i : Nat}
    (starts : item.rect.start axis ≤ i) (ends : i < item.rect.stop axis) :
    ∃ span ∈ xyCuts axis minGap items, Inside span i := by
  rw [xyCuts_eq_spans]
  exact exists_inside_spans pairwise_covered (mem_covered.mpr ⟨item, member, starts, ends⟩)

/-- With a gap a box lies in one interval. -/
theorem inside_xyCuts_of_covers (wide : 1 ≤ minGap) {span : Nat × Nat}
    (inSpans : span ∈ xyCuts axis minGap items) {item : Placed} (member : item ∈ items) {i : Nat}
    (starts : item.rect.start axis ≤ i) (ends : i < item.rect.stop axis) (inside : Inside span i) :
    Inside span (item.rect.start axis) := by
  rw [xyCuts_eq_spans] at inSpans
  refine inside_of_run pairwise_covered wide (fun j above below => ?_) inSpans inside starts
  exact mem_covered.mpr ⟨item, member, above, by omega⟩

/-- Without a gap every covered coordinate is an interval of its own. -/
theorem xyCuts_zero {span : Nat × Nat} (member : span ∈ xyCuts axis 0 items) :
    span.2 = span.1 + 1 := by
  rw [xyCuts_eq_spans] at member
  exact spans_zero pairwise_covered member

/-! ## Bands and columns -/

theorem xySort_perm (axis : Axis) (items : List Placed) : xySort axis items ~ items :=
  StableSort.sortByKey_perm items

@[simp] theorem mem_xySort {item : Placed} : item ∈ xySort axis items ↔ item ∈ items :=
  StableSort.mem_sortByKey

@[simp] theorem mem_xySelect {span : Nat × Nat} {item : Placed} :
    item ∈ xySelect axis span items ↔ item ∈ items ∧ Inside span (item.rect.start axis) :=
  mem_partAt

theorem xyBands_eq_map (items : List Placed) :
    xyBands minGap items = (cutAt (fun item => item.rect.start .y)
      (xyCuts .y minGap (xySort .y items)) (xySort .y items)).map (xySort .x) := by
  rw [cutAt, List.map_map]
  rfl

theorem flatten_map_xySort (parts : List (List Placed)) :
    (parts.map (xySort .x)).flatten ~ parts.flatten := by
  induction parts with
  | nil => rfl
  | cons part rest ih => exact (xySort_perm .x part).append ih

theorem xyColumns_subperm (xb : List Placed) : (xyColumns minGap xb).flatten <+~ xb :=
  flatten_cutAt_subperm inOrder_xyCuts

theorem xyBands_subperm (items : List Placed) : (xyBands minGap items).flatten <+~ items := by
  rw [xyBands_eq_map]
  exact ((flatten_map_xySort _).subperm.trans (flatten_cutAt_subperm inOrder_xyCuts)).trans
    (xySort_perm .y items).subperm

theorem mem_of_mem_xyBands {band : List Placed} (inBands : band ∈ xyBands minGap items)
    {item : Placed} (member : item ∈ band) : item ∈ items :=
  (xyBands_subperm items).subset (List.mem_flatten_of_mem inBands member)

theorem length_xyBand_le {band : List Placed} (inBands : band ∈ xyBands minGap items) :
    band.length ≤ items.length :=
  (List.sublist_flatten_of_mem inBands).length_le.trans (xyBands_subperm items).length_le

/-- A rectangle that covers something on an axis. -/
def Rect.Covers (rect : Rect) (axis : Axis) : Prop := rect.start axis < rect.stop axis

variable (minGap) in
theorem exists_xyBand {item : Placed} (member : item ∈ items) (covers : item.rect.Covers .y) :
    ∃ band ∈ xyBands minGap items, item ∈ band := by
  obtain ⟨row, inCuts, inside⟩ := exists_inside_xyCuts .y minGap
    ((@mem_xySort .y _ _).mpr member) (Nat.le_refl _) covers
  refine ⟨_, List.mem_map_of_mem inCuts, ?_⟩
  rw [mem_xySort, mem_xySelect, mem_xySort]
  exact ⟨member, inside⟩

variable (minGap) in
theorem exists_xyColumn {xb : List Placed} {item : Placed} (member : item ∈ xb)
    (covers : item.rect.Covers .x) : ∃ column ∈ xyColumns minGap xb, item ∈ column := by
  obtain ⟨column, inCuts, inside⟩ :=
    exists_inside_xyCuts .x minGap member (Nat.le_refl _) covers
  exact ⟨_, List.mem_map_of_mem inCuts, mem_xySelect.mpr ⟨member, inside⟩⟩

example :
    xyCutOrder true 4 [⟨0, 0, 4, 9⟩, ⟨8, 0, 4, 3⟩, ⟨8, 5, 4, 3⟩] 1 = some [0, 1, 2] := by
  decide +kernel

end AiCoreStack.Ocr
