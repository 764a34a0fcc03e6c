import AiCoreStack.Foundation.CheckedBuffers
import AiCoreStack.Ocr.XyCut

/-!
# Runs of XY-cut

What one level of the recursion adds, and from it when the recursion ends and which indices it
returns.
-/

namespace AiCoreStack.Ocr

open AiCoreStack.Foundation
open scoped List

/-- What a band can add to the result. -/
inductive BandRun (minGap : Nat) (again : List Placed → Option (List Nat)) (xb : List Placed) :
    List Nat → Prop where
  | nothing (no : xyColumns minGap xb = []) : BandRun minGap again xb []
  | single (one : (xyColumns minGap xb).length = 1) :
      BandRun minGap again xb (xb.map Placed.index)
  | several {pieces : List (List Nat)} (more : 2 ≤ (xyColumns minGap xb).length)
      (read : List.Forall₂ (fun column piece => again column = some piece)
        (xyColumns minGap xb) pieces) : BandRun minGap again xb pieces.flatten

variable {minGap fuel : Nat} {items xb : List Placed} {res : List Nat}
variable {again : List Placed → Option (List Nat)}

theorem xyBand_several (more : 2 ≤ (xyColumns minGap xb).length) :
    xyBand minGap again xb = ((xyColumns minGap xb).mapM again).map List.flatten := by
  rw [xyBand]
  match columns : xyColumns minGap xb with
  | [] => simp [columns] at more
  | [_] => simp [columns] at more
  | _ :: _ :: _ => rfl

theorem xyBand_eq_some_iff {piece : List Nat} :
    xyBand minGap again xb = some piece ↔ BandRun minGap again xb piece := by
  constructor
  · intro ran
    by_cases more : 2 ≤ (xyColumns minGap xb).length
    · rw [xyBand_several more, Option.map_eq_some_iff] at ran
      obtain ⟨pieces, read, rfl⟩ := ran
      exact .several more (mapM_eq_some_iff.mp read)
    · rw [xyBand] at ran
      match columns : xyColumns minGap xb with
      | [] =>
          simp only [columns, Option.some_inj] at ran
          exact ran ▸ .nothing columns
      | [_] =>
          simp only [columns, Option.some_inj] at ran
          exact ran ▸ .single (by rw [columns]; rfl)
      | _ :: _ :: _ => simp [columns] at more
  · intro run
    cases run with
    | nothing no =>
        rw [xyBand, no]
    | single one =>
        obtain ⟨column, only⟩ := List.length_eq_one_iff.mp one
        rw [xyBand, only]
    | several more read =>
        rw [xyBand_several more, mapM_eq_some_iff.mpr read]
        rfl

theorem xyCutRec_nil : xyCutRec minGap (fuel + 1) [] = some [] := rfl

/-- One level of the recursion. -/
theorem xyCutRec_succ_iff (nonempty : items ≠ []) :
    xyCutRec minGap (fuel + 1) items = some res ↔
      ∃ pieces, List.Forall₂ (BandRun minGap (xyCutRec minGap fuel)) (xyBands minGap items) pieces ∧
        pieces.flatten = res := by
  rw [xyCutRec, if_neg (by simpa using nonempty), Option.map_eq_some_iff]
  constructor
  · rintro ⟨pieces, ran, rfl⟩
    exact ⟨pieces, (mapM_eq_some_iff.mp ran).imp fun _ _ => xyBand_eq_some_iff.mp, rfl⟩
  · rintro ⟨pieces, ran, rfl⟩
    exact ⟨pieces, mapM_eq_some_iff.mpr (ran.imp fun _ _ => xyBand_eq_some_iff.mpr), rfl⟩

/-! ## Fuel -/

theorem BandRun.mono {again' : List Placed → Option (List Nat)} {piece : List Nat}
    (more : ∀ items res, again items = some res → again' items = some res)
    (run : BandRun minGap again xb piece) : BandRun minGap again' xb piece := by
  cases run with
  | nothing no => exact .nothing no
  | single one => exact .single one
  | several two read => exact .several two (read.imp more)

/-- More fuel changes no result. -/
theorem xyCutRec_succ (ran : xyCutRec minGap fuel items = some res) :
    xyCutRec minGap (fuel + 1) items = some res := by
  induction fuel generalizing items res with
  | zero => cases ran
  | succ fuel ih =>
      by_cases empty : items = []
      · subst empty
        exact ran
      · rw [xyCutRec_succ_iff empty] at ran ⊢
        obtain ⟨pieces, read, flat⟩ := ran
        exact ⟨pieces, read.imp fun _ _ => BandRun.mono fun _ _ => ih, flat⟩

theorem xyCutRec_mono {fuel' : Nat} (ran : xyCutRec minGap fuel items = some res)
    (more : fuel ≤ fuel') : xyCutRec minGap fuel' items = some res := by
  induction more with
  | refl => exact ran
  | step _ ih => exact xyCutRec_succ ih

/-! ## The indices of a result -/

theorem subperm_map {α β : Type} (f : α → β) {chosen items : List α} (sub : chosen <+~ items) :
    chosen.map f <+~ items.map f := by
  obtain ⟨arranged, perm, inside⟩ := sub
  exact ⟨arranged.map f, perm.map f, inside.map f⟩

theorem flatten_subperm {parts : List (List Placed)} {pieces : List (List Nat)}
    (each : List.Forall₂ (fun part piece => piece <+~ part.map Placed.index) parts pieces) :
    pieces.flatten <+~ parts.flatten.map Placed.index := by
  induction each with
  | nil => exact List.nil_subperm
  | cons head _ ih =>
      rw [List.flatten_cons, List.flatten_cons, List.map_append]
      exact head.append ih

/-- The recursion repeats no index. -/
theorem xyCutRec_subperm (ran : xyCutRec minGap fuel items = some res) :
    res <+~ items.map Placed.index := by
  induction fuel generalizing items res with
  | zero => cases ran
  | succ fuel ih =>
      by_cases empty : items = []
      · subst empty
        obtain rfl := Option.some.inj ran
        exact List.nil_subperm
      · obtain ⟨pieces, read, rfl⟩ := (xyCutRec_succ_iff empty).mp ran
        refine (flatten_subperm (read.imp ?_)).trans (subperm_map _ (xyBands_subperm items))
        intro band piece run
        cases run with
        | nothing no => exact List.nil_subperm
        | single one => exact List.Subperm.refl _
        | several two read =>
            exact (flatten_subperm (read.imp fun _ _ => ih)).trans
              (subperm_map _ (xyColumns_subperm band))

/-- A rectangle with an inside. -/
structure Rect.Solid (rect : Rect) : Prop where
  wide : rect.Covers .x
  high : rect.Covers .y

/-- A band loses no box if its columns lose none. -/
theorem BandRun.index_mem {piece : List Nat} (run : BandRun minGap again xb piece) {item : Placed}
    (kept : ∀ column res, again column = some res → item ∈ column → item.index ∈ res)
    (member : item ∈ xb) (wide : item.rect.Covers .x) : item.index ∈ piece := by
  obtain ⟨column, inColumns, inColumn⟩ := exists_xyColumn minGap member wide
  cases run with
  | nothing no =>
      rw [no] at inColumns
      exact absurd inColumns List.not_mem_nil
  | single one => exact List.mem_map_of_mem member
  | several two read =>
      obtain ⟨piece, inPieces, ran⟩ := exists_beside read inColumns
      exact List.mem_flatten_of_mem inPieces (kept column piece ran inColumn)

/-- The recursion loses no box. -/
theorem index_mem_xyCutRec {item : Placed} (solid : item.rect.Solid)
    (ran : xyCutRec minGap fuel items = some res) (member : item ∈ items) : item.index ∈ res := by
  induction fuel generalizing items res with
  | zero => cases ran
  | succ fuel ih =>
      obtain ⟨pieces, read, rfl⟩ := (xyCutRec_succ_iff (List.ne_nil_of_mem member)).mp ran
      obtain ⟨band, inBands, inBand⟩ := exists_xyBand minGap member solid.high
      obtain ⟨piece, inPieces, run⟩ := exists_beside read inBands
      exact List.mem_flatten_of_mem inPieces (run.index_mem (fun _ _ => ih) inBand solid.wide)

theorem xyCutRec_perm (solid : ∀ item ∈ items, item.rect.Solid)
    (nodup : (items.map Placed.index).Nodup) (ran : xyCutRec minGap fuel items = some res) :
    res ~ items.map Placed.index := by
  refine (xyCutRec_subperm ran).antisymm (List.subperm_of_subset nodup ?_)
  intro index member
  obtain ⟨item, inside, rfl⟩ := List.mem_map.mp member
  exact index_mem_xyCutRec (solid item inside) ran inside

/-! ## The end of the recursion -/

/-- Each column starts where one of its boxes starts. -/
def Opened (minGap : Nat) (items : List Placed) : Prop :=
  1 ≤ minGap ∨ ∀ item ∈ items, item.rect.right ≤ item.rect.left + 1

theorem Opened.mono {items' : List Placed} (opened : Opened minGap items) (sub : items' ⊆ items) :
    Opened minGap items' :=
  opened.imp_right fun narrow item member => narrow item (sub member)

/-- A box starts in the interval of each coordinate that it covers. -/
theorem Opened.inside_of_covers (opened : Opened minGap xb) {span : Nat × Nat}
    (inCuts : span ∈ xyCuts .x minGap xb) {item : Placed} (member : item ∈ xb) {i : Nat}
    (starts : item.rect.start .x ≤ i) (ends : i < item.rect.stop .x) (inside : Inside span i) :
    Inside span (item.rect.start .x) := by
  rcases opened with wide | narrow
  · exact inside_xyCuts_of_covers wide inCuts member starts ends inside
  · have small := narrow item member
    have same : item.rect.start .x = i := by
      simp only [Rect.start, Rect.stop] at starts ends ⊢
      omega
    rwa [same]

theorem Opened.exists_inside (opened : Opened minGap xb) {span : Nat × Nat}
    (inCuts : span ∈ xyCuts .x minGap xb) : ∃ item ∈ xb, Inside span (item.rect.start .x) := by
  obtain ⟨item, member, starts, ends⟩ := exists_at_start inCuts
  exact ⟨item, member,
    opened.inside_of_covers inCuts member starts ends (inside_xyCuts_start inCuts)⟩

theorem exists_other {α : Type} {items : List α} (nodup : items.Nodup) (two : 2 ≤ items.length)
    (item : α) : ∃ other ∈ items, other ≠ item := by
  by_contra none
  push Not at none
  have only := (List.eq_replicate_of_mem none).symm
  rw [← only, List.nodup_replicate] at nodup
  omega

/-- One of several columns is smaller than the band. -/
theorem Opened.length_column_lt (opened : Opened minGap xb)
    (more : 2 ≤ (xyColumns minGap xb).length) {column : List Placed}
    (inColumns : column ∈ xyColumns minGap xb) : column.length < xb.length := by
  obtain ⟨span, inCuts, rfl⟩ := List.mem_map.mp inColumns
  rw [xyColumns, List.length_map] at more
  obtain ⟨other, inCuts', distinct⟩ := exists_other nodup_xyCuts more span
  obtain ⟨item, member, inside⟩ := opened.exists_inside inCuts'
  rw [xySelect, List.length_filter_lt_length_iff_exists]
  refine ⟨item, member, fun held => distinct ?_⟩
  rw [Bool.and_eq_true, decide_eq_true_eq, decide_eq_true_eq] at held
  exact inOrder_xyCuts.eq_of_inside inCuts' inCuts inside held

theorem BandRun.exists (each : ∀ column ∈ xyColumns minGap xb,
      2 ≤ (xyColumns minGap xb).length → ∃ piece, again column = some piece) :
    ∃ piece, xyBand minGap again xb = some piece := by
  by_cases more : 2 ≤ (xyColumns minGap xb).length
  · obtain ⟨pieces, read⟩ := exists_mapM fun column inColumns => each column inColumns more
    exact ⟨pieces.flatten, xyBand_eq_some_iff.mpr (.several more (mapM_eq_some_iff.mp read))⟩
  · by_cases one : (xyColumns minGap xb).length = 1
    · exact ⟨_, xyBand_eq_some_iff.mpr (.single one)⟩
    · exact ⟨_, xyBand_eq_some_iff.mpr (.nothing (List.length_eq_zero_iff.mp (by omega)))⟩

/-- The recursion ends when columns start where boxes start. -/
theorem exists_xyCutRec (opened : Opened minGap items) (enough : items.length < fuel) :
    ∃ res, xyCutRec minGap fuel items = some res := by
  induction fuel generalizing items with
  | zero => exact absurd enough (Nat.not_lt_zero _)
  | succ fuel ih =>
      by_cases empty : items = []
      · subst empty
        exact ⟨[], xyCutRec_nil⟩
      · obtain ⟨pieces, read⟩ : ∃ pieces,
            (xyBands minGap items).mapM (xyBand minGap (xyCutRec minGap fuel)) = some pieces := by
          refine exists_mapM fun band inBands => BandRun.exists fun column inColumns more => ?_
          have within := opened.mono fun item => mem_of_mem_xyBands inBands
          have smaller := within.length_column_lt more inColumns
          have bounded := length_xyBand_le inBands
          apply ih
          · obtain ⟨span, -, rfl⟩ := List.mem_map.mp inColumns
            exact within.mono fun item member => (mem_xySelect.mp member).1
          · omega
        rw [xyCutRec, if_neg (by simpa using empty), read]
        exact ⟨_, rfl⟩

/-- Without a gap a box of two columns is cut again and again. -/
theorem xyCutRec_zero {item : Placed} (member : item ∈ items)
    (wide : item.rect.left + 2 ≤ item.rect.right) (high : item.rect.Covers .y) :
    xyCutRec 0 fuel items = none := by
  induction fuel generalizing items with
  | zero => rfl
  | succ fuel ih =>
      obtain ⟨band, inBands, inBand⟩ := exists_xyBand 0 member high
      have covers : item.rect.left < item.rect.right := by omega
      obtain ⟨first, inFirst, insideFirst⟩ := exists_inside_xyCuts .x 0 inBand
        (i := item.rect.left) (Nat.le_refl _) covers
      obtain ⟨second, inSecond, insideSecond⟩ := exists_inside_xyCuts .x 0
        inBand (i := item.rect.left + 1) (Nat.le_succ _) wide
      have distinct : first ≠ second := by
        rintro rfl
        have narrow := xyCuts_zero inFirst
        have starts := insideFirst.1
        have ends := insideSecond.2
        omega
      have more : 2 ≤ (xyColumns 0 band).length := by
        rw [xyColumns, List.length_map]
        have nodup : [first, second].Nodup := by simpa using distinct
        exact (List.subperm_of_subset nodup (by simp [inFirst, inSecond])).length_le
      have stuck : xyBand 0 (xyCutRec 0 fuel) band = none := by
        have inColumns : xySelect .x first band ∈ xyColumns 0 band := List.mem_map_of_mem inFirst
        rw [xyBand_several more, mapM_eq_none inColumns
          (ih (mem_xySelect.mpr ⟨inBand, insideFirst⟩))]
        rfl
      rw [xyCutRec, if_neg (by simpa using List.ne_nil_of_mem member), mapM_eq_none inBands stuck]
      rfl

/-! ## All boxes -/

/-- A box whose rectangle has `u32` edges. -/
structure BBox.RectFits (box : BBox) : Prop where
  right : box.x + max box.width 1 < 2 ^ 32
  bottom : box.y + max box.height 1 < 2 ^ 32

instance (box : BBox) : Decidable box.RectFits :=
  decidable_of_iff
    (box.x + max box.width 1 < 2 ^ 32 ∧ box.y + max box.height 1 < 2 ^ 32)
    ⟨fun both => ⟨both.1, both.2⟩, fun fits => ⟨fits.right, fits.bottom⟩⟩

/-- The rectangle of a box without overflow. -/
def BBox.rect (box : BBox) : Rect :=
  ⟨box.x, box.y, box.x + max box.width 1, box.y + max box.height 1⟩

theorem BBox.rect_solid (box : BBox) : box.rect.Solid where
  wide := by
    simp only [Rect.Covers, Rect.start, Rect.stop, BBox.rect]
    omega
  high := by
    simp only [Rect.Covers, Rect.start, Rect.stop, BBox.rect]
    omega

theorem ofBox_eq_some {checks : Bool} {box : BBox} (fits : box.RectFits) :
    Rect.ofBox checks box = some box.rect := by
  rw [Rect.ofBox, addU32_eq_some fits.right, addU32_eq_some fits.bottom]
  rfl

theorem ofBox_checked {box : BBox} (beyond : ¬ box.RectFits) : Rect.ofBox true box = none := by
  rw [Rect.ofBox]
  by_cases right : box.x + max box.width 1 < 2 ^ 32
  · have bottom : ¬ box.y + max box.height 1 < 2 ^ 32 := fun bottom => beyond ⟨right, bottom⟩
    rw [addU32_eq_some right, addU32_checked (Nat.le_of_not_lt bottom)]
    rfl
  · rw [addU32_checked (Nat.le_of_not_lt right)]
    rfl

variable {checks : Bool} {boxes : List BBox} {rects : List Rect}

theorem mapM_ofBox (fits : ∀ box ∈ boxes, box.RectFits) :
    boxes.mapM (Rect.ofBox checks) = some (boxes.map BBox.rect) :=
  mapM_eq_some fun box member => ofBox_eq_some (fits box member)

theorem map_index_placed : (placed rects).map Placed.index = List.range rects.length := by
  rw [placed, List.map_map]
  exact (List.zipIdx_map_snd 0 rects).trans List.range_eq_range'.symm

theorem length_placed : (placed rects).length = rects.length := by
  rw [placed, List.length_map, List.length_zipIdx]

theorem mem_placed {item : Placed} :
    item ∈ placed rects ↔ rects[item.index]? = some item.rect := by
  rw [placed, List.mem_map]
  constructor
  · rintro ⟨entry, member, rfl⟩
    exact List.mem_zipIdx_iff_getElem?.mp member
  · intro found
    exact ⟨(item.rect, item.index), List.mem_zipIdx_iff_getElem?.mpr found, rfl⟩

theorem mem_placed_of_getElem? {i : Nat} {box : BBox} (found : boxes[i]? = some box) :
    ⟨box.rect, i⟩ ∈ placed (boxes.map BBox.rect) := by
  rw [mem_placed, List.getElem?_map, found]
  rfl

theorem mem_placed_map {item : Placed} (member : item ∈ placed (boxes.map BBox.rect)) :
    ∃ box ∈ boxes, item.rect = box.rect := by
  obtain ⟨box, inside, same⟩ := List.mem_map.mp (List.mem_of_getElem? (mem_placed.mp member))
  exact ⟨box, inside, same.symm⟩

theorem placed_solid {item : Placed} (member : item ∈ placed (boxes.map BBox.rect)) :
    item.rect.Solid := by
  obtain ⟨box, -, same⟩ := mem_placed_map member
  exact same ▸ box.rect_solid

theorem nodup_placed : ((placed rects).map Placed.index).Nodup := by
  rw [map_index_placed]
  exact List.nodup_range

/-- Boxes that a gap, or their width, keeps from being cut again and again. -/
def Splits (boxes : List BBox) (minGap : Nat) : Prop :=
  1 ≤ minGap ∨ ∀ box ∈ boxes, box.width ≤ 1

theorem Splits.opened (splits : Splits boxes minGap) :
    Opened minGap (placed (boxes.map BBox.rect)) := by
  refine splits.imp_right fun narrow item member => ?_
  obtain ⟨box, inside, same⟩ := mem_placed_map member
  have small := narrow box inside
  rw [same]
  simp only [BBox.rect]
  omega

/-- Without a gap a box of two pixels and more in width keeps the recursion going. -/
theorem xyCutRec_unbounded {box : BBox} (member : box ∈ boxes) (wide : 2 ≤ box.width) :
    xyCutRec 0 fuel (placed (boxes.map BBox.rect)) = none := by
  obtain ⟨i, found⟩ := List.mem_iff_getElem?.mp member
  refine xyCutRec_zero (mem_placed_of_getElem? found) ?_ box.rect_solid.high
  simp only [BBox.rect]
  omega

theorem xyCutRec_placed_perm
    (ran : xyCutRec minGap fuel (placed (boxes.map BBox.rect)) = some res) :
    res ~ List.range boxes.length := by
  have perm := xyCutRec_perm (fun item => placed_solid) nodup_placed ran
  rwa [map_index_placed, List.length_map] at perm

/-- When the recursion ends, nothing is added to its result. -/
theorem xyCutOrder_of_xyCutRec (two : 2 ≤ boxes.length) (fits : ∀ box ∈ boxes, box.RectFits)
    (ran : xyCutRec minGap fuel (placed (boxes.map BBox.rect)) = some res) :
    xyCutOrder checks fuel boxes minGap = some res := by
  have complete : ¬ res.length < boxes.length := by
    rw [(xyCutRec_placed_perm ran).length_eq, List.length_range]
    exact Nat.lt_irrefl _
  rw [xyCutOrder, if_neg (by omega), mapM_ofBox fits, Option.bind_eq_bind, Option.bind_some, ran,
    Option.bind_eq_bind, Option.bind_some, if_neg complete]
  rfl

/-- Whatever the recursion returns, the boxes it drops are added once. -/
theorem xyCutOrder_perm {order : List Nat}
    (ran : xyCutOrder checks fuel boxes minGap = some order) :
    order ~ List.range boxes.length := by
  rw [xyCutOrder] at ran
  split at ran
  · obtain rfl := Option.some.inj ran
    exact .refl _
  · obtain ⟨rects, drawn, ran⟩ := Option.bind_eq_some_iff.mp ran
    obtain ⟨res, cut, ran⟩ := Option.bind_eq_some_iff.mp ran
    have count : rects.length = boxes.length := (mapM_eq_some_iff.mp drawn).length_eq.symm
    have inside := xyCutRec_subperm cut
    rw [map_index_placed, count] at inside
    split at ran
    · obtain rfl := Option.some.inj ran
      have nodup : res.Nodup := by
        obtain ⟨arranged, same, sub⟩ := inside
        exact same.nodup_iff.mp (List.nodup_range.sublist sub)
      refine (List.perm_ext_iff_of_nodup ?_ List.nodup_range).mpr fun i => ?_
      · refine nodup.append (List.nodup_range.filter _) fun i member added => ?_
        simp [member] at added
      · have below := inside.subset (a := i)
        simp only [List.mem_append, List.mem_filter, List.contains_iff_mem, Bool.not_eq_eq_eq_not,
          Bool.not_true, Bool.eq_false_iff, ne_eq]
        tauto
    · next full =>
        obtain rfl := Option.some.inj ran
        refine inside.perm_of_length_le ?_
        rw [List.length_range]
        exact Nat.le_of_not_lt full

/-- With overflow checks an order of several boxes is one of rectangles with `u32` edges, cut
until nothing is left to cut. -/
theorem xyCutOrder_checked {order : List Nat} (two : 2 ≤ boxes.length)
    (ran : xyCutOrder true fuel boxes minGap = some order) :
    (∀ box ∈ boxes, box.RectFits) ∧ Splits boxes minGap := by
  rw [xyCutOrder, if_neg (by omega)] at ran
  obtain ⟨rects, drawn, ran⟩ := Option.bind_eq_some_iff.mp ran
  obtain ⟨res, cut, -⟩ := Option.bind_eq_some_iff.mp ran
  have fits : ∀ box ∈ boxes, box.RectFits := by
    intro box member
    by_contra beyond
    rw [mapM_eq_none member (ofBox_checked beyond)] at drawn
    cases drawn
  refine ⟨fits, ?_⟩
  by_contra stuck
  obtain ⟨none, wide⟩ := not_or.mp stuck
  push Not at wide
  obtain ⟨box, member, wide⟩ := wide
  obtain rfl : minGap = 0 := by omega
  rw [mapM_ofBox fits, Option.some_inj] at drawn
  rw [← drawn, xyCutRec_unbounded member wide] at cut
  cases cut

/-- A single box needs no recursion. -/
theorem xyCutOrder_of_few {order : List Nat} (few : boxes.length < 2)
    (perm : order ~ List.range boxes.length) :
    xyCutOrder checks fuel boxes minGap = some order := by
  rw [xyCutOrder, if_pos few]
  rcases Nat.lt_or_ge boxes.length 1 with none | one
  · have empty : boxes.length = 0 := by omega
    rw [empty] at perm ⊢
    rw [List.perm_nil.mp perm]
    rfl
  · have single : boxes.length = 1 := by omega
    rw [single] at perm ⊢
    rw [List.perm_singleton.mp perm]
    rfl

/-- With enough fuel the recursion returns one order of all boxes. -/
theorem exists_xyCutRec_placed (splits : Splits boxes minGap) :
    ∃ order, order ~ List.range boxes.length ∧ ∀ fuel, boxes.length < fuel →
      xyCutRec minGap fuel (placed (boxes.map BBox.rect)) = some order := by
  have enough : (placed (boxes.map BBox.rect)).length < boxes.length + 1 := by
    rw [length_placed, List.length_map]
    exact Nat.lt_succ_self _
  obtain ⟨order, ran⟩ := exists_xyCutRec splits.opened enough
  exact ⟨order, xyCutRec_placed_perm ran, fun fuel more => xyCutRec_mono ran more⟩

end AiCoreStack.Ocr
