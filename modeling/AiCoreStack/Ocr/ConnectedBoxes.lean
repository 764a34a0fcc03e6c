import AiCoreStack.Foundation.CheckedBuffers
import AiCoreStack.Ocr.Components

/-!
# Boxes of connected components

What `connected_boxes` returns: one box for each 4-connected component of the bright pixels that
is large enough, in raster order of first pixels.
-/

namespace AiCoreStack.Ocr

open AiCoreStack.Foundation
open Relation
open scoped List

/-! ## Descriptions of a component -/

section Descriptions

variable {α : Type} [Scalar α] (prob : List α) (w : Nat) (threshold : α)

/-- The places of the component of a pixel, by row and column. -/
def component (p i j : Nat) : Prop := j < w ∧ Joined prob w threshold p (i * w + j)

open Classical in
/-- The pixels of the component of a pixel, in raster order. -/
noncomputable def pixels (p : Nat) : List Nat :=
  (List.range prob.length).filter fun q => decide (Joined prob w threshold p q)

/-- The mean probability of the component of a pixel. -/
noncomputable def meanOver (p : Nat) : α :=
  Scalar.div (Scalar.sum ((pixels prob w threshold p).filterMap fun q => prob[q]?))
    (Scalar.ofNat (pixels prob w threshold p).length)

/-- A component whose bounding box has at least some area. -/
def Large (minArea p : Nat) : Prop :=
  ∃ box : Grid.Box, box.Bounds (component prob w threshold p) ∧
    minArea ≤ (box.right - box.left) * (box.bottom - box.top)

/-- The rows and columns of a box. -/
def MapBox.extent (box : MapBox α) : Grid.Box := ⟨box.y, box.y + box.h, box.x, box.x + box.w⟩

/-- A box around the component of a pixel, with its mean. -/
structure Describes (p : Nat) (box : MapBox α) : Prop where
  tight : box.extent.Bounds (component prob w threshold p)
  mean : box.score = meanOver prob w threshold p

end Descriptions

variable {w h : Nat}

theorem Describes.large_iff {α : Type} [Scalar α] {prob : List α} {threshold : α} {p minArea : Nat}
    {box : MapBox α} (describes : Describes prob w threshold p box) :
    Large prob w threshold minArea p ↔ minArea ≤ box.w * box.h := by
  have area : (box.extent.right - box.extent.left) * (box.extent.bottom - box.extent.top) =
      box.w * box.h := by
    simp only [MapBox.extent, Nat.add_sub_cancel_left]
  constructor
  · rintro ⟨other, bounds, large⟩
    rw [bounds.unique describes.tight, area] at large
    exact large
  · intro large
    exact ⟨box.extent, describes.tight, area ▸ large⟩

/-! ## Extremes of a list -/

theorem foldl_min_spec {β : Type} [LinearOrder β] (values : List β) (bound : β) :
    (∀ v ∈ values, values.foldl min bound ≤ v) ∧ values.foldl min bound ≤ bound ∧
      (values.foldl min bound = bound ∨ values.foldl min bound ∈ values) := by
  induction values generalizing bound with
  | nil => simp
  | cons v rest ih =>
      obtain ⟨least, below, attained⟩ := ih (min bound v)
      rw [List.foldl_cons]
      refine ⟨fun u member => ?_, below.trans (min_le_left _ _), ?_⟩
      · rcases List.mem_cons.mp member with rfl | member
        · exact below.trans (min_le_right _ _)
        · exact least u member
      · rcases attained with same | member
        · rcases le_total bound v with smaller | larger
          · exact .inl (same.trans (min_eq_left smaller))
          · rw [same, min_eq_right larger]
            exact .inr List.mem_cons_self
        · exact .inr (List.mem_cons_of_mem v member)

/-- The same in the dual order. -/
theorem foldl_max_spec (values : List Nat) (bound : Nat) :
    (∀ v ∈ values, v ≤ values.foldl max bound) ∧ bound ≤ values.foldl max bound ∧
      (values.foldl max bound = bound ∨ values.foldl max bound ∈ values) :=
  @foldl_min_spec Natᵒᵈ _ values bound

/-- The least of values that do not exceed the start of the loop. -/
theorem foldl_min_mem {β : Type} [LinearOrder β] {values : List β} {bound : β}
    (nonempty : values ≠ []) (bounded : ∀ v ∈ values, v ≤ bound) :
    values.foldl min bound ∈ values := by
  obtain ⟨least, -, attained⟩ := foldl_min_spec values bound
  rcases attained with same | member
  · obtain ⟨v, inside⟩ := List.exists_mem_of_ne_nil values nonempty
    have below : values.foldl min bound ≤ v := least v inside
    have above := (bounded v inside).trans same.ge
    exact le_antisymm above below ▸ inside
  · exact member

theorem foldl_max_mem {values : List Nat} (nonempty : values ≠ []) :
    values.foldl max 0 ∈ values :=
  @foldl_min_mem Natᵒᵈ _ values 0 nonempty fun v _ => Nat.zero_le v

/-- The least and the greatest value that a function takes on a list. -/
structure Extremes (f : Nat → Nat) (items : List Nat) (least most : Nat) : Prop where
  bounds : ∀ p ∈ items, least ≤ f p ∧ f p ≤ most
  least_mem : ∃ p ∈ items, f p = least
  most_mem : ∃ p ∈ items, f p = most

theorem extremes_foldl {f : Nat → Nat} {items : List Nat} {bound : Nat} (nonempty : items ≠ [])
    (bounded : ∀ p ∈ items, f p ≤ bound) :
    Extremes f items ((items.map f).foldl min bound) ((items.map f).foldl max 0) where
  bounds p member :=
    ⟨(foldl_min_spec _ _).1 _ (List.mem_map_of_mem member),
      (foldl_max_spec _ _).1 _ (List.mem_map_of_mem member)⟩
  least_mem := List.mem_map.mp (foldl_min_mem (by simpa using nonempty) (by simpa using bounded))
  most_mem := List.mem_map.mp (foldl_max_mem (by simpa using nonempty))

/-! ## The box of a component -/

section Boxes

variable {α : Type} [Scalar α] {prob : List α} {threshold : α} {start : Nat} {popped : List Nat}

theorem component_place {p : Nat} (row : 0 < w) :
    component prob w threshold start (p / w) (p % w) ↔ Joined prob w threshold start p := by
  rw [component, Nat.div_add_mod', and_iff_right (Nat.mod_lt p row)]

/-- The extremes of the pixels taken from the stack bound them. -/
theorem Tallies.tight {s : Fill α} (tallies : Tallies prob w popped s) (row : 0 < w)
    (nonempty : popped ≠ []) (small : ∀ p ∈ popped, p % w ≤ usizeMax ∧ p / w ≤ usizeMax)
    (visits : ∀ x, x ∈ popped ↔ Joined prob w threshold start x) :
    s.box.extent.Bounds (component prob w threshold start) := by
  have columns : Extremes (· % w) popped s.minX s.maxX := by
    rw [tallies.minX, tallies.maxX]
    exact extremes_foldl nonempty fun p member => (small p member).1
  have rows : Extremes (· / w) popped s.minY s.maxY := by
    rw [tallies.minY, tallies.maxY]
    exact extremes_foldl nonempty fun p member => (small p member).2
  have place {p : Nat} (member : p ∈ popped) :
      component prob w threshold start (p / w) (p % w) :=
    (component_place row).mpr ((visits p).mp member)
  obtain ⟨left, inLeft, leftmost⟩ := columns.least_mem
  obtain ⟨right, inRight, rightmost⟩ := columns.most_mem
  obtain ⟨top, inTop, topmost⟩ := rows.least_mem
  obtain ⟨bottom, inBottom, lowest⟩ := rows.most_mem
  have wide := columns.bounds left inLeft
  have high := rows.bounds top inTop
  refine Grid.Box.Holds.bounds ?_ ?_ ?_ ?_ ?_
  · rintro i j ⟨inRow, joined⟩
    have column := columns.bounds _ ((visits _).mpr joined)
    have line := rows.bounds _ ((visits _).mpr joined)
    simp only [mod_part inRow] at column
    simp only [div_part inRow] at line
    simp only [MapBox.extent, Fill.box]
    omega
  · refine ⟨top % w, ?_⟩
    change component prob w threshold start s.minY (top % w)
    exact topmost ▸ place inTop
  · refine ⟨bottom / w, bottom % w, ?_, place inBottom⟩
    simp only [MapBox.extent, Fill.box]
    omega
  · refine ⟨left / w, ?_⟩
    change component prob w threshold start (left / w) s.minX
    exact leftmost ▸ place inLeft
  · refine ⟨right / w, right % w, ?_, place inRight⟩
    simp only [MapBox.extent, Fill.box]
    omega

theorem mem_pixels {q : Nat} :
    q ∈ pixels prob w threshold start ↔ q < prob.length ∧ Joined prob w threshold start q := by
  unfold pixels
  simp only [List.mem_filter, List.mem_range, decide_eq_true_eq]

theorem nodup_pixels : (pixels prob w threshold start).Nodup := by
  unfold pixels
  exact List.nodup_range.filter _

theorem pixels_perm (bright : Bright prob threshold start) (nodup : popped.Nodup)
    (visits : ∀ x, x ∈ popped ↔ Joined prob w threshold start x) :
    popped ~ pixels prob w threshold start := by
  refine (List.perm_ext_iff_of_nodup nodup nodup_pixels).mpr fun x => ?_
  rw [visits, mem_pixels]
  exact ⟨fun joined => ⟨(joined.bright bright).lt, joined⟩, And.right⟩

end Boxes

/-- A fill describes the component it starts in. -/
theorem Tallies.describes {prob : List Exact} {threshold : Exact} {start : Nat} {popped : List Nat}
    {s : Fill Exact} (tallies : Tallies prob w popped s) (bright : Bright prob threshold start)
    (nodup : popped.Nodup) (visits : ∀ x, x ∈ popped ↔ Joined prob w threshold start x)
    (row : 0 < w) (small : ∀ p ∈ popped, p % w ≤ usizeMax ∧ p / w ≤ usizeMax) :
    Describes prob w threshold start s.box where
  tight := tallies.tight row (List.ne_nil_of_mem ((visits start).mpr .refl)) small visits
  mean := by
    have perm := pixels_perm bright nodup visits
    rw [meanOver, ← Exact.sum_perm (perm.filterMap _), ← perm.length_eq, ← tallies.sum,
      ← tallies.count]
    rfl

/-! ## All components -/

section Scan

variable {prob : List Exact} {threshold : Exact} {minArea : Nat}

/-- The pixels of the components that start in front of a pixel. -/
def earlier (prob : List Exact) (w : Nat) (threshold : Exact) (k : Nat) : Set Nat :=
  {x | ∃ s < k, Bright prob threshold s ∧ Joined prob w threshold s x}

@[simp] theorem mem_earlier {k x : Nat} : x ∈ earlier prob w threshold k ↔
    ∃ s < k, Bright prob threshold s ∧ Joined prob w threshold s x := Iff.rfl

theorem earlier_succ_of_mem {k : Nat} (member : k ∈ earlier prob w threshold k) :
    earlier prob w threshold (k + 1) = earlier prob w threshold k := by
  obtain ⟨s, below, bright, joined⟩ := member
  ext x
  constructor
  · rintro ⟨t, within, bright', joined'⟩
    rcases Nat.lt_succ_iff_lt_or_eq.mp within with before | rfl
    · exact ⟨t, before, bright', joined'⟩
    · exact ⟨s, below, bright, joined.trans joined'⟩
  · rintro ⟨t, before, rest⟩
    exact ⟨t, Nat.lt_succ_of_lt before, rest⟩

theorem earlier_succ_of_dark {k : Nat} (dark : ¬ Bright prob threshold k) :
    earlier prob w threshold (k + 1) = earlier prob w threshold k := by
  ext x
  constructor
  · rintro ⟨t, within, bright, joined⟩
    rcases Nat.lt_succ_iff_lt_or_eq.mp within with before | rfl
    · exact ⟨t, before, bright, joined⟩
    · exact absurd bright dark
  · rintro ⟨t, before, rest⟩
    exact ⟨t, Nat.lt_succ_of_lt before, rest⟩

theorem mem_earlier_succ {k x : Nat} (bright : Bright prob threshold k) :
    x ∈ earlier prob w threshold (k + 1) ↔
      x ∈ earlier prob w threshold k ∨ Joined prob w threshold k x := by
  constructor
  · rintro ⟨t, within, bright', joined⟩
    rcases Nat.lt_succ_iff_lt_or_eq.mp within with before | rfl
    · exact .inl ⟨t, before, bright', joined⟩
    · exact .inr joined
  · rintro (⟨t, before, rest⟩ | joined)
    · exact ⟨t, Nat.lt_succ_of_lt before, rest⟩
    · exact ⟨k, Nat.lt_succ_self k, bright, joined⟩

/-- A bright pixel is the first of its component unless that starts earlier. -/
theorem first_iff {k : Nat} (bright : Bright prob threshold k) :
    First prob w threshold k ↔ k ∉ earlier prob w threshold k := by
  constructor
  · rintro ⟨-, least⟩ ⟨s, below, -, joined⟩
    exact absurd (least s joined.symm) (Nat.not_le_of_lt below)
  · intro fresh
    refine ⟨bright, fun q joined => ?_⟩
    by_contra before
    exact fresh ⟨q, Nat.lt_of_not_le before, joined.bright bright, joined.symm⟩

/-- What the scan has found in front of a pixel. -/
structure Scanned (prob : List Exact) (w h : Nat) (threshold : Exact) (minArea k : Nat)
    (state : List Bool × List (MapBox Exact)) : Prop where
  marks : state.1.length = w * h
  visited : markedIn state.1 = earlier prob w threshold k
  found : ∃ firsts, firsts.Pairwise (· < ·) ∧
    (∀ p, p ∈ firsts ↔ p < k ∧ First prob w threshold p ∧ Large prob w threshold minArea p) ∧
    List.Forall₂ (Describes prob w threshold) firsts state.2

theorem scanned_zero : Scanned prob w h threshold minArea 0 (List.replicate (w * h) false, []) where
  marks := List.length_replicate
  visited := by
    ext x
    simp [List.getElem?_replicate]
  found := ⟨[], .nil, by simp, .nil⟩

variable {state : List Bool × List (MapBox Exact)} {k : Nat}

/-- A pixel that starts no component changes nothing. -/
theorem Scanned.skip (scanned : Scanned prob w h threshold minArea k state)
    (same : earlier prob w threshold (k + 1) = earlier prob w threshold k)
    (later : ¬ First prob w threshold k) : Scanned prob w h threshold minArea (k + 1) state where
  marks := scanned.marks
  visited := scanned.visited.trans same.symm
  found := by
    obtain ⟨firsts, ordered, members, described⟩ := scanned.found
    refine ⟨firsts, ordered, fun p => (members p).trans ?_, described⟩
    constructor
    · rintro ⟨below, rest⟩
      exact ⟨Nat.lt_succ_of_lt below, rest⟩
    · rintro ⟨within, first, large⟩
      rcases Nat.lt_succ_iff_lt_or_eq.mp within with below | rfl
      · exact ⟨below, first, large⟩
      · exact absurd first later

/-- A pixel that starts a component adds its box if it is large enough. -/
theorem Scanned.add (scanned : Scanned prob w h threshold minArea k state) {visited : List Bool}
    {box : MapBox Exact} (marks : visited.length = w * h)
    (visits : markedIn visited = earlier prob w threshold (k + 1))
    (first : First prob w threshold k) (describes : Describes prob w threshold k box) :
    Scanned prob w h threshold minArea (k + 1)
      (if minArea ≤ box.w * box.h then (visited, state.2 ++ [box]) else (visited, state.2)) := by
  obtain ⟨firsts, ordered, members, described⟩ := scanned.found
  split
  · next large =>
      refine ⟨marks, visits, firsts ++ [k], ?_, fun p => ?_, ?_⟩
      · refine List.pairwise_append.mpr
          ⟨ordered, List.pairwise_singleton _ _, fun p member q single => ?_⟩
        obtain rfl := List.mem_singleton.mp single
        exact ((members p).mp member).1
      · rw [List.mem_append, List.mem_singleton, members]
        constructor
        · rintro (⟨below, rest⟩ | rfl)
          · exact ⟨Nat.lt_succ_of_lt below, rest⟩
          · exact ⟨Nat.lt_succ_self _, first, describes.large_iff.mpr large⟩
        · rintro ⟨within, rest⟩
          exact (Nat.lt_succ_iff_lt_or_eq.mp within).imp_left fun below => ⟨below, rest⟩
      · exact List.rel_append described (.cons describes .nil)
  · next small =>
      refine ⟨marks, visits, firsts, ordered, fun p => (members p).trans ?_, described⟩
      constructor
      · rintro ⟨below, rest⟩
        exact ⟨Nat.lt_succ_of_lt below, rest⟩
      · rintro ⟨within, first, large⟩
        rcases Nat.lt_succ_iff_lt_or_eq.mp within with below | rfl
        · exact ⟨below, first, large⟩
        · exact absurd (describes.large_iff.mp large) small

theorem le_of_not_lt {a b : Exact} (numberA : a ≠ .nan) (numberB : b ≠ .nan)
    (above : Scalar.lt a b = false) : Scalar.le b a = true := by
  cases a <;> cases b <;> simp_all [Scalar.lt, Exact.lt, Scalar.le, Exact.le]

/-- The fill of a new component describes it and visits nothing else. -/
theorem fill_describes (long : prob.length = w * h) (columns : w ≤ usizeMax) (rows : h ≤ usizeMax)
    {fuel : Nat} (enough : w * h ≤ fuel) (bright : Bright prob threshold k)
    (scanned : Scanned prob w h threshold minArea k state)
    (fresh : k ∉ earlier prob w threshold k) :
    ∃ s, fill prob w h threshold fuel (Fill.start state.1 k) = some s ∧
      s.visited.length = w * h ∧ markedIn s.visited = earlier prob w threshold (k + 1) ∧
      Describes prob w threshold k s.box := by
  have inside : k < w * h := long ▸ bright.lt
  have flood := Flood.init (Linked prob w threshold) (scanned.visited ▸ fresh)
  rw [← markedIn_set (scanned.marks ▸ inside)] at flood
  obtain ⟨s, popped, ran, marks, done, tallies⟩ := fill_spec (s := Fill.start state.1 k) long
    (List.length_set.trans scanned.marks) bright flood (tallies_start state.1 k)
    ((Nat.zero_add fuel).symm ▸ enough)
  have isolated : ∀ x y, Linked prob w threshold x y → y ∈ markedIn state.1 →
      x ∈ markedIn state.1 := by
    intro x y linked member
    rw [scanned.visited] at member ⊢
    obtain ⟨t, before, brightT, joined⟩ := member
    exact ⟨t, before, brightT, joined.tail linked.symm⟩
  have visits (x : Nat) : x ∈ popped ↔ Joined prob w threshold k x := done.mem_popped_iff isolated
  refine ⟨s, ran, marks, ?_, ?_⟩
  · ext x
    rw [done.marked_iff, List.append_nil, visits, mem_earlier_succ bright, scanned.visited]
  · have row : 0 < w := Nat.pos_of_mul_pos_right (Nat.zero_lt_of_lt inside)
    refine tallies.describes bright (List.append_nil popped ▸ done.nodup) visits row ?_
    intro p member
    have within : p < w * h := long ▸ (((visits p).mp member).bright bright).lt
    have column := Nat.mod_lt p row
    have line := Nat.div_lt_of_lt_mul within
    omega

/-- One turn of the scan. -/
theorem scan_step (long : prob.length = w * h) (numbers : ∀ p ∈ prob, p ≠ .nan)
    (number : threshold ≠ .nan) (columns : w ≤ usizeMax) (rows : h ≤ usizeMax) {fuel : Nat}
    (enough : w * h ≤ fuel) (inside : k < w * h)
    (scanned : Scanned prob w h threshold minArea k state) :
    ∃ next, (do
        let seen : Bool ← state.1[k]?
        if seen then return state
        let p ← prob[k]?
        if Scalar.lt p threshold then return state
        let s ← fill prob w h threshold fuel (Fill.start state.1 k)
        let box := s.box
        if minArea ≤ box.w * box.h then return (s.visited, state.2 ++ [box])
        else return (s.visited, state.2)) = some next ∧
      Scanned prob w h threshold minArea (k + 1) next := by
  obtain ⟨old, seen⟩ : ∃ old, state.1[k]? = some old :=
    ⟨_, List.getElem?_eq_getElem (scanned.marks.symm ▸ inside)⟩
  obtain ⟨p, value⟩ : ∃ p, prob[k]? = some p :=
    ⟨_, List.getElem?_eq_getElem (long.symm ▸ inside)⟩
  have visited : old = true ↔ k ∈ earlier prob w threshold k := by
    rw [← scanned.visited, mem_markedIn, seen, Option.some_inj]
  simp only [seen, value, Option.bind_eq_bind, Option.bind_some]
  by_cases again : old = true
  · rw [if_pos again]
    have member := visited.mp again
    refine ⟨state, rfl, scanned.skip (earlier_succ_of_mem member) fun first => ?_⟩
    exact (first_iff first.1).mp first member
  · rw [if_neg again]
    have fresh : k ∉ earlier prob w threshold k := fun member => again (visited.mpr member)
    by_cases below : Scalar.lt p threshold = true
    · rw [if_pos below]
      have dark : ¬ Bright prob threshold k := by
        rintro ⟨v, found, above⟩
        rw [value, Option.some_inj] at found
        subst found
        have cycle := LawfulCompare.lt_of_lt_of_le below above
        rw [LawfulCompare.lt_irrefl] at cycle
        cases cycle
      exact ⟨state, rfl, scanned.skip (earlier_succ_of_dark dark) fun first => dark first.1⟩
    · rw [if_neg below]
      have bright : Bright prob threshold k := ⟨p, value, le_of_not_lt
        (numbers p (List.mem_of_getElem? value)) number (by simpa using below)⟩
      obtain ⟨s, ran, marks, visits, describes⟩ :=
        fill_describes long columns rows enough bright scanned fresh
      refine ⟨_, ?_, scanned.add marks visits ((first_iff bright).mpr fresh) describes⟩
      rw [ran, Option.bind_some]
      split <;> rfl

/-- `connected_boxes` ends, and returns one box for each component whose bounding box has the
least area, in the order of the first pixels: the tight box with the mean over its pixels. -/
theorem connectedBoxes_components (long : prob.length = w * h) (numbers : ∀ p ∈ prob, p ≠ .nan)
    (number : threshold ≠ .nan) (columns : w ≤ usizeMax) (rows : h ≤ usizeMax) {fuel : Nat}
    (enough : w * h ≤ fuel) :
    ∃ firsts boxes, connectedBoxes prob w h threshold fuel minArea = some boxes ∧
      firsts.Pairwise (· < ·) ∧
      (∀ p, p ∈ firsts ↔ First prob w threshold p ∧ Large prob w threshold minArea p) ∧
      List.Forall₂ (Describes prob w threshold) firsts boxes := by
  obtain ⟨final, ran, scanned⟩ := foldlM_range
    (Scanned prob w h threshold minArea) (w * h) scanned_zero fun k inside state scanned =>
      scan_step long numbers number columns rows enough inside scanned
  obtain ⟨firsts, ordered, members, described⟩ := scanned.found
  refine ⟨firsts, final.2, ?_, ordered, fun p => (members p).trans ?_, described⟩
  · rw [connectedBoxes, ran]
    rfl
  · exact and_iff_right_of_imp fun first => long ▸ first.1.1.lt

end Scan

/-- Two bright pixels that touch at a corner only. -/
def corners : List Exact := [.fin 1, .fin 0, .fin 0, .fin 1]

theorem connectedBoxes_components_corners :
    ∃ firsts boxes, connectedBoxes corners 2 2 (.fin (1 / 2)) 4 1 = some boxes ∧
      firsts.Pairwise (· < ·) ∧
      (∀ p, p ∈ firsts ↔ First corners 2 (.fin (1 / 2)) p ∧ Large corners 2 (.fin (1 / 2)) 1 p) ∧
      List.Forall₂ (Describes corners 2 (.fin (1 / 2))) firsts boxes :=
  connectedBoxes_components (by decide) (by decide) (by decide) (by decide) (by decide)
    (Nat.le_refl 4)

end AiCoreStack.Ocr
