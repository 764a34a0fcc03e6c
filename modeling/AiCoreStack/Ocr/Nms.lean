import AiCoreStack.Foundation.CheckedBuffers
import AiCoreStack.Foundation.Scalar
import AiCoreStack.Foundation.StableSort
import AiCoreStack.Foundation.Thinning
import AiCoreStack.Ocr.Boxes

/-!
# Non-maximum suppression

Model of `iou` and `nms` in `postprocess.rs`.  The share of pixels that two boxes have in common
is what `iou` computes, and `nms` is the greedy choice of boxes by score in which boxes clash that
have too much in common.
-/

namespace AiCoreStack.Ocr

open AiCoreStack.Foundation
open scoped List

section Model

variable {F D : Type} [Scalar F] [Scalar D]

/-- `iou`: the area in common over the area of both, computed in `f64`. -/
def iou (asF32 : D → F) (checks : Bool) (a b : BBox) : Option F := do
  let ax2 ← addU32 checks a.x a.width
  let ay2 ← addU32 checks a.y a.height
  let bx2 ← addU32 checks b.x b.width
  let by2 ← addU32 checks b.y b.height
  let ix1 := max a.x b.x
  let iy1 := max a.y b.y
  let ix2 := min ax2 bx2
  let iy2 := min ay2 by2
  if ix2 ≤ ix1 ∨ iy2 ≤ iy1 then return Scalar.lit 0
  let inter : D := Scalar.mul (Scalar.ofNat (ix2 - ix1)) (Scalar.ofNat (iy2 - iy1))
  let union : D :=
    Scalar.sub (Scalar.add (Scalar.ofNat a.area) (Scalar.ofNat b.area)) inter
  if Scalar.le union (Scalar.lit 0) then return Scalar.lit 0
  return asF32 (Scalar.div inter union)

/-- The indices of scored boxes by descending score. -/
def scoreOrder (boxes : List (BBox × F)) : List Nat :=
  (boxes.zipIdx.mergeSort fun a b => Scalar.cmpOrEq b.1.2 a.1.2 != .gt).map Prod.snd

variable (asF32 : D → F) (checks : Bool) (boxes : List (BBox × F)) (iouThreshold : F)

/-- A turn of the inner loop of `nms`. -/
def suppress (i : Nat) (suppressed : List Bool) (j : Nat) : Option (List Bool) := do
  if j = i then return suppressed
  let gone ← suppressed[j]?
  if gone then return suppressed
  let a ← boxes[i]?
  let b ← boxes[j]?
  let value ← iou asF32 checks a.1 b.1
  if Scalar.lt iouThreshold value then return suppressed.set j true
  return suppressed

/-- A turn of the outer loop of `nms`, on the kept indices and the flags. -/
def visit (state : List Nat × List Bool) (i : Nat) : Option (List Nat × List Bool) := do
  let gone ← state.2[i]?
  if gone then return state
  let suppressed ← (scoreOrder boxes).foldlM (suppress asF32 checks boxes iouThreshold i) state.2
  return (state.1 ++ [i], suppressed)

/-- `nms`. -/
def nms : Option (List Nat) := do
  let state ← (scoreOrder boxes).foldlM (visit asF32 checks boxes iouThreshold)
    ([], List.replicate boxes.length false)
  return state.1

end Model

/-! ## Pixels in common -/

namespace BBox

def pixels (box : BBox) : Finset (Nat × Nat) :=
  Finset.Ico box.x (box.x + box.width) ×ˢ Finset.Ico box.y (box.y + box.height)

/-- The number of pixels in both boxes over the number of pixels in at least one. -/
def overlap (a b : BBox) : ℚ := (a.pixels ∩ b.pixels).card / (a.pixels ∪ b.pixels).card

theorem overlap_comm (a b : BBox) : a.overlap b = b.overlap a := by
  rw [overlap, overlap, Finset.inter_comm, Finset.union_comm]

theorem card_pixels (box : BBox) : box.pixels.card = box.area := by
  rw [pixels, Finset.card_product, Nat.card_Ico, Nat.card_Ico, Nat.add_sub_cancel_left,
    Nat.add_sub_cancel_left, area]

theorem card_inter (a b : BBox) :
    (a.pixels ∩ b.pixels).card =
      (min (a.x + a.width) (b.x + b.width) - max a.x b.x) *
        (min (a.y + a.height) (b.y + b.height) - max a.y b.y) := by
  rw [pixels, pixels, Finset.product_inter_product, Finset.Ico_inter_Ico, Finset.Ico_inter_Ico,
    Finset.card_product, Nat.card_Ico, Nat.card_Ico]

/-- The area of both boxes counts the common pixels twice. -/
theorem card_union (a b : BBox) :
    ((a.pixels ∪ b.pixels).card : ℚ) = a.area + b.area - (a.pixels ∩ b.pixels).card := by
  have counted := Finset.card_union_add_card_inter a.pixels b.pixels
  rw [card_pixels, card_pixels] at counted
  rw [eq_sub_iff_add_eq]
  exact_mod_cast counted

end BBox

/-- In exact arithmetic, `iou` computes the overlap. -/
theorem iou_eq (checks : Bool) {a b : BBox} (fitsA : a.Fits) (fitsB : b.Fits) :
    iou (id : Exact → Exact) checks a b = some (.fin (a.overlap b)) := by
  rw [iou, addU32_eq_some fitsA.right, addU32_eq_some fitsA.bottom, addU32_eq_some fitsB.right,
    addU32_eq_some fitsB.bottom]
  simp only [Option.bind_eq_bind, Option.bind_some]
  have inter := BBox.card_inter a b
  split
  · next apart =>
      have none : (a.pixels ∩ b.pixels).card = 0 := by
        rw [inter, Nat.mul_eq_zero]
        omega
      rw [BBox.overlap, none, Nat.cast_zero, zero_div]
      rfl
  · next meet =>
      rw [not_or, not_le, not_le] at meet
      have some_ : 0 < (a.pixels ∩ b.pixels).card := by
        rw [inter]
        exact Nat.mul_pos (Nat.sub_pos_of_lt meet.1) (Nat.sub_pos_of_lt meet.2)
      have more : 0 < (a.pixels ∪ b.pixels).card :=
        some_.trans_le (Finset.card_le_card Finset.inter_subset_union)
      have positive : (0 : ℚ) < a.area + b.area - (a.pixels ∩ b.pixels).card := by
        rw [← BBox.card_union]
        exact_mod_cast more
      rw [inter] at positive
      push_cast at positive
      simp only [Exact.ofNat_eq, Exact.mul_fin, Exact.add_fin, Exact.sub_fin, Exact.lit_eq,
        Exact.le_fin, decide_eq_true_eq, not_le.mpr positive, if_false,
        Exact.div_fin _ positive.ne']
      rw [BBox.overlap, BBox.card_union, inter]
      push_cast
      rfl

/-! ## The order of scores -/

section Order

variable {boxes : List (BBox × Exact)}

theorem cmpOrEq_ne_gt {a b : Exact} (numberA : a ≠ .nan) (numberB : b ≠ .nan) :
    (Scalar.cmpOrEq b a != .gt) = Scalar.le b a := by
  have total : Scalar.le b a = !Scalar.lt a b := by
    cases a <;> cases b <;> simp_all [Scalar.le, Exact.le, Scalar.lt, Exact.lt]
    rw [← decide_not, decide_eq_decide, not_lt]
  rw [total, Scalar.cmpOrEq]
  by_cases below : Scalar.lt b a = true
  · have above := LawfulCompare.le_of_lt below
    rw [total] at above
    rw [if_pos below, above]
    rfl
  · rw [if_neg below]
    cases Scalar.lt a b <;> rfl

theorem preordersOn_scores (numbers : ∀ box ∈ boxes, box.2 ≠ .nan) :
    StableSort.PreordersOn
      (fun a b : (BBox × Exact) × Nat => Scalar.cmpOrEq b.1.2 a.1.2 != .gt) boxes.zipIdx := by
  have number {item : (BBox × Exact) × Nat} (member : item ∈ boxes.zipIdx) : item.1.2 ≠ .nan :=
    numbers item.1 (List.fst_mem_of_mem_zipIdx member)
  constructor
  · intro a inA b inB c inC first second
    rw [cmpOrEq_ne_gt (number inA) (number inB)] at first
    rw [cmpOrEq_ne_gt (number inB) (number inC)] at second
    rw [cmpOrEq_ne_gt (number inA) (number inC)]
    exact Exact.le_trans second first
  · intro a inA b inB
    rw [cmpOrEq_ne_gt (number inA) (number inB), cmpOrEq_ne_gt (number inB) (number inA),
      Bool.or_eq_true, or_iff_not_imp_left, Bool.not_eq_true]
    exact Exact.le_of_not_le (number inB) (number inA)

theorem scoreOrder_perm (boxes : List (BBox × Exact)) :
    scoreOrder boxes ~ List.range boxes.length := by
  have sorted := (List.mergeSort_perm boxes.zipIdx fun a b =>
    Scalar.cmpOrEq b.1.2 a.1.2 != .gt).map Prod.snd
  rwa [List.zipIdx_map_snd, ← List.range_eq_range'] at sorted

theorem mem_scoreOrder {i : Nat} : i ∈ scoreOrder boxes ↔ i < boxes.length := by
  rw [(scoreOrder_perm boxes).mem_iff, List.mem_range]

theorem nodup_scoreOrder (boxes : List (BBox × Exact)) : (scoreOrder boxes).Nodup :=
  (scoreOrder_perm boxes).nodup_iff.mpr List.nodup_range

/-- The second index has at most the score of the first. -/
def Outscores (boxes : List (BBox × Exact)) (i j : Nat) : Prop :=
  ∃ a b, boxes[i]? = some a ∧ boxes[j]? = some b ∧ Scalar.le b.2 a.2 = true

theorem pairwise_scoreOrder (numbers : ∀ box ∈ boxes, box.2 ≠ .nan) :
    (scoreOrder boxes).Pairwise (Outscores boxes) := by
  have sorted := (preordersOn_scores numbers).pairwise_mergeSort
  rw [scoreOrder, List.pairwise_map]
  refine sorted.imp_of_mem fun {a b} inA inB ordered => ?_
  rw [List.mem_mergeSort] at inA inB
  rw [cmpOrEq_ne_gt (numbers _ (List.fst_mem_of_mem_zipIdx inA))
    (numbers _ (List.fst_mem_of_mem_zipIdx inB))] at ordered
  exact ⟨a.1, b.1, List.mem_zipIdx_iff_getElem?.mp inA, List.mem_zipIdx_iff_getElem?.mp inB,
    ordered⟩

/-- Boxes that come by descending score are left in place. -/
theorem scoreOrder_of_pairwise (numbers : ∀ box ∈ boxes, box.2 ≠ .nan)
    (descending : boxes.Pairwise fun a b => Scalar.le b.2 a.2 = true) :
    scoreOrder boxes = List.range boxes.length := by
  have sorted : boxes.zipIdx.Pairwise fun a b => (Scalar.cmpOrEq b.1.2 a.1.2 != .gt) = true := by
    rw [← List.zipIdx_map_fst 0 boxes, List.pairwise_map] at descending
    refine descending.imp_of_mem fun {a b} inA inB ordered => ?_
    rwa [cmpOrEq_ne_gt (numbers _ (List.fst_mem_of_mem_zipIdx inA))
      (numbers _ (List.fst_mem_of_mem_zipIdx inB))]
  rw [scoreOrder, List.mergeSort_of_pairwise sorted, List.zipIdx_map_snd, ← List.range_eq_range']

end Order

/-! ## The loops -/

/-- Two boxes with too much in common. -/
def clashes (boxes : List (BBox × Exact)) (threshold : ℚ) (i j : Nat) : Bool :=
  match boxes[i]?, boxes[j]? with
  | some a, some b => threshold < a.1.overlap b.1
  | _, _ => false

section Loops

variable {boxes : List (BBox × Exact)} {threshold : ℚ} {flags : List Bool} {i j : Nat}

theorem clashes_comm (boxes : List (BBox × Exact)) (threshold : ℚ) (i j : Nat) :
    clashes boxes threshold i j = clashes boxes threshold j i := by
  rw [clashes, clashes]
  cases boxes[i]? with
  | none => cases boxes[j]? <;> rfl
  | some a =>
      cases boxes[j]? with
      | none => rfl
      | some b => simp only [BBox.overlap_comm a.1 b.1]

theorem clashes_iff {a b : BBox × Exact} (atI : boxes[i]? = some a) (atJ : boxes[j]? = some b) :
    clashes boxes threshold i j = true ↔ threshold < a.1.overlap b.1 := by
  rw [clashes, atI, atJ, decide_eq_true_eq]

variable (threshold) (checks : Bool) in
/-- A turn of the inner loop sets the flag of a box that clashes. -/
theorem suppress_spec (fits : ∀ box ∈ boxes, box.1.Fits) (inI : i < boxes.length)
    (inJ : j < boxes.length) (sized : flags.length = boxes.length) :
    ∃ next, suppress (id : Exact → Exact) checks boxes (.fin threshold) i flags j = some next ∧
      next.length = boxes.length ∧
      ∀ x, x ∈ markedIn next ↔
        x ∈ markedIn flags ∨ x = j ∧ j ≠ i ∧ clashes boxes threshold i j = true := by
  have unchanged (no : j ≠ i → clashes boxes threshold i j = true → j ∈ markedIn flags) (x : Nat) :
      x ∈ markedIn flags ↔
        x ∈ markedIn flags ∨ x = j ∧ j ≠ i ∧ clashes boxes threshold i j = true := by
    rw [iff_self_or]
    rintro ⟨rfl, other, clash⟩
    exact no other clash
  have flag : flags[j]? = some flags[j] := List.getElem?_eq_getElem (sized ▸ inJ)
  have atI : boxes[i]? = some boxes[i] := List.getElem?_eq_getElem inI
  have atJ : boxes[j]? = some boxes[j] := List.getElem?_eq_getElem inJ
  have value := iou_eq checks (fits _ (List.getElem_mem inI)) (fits _ (List.getElem_mem inJ))
  rw [suppress]
  by_cases same : j = i
  · rw [if_pos same]
    exact ⟨flags, rfl, sized, unchanged fun other => absurd same other⟩
  · rw [if_neg same, flag]
    simp only [Option.bind_eq_bind, Option.bind_some, atI, atJ, value, Exact.lt_fin,
      decide_eq_true_eq]
    by_cases gone : flags[j] = true
    · rw [if_pos gone]
      exact ⟨flags, rfl, sized, unchanged fun _ _ => by rw [mem_markedIn, flag, gone]⟩
    · rw [if_neg gone]
      by_cases much : threshold < boxes[i].1.overlap boxes[j].1
      · rw [if_pos much]
        refine ⟨_, rfl, by rw [List.length_set, sized], fun x => ?_⟩
        rw [markedIn_set (sized ▸ inJ), Set.mem_insert_iff, or_comm]
        simp only [ne_eq, same, not_false_eq_true, (clashes_iff atI atJ).mpr much, and_true]
      · rw [if_neg much]
        refine ⟨flags, rfl, sized, unchanged fun _ clash => ?_⟩
        exact absurd ((clashes_iff atI atJ).mp clash) much

variable (threshold) (checks : Bool) in
/-- The inner loop sets the flags of all boxes that clash. -/
theorem suppress_run (fits : ∀ box ∈ boxes, box.1.Fits) (inI : i < boxes.length)
    (sized : flags.length = boxes.length) :
    ∃ next, (scoreOrder boxes).foldlM
        (suppress (id : Exact → Exact) checks boxes (.fin threshold) i) flags = some next ∧
      next.length = boxes.length ∧
      ∀ x < boxes.length, x ∈ markedIn next ↔
        x ∈ markedIn flags ∨ x ≠ i ∧ clashes boxes threshold i x = true := by
  let Inv (done : List Nat) (now : List Bool) : Prop :=
    now.length = boxes.length ∧ ∀ x, x ∈ markedIn now ↔
      x ∈ markedIn flags ∨ x ∈ done ∧ x ≠ i ∧ clashes boxes threshold i x = true
  have turn (done : List Nat) (j : Nat) (within : done ++ [j] <+: scoreOrder boxes)
      (now : List Bool) (inv : Inv done now) :
      ∃ next, suppress (id : Exact → Exact) checks boxes (.fin threshold) i now j = some next ∧
        Inv (done ++ [j]) next := by
    have inJ : j < boxes.length := mem_scoreOrder.mp (within.subset (by simp))
    obtain ⟨next, stepped, sized', marked⟩ := suppress_spec threshold checks fits inI inJ inv.1
    refine ⟨next, stepped, sized', fun x => ?_⟩
    rw [marked, inv.2, List.mem_append, List.mem_singleton, or_assoc]
    grind
  obtain ⟨next, ran, sized', marked⟩ := foldlM_done Inv ⟨sized, by simp⟩ turn
  refine ⟨next, ran, sized', fun x inside => ?_⟩
  rw [marked, mem_scoreOrder, and_iff_right inside]

/-- What holds between the turns of the outer loop. -/
structure Thinned (boxes : List (BBox × Exact)) (threshold : ℚ) (done : List Nat)
    (state : List Nat × List Bool) : Prop where
  kept : state.1 = thin (clashes boxes threshold) done
  sized : state.2.length = boxes.length
  marked : ∀ x < boxes.length, x ∈ markedIn state.2 ↔
    ∃ k ∈ state.1, k ≠ x ∧ clashes boxes threshold k x = true

variable (checks : Bool) in
theorem visit_spec (fits : ∀ box ∈ boxes, box.1.Fits) {done : List Nat}
    {state : List Nat × List Bool} (inI : i < boxes.length) (new : i ∉ done)
    (thinned : Thinned boxes threshold done state) :
    ∃ next, visit (id : Exact → Exact) checks boxes (.fin threshold) state i = some next ∧
      Thinned boxes threshold (done ++ [i]) next := by
  have inside : i < state.2.length := thinned.sized ▸ inI
  have flag : state.2[i]? = some state.2[i] := List.getElem?_eq_getElem inside
  have other {k : Nat} (member : k ∈ state.1) : k ≠ i := by
    rintro rfl
    rw [thinned.kept] at member
    exact new ((thin_sublist done).subset member)
  rw [visit, flag]
  simp only [Option.bind_eq_bind, Option.bind_some]
  by_cases gone : state.2[i] = true
  · rw [if_pos gone]
    have marked : i ∈ markedIn state.2 := by rw [mem_markedIn, flag, gone]
    obtain ⟨k, inKept, -, clash⟩ := (thinned.marked i inI).mp marked
    refine ⟨state, rfl, ?_, thinned.sized, thinned.marked⟩
    rw [thin_snoc_of_clash (thinned.kept ▸ inKept) clash]
    exact thinned.kept
  · rw [if_neg gone]
    obtain ⟨flags, ran, sized, marked⟩ := suppress_run threshold checks fits inI thinned.sized
    rw [ran]
    refine ⟨_, rfl, ?_, sized, fun x inside => ?_⟩
    · have free : ∀ k ∈ thin (clashes boxes threshold) done,
          clashes boxes threshold k i = false := by
        intro k member
        rw [← thinned.kept] at member
        by_contra clash
        rw [Bool.not_eq_false] at clash
        have marked := (thinned.marked i inI).mpr ⟨k, member, other member, clash⟩
        rw [mem_markedIn, flag, Option.some_inj] at marked
        exact gone marked
      rw [thin_snoc_of_free free, ← thinned.kept]
    · rw [marked x inside, thinned.marked x inside]
      simp only [List.mem_append, List.mem_singleton, or_and_right, exists_or, exists_eq_left]
      rw [ne_comm]

end Loops

/-- `nms` is the greedy choice by score without clashes. -/
theorem nms_eq {boxes : List (BBox × Exact)} {threshold : ℚ} (checks : Bool)
    (fits : ∀ box ∈ boxes, box.1.Fits) :
    nms (id : Exact → Exact) checks boxes (.fin threshold) =
      some (thin (clashes boxes threshold) (scoreOrder boxes)) := by
  have empty : Thinned boxes threshold [] ([], List.replicate boxes.length false) := by
    refine ⟨rfl, List.length_replicate, fun x inside => ?_⟩
    simp [mem_markedIn, inside]
  have turn (done : List Nat) (i : Nat) (within : done ++ [i] <+: scoreOrder boxes)
      (state : List Nat × List Bool) (thinned : Thinned boxes threshold done state) :
      ∃ next, visit (id : Exact → Exact) checks boxes (.fin threshold) state i = some next ∧
        Thinned boxes threshold (done ++ [i]) next := by
    have inI : i < boxes.length := mem_scoreOrder.mp (within.subset (by simp))
    have nodup := (nodup_scoreOrder boxes).sublist within.sublist
    rw [List.nodup_append] at nodup
    exact visit_spec checks fits inI (fun member => nodup.2.2 i member i (by simp) rfl) thinned
  obtain ⟨state, ran, thinned⟩ := foldlM_done (Thinned boxes threshold) empty turn
  rw [nms, ran, ← thinned.kept]
  rfl

/-! ## What is kept -/

/-- A greedy maximal choice of boxes by score of which no two have too much in common; their
overlap is what `iou` computes. -/
structure Suppressed (boxes : List (BBox × Exact)) (threshold : ℚ) (kept : List Nat) : Prop where
  nodup : kept.Nodup
  inside : ∀ i ∈ kept, i < boxes.length
  descending : kept.Pairwise (Outscores boxes)
  apart : ∀ i ∈ kept, ∀ j ∈ kept, i ≠ j → ∀ a b, boxes[i]? = some a → boxes[j]? = some b →
    a.1.overlap b.1 ≤ threshold
  covered : ∀ j < boxes.length, j ∉ kept → ∃ i ∈ kept, Outscores boxes i j ∧
    ∃ a b, boxes[i]? = some a ∧ boxes[j]? = some b ∧ threshold < a.1.overlap b.1

section Kept

variable {boxes : List (BBox × Exact)} {threshold : ℚ}

theorem suppressed_thin (numbers : ∀ box ∈ boxes, box.2 ≠ .nan) :
    Suppressed boxes threshold (thin (clashes boxes threshold) (scoreOrder boxes)) := by
  have sub : thin (clashes boxes threshold) (scoreOrder boxes) <+ scoreOrder boxes :=
    thin_sublist _
  refine ⟨(nodup_scoreOrder boxes).sublist sub, fun i member => ?_,
    (pairwise_scoreOrder numbers).sublist sub, ?_, fun j inJ dropped => ?_⟩
  · exact mem_scoreOrder.mp (sub.subset member)
  · intro i inI j inJ distinct a b atI atJ
    have free : (thin (clashes boxes threshold) (scoreOrder boxes)).Pairwise fun i j =>
        clashes boxes threshold i j = false := pairwise_thin _
    have : Std.Symm fun i j => clashes boxes threshold i j = false :=
      ⟨fun i j free => by rw [clashes_comm, free]⟩
    have apart := free.forall inI inJ distinct
    rw [← Bool.not_eq_true, clashes_iff atI atJ] at apart
    exact not_lt.mp apart
  · obtain ⟨i, inKept, clash, before⟩ := exists_clash (mem_scoreOrder.mpr inJ) dropped
    have inI := mem_scoreOrder.mp (sub.subset inKept)
    have atI : boxes[i]? = some boxes[i] := List.getElem?_eq_getElem inI
    have atJ : boxes[j]? = some boxes[j] := List.getElem?_eq_getElem inJ
    refine ⟨i, inKept, ?_, boxes[i], boxes[j], atI, atJ, (clashes_iff atI atJ).mp clash⟩
    have ordered := (pairwise_scoreOrder numbers).sublist before
    rw [List.pairwise_pair] at ordered
    exact ordered

/-- Boxes by descending score of which none have too much in common are all kept. -/
theorem thin_scoreOrder_of_pairwise (numbers : ∀ box ∈ boxes, box.2 ≠ .nan)
    (descending : boxes.Pairwise fun a b => Scalar.le b.2 a.2 = true)
    (apart : boxes.Pairwise fun a b => a.1.overlap b.1 ≤ threshold) :
    thin (clashes boxes threshold) (scoreOrder boxes) = List.range boxes.length := by
  rw [scoreOrder_of_pairwise numbers descending]
  apply thin_eq_self
  rw [List.pairwise_iff_getElem] at apart ⊢
  intro k l inK inL below
  rw [List.getElem_range, List.getElem_range]
  rw [List.length_range] at inK inL
  rw [← Bool.not_eq_true,
    clashes_iff (List.getElem?_eq_getElem inK) (List.getElem?_eq_getElem inL)]
  exact not_lt.mpr (apart k l inK inL below)

/-- The boxes at kept indices. -/
def keptBoxes (boxes : List (BBox × Exact)) (kept : List Nat) : List (BBox × Exact) :=
  kept.filterMap fun i => boxes[i]?

theorem mem_of_mem_keptBoxes {kept : List Nat} {box : BBox × Exact}
    (member : box ∈ keptBoxes boxes kept) : box ∈ boxes := by
  obtain ⟨i, -, atI⟩ := List.mem_filterMap.mp member
  exact List.mem_of_getElem? atI

theorem Suppressed.length_keptBoxes {kept : List Nat}
    (suppressed : Suppressed boxes threshold kept) :
    (keptBoxes boxes kept).length = kept.length := by
  rw [keptBoxes, List.length_filterMap_eq_countP, List.countP_eq_length]
  intro i member
  rw [List.getElem?_eq_getElem (suppressed.inside i member)]
  rfl

/-- Non-maximum suppression is the greedy maximal choice of boxes without too much in common.
Doing it again on the kept boxes keeps all of them. -/
theorem nms_suppressed (checks : Bool) (fits : ∀ box ∈ boxes, box.1.Fits)
    (numbers : ∀ box ∈ boxes, box.2 ≠ .nan) (threshold : ℚ) :
    ∃ kept, nms (id : Exact → Exact) checks boxes (.fin threshold) = some kept ∧
      Suppressed boxes threshold kept ∧
      nms (id : Exact → Exact) checks (keptBoxes boxes kept) (.fin threshold) =
        some (List.range kept.length) := by
  have suppressed : Suppressed boxes threshold _ := suppressed_thin numbers
  refine ⟨_, nms_eq checks fits, suppressed, ?_⟩
  rw [nms_eq checks fun box member => fits box (mem_of_mem_keptBoxes member),
    ← suppressed.length_keptBoxes, thin_scoreOrder_of_pairwise]
  · exact fun box member => numbers box (mem_of_mem_keptBoxes member)
  · rw [keptBoxes, List.pairwise_filterMap]
    refine suppressed.descending.imp fun outscores a atI b atJ => ?_
    obtain ⟨a', b', atI', atJ', below⟩ := outscores
    rw [atI, Option.some_inj] at atI'
    rw [atJ, Option.some_inj] at atJ'
    rwa [atI', atJ']
  · rw [keptBoxes, List.pairwise_filterMap]
    refine suppressed.nodup.imp_of_mem fun inI inJ distinct a atI b atJ => ?_
    exact suppressed.apart _ inI _ inJ distinct a b atI atJ

/-- Two boxes with 81 of 119 pixels in common, and one apart. -/
def threeBoxes : List (BBox × Exact) :=
  [(⟨0, 0, 10, 10⟩, .fin (9 / 10)), (⟨1, 1, 10, 10⟩, .fin (8 / 10)),
    (⟨100, 100, 10, 10⟩, .fin (7 / 10))]

theorem nms_suppressed_threeBoxes :
    ∃ kept, nms (id : Exact → Exact) true threeBoxes (.fin (1 / 2)) = some kept ∧
      Suppressed threeBoxes (1 / 2) kept ∧
      nms (id : Exact → Exact) true (keptBoxes threeBoxes kept) (.fin (1 / 2)) =
        some (List.range kept.length) :=
  nms_suppressed true (by decide) (by decide) (1 / 2)

end Kept

end AiCoreStack.Ocr
