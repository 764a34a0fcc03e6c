import AiCoreStack.Foundation.Scalar
import AiCoreStack.Ocr.XyRuns

/-!
# Reading orders keep every box

Model of `reading_order` in `postprocess.rs`, which groups boxes into lines, and the condition
under which both reading orders end and return every index once.
-/

namespace AiCoreStack.Ocr

open AiCoreStack.Foundation
open scoped List

section Lines

variable (α : Type) [Analytic α]

/-- The vertical centre of a box. -/
def centerY (b : BBox) : α :=
  Scalar.add (Scalar.ofNat b.y) (Scalar.div (Scalar.ofNat b.height) (Scalar.lit 2))

/-- Whether a box belongs to a line: its centre is within half its height of that of the box the
line starts with. -/
def sameLine (line : List (BBox × Nat)) (entry : BBox × Nat) : Bool :=
  match line with
  | [] => false
  | first :: _ =>
      Scalar.le (Analytic.abs (Scalar.sub (centerY α entry.1) (centerY α first.1)))
        (Scalar.mul (Scalar.ofNat entry.1.height) (Scalar.lit (1 / 2)))

/-- Add a box to the last line or start a new one. -/
def pushLine (lines : List (List (BBox × Nat))) (entry : BBox × Nat) : List (List (BBox × Nat)) :=
  match lines.getLast? with
  | some line =>
      if sameLine α line entry then lines.dropLast ++ [line ++ [entry]] else lines ++ [[entry]]
  | none => lines ++ [[entry]]

/-- `reading_order`: lines from top to bottom, each from left to right. -/
def readingOrder (boxes : List BBox) : List Nat :=
  if boxes.length < 2 then List.range boxes.length
  else
    let idx := boxes.zipIdx.mergeSort fun a b =>
      Scalar.cmpOrEq (centerY α a.1) (centerY α b.1) != .gt
    let lines := idx.foldl (pushLine α) []
    lines.flatMap fun line => (StableSort.sortByKey (fun entry => entry.1.x) line).map Prod.snd

variable {α}

theorem flatten_pushLine (lines : List (List (BBox × Nat))) (entry : BBox × Nat) :
    (pushLine α lines entry).flatten = lines.flatten ++ [entry] := by
  cases last : lines.getLast? with
  | none => simp [pushLine, last]
  | some line =>
      have split := List.dropLast_append_getLast? line last
      rw [pushLine, last]
      simp only
      split
      · conv_rhs => rw [← split]
        simp
      · simp

theorem flatten_foldl_pushLine (items : List (BBox × Nat)) (lines : List (List (BBox × Nat))) :
    (items.foldl (pushLine α) lines).flatten = lines.flatten ++ items := by
  induction items generalizing lines with
  | nil => simp
  | cons entry rest ih =>
      rw [List.foldl_cons, ih, flatten_pushLine, List.append_assoc]
      rfl

theorem flatMap_sortByKey {β : Type} (key : β → Nat) (lines : List (List (β × Nat))) :
    (lines.flatMap fun line =>
      (StableSort.sortByKey (fun entry => key entry.1) line).map Prod.snd) ~
      lines.flatten.map Prod.snd := by
  induction lines with
  | nil => rfl
  | cons line rest ih =>
      rw [List.flatMap_cons, List.flatten_cons, List.map_append]
      exact ((StableSort.sortByKey_perm line).map Prod.snd).append ih

/-- Grouping into lines neither loses nor repeats a box, however centres are rounded. -/
theorem readingOrder_perm (boxes : List BBox) :
    readingOrder α boxes ~ List.range boxes.length := by
  rw [readingOrder]
  split
  · exact List.Perm.refl _
  · refine (flatMap_sortByKey BBox.x _).trans ?_
    rw [flatten_foldl_pushLine, List.flatten_nil, List.nil_append, List.range_eq_range',
      ← List.zipIdx_map_snd 0 boxes]
    exact (List.mergeSort_perm _ _).map Prod.snd

end Lines

/-! ## Both orders -/

/-- Both reading orders end and return every index once; in XY-cut the recursion alone does. -/
structure KeepsAll (α : Type) [Analytic α] (boxes : List BBox) (minGap : Nat) : Prop where
  lines : readingOrder α boxes ~ List.range boxes.length
  xyCut : ∀ checks, ∃ order, order ~ List.range boxes.length ∧ ∃ bound, ∀ fuel, bound ≤ fuel →
    xyCutOrder checks fuel boxes minGap = some order ∧
    (2 ≤ boxes.length → ∃ rects, boxes.mapM (Rect.ofBox checks) = some rects ∧
      xyCutRec minGap fuel (placed rects) = some order)

variable {minGap : Nat} {boxes : List BBox}

/-- Reading orders keep every box exactly when there is at most one, or every rectangle has
`u32` edges and columns start where boxes start. -/
theorem keepsAll_iff (α : Type) [Analytic α] (boxes : List BBox) (minGap : Nat) :
    KeepsAll α boxes minGap ↔
      boxes.length < 2 ∨ (∀ box ∈ boxes, box.RectFits) ∧ Splits boxes minGap := by
  constructor
  · intro keeps
    rcases Nat.lt_or_ge boxes.length 2 with few | two
    · exact .inl few
    · obtain ⟨order, -, bound, ran⟩ := keeps.xyCut true
      exact .inr (xyCutOrder_checked two (ran bound (Nat.le_refl _)).1)
  · intro condition
    refine ⟨readingOrder_perm boxes, fun checks => ?_⟩
    rcases Nat.lt_or_ge boxes.length 2 with few | two
    · refine ⟨_, .refl _, 0, fun fuel _ => ⟨xyCutOrder_of_few few (.refl _), fun two => ?_⟩⟩
      exact absurd few (Nat.not_lt_of_le two)
    · obtain ⟨fits, splits⟩ := condition.resolve_left (Nat.not_lt_of_le two)
      obtain ⟨order, perm, ran⟩ := exists_xyCutRec_placed splits
      refine ⟨order, perm, boxes.length + 1, fun fuel enough => ?_⟩
      have ended := ran fuel enough
      exact ⟨xyCutOrder_of_xyCutRec two fits ended, fun _ => ⟨_, mapM_ofBox fits, ended⟩⟩

/-- Two boxes of two pixels in width: without a gap the recursion has no end. -/
theorem not_keepsAll :
    (⟨0, 0, 2, 1⟩ : BBox).Fits ∧ (⟨4, 0, 2, 1⟩ : BBox).Fits ∧
      (∀ checks fuel, xyCutOrder checks fuel [⟨0, 0, 2, 1⟩, ⟨4, 0, 2, 1⟩] 0 = none) ∧
      ∀ (α : Type) [Analytic α], ¬ KeepsAll α [⟨0, 0, 2, 1⟩, ⟨4, 0, 2, 1⟩] 0 := by
  have stuck (checks : Bool) (fuel : Nat) :
      xyCutOrder checks fuel [⟨0, 0, 2, 1⟩, ⟨4, 0, 2, 1⟩] 0 = none := by
    rw [xyCutOrder, if_neg (by decide), mapM_ofBox (by decide), Option.bind_eq_bind,
      Option.bind_some, xyCutRec_unbounded List.mem_cons_self (by decide)]
    rfl
  refine ⟨by decide, by decide, stuck, fun α _ keeps => ?_⟩
  obtain ⟨order, -, bound, ran⟩ := keeps.xyCut true
  have ended := (ran bound (Nat.le_refl _)).1
  rw [stuck] at ended
  cases ended

end AiCoreStack.Ocr
