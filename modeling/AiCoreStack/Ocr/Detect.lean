import AiCoreStack.Ocr.ConnectedBoxes
import AiCoreStack.Ocr.XyRuns

/-!
# Text detection

Model of `TractTextDetector::detect` in `backends/tract.rs`: the components of the model's output
map are scaled back to the image, expanded, clamped, rounded and put in reading order.  The
letterboxed pixels only reach the model, whose answer is a parameter.
-/

namespace AiCoreStack.Ocr

open AiCoreStack.Foundation

/-- `as u32` on a floating-point number: towards zero, saturating, zero for NaN. -/
class CastU32 (α : Type) where
  toU32 : α → Nat

instance : CastU32 Exact where
  toU32
    | .fin value => min ⌊value⌋.toNat (2 ^ 32 - 1)
    | .posInf => 2 ^ 32 - 1
    | _ => 0

structure TextBox (α : Type) where
  bbox : BBox
  confidence : α
  deriving DecidableEq

inductive VisionError where
  | backend (detail : String)
  deriving DecidableEq, Repr

/-- The fields of `TractTextDetector`, with the input size of its model. -/
structure TextDetector (α : Type) where
  inH : Nat
  inW : Nat
  binThreshold : α
  minArea : Nat
  unclipRatio : α
  xycutGap : Nat

section Model

variable {α : Type} [Scalar α] [CastU32 α]

/-- The settings of `new`. -/
def TextDetector.new (inH inW : Nat) : TextDetector α where
  inH := inH
  inW := inW
  binThreshold := Scalar.lit (3 / 10)
  minArea := 16
  unclipRatio := Scalar.lit (3 / 2)
  xycutGap := 8

/-- The scale of `letterbox_chw`.  Its `clamp(1, in_w as u32)` panics if the upper bound is
zero. -/
def letterboxScale (width height inH inW : Nat) : Option α :=
  if 1 ≤ inW % 2 ^ 32 ∧ 1 ≤ inH % 2 ^ 32 then
    some (Scalar.min (Scalar.div (Scalar.ofNat inW) (Scalar.ofNat (max width 1)))
      (Scalar.div (Scalar.ofNat inH) (Scalar.ofNat (max height 1))))
  else none

/-- The tight box and the expanded box of a component. -/
def mapBox (ratio mapX mapY scale iw ih : α) (b : MapBox α) : BBox × TextBox α :=
  let x := Scalar.div (Scalar.mul (Scalar.ofNat b.x) mapX) scale
  let y := Scalar.div (Scalar.mul (Scalar.ofNat b.y) mapY) scale
  let w := Scalar.max (Scalar.div (Scalar.mul (Scalar.ofNat b.w) mapX) scale) (Scalar.lit 1)
  let h := Scalar.max (Scalar.div (Scalar.mul (Scalar.ofNat b.h) mapY) scale) (Scalar.lit 1)
  let tight : BBox :=
    ⟨CastU32.toU32 x, CastU32.toU32 y, CastU32.toU32 w, CastU32.toU32 h⟩
  let d :=
    if Scalar.lt (Scalar.lit 1) ratio then
      Scalar.div (Scalar.mul (Scalar.mul w h) ratio) (Scalar.mul (Scalar.lit 2) (Scalar.add w h))
    else Scalar.lit 0
  let x0 := Scalar.max (Scalar.sub x d) (Scalar.lit 0)
  let y0 := Scalar.max (Scalar.sub y d) (Scalar.lit 0)
  let x1 := Scalar.min (Scalar.add (Scalar.add x w) d) iw
  let y1 := Scalar.min (Scalar.add (Scalar.add y h) d) ih
  let unclipped : BBox :=
    ⟨CastU32.toU32 x0, CastU32.toU32 y0,
      CastU32.toU32 (Scalar.max (Scalar.sub x1 x0) (Scalar.lit 1)),
      CastU32.toU32 (Scalar.max (Scalar.sub y1 y0) (Scalar.lit 1))⟩
  (tight, ⟨unclipped, b.score⟩)

/-- `detect` on an image of some size, with the answer of the model.  No value stands for a
panic or for fuel that is used up. -/
def TextDetector.detect (detector : TextDetector α) (checks : Bool) (fuel width height : Nat)
    (output : Except VisionError (List α × List Nat)) :
    Option (Except VisionError (List (TextBox α))) := do
  let scale ← letterboxScale width height detector.inH detector.inW
  match output with
  | .error error => return .error error
  | .ok (prob, shape) =>
      match shape.reverse with
      | pw :: ph :: _ =>
          if prob.length < ph * pw then
            return .error (.backend "det output smaller than HxW")
          else do
            let boxes ← connectedBoxes (prob.take (ph * pw)) pw ph detector.binThreshold fuel
              detector.minArea
            let mapX := Scalar.div (Scalar.ofNat detector.inW) (Scalar.ofNat pw)
            let mapY := Scalar.div (Scalar.ofNat detector.inH) (Scalar.ofNat ph)
            let mapped := boxes.map (mapBox detector.unclipRatio mapX mapY scale
              (Scalar.ofNat width) (Scalar.ofNat height))
            let order ← xyCutOrder checks fuel (mapped.map Prod.fst) detector.xycutGap
            let ordered ← order.mapM fun i => mapped[i]?.map Prod.snd
            return .ok ordered
      | _ => return .error (.backend ("unexpected det output shape " ++ toString shape))

end Model

/-! ## What is returned -/

section Returned

variable {α : Type} [Scalar α] [CastU32 α]

/-- The component boxes of the map that a model answers with. -/
def TextDetector.components (detector : TextDetector α) (fuel : Nat)
    (prob : List α) (ph pw : Nat) : Option (List (MapBox α)) :=
  connectedBoxes (prob.take (ph * pw)) pw ph detector.binThreshold fuel detector.minArea

/-- The expanded box of a component on an image of some size. -/
def TextDetector.textBox (detector : TextDetector α) (ph pw : Nat) (scale : α) (width height : Nat)
    (b : MapBox α) : TextBox α :=
  (mapBox detector.unclipRatio (Scalar.div (Scalar.ofNat detector.inW) (Scalar.ofNat pw))
    (Scalar.div (Scalar.ofNat detector.inH) (Scalar.ofNat ph)) scale (Scalar.ofNat width)
    (Scalar.ofNat height) b).2

/-- The boxes that are returned are those of the components, in some order. -/
theorem TextDetector.detect_ok {detector : TextDetector α} {checks : Bool}
    {fuel width height : Nat} {output : Except VisionError (List α × List Nat)}
    {out : List (TextBox α)}
    (ran : detector.detect checks fuel width height output = some (.ok out)) :
    ∃ scale prob front ph pw comps, letterboxScale width height detector.inH detector.inW =
        some scale ∧ output = .ok (prob, front ++ [ph, pw]) ∧ ph * pw ≤ prob.length ∧
      detector.components fuel prob ph pw = some comps ∧
      out.Perm (comps.map (detector.textBox ph pw scale width height)) := by
  rw [TextDetector.detect] at ran
  obtain ⟨scale, scaled, ran⟩ := Option.bind_eq_some_iff.mp ran
  cases output with
  | error error => cases ran
  | ok answer =>
      obtain ⟨prob, shape⟩ := answer
      simp only at ran
      split at ran
      · next pw ph front split =>
          have shapeEq : shape = front.reverse ++ [ph, pw] := by
            rw [← List.reverse_reverse shape, split]
            simp
          split at ran
          · cases ran
          · next enough =>
              obtain ⟨comps, found, ran⟩ := Option.bind_eq_some_iff.mp ran
              obtain ⟨order, cut, ran⟩ := Option.bind_eq_some_iff.mp ran
              obtain ⟨ordered, read, ran⟩ := Option.bind_eq_some_iff.mp ran
              obtain rfl := Except.ok.inj (Option.some.inj ran)
              refine ⟨scale, prob, front.reverse, ph, pw, comps, scaled, by rw [shapeEq],
                Nat.le_of_not_lt enough, found, ?_⟩
              have perm : order.Perm (List.range
                  (comps.map (detector.textBox ph pw scale width height)).length) := by
                have every := xyCutOrder_perm cut
                rw [List.length_map, List.length_map] at every
                rwa [List.length_map]
              obtain ⟨boxes, read', rearranged⟩ := mapM_getElem?_perm perm
              have same : (fun (i : Nat) => (comps.map (mapBox detector.unclipRatio
                  (Scalar.div (Scalar.ofNat detector.inW) (Scalar.ofNat pw))
                  (Scalar.div (Scalar.ofNat detector.inH) (Scalar.ofNat ph)) scale
                  (Scalar.ofNat width) (Scalar.ofNat height)))[i]?.map Prod.snd) =
                  fun (i : Nat) => (comps.map (detector.textBox ph pw scale width height))[i]? := by
                funext i
                rw [List.getElem?_map, List.getElem?_map, Option.map_map]
                rfl
              rw [same, read', Option.some_inj] at read
              exact read ▸ rearranged
      · cases ran

end Returned

end AiCoreStack.Ocr
