import AiCoreStack.Ocr.Detect

/-!
# Boxes inside the frame

When the boxes that detection returns lie inside the image and cover the part of their component
inside it.  Clamping is one-sided: a component that starts too far in the padding leaves the image,
and rounding a start and a length down can cut off the far edge.
-/

namespace AiCoreStack.Ocr

open AiCoreStack.Foundation

/-! ## One axis -/

/-- A component on one axis of the image: where it starts and how far it goes. -/
structure Stretch where
  start : ℚ
  length : ℚ
  nonneg : 0 ≤ start
  wide : 1 ≤ length

/-- The edges of a component: scaled to the image, or truncated to pixels. -/
inductive Outline where
  | scaled
  | truncated

def Outline.low : Outline → Stretch → ℚ
  | .scaled, s => s.start
  | .truncated, s => ⌊s.start⌋

def Outline.high : Outline → Stretch → ℚ
  | .scaled, s => s.start + s.length
  | .truncated, s => ⌊s.start⌋ + ⌊s.length⌋

def Outline.Holds (outline : Outline) (s : Stretch) (point : ℚ) : Prop :=
  outline.low s ≤ point ∧ point < outline.high s

theorem Outline.low_lt_high (outline : Outline) (s : Stretch) : outline.low s < outline.high s := by
  cases outline with
  | scaled =>
      have wide := s.wide
      simp only [Outline.low, Outline.high]
      linarith
  | truncated =>
      have wide : (1 : ℚ) ≤ ⌊s.length⌋ := by exact_mod_cast Int.le_floor.mpr s.wide
      simp only [Outline.low, Outline.high]
      linarith

namespace Stretch

/-- Where the component starts after it is expanded and clamped. -/
def low (s : Stretch) (d : ℚ) : ℚ := max (s.start - d) 0

/-- How far the expanded component goes inside an image of some size. -/
def size (s : Stretch) (d : ℚ) (n : Nat) : ℚ := max (min (s.start + s.length + d) n - s.low d) 1

/-- A component that does not start beyond the image by the offset or more. -/
def Near (s : Stretch) (d : ℚ) (n : Nat) : Prop := 0 < n ∧ s.start < n + d

/-- What truncation takes from the start and from the size is no more than the expanded
component reaches beyond the component inside the image. -/
def Kept (outline : Outline) (s : Stretch) (d : ℚ) (n : Nat) : Prop :=
  Int.fract (s.low d) + Int.fract (s.size d n) ≤ s.low d + s.size d n - min (outline.high s) n

variable {s : Stretch} {d : ℚ} {n : Nat}

theorem low_nonneg : 0 ≤ s.low d := le_max_right _ _

theorem near_iff : Near s d n ↔ s.low d < n := by
  rw [Near, low, max_lt_iff, sub_lt_iff_lt_add, Nat.cast_pos, and_comm]

theorem one_le_size : 1 ≤ s.size d n := le_max_right _ _

theorem low_le_start (expands : 0 ≤ d) : s.low d ≤ s.start :=
  max_le (sub_le_self _ expands) s.nonneg

theorem floor_low_le (expands : 0 ≤ d) (outline : Outline) :
    (⌊s.low d⌋ : ℚ) ≤ outline.low s := by
  cases outline with
  | scaled => exact (Int.floor_le _).trans (low_le_start expands)
  | truncated =>
      simp only [Outline.low]
      exact_mod_cast Int.floor_mono (low_le_start expands)

/-- A box that starts inside the image ends inside it. -/
theorem floor_add_floor_le (inside : s.low d < n) : ⌊s.low d⌋ + ⌊s.size d n⌋ ≤ n := by
  rw [size]
  rcases le_total (min (s.start + s.length + d) n - s.low d) 1 with short | long
  · rw [max_eq_right short, Int.floor_one]
    exact Int.add_one_le_of_lt (Int.floor_lt.mpr (by exact_mod_cast inside))
  · rw [max_eq_left long]
    have reach : s.low d + (min (s.start + s.length + d) n - s.low d) ≤ (n : ℤ) := by
      have clamped : min (s.start + s.length + d) (n : ℚ) ≤ n := min_le_right _ _
      push_cast
      linarith
    exact (Int.le_floor_add _ _).trans (Int.floor_le_iff.mpr (by linarith))

theorem kept_iff (outline : Outline) :
    Kept outline s d n ↔ min (outline.high s) n ≤ ⌊s.low d⌋ + ⌊s.size d n⌋ := by
  rw [Kept, Int.fract, Int.fract]
  constructor
  · intro kept
    linarith
  · intro reaches
    linarith

end Stretch

/-! ## Casts -/

/-- `as u32` on a rational. -/
def truncU32 (q : ℚ) : Nat := min ⌊q⌋.toNat (2 ^ 32 - 1)

theorem toU32_fin (q : ℚ) : CastU32.toU32 (Exact.fin q) = truncU32 q := rfl

theorem truncU32_lt_iff {q : ℚ} {n : Nat} (nonneg : 0 ≤ q) (small : n < 2 ^ 32) :
    truncU32 q < n ↔ q < n := by
  have floor : 0 ≤ ⌊q⌋ := Int.floor_nonneg.mpr nonneg
  have cast : q < n ↔ ⌊q⌋ < (n : ℤ) := by
    rw [Int.floor_lt]
    norm_cast
  rw [cast, truncU32]
  omega

theorem truncU32_eq_floor {q : ℚ} (nonneg : 0 ≤ q) (small : ⌊q⌋ < 2 ^ 32) :
    (truncU32 q : ℤ) = ⌊q⌋ := by
  have floor : 0 ≤ ⌊q⌋ := Int.floor_nonneg.mpr nonneg
  rw [truncU32]
  omega

namespace Stretch

variable {s : Stretch} {d : ℚ} {n : Nat} {outline : Outline}

theorem truncU32_low (small : n < 2 ^ 32) (inside : s.low d < n) :
    (truncU32 (s.low d) : ℤ) = ⌊s.low d⌋ := by
  refine truncU32_eq_floor low_nonneg ?_
  have below : ⌊s.low d⌋ < (n : ℤ) := Int.floor_lt.mpr (by exact_mod_cast inside)
  omega

theorem truncU32_size (small : n < 2 ^ 32) (inside : s.low d < n) :
    (truncU32 (s.size d n) : ℤ) = ⌊s.size d n⌋ := by
  refine truncU32_eq_floor (zero_le_one.trans one_le_size) ?_
  have reach := floor_add_floor_le inside
  have floor : 0 ≤ ⌊s.low d⌋ := Int.floor_nonneg.mpr low_nonneg
  omega

theorem truncU32_low_lt_iff (small : n < 2 ^ 32) : truncU32 (s.low d) < n ↔ s.low d < n :=
  truncU32_lt_iff low_nonneg small

theorem truncU32_add_le (small : n < 2 ^ 32) (inside : s.low d < n) :
    truncU32 (s.low d) + truncU32 (s.size d n) ≤ n := by
  have reach := floor_add_floor_le inside
  have low := truncU32_low small inside
  have size := truncU32_size small inside
  omega

/-- Where the box ends. -/
theorem truncU32_end (small : n < 2 ^ 32) (inside : s.low d < n) :
    (truncU32 (s.low d) + truncU32 (s.size d n) : ℚ) = ⌊s.low d⌋ + ⌊s.size d n⌋ := by
  rw [← truncU32_low small inside, ← truncU32_size small inside]
  push_cast
  rfl

theorem covers_of_kept (small : n < 2 ^ 32) (inside : s.low d < n) (expands : 0 ≤ d)
    (kept : Kept outline s d n) {u : ℚ} (holds : outline.Holds s u) (below : u < n) :
    truncU32 (s.low d) ≤ u ∧ u < truncU32 (s.low d) + truncU32 (s.size d n) := by
  have starts : (truncU32 (s.low d) : ℚ) = ⌊s.low d⌋ := by
    exact_mod_cast truncU32_low small inside
  rw [truncU32_end small inside, starts]
  refine ⟨(floor_low_le expands outline).trans holds.1, ?_⟩
  exact (lt_min holds.2 below).trans_le ((kept_iff outline).mp kept)

/-- A box that ends before every point it should cover has lost nothing to truncation. -/
theorem kept_of_covers (small : n < 2 ^ 32) (inside : s.low d < n) (begins : outline.low s < n)
    (covers : ∀ u : ℚ, outline.Holds s u → u < n →
      u < truncU32 (s.low d) + truncU32 (s.size d n)) :
    Kept outline s d n := by
  rw [truncU32_end small inside] at covers
  rw [kept_iff]
  by_contra short
  rw [not_le, lt_min_iff] at short
  -- the first point of the component that the box does not reach
  let u : ℚ := max (outline.low s) (⌊s.low d⌋ + ⌊s.size d n⌋)
  have holds : outline.Holds s u := ⟨le_max_left _ _, max_lt (outline.low_lt_high s) short.1⟩
  have cut := covers u holds (max_lt begins short.2)
  exact absurd cut (not_lt.mpr (le_max_right _ _))

end Stretch

/-! ## One box -/

/-- A box inside an image that covers the part of its component inside the image. -/
structure InsideFrame (outline : Outline) (across down : Stretch) (width height : Nat)
    (box : BBox) : Prop where
  left : box.x < width
  top : box.y < height
  right : box.x + box.width ≤ width
  bottom : box.y + box.height ≤ height
  covers : ∀ u v : ℚ, outline.Holds across u → u < width → outline.Holds down v → v < height →
    (box.x ≤ u ∧ u < box.x + box.width) ∧ box.y ≤ v ∧ v < box.y + box.height

/-- A component near the image, of which truncation cuts off nothing inside the image. -/
structure ReachesFrame (outline : Outline) (across down : Stretch) (width height : Nat) (d : ℚ) :
    Prop where
  left : across.Near d width
  top : down.Near d height
  kept : outline.low across < width → outline.low down < height →
    Stretch.Kept outline across d width ∧ Stretch.Kept outline down d height

/-- The box of a component expanded by an offset. -/
def expandedBox (across down : Stretch) (width height : Nat) (d : ℚ) : BBox :=
  ⟨truncU32 (across.low d), truncU32 (down.low d), truncU32 (across.size d width),
    truncU32 (down.size d height)⟩

section Frame

variable {outline : Outline} {across down : Stretch} {width height : Nat} {d : ℚ}

/-- The exact condition for one box. -/
theorem insideFrame_iff (expands : 0 ≤ d) (wide : width < 2 ^ 32) (high : height < 2 ^ 32) :
    InsideFrame outline across down width height (expandedBox across down width height d) ↔
      ReachesFrame outline across down width height d := by
  constructor
  · intro frame
    have left := (Stretch.truncU32_low_lt_iff wide).mp frame.left
    have top := (Stretch.truncU32_low_lt_iff high).mp frame.top
    have lowHolds (s : Stretch) : outline.Holds s (outline.low s) := ⟨le_rfl, outline.low_lt_high s⟩
    refine ⟨Stretch.near_iff.mpr left, Stretch.near_iff.mpr top, fun inX inY => ⟨?_, ?_⟩⟩
    · exact Stretch.kept_of_covers wide left inX fun u holds below =>
        (frame.covers u _ holds below (lowHolds down) inY).1.2
    · exact Stretch.kept_of_covers high top inY fun v holds below =>
        (frame.covers _ v (lowHolds across) inX holds below).2.2
  · intro reaches
    have left := Stretch.near_iff.mp reaches.left
    have top := Stretch.near_iff.mp reaches.top
    refine ⟨(Stretch.truncU32_low_lt_iff wide).mpr left,
      (Stretch.truncU32_low_lt_iff high).mpr top, Stretch.truncU32_add_le wide left,
      Stretch.truncU32_add_le high top, ?_⟩
    intro u v holdsX inX holdsY inY
    obtain ⟨keptX, keptY⟩ :=
      reaches.kept (holdsX.1.trans_lt inX) (holdsY.1.trans_lt inY)
    exact ⟨Stretch.covers_of_kept wide left expands keptX holdsX inX,
      Stretch.covers_of_kept high top expands keptY holdsY inY⟩

end Frame

/-! ## The boxes of a detection -/

/-- The scale from an image to the input of the model. -/
def inputScale (width height inH inW : Nat) : ℚ :=
  min (inW / max width 1) (inH / max height 1)

theorem inputScale_nonneg (width height inH inW : Nat) : 0 ≤ inputScale width height inH inW :=
  le_min (by positivity) (by positivity)

theorem letterboxScale_eq {width height inH inW : Nat} {scale : Exact}
    (scaled : letterboxScale width height inH inW = some scale) :
    scale = .fin (inputScale width height inH inW) ∧ 0 < inputScale width height inH inW := by
  rw [letterboxScale] at scaled
  split at scaled
  · next sized =>
      have wide : (0 : ℚ) < inW := by exact_mod_cast (show 0 < inW by omega)
      have high : (0 : ℚ) < inH := by exact_mod_cast (show 0 < inH by omega)
      have across : ((max width 1 : Nat) : ℚ) ≠ 0 := by positivity
      have down : ((max height 1 : Nat) : ℚ) ≠ 0 := by positivity
      constructor
      · rw [← Option.some.inj scaled, Exact.ofNat_eq, Exact.ofNat_eq, Exact.ofNat_eq,
          Exact.ofNat_eq, Exact.div_fin _ across, Exact.div_fin _ down, Exact.min_fin, inputScale]
      · exact lt_min (by positivity) (by positivity)
  · cases scaled

/-- Cells of the map on one axis of the image. -/
def stretchOf {scale : ℚ} (nonneg : 0 ≤ scale) (inputs cells first count : Nat) : Stretch where
  start := first * (inputs / cells) / scale
  length := max (count * (inputs / cells) / scale) 1
  nonneg := by positivity
  wide := le_max_right _ _

/-- The offset of DBNet: area times ratio over perimeter. -/
def unclipOffset (ratio : ℚ) (across down : Stretch) : ℚ :=
  if 1 < ratio then across.length * down.length * ratio / (2 * (across.length + down.length)) else 0

theorem unclipOffset_nonneg (ratio : ℚ) (across down : Stretch) :
    0 ≤ unclipOffset ratio across down := by
  have wide := across.wide
  have high := down.wide
  rw [unclipOffset]
  split
  · next above => positivity
  · exact le_rfl

namespace TextDetector

variable (detector : TextDetector Exact) (ph pw width height : Nat)

/-- The columns of a component, on the image. -/
def across (c : MapBox Exact) : Stretch :=
  stretchOf (inputScale_nonneg width height detector.inH detector.inW) detector.inW pw c.x c.w

/-- The rows of a component, on the image. -/
def down (c : MapBox Exact) : Stretch :=
  stretchOf (inputScale_nonneg width height detector.inH detector.inW) detector.inH ph c.y c.h

variable {detector ph pw width height}

theorem textBox_bbox {ratio : ℚ} (finite : detector.unclipRatio = .fin ratio) (columns : 0 < pw)
    (rows : 0 < ph) (positive : 0 < inputScale width height detector.inH detector.inW)
    (c : MapBox Exact) :
    (detector.textBox ph pw (.fin (inputScale width height detector.inH detector.inW)) width height
      c).bbox =
      expandedBox (detector.across pw width height c) (detector.down ph width height c) width height
        (unclipOffset ratio (detector.across pw width height c)
          (detector.down ph width height c)) := by
  have someColumns : (pw : ℚ) ≠ 0 := Nat.cast_ne_zero.mpr columns.ne'
  have someRows : (ph : ℚ) ≠ 0 := Nat.cast_ne_zero.mpr rows.ne'
  have perimeter (w h : ℚ) : 2 * (max w 1 + max h 1) ≠ 0 := by positivity
  rw [textBox, mapBox, finite]
  simp only [Exact.ofNat_eq, Exact.lit_eq, Exact.div_fin _ someColumns, Exact.div_fin _ someRows,
    Exact.mul_fin, Exact.div_fin _ positive.ne', Exact.max_fin, Exact.add_fin,
    Exact.div_fin _ (perimeter _ _), Exact.lt_fin, decide_eq_true_eq, ← apply_ite Exact.fin,
    Exact.sub_fin, Exact.min_fin, toU32_fin]
  rfl

/-- A map without pixels has no components. -/
theorem components_eq_nil {fuel : Nat} {prob : List Exact} {comps : List (MapBox Exact)}
    (empty : ph * pw = 0) (found : detector.components fuel prob ph pw = some comps) :
    comps = [] := by
  rw [components, connectedBoxes, Nat.mul_comm pw ph, empty] at found
  exact (Option.some.inj found).symm

variable {checks : Bool} {fuel : Nat} {output : Except VisionError (List Exact × List Nat)}
variable {out : List (TextBox Exact)}

/-- The boxes returned are those of the components in some order.  The box of a component is
inside the image and covers the part of the component inside it exactly if the component is near
the image and truncation cuts off nothing. -/
theorem detect_insideFrame_iff {ratio : ℚ} (finite : detector.unclipRatio = .fin ratio)
    (wide : width < 2 ^ 32) (high : height < 2 ^ 32)
    (ran : detector.detect checks fuel width height output = some (.ok out)) (outline : Outline) :
    ∃ (scale : Exact) (prob : List Exact) (front : List Nat) (ph pw : Nat)
      (comps : List (MapBox Exact)),
      letterboxScale width height detector.inH detector.inW = some scale ∧
      output = .ok (prob, front ++ [ph, pw]) ∧
      connectedBoxes (prob.take (ph * pw)) pw ph detector.binThreshold fuel detector.minArea =
        some comps ∧
      out.Perm (comps.map (detector.textBox ph pw scale width height)) ∧
      ∀ c ∈ comps,
        InsideFrame outline (detector.across pw width height c) (detector.down ph width height c)
          width height (detector.textBox ph pw scale width height c).bbox ↔
        ReachesFrame outline (detector.across pw width height c) (detector.down ph width height c)
          width height (unclipOffset ratio (detector.across pw width height c)
            (detector.down ph width height c)) := by
  obtain ⟨scale, prob, front, ph, pw, comps, scaled, answer, -, found, perm⟩ := detect_ok ran
  refine ⟨scale, prob, front, ph, pw, comps, scaled, answer, found, perm, fun c member => ?_⟩
  obtain ⟨rfl, positive⟩ := letterboxScale_eq scaled
  have pixels : ph * pw ≠ 0 := by
    intro empty
    rw [components_eq_nil empty found] at member
    cases member
  rw [textBox_bbox finite (Nat.pos_of_ne_zero (right_ne_zero_of_mul pixels))
    (Nat.pos_of_ne_zero (left_ne_zero_of_mul pixels)) positive]
  exact insideFrame_iff (unclipOffset_nonneg _ _ _) wide high

/-- A map of four rows that is bright from one column to another. -/
def stripe (first last : Nat) : List Exact × List Nat :=
  ((List.range 28).map fun p => if first ≤ p % 7 ∧ p % 7 < last then .fin 1 else .fin 0,
    [1, 1, 4, 7])

theorem detect_insideFrame_iff_stripe :
    ∃ (scale : Exact) (prob : List Exact) (front : List Nat) (ph pw : Nat)
      (comps : List (MapBox Exact)),
      letterboxScale 7 4 4 7 = some scale ∧
      Except.ok (ε := VisionError) (stripe 0 4) = .ok (prob, front ++ [ph, pw]) ∧
      connectedBoxes (prob.take (ph * pw)) pw ph (.fin (3 / 10)) 100 16 = some comps ∧
      [⟨⟨0, 0, 5, 4⟩, .fin 1⟩].Perm (comps.map ((new 4 7).textBox ph pw scale 7 4)) ∧
      ∀ c ∈ comps,
        InsideFrame .scaled ((new 4 7).across pw 7 4 c) ((new 4 7).down ph 7 4 c) 7 4
          ((new 4 7).textBox ph pw scale 7 4 c).bbox ↔
        ReachesFrame .scaled ((new 4 7).across pw 7 4 c) ((new 4 7).down ph 7 4 c) 7 4
          (unclipOffset (3 / 2) ((new 4 7).across pw 7 4 c) ((new 4 7).down ph 7 4 c)) := by
  have ran : (new 4 7).detect true 100 7 4 (.ok (stripe 0 4)) =
      some (.ok [⟨⟨0, 0, 5, 4⟩, Exact.fin 1⟩]) := by
    decide +kernel
  exact detect_insideFrame_iff rfl (by decide) (by decide) ran .scaled

/-- On an image of one column, the default settings give a box that starts beyond it. -/
theorem not_detect_insideFrame :
    ∃ out : List (TextBox Exact),
      (new 4 7).detect true 100 1 4 (.ok (stripe 3 7)) = some (.ok out) ∧
      ∃ box ∈ out, ¬ box.bbox.x < 1 := by
  refine ⟨[⟨⟨1, 0, 1, 4⟩, .fin 1⟩], by decide +kernel, _, List.mem_singleton_self _, by decide⟩

end TextDetector

end AiCoreStack.Ocr
