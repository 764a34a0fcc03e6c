import AiCoreStack.Foundation.CheckedBuffers
import AiCoreStack.Foundation.Samples
import AiCoreStack.Foundation.Scalar

/-!
# The sampling gate

Model of `sampler.rs`.  The gate compares a frame with the last frame that it admitted, on small
grey images.  Scaling a frame down is a parameter, of which only the size of its results is known.
-/

namespace AiCoreStack.Ocr

open AiCoreStack.Foundation

/-- `GrayImage`: rows of pixels in one buffer. -/
structure GrayImage where
  width : Nat
  height : Nat
  pixels : List UInt8
  length_eq : pixels.length = width * height
  deriving DecidableEq

/-- `dimensions`. -/
def GrayImage.dimensions (image : GrayImage) : Nat × Nat := (image.width, image.height)

/-- `u32` multiplication.  A product that does not fit panics in a build with overflow checks, and
wraps around in one without. -/
def mulU32 (checks : Bool) (left right : Nat) : Option Nat :=
  if left * right < 2 ^ 32 then some (left * right)
  else if checks then none else some (left * right % 2 ^ 32)

section Model

variable {α : Type} [Scalar α]

/-- The first loop of `ssim`: the sums of the pixels of both images. -/
def pixelSums (a b : GrayImage) : Option (α × α) :=
  (List.range a.pixels.length).foldlM
    (fun (sums : α × α) i => do
      let p ← a.pixels[i]?
      let q ← b.pixels[i]?
      return (Scalar.add sums.1 (Scalar.ofNat p.toNat), Scalar.add sums.2 (Scalar.ofNat q.toNat)))
    (Scalar.lit 0, Scalar.lit 0)

/-- The second loop of `ssim`: the sums behind the two variances and the covariance. -/
def pixelSpread (a b : GrayImage) (meanA meanB : α) : Option (α × α × α) :=
  (List.range a.pixels.length).foldlM
    (fun (spread : α × α × α) i => do
      let p ← a.pixels[i]?
      let q ← b.pixels[i]?
      let da := Scalar.sub (Scalar.ofNat p.toNat) meanA
      let db := Scalar.sub (Scalar.ofNat q.toNat) meanB
      return (Scalar.add spread.1 (Scalar.mul da da), Scalar.add spread.2.1 (Scalar.mul db db),
        Scalar.add spread.2.2 (Scalar.mul da db)))
    (Scalar.lit 0, Scalar.lit 0, Scalar.lit 0)

/-- `ssim`.  The area is converted without rounding, so it is compared with zero as it is. -/
def ssim (checks : Bool) (a b : GrayImage) : Option α := do
  if a.dimensions ≠ b.dimensions then return Scalar.lit 0
  let area ← mulU32 checks a.width a.height
  if area = 0 then return Scalar.lit 1
  let n : α := Scalar.ofNat area
  let sums ← pixelSums a b
  let meanA := Scalar.div sums.1 n
  let meanB := Scalar.div sums.2 n
  let spread ← pixelSpread a b meanA meanB
  let varA := Scalar.div spread.1 n
  let varB := Scalar.div spread.2.1 n
  let cov := Scalar.div spread.2.2 n
  let root1 : α := Scalar.mul (Scalar.lit (1 / 100)) (Scalar.lit 255)
  let root2 : α := Scalar.mul (Scalar.lit (3 / 100)) (Scalar.lit 255)
  let c1 := Scalar.mul root1 root1
  let c2 := Scalar.mul root2 root2
  let numerator := Scalar.mul
    (Scalar.add (Scalar.mul (Scalar.mul (Scalar.lit 2) meanA) meanB) c1)
    (Scalar.add (Scalar.mul (Scalar.lit 2) cov) c2)
  let denominator := Scalar.mul
    (Scalar.add (Scalar.add (Scalar.mul meanA meanA) (Scalar.mul meanB meanB)) c1)
    (Scalar.add (Scalar.add varA varB) c2)
  return Scalar.div numerator denominator

/-- `SamplingGate`. -/
structure SamplingGate (α : Type) where
  lastKeyframe : Option GrayImage
  threshold : α
  scale : Nat × Nat

namespace SamplingGate

/-- `SamplingGate::with_scale`. -/
def withScale (threshold : α) (scale : Nat × Nat) : SamplingGate α := ⟨none, threshold, scale⟩

/-- `SamplingGate::new`. -/
def new (threshold : α) : SamplingGate α := ⟨none, threshold, (64, 64)⟩

variable {Image : Type} (downscaleGray : Image → Nat × Nat → GrayImage) (checks : Bool)

/-- `SamplingGate::admit`: whether the frame passes, and the gate after the call. -/
def admitFrame (gate : SamplingGate α) (image : Image) : Option (Bool × SamplingGate α) := do
  let gray := downscaleGray image gate.scale
  match gate.lastKeyframe with
  | some prev =>
      if Scalar.le gate.threshold (← ssim checks prev gray) then return (false, gate)
      else return (true, { gate with lastKeyframe := some gray })
  | none => return (true, { gate with lastKeyframe := some gray })

/-- `SamplingGate::reset`. -/
def reset (gate : SamplingGate α) : SamplingGate α := { gate with lastKeyframe := none }

/-- Gates after some calls of `admit` and `reset`. -/
inductive Reached (start : SamplingGate α) : SamplingGate α → Prop where
  | start : Reached start start
  | admitted {gate next : SamplingGate α} {image : Image} {passed : Bool}
      (reached : Reached start gate)
      (ran : gate.admitFrame downscaleGray checks image = some (passed, next)) : Reached start next
  | reset {gate : SamplingGate α} (reached : Reached start gate) : Reached start gate.reset

end SamplingGate

end Model

/-! ## Similarity of images -/

section Similarity

open Finset

variable {a b : GrayImage} (checks : Bool)

/-- The value of a pixel. -/
def GrayImage.level (image : GrayImage) (i : Nat) : ℚ := (image.pixels.getD i 0).toNat

theorem GrayImage.level_nonneg (image : GrayImage) (i : Nat) : 0 ≤ image.level i :=
  Nat.cast_nonneg _

theorem GrayImage.pixel_eq {image : GrayImage} {i : Nat} (inside : i < image.pixels.length) :
    ∃ p, image.pixels[i]? = some p ∧ (p.toNat : ℚ) = image.level i := by
  refine ⟨image.pixels[i], List.getElem?_eq_getElem inside, ?_⟩
  rw [level, List.getD_eq_getElem _ _ inside]

theorem GrayImage.length_eq_of_dimensions (same : a.dimensions = b.dimensions) :
    b.pixels.length = a.pixels.length := by
  obtain ⟨width, height⟩ := Prod.mk.inj same
  rw [a.length_eq, b.length_eq, width, height]

/-- Images of one size are the same when their pixels have the same values. -/
theorem GrayImage.eq_iff_level (same : a.dimensions = b.dimensions) :
    a = b ↔ ∀ i ∈ range a.pixels.length, a.level i = b.level i := by
  constructor
  · rintro rfl i -
    rfl
  · intro levels
    have pixels : a.pixels = b.pixels := by
      refine List.ext_getElem (length_eq_of_dimensions same).symm fun i insideA insideB => ?_
      have level := levels i (mem_range.mpr insideA)
      rw [GrayImage.level, GrayImage.level, List.getD_eq_getElem _ _ insideA,
        List.getD_eq_getElem _ _ insideB, Nat.cast_inj] at level
      exact UInt8.toNat_inj.mp level
    obtain ⟨width, height⟩ := Prod.mk.inj same
    cases a
    cases b
    simp_all

theorem pixelSums_eq (same : a.dimensions = b.dimensions) :
    pixelSums a b = some (Exact.fin (∑ i ∈ range a.pixels.length, a.level i),
      Exact.fin (∑ i ∈ range a.pixels.length, b.level i)) := by
  refine foldlM_range_eq (fun j => (Exact.fin (∑ i ∈ range j, a.level i),
    Exact.fin (∑ i ∈ range j, b.level i))) _ (by simp) fun j below => ?_
  obtain ⟨p, atP, levelP⟩ := a.pixel_eq below
  obtain ⟨q, atQ, levelQ⟩ := b.pixel_eq (GrayImage.length_eq_of_dimensions same ▸ below)
  simp [atP, atQ, sum_range_succ, levelP, levelQ]

theorem pixelSpread_eq (same : a.dimensions = b.dimensions) (meanA meanB : ℚ) :
    pixelSpread a b (Exact.fin meanA) (Exact.fin meanB) = some
      (Exact.fin (∑ i ∈ range a.pixels.length, (a.level i - meanA) * (a.level i - meanA)),
        Exact.fin (∑ i ∈ range a.pixels.length, (b.level i - meanB) * (b.level i - meanB)),
        Exact.fin (∑ i ∈ range a.pixels.length, (a.level i - meanA) * (b.level i - meanB))) := by
  refine foldlM_range_eq (fun j =>
    (Exact.fin (∑ i ∈ range j, (a.level i - meanA) * (a.level i - meanA)),
      Exact.fin (∑ i ∈ range j, (b.level i - meanB) * (b.level i - meanB)),
      Exact.fin (∑ i ∈ range j, (a.level i - meanA) * (b.level i - meanB)))) _ (by simp)
    fun j below => ?_
  obtain ⟨p, atP, levelP⟩ := a.pixel_eq below
  obtain ⟨q, atQ, levelQ⟩ := b.pixel_eq (GrayImage.length_eq_of_dimensions same ▸ below)
  simp [atP, atQ, sum_range_succ, levelP, levelQ]

/-- The constants that keep the quotient stable. -/
def stable₁ : ℚ := 1 / 100 * 255 * (1 / 100 * 255)

def stable₂ : ℚ := 3 / 100 * 255 * (3 / 100 * 255)

theorem stable₁_pos : 0 < stable₁ := by norm_num [stable₁]

theorem stable₂_pos : 0 < stable₂ := by norm_num [stable₂]

/-- In exact arithmetic the quotient is the structural similarity of the pixels. -/
theorem ssim_eq (same : a.dimensions = b.dimensions) (positive : 0 < a.width * a.height)
    (fits : a.width * a.height < 2 ^ 32) :
    ssim checks a b = some (Exact.fin
      (Samples.similarity (range a.pixels.length) a.level b.level stable₁ stable₂)) := by
  have nonzero : ((a.width * a.height : Nat) : ℚ) ≠ 0 := Nat.cast_ne_zero.mpr positive.ne'
  have card : ((a.width * a.height : Nat) : ℚ) = #(range a.pixels.length) := by
    rw [card_range, a.length_eq]
  have divisor := Samples.divisor_pos (range a.pixels.length) a.level b.level stable₁_pos stable₂_pos
  rw [ssim, if_neg (not_not.mpr same), mulU32, if_pos fits]
  simp only [Option.bind_eq_bind, Option.bind_some, if_neg positive.ne', pixelSums_eq same,
    Exact.ofNat_eq, Exact.div_fin _ nonzero, pixelSpread_eq same, Exact.lit_eq, Exact.mul_fin,
    Exact.add_fin]
  rw [card, Samples.similarity_eq]
  exact congrArg some (Exact.div_fin _ divisor.ne')

/-- Images of one size have a similarity between minus one and one, and one only if they are the
same.  Images without pixels have it too. -/
theorem ssim_bounds (same : a.dimensions = b.dimensions) (fits : a.width * a.height < 2 ^ 32) :
    ∃ s : ℚ, ssim checks a b = some (Exact.fin s) ∧ ssim checks b a = some (Exact.fin s) ∧
      -1 ≤ s ∧ s ≤ 1 ∧ (s = 1 ↔ a = b) := by
  have area : b.width * b.height = a.width * a.height := by
    obtain ⟨width, height⟩ := Prod.mk.inj same
    rw [width, height]
  obtain empty | positive := Nat.eq_zero_or_pos (a.width * a.height)
  · have none : a = b := by
      refine (GrayImage.eq_iff_level same).mpr fun i inside => ?_
      rw [a.length_eq, empty] at inside
      exact absurd (mem_range.mp inside) (Nat.not_lt_zero i)
    have value : ssim checks a b = some (Exact.fin 1) := by
      rw [ssim, if_neg (not_not.mpr same), mulU32, if_pos fits]
      exact if_pos empty
    exact ⟨1, value, none ▸ value, by norm_num, le_refl 1, iff_of_true rfl none⟩
  · have backwards := ssim_eq checks same.symm (area ▸ positive) (area ▸ fits)
    rw [GrayImage.length_eq_of_dimensions same, Samples.similarity_comm] at backwards
    obtain ⟨low, high, one⟩ := Samples.similarity_bounds (range a.pixels.length)
      (fun i _ => a.level_nonneg i) (fun i _ => b.level_nonneg i) stable₁_pos stable₂_pos
    exact ⟨_, ssim_eq checks same positive fits, backwards, low, high,
      one.trans (GrayImage.eq_iff_level same).symm⟩

end Similarity

/-! ## The gate -/

namespace SamplingGate

variable {Image : Type} {downscaleGray : Image → Nat × Nat → GrayImage} {checks : Bool}

/-- A call of `admit` skips the frame, or takes it for the next keyframe. -/
theorem admitFrame_cases {α : Type} [Scalar α] {gate next : SamplingGate α} {image : Image}
    {passed : Bool} (ran : gate.admitFrame downscaleGray checks image = some (passed, next)) :
    (passed = false ∧ next = gate) ∨
      (passed = true ∧
        next = { gate with lastKeyframe := some (downscaleGray image gate.scale) }) := by
  rw [admitFrame] at ran
  cases key : gate.lastKeyframe with
  | none =>
      simp only [key, Option.pure_def, Option.some_inj, Prod.mk.injEq] at ran
      exact .inr ⟨ran.1.symm, ran.2.symm⟩
  | some prev =>
      simp only [key, Option.bind_eq_bind, Option.bind_eq_some_iff] at ran
      obtain ⟨s, -, ran⟩ := ran
      split at ran
      · obtain ⟨passed, same⟩ := Prod.mk.inj (Option.some.inj ran)
        exact .inl ⟨passed.symm, same.symm⟩
      · obtain ⟨passed, same⟩ := Prod.mk.inj (Option.some.inj ran)
        exact .inr ⟨passed.symm, same.symm⟩

/-- Every gate that a gate without a keyframe becomes keeps its settings, and has a keyframe of
its own size. -/
theorem Reached.invariant {α : Type} [Scalar α] {threshold : α} {scale : Nat × Nat}
    (sized : ∀ image, (downscaleGray image scale).dimensions = scale) {gate : SamplingGate α}
    (reached : Reached downscaleGray checks (withScale threshold scale) gate) :
    gate.threshold = threshold ∧ gate.scale = scale ∧
      ∀ key, gate.lastKeyframe = some key → key.dimensions = scale := by
  induction reached with
  | start => exact ⟨rfl, rfl, fun key none => by cases none⟩
  | admitted reached ran ih =>
      obtain ⟨-, rfl⟩ | ⟨-, rfl⟩ := admitFrame_cases ran
      · exact ih
      · refine ⟨ih.1, ih.2.1, fun key found => ?_⟩
        rw [← Option.some_inj.mp found, ih.2.1]
        exact sized _
  | reset reached ih => exact ⟨ih.1, ih.2.1, fun key none => by cases none⟩

/-- What `admit` does once the similarity with the keyframe is known. -/
theorem admitFrame_eq {α : Type} [Scalar α] {gate : SamplingGate α} {key : GrayImage} {image : Image}
    (current : gate.lastKeyframe = some key) {s : α}
    (value : ssim checks key (downscaleGray image gate.scale) = some s) :
    gate.admitFrame downscaleGray checks image = some (if Scalar.le gate.threshold s then (false, gate)
      else (true, { gate with lastKeyframe := some (downscaleGray image gate.scale) })) := by
  rw [admitFrame, current]
  simp only [value, Option.bind_eq_bind, Option.bind_some]
  split <;> rfl

end SamplingGate

/-- In exact arithmetic `ssim` tells whether two images are the same, so a gate never admits the
keyframe again, and with threshold one it admits all that differs. -/
theorem ssim_identity (checks : Bool) :
    (∀ a b : GrayImage, a.dimensions = b.dimensions → 0 < a.width * a.height →
      a.width * a.height < 2 ^ 32 → ∃ s : ℚ, ssim checks a b = some (Exact.fin s) ∧
        ssim checks b a = some (Exact.fin s) ∧ -1 ≤ s ∧ s ≤ 1 ∧ (s = 1 ↔ a.pixels = b.pixels)) ∧
    ∀ (Image : Type) (downscaleGray : Image → Nat × Nat → GrayImage) (scale : Nat × Nat),
      (∀ image, (downscaleGray image scale).dimensions = scale) → scale.1 * scale.2 < 2 ^ 32 →
      ∀ (threshold : Exact) (gate : SamplingGate Exact),
        SamplingGate.Reached downscaleGray checks (SamplingGate.withScale threshold scale) gate →
        ∀ key, gate.lastKeyframe = some key → ∀ image,
          (Scalar.le threshold (Exact.fin 1) = true → downscaleGray image scale = key →
            gate.admitFrame downscaleGray checks image = some (false, gate)) ∧
          (threshold = Exact.fin 1 → downscaleGray image scale ≠ key →
            gate.admitFrame downscaleGray checks image =
              some (true, { gate with lastKeyframe := some (downscaleGray image scale) })) := by
  constructor
  · intro a b same positive fits
    obtain ⟨s, forwards, backwards, low, high, one⟩ := ssim_bounds checks same fits
    refine ⟨s, forwards, backwards, low, high, one.trans ⟨congrArg _, fun pixels => ?_⟩⟩
    refine (GrayImage.eq_iff_level same).mpr fun i _ => ?_
    rw [GrayImage.level, pixels, GrayImage.level]
  · intro Image downscaleGray scale sized fits threshold gate reached key current image
    obtain ⟨rfl, rfl, keySized⟩ := reached.invariant sized
    have dimensions := keySized key current
    have area : key.width * key.height < 2 ^ 32 := by rwa [← dimensions] at fits
    obtain ⟨s, value, -, -, high, one⟩ := ssim_bounds checks
      (dimensions.trans (sized image).symm) area
    have ran := SamplingGate.admitFrame_eq current value
    constructor
    · intro below same
      rw [one.mpr same.symm, below] at ran
      exact ran
    · intro threshold other
      have differs : ¬ 1 ≤ s := fun above => other (one.mp (le_antisymm high above)).symm
      have above : ¬ Scalar.le gate.threshold (Exact.fin s) = true := by
        rw [threshold]
        simpa using differs
      rw [if_neg above] at ran
      exact ran

/-- Two images of two pixels. -/
def dark : GrayImage := ⟨1, 2, [10, 20], rfl⟩

def light : GrayImage := ⟨1, 2, [10, 60], rfl⟩

/-- A gate that has seen the first of them. -/
def shadesGate : SamplingGate Exact := ⟨some dark, .fin 1, (1, 2)⟩

theorem ssim_identity_shades :
    (∃ s : ℚ, ssim true dark light = some (Exact.fin s) ∧
      ssim true light dark = some (Exact.fin s) ∧ -1 ≤ s ∧ s ≤ 1 ∧
      (s = 1 ↔ dark.pixels = light.pixels)) ∧
    shadesGate.admitFrame (fun bright _ => if bright then light else dark) true false =
      some (false, shadesGate) ∧
    shadesGate.admitFrame (fun bright _ => if bright then light else dark) true true =
      some (true, { shadesGate with lastKeyframe := some light }) := by
  have sized : ∀ bright : Bool, (if bright then light else dark).dimensions = (1, 2) := by decide
  have opened : (SamplingGate.withScale (Exact.fin 1) (1, 2)).admitFrame
      (fun (bright : Bool) _ => if bright then light else dark) true false =
      some (true, shadesGate) := rfl
  have gate := (ssim_identity true).2 Bool (fun bright _ => if bright then light else dark) (1, 2)
    sized (by decide) (.fin 1) shadesGate (.admitted .start opened) dark rfl
  exact ⟨(ssim_identity true).1 dark light rfl (by decide) (by decide),
    (gate false).1 (by decide) rfl, (gate true).2 rfl (by decide)⟩

end AiCoreStack.Ocr
