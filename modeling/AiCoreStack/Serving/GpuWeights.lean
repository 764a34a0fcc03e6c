import AiCoreStack.Serving.GpuGemm

/-!
# Quantized weights and their words

The reference dequantization of `Q4_K` blocks reads bytes.  A shader reads little-endian words of the
same bytes, and takes out of them the same factors, scales and nibbles.
-/

namespace AiCoreStack.Serving.GpuGemm

open Foundation

/-! ## The reference -/

/-- A byte of a buffer. -/
def byteAt (bytes : List UInt8) (i : Nat) : Nat := (bytes.getD i 0).toNat

/-- `get_scale_min_k4`, on the packed scales. -/
def getScaleMinK4 (j : Nat) (q : Nat → Nat) : Nat × Nat :=
  if j < 4 then (q j &&& 63, q (j + 4) &&& 63)
  else ((q (j + 4) &&& 15) ||| ((q (j - 4) >>> 6) <<< 4), (q (j + 4) >>> 4) ||| ((q j >>> 6) <<< 4))

section Reference

variable {K : Type} [Field K] (half : UInt16 → K)

/-- A number in half precision, little-endian. -/
def halfAt (block : List UInt8) (i : Nat) : K :=
  half (UInt16.ofNat (byteAt block i + 2 ^ 8 * byteAt block (i + 1)))

/-- A weight of a block of 144 bytes: the factors, the packed scales, the nibbles.  The first half
of a group of 64 is in the low nibbles of its 32 bytes, the second half in the high ones. -/
def blockWeight (block : List UInt8) (e : Nat) : K :=
  let scales (i : Nat) : Nat := byteAt block (4 + i)
  let qs (i : Nat) : Nat := byteAt block (16 + i)
  let g := e / 64
  let l := e % 64
  if l < 32 then
    let (sc, mn) := getScaleMinK4 (2 * g) scales
    halfAt half block 0 * (sc : K) * ((qs (32 * g + l) &&& 15 : Nat) : K) -
      halfAt half block 2 * (mn : K)
  else
    let (sc, mn) := getScaleMinK4 (2 * g + 1) scales
    halfAt half block 0 * (sc : K) * ((qs (32 * g + (l - 32)) >>> 4 : Nat) : K) -
      halfAt half block 2 * (mn : K)

/-- The block of a column. -/
def blockOf (data : List UInt8) (k j b : Nat) : List UInt8 :=
  slice data ((j * (k / 256) + b) * 144) 144

/-- A weight of the matrix. -/
def weightAt (data : List UInt8) (k j e : Nat) : K :=
  blockWeight half (blockOf data k j (e / 256)) (e % 256)

end Reference

/-! ## Words -/

/-- The word of four bytes. -/
def wordOf (bytes : List UInt8) (w : Nat) : UInt32 :=
  UInt32.ofNat (byteAt bytes (4 * w) + 2 ^ 8 * byteAt bytes (4 * w + 1) +
    2 ^ 16 * byteAt bytes (4 * w + 2) + 2 ^ 24 * byteAt bytes (4 * w + 3))

theorem byteAt_lt (bytes : List UInt8) (i : Nat) : byteAt bytes i < 2 ^ 8 := UInt8.toNat_lt _

theorem byteAt_slice (bytes : List UInt8) (start : Nat) {width i : Nat} (inside : i < width) :
    byteAt (slice bytes start width) i = byteAt bytes (start + i) := by
  rw [byteAt, byteAt, List.getD_eq_getElem?_getD, getElem?_slice _ _ inside,
    List.getD_eq_getElem?_getD]

theorem getElem?_words (bytes : List UInt8) {w : Nat} (inside : 4 * w + 4 ≤ bytes.length) :
    (words bytes)[w]? = some (wordOf bytes w) := by
  induction w generalizing bytes with
  | zero =>
      match bytes, inside with
      | b0 :: b1 :: b2 :: b3 :: rest, _ => rfl
  | succ w ih =>
      match bytes, inside with
      | b0 :: b1 :: b2 :: b3 :: rest, inside =>
          simp only [List.length_cons] at inside
          rw [words, List.getElem?_cons_succ, ih rest (by omega)]
          rfl

theorem toNat_wordOf (bytes : List UInt8) (w : Nat) :
    (wordOf bytes w).toNat = byteAt bytes (4 * w) + 2 ^ 8 * byteAt bytes (4 * w + 1) +
      2 ^ 16 * byteAt bytes (4 * w + 2) + 2 ^ 24 * byteAt bytes (4 * w + 3) := by
  have b0 := byteAt_lt bytes (4 * w)
  have b1 := byteAt_lt bytes (4 * w + 1)
  have b2 := byteAt_lt bytes (4 * w + 2)
  have b3 := byteAt_lt bytes (4 * w + 3)
  rw [wordOf, UInt32.toNat_ofNat', Nat.mod_eq_of_lt (by omega)]

/-- A byte of a word. -/
theorem byte_of_word (bytes : List UInt8) (w : Nat) {j : Nat} (inside : j < 4) :
    ((wordOf bytes w >>> (8 * UInt32.ofNat j)) &&& 0xff).toNat = byteAt bytes (4 * w + j) := by
  have b0 := byteAt_lt bytes (4 * w)
  have b1 := byteAt_lt bytes (4 * w + 1)
  have b2 := byteAt_lt bytes (4 * w + 2)
  have b3 := byteAt_lt bytes (4 * w + 3)
  have low (x : Nat) : x &&& 255 = x % 2 ^ 8 := Nat.and_two_pow_sub_one_eq_mod x 8
  rw [UInt32.toNat_and, UInt32.toNat_shiftRight, toNat_wordOf]
  interval_cases j <;> simp [low, Nat.shiftRight_eq_div_pow] <;> omega

/-- The two factors of a block are in its first word. -/
theorem unpack_wordOf {K : Type} (half : UInt16 → K) (bytes : List UInt8) :
    unpack2x16float half (wordOf bytes 0) = (halfAt half bytes 0, halfAt half bytes 2) := by
  have b0 := byteAt_lt bytes 0
  have b1 := byteAt_lt bytes 1
  have b2 := byteAt_lt bytes 2
  have b3 := byteAt_lt bytes 3
  have whole := toNat_wordOf bytes 0
  simp only [Nat.mul_zero, Nat.zero_add] at whole
  have low : (wordOf bytes 0).toUInt16 = UInt16.ofNat (byteAt bytes 0 + 2 ^ 8 * byteAt bytes 1) := by
    apply UInt16.toNat_inj.mp
    rw [UInt32.toNat_toUInt16, whole, UInt16.toNat_ofNat']
    omega
  have high : (wordOf bytes 0 >>> 16).toUInt16 =
      UInt16.ofNat (byteAt bytes 2 + 2 ^ 8 * byteAt bytes 3) := by
    apply UInt16.toNat_inj.mp
    rw [UInt32.toNat_toUInt16, UInt32.toNat_shiftRight, whole, UInt16.toNat_ofNat']
    simp only [UInt32.reduceToNat, Nat.reduceMod, Nat.shiftRight_eq_div_pow]
    omega
  rw [unpack2x16float, low, high]
  rfl

theorem toNat_low {x : UInt32} : (x &&& (0xf : UInt32)).toNat = x.toNat &&& 15 := UInt32.toNat_and x 15

/-- Six bits out of two bytes. -/
theorem toNat_join {a b : UInt32} (small : b.toNat < 2 ^ 8) :
    (a ||| ((b >>> 6) <<< 4)).toNat = a.toNat ||| ((b.toNat >>> 6) <<< 4) := by
  have shifted : (b >>> 6).toNat = b.toNat >>> 6 := UInt32.toNat_shiftRight b 6
  have bits : ((b >>> 6) <<< 4).toNat = (b.toNat >>> 6) <<< 4 := by
    rw [UInt32.toNat_shiftLeft, shifted]
    simp only [UInt32.reduceToNat, Nat.reduceMod, Nat.shiftLeft_eq, Nat.shiftRight_eq_div_pow]
    omega
  rw [UInt32.toNat_or, bits]

/-- The shader unpacks the scale and the minimum of a sub-block. -/
theorem scaleMin_wordOf (bytes : List UInt8) {j : Nat} (inside : j < 8) :
    ((scaleMin (UInt32.ofNat j) (wordOf bytes 1) (wordOf bytes 2) (wordOf bytes 3)).1.toNat,
      (scaleMin (UInt32.ofNat j) (wordOf bytes 1) (wordOf bytes 2) (wordOf bytes 3)).2.toNat) =
      getScaleMinK4 j fun i => byteAt bytes (4 + i) := by
  by_cases front : j < 4
  · have first : UInt32.ofNat j < 4 := by
      interval_cases j <;> decide
    have six (x : UInt32) : (x &&& (63 : UInt32)).toNat = x.toNat &&& 63 := UInt32.toNat_and x 63
    rw [scaleMin, if_pos first, getScaleMinK4, if_pos front]
    dsimp only
    rw [six, six, byte_of_word bytes 1 front, byte_of_word bytes 2 front, Nat.add_comm j 4,
      ← Nat.add_assoc]
  · obtain ⟨i, rfl⟩ := Nat.exists_eq_add_of_le (not_lt.mp front)
    have small : i < 4 := by omega
    have second : ¬ UInt32.ofNat (4 + i) < 4 := by
      interval_cases i <;> decide
    have place : UInt32.ofNat (4 + i) - 4 = UInt32.ofNat i := by
      interval_cases i <;> decide
    have scale := byte_of_word bytes 3 small
    have early := byte_of_word bytes 1 small
    have late := byte_of_word bytes 2 small
    rw [scaleMin, if_neg second, getScaleMinK4, if_neg front, place]
    dsimp only
    rw [toNat_join (early ▸ byteAt_lt _ _), toNat_join (late ▸ byteAt_lt _ _), toNat_low,
      UInt32.toNat_shiftRight, scale, early, late]
    have s8 : 4 + (4 + i + 4) = 4 * 3 + i := by omega
    have s4 : 4 + (4 + i - 4) = 4 * 1 + i := by omega
    have s0 : 4 + (4 + i) = 4 * 2 + i := by omega
    simp only [s8, s4, s0]
    rfl

end AiCoreStack.Serving.GpuGemm
