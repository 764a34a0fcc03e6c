import Mathlib
import AiCoreStack.Foundation.Search
import AiCoreStack.Foundation.Text

/-!
# Subtitle segments

Model of `Timestamp` and `Segment` in `types.rs`, and a reader of the time format of subtitles.
-/

namespace AiCoreStack.Ocr

open AiCoreStack.Foundation

/-- `Timestamp`, in milliseconds. -/
structure Timestamp where
  millis : UInt64
  deriving DecidableEq

instance : LE Timestamp := ⟨fun left right => left.millis ≤ right.millis⟩

instance : LT Timestamp := ⟨fun left right => left.millis < right.millis⟩

/-- `Segment`; `stop` is the field `end`. -/
structure Segment where
  start : Timestamp
  stop : Timestamp
  text : List Char
  deriving DecidableEq

/-- `Segment::new`. -/
def Segment.new (start : Timestamp) (text : List Char) : Segment := ⟨start, start, text⟩

/-! ## Times as text -/

/-- A number in decimal, with zeros in front up to a width: `{:02}` and `{:03}`. -/
def padded (width n : Nat) : List Char := (Nat.toDigits 10 n).leftpad width '0'

/-- `Timestamp::to_srt`. -/
def Timestamp.toSrt (t : Timestamp) : List Char :=
  let ms := t.millis % 1000
  let totalSecs := t.millis / 1000
  let s := totalSecs % 60
  let m := (totalSecs / 60) % 60
  let h := totalSecs / 3600
  padded 2 h.toNat ++ [':'] ++ (padded 2 m.toNat ++ [':'] ++
    (padded 2 s.toNat ++ [','] ++ padded 3 ms.toNat))

/-- A number in decimal. -/
def readNumber (digits : List Char) : Option Nat :=
  if digits ≠ [] ∧ digits.all Char.isDigit then some (Nat.ofDigitChars 10 digits 0) else none

/-- A number of a fixed width below a bound. -/
def readField (width bound : Nat) (digits : List Char) : Option Nat :=
  if digits.length = width then (readNumber digits).filter (· < bound) else none

/-- Hours, minutes, seconds and milliseconds, as milliseconds. -/
def readTime (text : List Char) : Option Nat := do
  let (hours, text) ← splitOnce [':'] text
  let (minutes, text) ← splitOnce [':'] text
  let (seconds, millis) ← splitOnce [','] text
  let h ← if 2 ≤ hours.length then readNumber hours else none
  let m ← readField 2 60 minutes
  let s ← readField 2 60 seconds
  let ms ← readField 3 1000 millis
  return ((h * 60 + m) * 60 + s) * 1000 + ms

theorem isDigit_of_mem_padded {c : Char} {width n : Nat} (member : c ∈ padded width n) :
    c.isDigit = true := by
  rw [padded, List.leftpad, List.mem_append] at member
  obtain zero | digit := member
  · rw [List.eq_of_mem_replicate zero]
    rfl
  · exact Nat.isDigit_of_mem_toDigits (by decide) (by decide) digit

theorem notMem_padded {c : Char} (other : c.isDigit = false) (width n : Nat) :
    c ∉ padded width n := by
  intro member
  rw [isDigit_of_mem_padded member] at other
  cases other

theorem le_length_padded (width n : Nat) : width ≤ (padded width n).length := by
  rw [padded, List.length_leftpad]
  exact Nat.le_max_left _ _

theorem length_padded {width n : Nat} (positive : 0 < width) (fits : n < 10 ^ width) :
    (padded width n).length = width := by
  rw [padded, List.length_leftpad]
  exact Nat.max_eq_left ((Nat.length_toDigits_le_iff (by decide) positive).mpr fits)

theorem ofDigitChars_zeros (count : Nat) (digits : List Char) :
    Nat.ofDigitChars 10 (List.replicate count '0' ++ digits) 0 = Nat.ofDigitChars 10 digits 0 := by
  induction count with
  | zero => rfl
  | succ count ih => exact ih

theorem readNumber_of_digits {digits : List Char} (nonempty : digits ≠ [])
    (each : ∀ c ∈ digits, c.isDigit = true) :
    readNumber digits = some (Nat.ofDigitChars 10 digits 0) :=
  if_pos ⟨nonempty, List.all_eq_true.mpr each⟩

theorem readNumber_toDigits (n : Nat) : readNumber (Nat.toDigits 10 n) = some n := by
  rw [readNumber_of_digits Nat.toDigits_ne_nil fun c => Nat.isDigit_of_mem_toDigits (by decide)
    (by decide), Nat.ofDigitChars_ten_toDigits]

theorem readNumber_padded (width n : Nat) : readNumber (padded width n) = some n := by
  have nonempty : padded width n ≠ [] := fun empty =>
    Nat.toDigits_ne_nil (List.append_eq_nil_iff.mp empty).2
  rw [readNumber_of_digits nonempty fun c => isDigit_of_mem_padded, padded, List.leftpad,
    ofDigitChars_zeros, Nat.ofDigitChars_ten_toDigits]

theorem readField_padded {width bound n : Nat} (positive : 0 < width) (below : n < bound)
    (fits : bound ≤ 10 ^ width) : readField width bound (padded width n) = some n := by
  rw [readField, if_pos (length_padded positive (below.trans_le fits)), readNumber_padded]
  simp [below]

/-- Every time is read back, also one with more than two digits of hours. -/
theorem readTime_toSrt (t : Timestamp) : readTime t.toSrt = some t.millis.toNat := by
  have colon (width n : Nat) (rest : List Char) :
      splitOnce [':'] (padded width n ++ [':'] ++ rest) = some (padded width n, rest) :=
    splitOnce_of_head_not_mem (notMem_padded (by decide) width n)
  have comma (width n : Nat) (rest : List Char) :
      splitOnce [','] (padded width n ++ [','] ++ rest) = some (padded width n, rest) :=
    splitOnce_of_head_not_mem (notMem_padded (by decide) width n)
  have seconds : t.millis.toNat / 1000 % 60 < 60 := Nat.mod_lt _ (by decide)
  have minutes : t.millis.toNat / 1000 / 60 % 60 < 60 := Nat.mod_lt _ (by decide)
  have millis : t.millis.toNat % 1000 < 1000 := Nat.mod_lt _ (by decide)
  simp only [readTime, Timestamp.toSrt, UInt64.toNat_mod, UInt64.toNat_div, UInt64.reduceToNat,
    colon, comma, Option.bind_eq_bind, Option.bind_some, if_pos (le_length_padded 2 _),
    readNumber_padded, readField_padded (by decide : 0 < 2) minutes (by decide),
    readField_padded (by decide : 0 < 2) seconds (by decide),
    readField_padded (by decide : 0 < 3) millis (by decide), Option.pure_def, Option.some_inj]
  omega

end AiCoreStack.Ocr
