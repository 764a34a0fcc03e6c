import Mathlib

/-!
# Base64

The decoder of RFC 4648 for the standard alphabet with padding: groups of four characters, where
only the last may be padded, and bits that are not used must be zero.
-/

namespace AiCoreStack.Foundation.Base64

/-- The standard alphabet. -/
def alphabet : List Char :=
  "ABCDEFGHIJKLMNOPQRSTUVWXYZabcdefghijklmnopqrstuvwxyz0123456789+/".toList

/-- The character of six bits. -/
def letter (sextet : Nat) : Char := alphabet.getD sextet '='

/-- The six bits of a character. -/
def sextet (c : Char) : Option Nat := alphabet.idxOf? c

/-- The bytes of a group of four characters; `last` says that no group follows. -/
def decodeGroup (a b c d : Char) (last : Bool) : Option (List UInt8) := do
  let w ← sextet a
  let x ← sextet b
  if c = '=' then
    if d = '=' ∧ last ∧ x % 16 = 0 then some [UInt8.ofNat (w * 4 + x / 16)] else none
  else
    let y ← sextet c
    if d = '=' then
      if last ∧ y % 4 = 0 then
        some [UInt8.ofNat (w * 4 + x / 16), UInt8.ofNat (x % 16 * 16 + y / 4)]
      else none
    else
      let z ← sextet d
      some [UInt8.ofNat (w * 4 + x / 16), UInt8.ofNat (x % 16 * 16 + y / 4),
        UInt8.ofNat (y % 4 * 64 + z)]

def decode : List Char → Option (List UInt8)
  | [] => some []
  | a :: b :: c :: d :: rest => do
      let group ← decodeGroup a b c d rest.isEmpty
      let behind ← decode rest
      some (group ++ behind)
  | _ => none

example : decode "Zm9vYmE=".toList = some [0x66, 0x6F, 0x6F, 0x62, 0x61] := by decide

theorem length_alphabet : alphabet.length = 64 := by decide

theorem nodup_alphabet : alphabet.Nodup := by decide

theorem letter_mem {n : Nat} (bound : n < 64) : letter n ∈ alphabet := by
  rw [letter, List.getD_eq_getElem _ _ (by rwa [length_alphabet])]
  exact List.getElem_mem _

theorem letter_ne_pad {n : Nat} (bound : n < 64) : letter n ≠ '=' := by
  intro same
  have member := letter_mem bound
  rw [same] at member
  exact absurd member (by decide)

theorem sextet_letter {n : Nat} (bound : n < 64) : sextet (letter n) = some n := by
  have inside : n < alphabet.length := by rwa [length_alphabet]
  rw [sextet, letter, List.getD_eq_getElem _ _ inside, List.idxOf?_eq_some_iff]
  refine ⟨inside, rfl, fun j below same => ?_⟩
  have first := (nodup_alphabet.getElem_inj_iff).mp same
  omega

/-! ## Groups -/

section Group

variable (first second third : UInt8)

theorem high_byte : first.toNat / 4 * 4 +
    (first.toNat % 4 * 16 + second.toNat / 16) / 16 = first.toNat := by
  have := second.toNat_lt
  omega

/-- The sextets of three bytes. -/
theorem decodeGroup_three (last : Bool) :
    decodeGroup (letter (first.toNat / 4)) (letter (first.toNat % 4 * 16 + second.toNat / 16))
      (letter (second.toNat % 16 * 4 + third.toNat / 64)) (letter (third.toNat % 64)) last =
      some [first, second, third] := by
  have low := first.toNat_lt
  have middle := second.toNat_lt
  have high := third.toNat_lt
  have w : first.toNat / 4 < 64 := by omega
  have x : first.toNat % 4 * 16 + second.toNat / 16 < 64 := by omega
  have y : second.toNat % 16 * 4 + third.toNat / 64 < 64 := by omega
  have z : third.toNat % 64 < 64 := by omega
  have byte := high_byte first second
  have byte' : (first.toNat % 4 * 16 + second.toNat / 16) % 16 * 16 +
      (second.toNat % 16 * 4 + third.toNat / 64) / 4 = second.toNat := by omega
  have byte'' : (second.toNat % 16 * 4 + third.toNat / 64) % 4 * 64 + third.toNat % 64 =
      third.toNat := by omega
  simp only [decodeGroup, sextet_letter w, sextet_letter x, sextet_letter y, sextet_letter z,
    letter_ne_pad y, letter_ne_pad z, if_false, Option.bind_eq_bind, Option.bind_some, byte, byte',
    byte'', UInt8.ofNat_toNat]

theorem decodeGroup_two :
    decodeGroup (letter (first.toNat / 4)) (letter (first.toNat % 4 * 16 + second.toNat / 16))
      (letter (second.toNat % 16 * 4)) '=' true = some [first, second] := by
  have low := first.toNat_lt
  have middle := second.toNat_lt
  have w : first.toNat / 4 < 64 := by omega
  have x : first.toNat % 4 * 16 + second.toNat / 16 < 64 := by omega
  have y : second.toNat % 16 * 4 < 64 := by omega
  have rest : second.toNat % 16 * 4 % 4 = 0 := by omega
  have byte := high_byte first second
  have byte' : (first.toNat % 4 * 16 + second.toNat / 16) % 16 * 16 +
      second.toNat % 16 * 4 / 4 = second.toNat := by omega
  simp only [decodeGroup, sextet_letter w, sextet_letter x, sextet_letter y, letter_ne_pad y,
    if_false, if_true, Option.bind_eq_bind, Option.bind_some, byte, byte', rest, and_self,
    UInt8.ofNat_toNat]

theorem decodeGroup_one :
    decodeGroup (letter (first.toNat / 4)) (letter (first.toNat % 4 * 16)) '=' '=' true =
      some [first] := by
  have low := first.toNat_lt
  have w : first.toNat / 4 < 64 := by omega
  have x : first.toNat % 4 * 16 < 64 := by omega
  have rest : first.toNat % 4 * 16 % 16 = 0 := by omega
  have byte : first.toNat / 4 * 4 + first.toNat % 4 * 16 / 16 = first.toNat := by omega
  simp only [decodeGroup, sextet_letter w, sextet_letter x, if_true, Option.bind_eq_bind,
    Option.bind_some, byte, rest, and_self, UInt8.ofNat_toNat]

end Group

end AiCoreStack.Foundation.Base64
