import AiCoreStack.Foundation.Base64

/-!
# Embedded media

Model of `base64_encode` of `parsers/media.rs`, and what a reader of its output gets.
-/

namespace AiCoreStack.Markdown

open AiCoreStack.Foundation

/-- `chunks(3)` -/
def chunks : List UInt8 → List (List UInt8)
  | [] => []
  | [b0] => [[b0]]
  | [b0, b1] => [[b0, b1]]
  | b0 :: b1 :: b2 :: rest => [b0, b1, b2] :: chunks rest

/-- An entry of the table `T`. -/
def tableEntry (index : UInt32) : Char := Base64.alphabet.getD index.toNat '='

/-- The four characters of a chunk. -/
def encodeChunk (chunk : List UInt8) : List Char :=
  let b0 := (chunk.getD 0 0).toUInt32
  let b1 := (chunk.getD 1 0).toUInt32
  let b2 := (chunk.getD 2 0).toUInt32
  let n := (b0 <<< 16) ||| (b1 <<< 8) ||| b2
  [tableEntry ((n >>> 18) &&& 0x3F), tableEntry ((n >>> 12) &&& 0x3F),
    if 1 < chunk.length then tableEntry ((n >>> 6) &&& 0x3F) else '=',
    if 2 < chunk.length then tableEntry (n &&& 0x3F) else '=']

/-- `base64_encode` -/
def base64Encode (bytes : List UInt8) : List Char := (chunks bytes).flatMap encodeChunk

example : base64Encode [0x66, 0x6F, 0x6F, 0x62] = "Zm9vYg==".toList := by decide

/-! ## Bits -/

section Bits

variable (b0 b1 b2 : UInt8)

/-- The number that a chunk packs. -/
theorem toNat_pack :
    ((b0.toUInt32 <<< 16) ||| (b1.toUInt32 <<< 8) ||| b2.toUInt32).toNat =
      b0.toNat * 65536 + b1.toNat * 256 + b2.toNat := by
  have low := b0.toNat_lt
  have middle := b1.toNat_lt
  have high := b2.toNat_lt
  have first : (b0.toUInt32 <<< 16).toNat = b0.toNat <<< 16 := by
    have shift : (16 : UInt32).toNat % 32 = 16 := rfl
    have fits : b0.toNat <<< 16 < 2 ^ 32 := by
      rw [Nat.shiftLeft_eq]
      omega
    rw [UInt32.toNat_shiftLeft, UInt8.toNat_toUInt32, shift, Nat.mod_eq_of_lt fits]
  have second : (b1.toUInt32 <<< 8).toNat = b1.toNat <<< 8 := by
    have shift : (8 : UInt32).toNat % 32 = 8 := rfl
    have fits : b1.toNat <<< 8 < 2 ^ 32 := by
      rw [Nat.shiftLeft_eq]
      omega
    rw [UInt32.toNat_shiftLeft, UInt8.toNat_toUInt32, shift, Nat.mod_eq_of_lt fits]
  have below : b1.toNat <<< 8 ||| b2.toNat = b1.toNat <<< 8 + b2.toNat :=
    (Nat.shiftLeft_add_eq_or_of_lt high b1.toNat).symm
  have bound : b1.toNat <<< 8 + b2.toNat < 2 ^ 16 := by
    rw [Nat.shiftLeft_eq]
    omega
  rw [UInt32.toNat_or, UInt32.toNat_or, first, second, UInt8.toNat_toUInt32, Nat.or_assoc, below,
    ← Nat.shiftLeft_add_eq_or_of_lt bound, Nat.shiftLeft_eq, Nat.shiftLeft_eq, Nat.add_assoc]

/-- Six bits of a number. -/
theorem tableEntry_sextet (n shift : UInt32) (bound : shift.toNat < 32) :
    tableEntry ((n >>> shift) &&& 0x3F) = Base64.letter (n.toNat / 2 ^ shift.toNat % 64) := by
  have mask : (0x3F : UInt32).toNat = 2 ^ 6 - 1 := rfl
  rw [tableEntry, Base64.letter, UInt32.toNat_and, mask, Nat.and_two_pow_sub_one_eq_mod,
    UInt32.toNat_shiftRight, Nat.mod_eq_of_lt bound, Nat.shiftRight_eq_div_pow]

theorem encodeChunk_three :
    encodeChunk [b0, b1, b2] =
      [Base64.letter (b0.toNat / 4), Base64.letter (b0.toNat % 4 * 16 + b1.toNat / 16),
        Base64.letter (b1.toNat % 16 * 4 + b2.toNat / 64), Base64.letter (b2.toNat % 64)] := by
  have low := b0.toNat_lt
  have middle := b1.toNat_lt
  have high := b2.toNat_lt
  have packed := toNat_pack b0 b1 b2
  have entry (shift : UInt32) (bound : shift.toNat < 32) (value : Nat)
      (same : (b0.toNat * 65536 + b1.toNat * 256 + b2.toNat) / 2 ^ shift.toNat % 64 = value) :
      tableEntry ((((b0.toUInt32 <<< 16) ||| (b1.toUInt32 <<< 8) ||| b2.toUInt32) >>> shift) &&&
        0x3F) = Base64.letter value := by
    rw [tableEntry_sextet _ _ bound, packed, same]
  have whole : tableEntry (((b0.toUInt32 <<< 16) ||| (b1.toUInt32 <<< 8) ||| b2.toUInt32) &&&
      0x3F) = Base64.letter (b2.toNat % 64) := by
    have unshifted := entry 0 (by decide) (b2.toNat % 64) (by
      change _ / 1 % 64 = _
      omega)
    rwa [UInt32.shiftRight_zero] at unshifted
  have top := entry 18 (by decide) (b0.toNat / 4) (by
    change _ / 262144 % 64 = _
    omega)
  have upper := entry 12 (by decide) (b0.toNat % 4 * 16 + b1.toNat / 16) (by
    change _ / 4096 % 64 = _
    omega)
  have lower := entry 6 (by decide) (b1.toNat % 16 * 4 + b2.toNat / 64) (by
    change _ / 64 % 64 = _
    omega)
  simp only [encodeChunk, List.getD_cons_zero, List.getD_cons_succ, top, upper, lower, whole,
    List.length_cons, List.length_nil]
  rfl

end Bits

/-- The bytes that a short chunk lacks are packed as zeros. -/
theorem encodeChunk_two (b0 b1 : UInt8) :
    encodeChunk [b0, b1] =
      [Base64.letter (b0.toNat / 4), Base64.letter (b0.toNat % 4 * 16 + b1.toNat / 16),
        Base64.letter (b1.toNat % 16 * 4), '='] := by
  have filled : encodeChunk [b0, b1] = (encodeChunk [b0, b1, 0]).take 3 ++ ['='] := rfl
  rw [filled, encodeChunk_three]
  rfl

theorem encodeChunk_one (b0 : UInt8) :
    encodeChunk [b0] =
      [Base64.letter (b0.toNat / 4), Base64.letter (b0.toNat % 4 * 16), '=', '='] := by
  have filled : encodeChunk [b0] = (encodeChunk [b0, 0, 0]).take 2 ++ ['=', '='] := rfl
  rw [filled, encodeChunk_three]
  rfl

/-! ## Encoded bytes -/

/-- The number of characters that fill up the last group. -/
def padding (length : Nat) : Nat := (3 - length % 3) % 3

theorem base64Encode_cons (b0 b1 b2 : UInt8) (rest : List UInt8) :
    base64Encode (b0 :: b1 :: b2 :: rest) = encodeChunk [b0, b1, b2] ++ base64Encode rest :=
  List.flatMap_cons

/-- Decoding gives the bytes back. -/
theorem decode_base64Encode (bytes : List UInt8) :
    Base64.decode (base64Encode bytes) = some bytes := by
  induction bytes using chunks.induct with
  | case1 => rfl
  | case2 b0 =>
      have group : base64Encode [b0] = encodeChunk [b0] := List.append_nil _
      rw [group, encodeChunk_one, Base64.decode, List.isEmpty_nil, Base64.decodeGroup_one]
      rfl
  | case3 b0 b1 =>
      have group : base64Encode [b0, b1] = encodeChunk [b0, b1] := List.append_nil _
      rw [group, encodeChunk_two, Base64.decode, List.isEmpty_nil, Base64.decodeGroup_two]
      rfl
  | case4 b0 b1 b2 rest ih =>
      rw [base64Encode_cons, encodeChunk_three]
      simp only [List.cons_append, List.nil_append, Base64.decode, Base64.decodeGroup_three, ih]
      rfl

/-- Letters of the alphabet, and padding behind them. -/
theorem base64Encode_split (bytes : List UInt8) :
    ∃ body, base64Encode bytes = body ++ List.replicate (padding bytes.length) '=' ∧
      body.length + padding bytes.length = 4 * ((bytes.length + 2) / 3) ∧
      ∀ c ∈ body, c ∈ Base64.alphabet := by
  induction bytes using chunks.induct with
  | case1 => exact ⟨[], rfl, rfl, fun _ absent => absurd absent List.not_mem_nil⟩
  | case2 b0 =>
      have low := b0.toNat_lt
      have group : base64Encode [b0] = encodeChunk [b0] := List.append_nil _
      rw [group, encodeChunk_one]
      refine ⟨[_, _], rfl, by simp [padding], ?_⟩
      simp only [List.forall_mem_cons]
      exact ⟨Base64.letter_mem (by omega), Base64.letter_mem (by omega),
        fun _ absent => absurd absent List.not_mem_nil⟩
  | case3 b0 b1 =>
      have low := b0.toNat_lt
      have middle := b1.toNat_lt
      have group : base64Encode [b0, b1] = encodeChunk [b0, b1] := List.append_nil _
      rw [group, encodeChunk_two]
      refine ⟨[_, _, _], rfl, by simp [padding], ?_⟩
      simp only [List.forall_mem_cons]
      exact ⟨Base64.letter_mem (by omega), Base64.letter_mem (by omega),
        Base64.letter_mem (by omega), fun _ absent => absurd absent List.not_mem_nil⟩
  | case4 b0 b1 b2 rest ih =>
      have low := b0.toNat_lt
      have middle := b1.toNat_lt
      have high := b2.toNat_lt
      obtain ⟨body, split, length, letters⟩ := ih
      have fill : padding (b0 :: b1 :: b2 :: rest).length = padding rest.length := by
        simp only [padding, List.length_cons]
        omega
      rw [base64Encode_cons, encodeChunk_three, split, fill, ← List.append_assoc]
      refine ⟨_, rfl, ?_, ?_⟩
      · simp only [List.length_append, List.length_cons, List.length_nil]
        omega
      · simp only [List.forall_mem_append, List.forall_mem_cons]
        exact ⟨⟨Base64.letter_mem (by omega), Base64.letter_mem (by omega),
          Base64.letter_mem (by omega), Base64.letter_mem (by omega),
          fun _ absent => absurd absent List.not_mem_nil⟩, letters⟩

/-- An embedded image is decoded to its bytes, and the encoding is letters of the alphabet filled up
to groups of four. -/
theorem base64Encode_survives (bytes : List UInt8) :
    Base64.decode (base64Encode bytes) = some bytes ∧
      (base64Encode bytes).length = 4 * ((bytes.length + 2) / 3) ∧
      ∃ body, base64Encode bytes = body ++ List.replicate ((3 - bytes.length % 3) % 3) '=' ∧
        (∀ c ∈ body, c ∈ Base64.alphabet) ∧ '=' ∉ body := by
  obtain ⟨body, split, length, letters⟩ := base64Encode_split bytes
  refine ⟨decode_base64Encode bytes, ?_, body, split, letters, fun pad => ?_⟩
  · rw [split, List.length_append, List.length_replicate, length]
  · exact absurd (letters _ pad) (by decide)

end AiCoreStack.Markdown
