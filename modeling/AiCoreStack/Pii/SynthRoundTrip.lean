import AiCoreStack.Foundation.Outcome
import AiCoreStack.Pii.NormalizeLimits
import AiCoreStack.Pii.Synth

/-!
# Notation variants normalise back

The renderer of the synthetic corpus and the normaliser are separate code.  What a
pass does to a text is read off its walk, without the map; from that, the passes undo
every notation of a value of at least seven digits.
-/

namespace AiCoreStack.Pii

open AiCoreStack.Foundation
open AiCoreStack.Foundation.Alignment (keeps)
open String (utf8Len utf8Len_nil utf8Len_cons utf8Len_append)

/-! ## What a pass does to a text -/

/-- The text after a chain of passes. -/
def passText (chain : List (Bool × (List Char → List Char × SpanMap))) (text : List Char) :
    List Char :=
  chain.foldl (fun current pass => if pass.1 then (pass.2 current).1 else current) text

theorem foldlM_applyPass_text {chain : List (Bool × (List Char → List Char × SpanMap))}
    {start final : Normalized}
    (ran : chain.foldlM (fun current pass => applyPass pass.1 pass.2 current) start =
      .ok final) : final.text = passText chain start.text := by
  induction chain generalizing start with
  | nil =>
      obtain rfl := Except.ok.inj ran
      rfl
  | cons pass chain ih =>
      rw [List.foldlM_cons] at ran
      obtain ⟨next, applied, rest⟩ := bind_eq_ok ran
      rw [ih rest, passText, passText, List.foldl_cons]
      congr 1
      unfold applyPass at applied
      split at applied
      next enabled =>
        rw [if_pos enabled]
        split at applied
        · obtain rfl := Except.ok.inj applied
          rfl
        · exact absurd applied (by simp)
      next disabled =>
        obtain rfl := Except.ok.inj applied
        rw [if_neg disabled]

/-- A text that the passes never lengthen past the offsets is normalised to what the
passes make of it. -/
theorem normalize_text {text : List Char} {cfg : NormalizeConfig}
    (fits : ∀ seam ∈ pipelineTexts (passes cfg) text, Fits seam) :
    ∃ map, normalize text cfg = .ok ⟨passText (passes cfg) text, map⟩ := by
  obtain ⟨normalized, ran, -⟩ := normalize_tiles text cfg fits
  refine ⟨normalized.map, ?_⟩
  rw [ran, ← foldlM_applyPass_text ran]

theorem Nfc.apply_of_plain {text : List Char} (plain : hasConjoiningJamo text = false) :
    (Nfc.apply text).1 = text := by
  rw [Nfc.apply, if_pos (by simp [plain])]

theorem replace_out (builder : SpanMapBuilder) {source : List Char} (nonempty : source ≠ [])
    (target : List Char) (rule : RuleId) :
    (builder.replace source target rule).out = builder.out ++ target := by
  rw [SpanMapBuilder.replace, if_neg nonempty]
  rfl

theorem numeral_out (builder : SpanMapBuilder) {source : List Char} (nonempty : source ≠ [])
    (target : List Char) (rule : RuleId) :
    (builder.numeral source target rule).out = builder.out ++ target := by
  rw [SpanMapBuilder.numeral, if_neg nonempty]
  rfl

theorem absorb_out (builder : SpanMapBuilder) (source : List Char) (rule : RuleId)
    (kind : Absorbed) : (builder.absorb source rule kind).out = builder.out := by
  rw [SpanMapBuilder.absorb]
  split <;> rfl

/-- What the folding pass makes of a character. -/
def Fold.folded (c : Char) : Char := ((foldChar c).map Prod.fst).getD c

theorem Fold.loop_out (builder : SpanMapBuilder) (pending rest : List Char) :
    (Fold.loop builder pending rest).out = builder.out ++ pending ++ rest.map folded := by
  induction rest generalizing builder pending with
  | nil => rw [Fold.loop, Hangul.flush_out, List.map_nil, List.append_nil]
  | cons c rest ih =>
      rw [Fold.loop]
      cases found : foldChar c with
      | none =>
          have kept : folded c = c := by simp [folded, found]
          simp only [ih, List.map_cons, kept]
          simp
      | some pair =>
          obtain ⟨target, rule⟩ := pair
          have changed : folded c = target := by simp [folded, found]
          simp only [ih, List.map_cons, changed, replace_out _ (List.cons_ne_nil c []),
            Hangul.flush_out]
          simp

theorem Fold.apply_text (text : List Char) : (Fold.apply text).1 = text.map folded := by
  rw [Fold.apply]
  split
  next plain =>
    have same : ∀ c ∈ text, folded c = c := by
      intro c member
      simp only [List.any_eq_true, not_exists, not_and, Option.not_isSome_iff_eq_none] at plain
      simp [folded, plain c member]
    rw [List.map_congr_left same, List.map_id']
  next => simpa [SpanMapBuilder.finish] using Fold.loop_out {} [] text

theorem Hangul.apply_of_plain {text : List Char} (cfg : NumeralConfig)
    (plain : text.any mayStartNumeral = false) : (Hangul.apply text cfg).1 = text := by
  rw [Hangul.apply, if_pos (by simp [plain])]

namespace Lookalike

/-- What the correcting pass makes of a text. -/
def corrected (before : List Char) : List Char → List Char
  | [] => []
  | c :: rest =>
      ((lookalikeDigit c).filter fun _ => sideIsDigit before && sideIsDigit rest).getD c ::
        corrected (c :: before) rest

theorem loop_out (builder : SpanMapBuilder) (before pending rest : List Char) :
    (Lookalike.loop builder before pending rest).out =
      builder.out ++ pending ++ corrected before rest := by
  induction rest generalizing builder before pending with
  | nil => rw [Lookalike.loop, Hangul.flush_out, corrected, List.append_nil]
  | cons c rest ih =>
      rw [Lookalike.loop, corrected]
      split
      next digit found =>
        rw [ih, replace_out _ (List.cons_ne_nil c []), Hangul.flush_out, found]
        simp
      next none =>
        rw [ih, none]
        simp

theorem corrected_of_plain {before rest : List Char}
    (plain : ∀ c ∈ rest, lookalikeDigit c = none) : corrected before rest = rest := by
  induction rest generalizing before with
  | nil => rfl
  | cons c rest ih =>
      rw [List.forall_mem_cons] at plain
      rw [corrected, plain.1, ih plain.2]
      rfl

theorem apply_text (text : List Char) : (Lookalike.apply text).1 = corrected [] text := by
  rw [Lookalike.apply]
  split
  next plain =>
    simp only [List.any_eq_true, not_exists, not_and, Option.not_isSome_iff_eq_none] at plain
    exact (corrected_of_plain plain).symm
  next => simpa [SpanMapBuilder.finish] using loop_out {} [] [] text

end Lookalike

namespace Separator

theorem loop_plain (builder : SpanMapBuilder) (before pending : List Char) {rest : List Char}
    (plain : ∀ c ∈ rest, isSeparator c = false) :
    loop builder before pending rest = builder.flush (pending ++ rest) := by
  induction rest generalizing before pending with
  | nil => rw [loop, List.append_nil]
  | cons c rest ih =>
      rw [List.forall_mem_cons] at plain
      rw [loop, if_pos (.inl (by simp [plain.1])), ih _ _ plain.2]
      simp

/-- The early exit is no different from the walk. -/
theorem apply_eq_loop (text : List Char) : apply text = (loop {} [] [] text).finish := by
  rw [apply]
  split
  next plain =>
    simp only [List.any_eq_true, not_exists, not_and, Bool.not_eq_true] at plain
    rw [loop_plain _ _ _ plain, List.nil_append, SpanMapBuilder.finish_flush]
  next => rfl

theorem apply_text (text : List Char) :
    (Separator.apply text).1 = (Separator.loop {} [] [] text).out := by
  rw [apply_eq_loop]
  rfl

theorem absorbRun_out (builder : SpanMapBuilder) (run : List Char) :
    (absorbRun builder run).out = builder.out := by
  fun_induction absorbRun builder run with
  | case1 => rfl
  | case2 => rfl
  | case3 builder c rest rule kind found ih => rw [ih, absorb_out]

end Separator

/-! ## Characters of a rendering -/

theorem exists_of_digit {c : Char} (digit : isAsciiDigit c = true) :
    ∃ d, d < 10 ∧ c = Char.ofNat (48 + d) := by
  simp only [isAsciiDigit, decide_eq_true_eq, Char.le_def, UInt32.le_iff_toNat_le] at digit
  have above : 48 ≤ c.toNat := digit.1
  have below : c.toNat ≤ 57 := digit.2
  refine ⟨c.toNat - 48, by omega, ?_⟩
  rw [Nat.add_sub_cancel' above, Char.ofNat_toNat]

/-- A character that the first two passes leave alone: Basic Latin or a syllable. -/
def Settled (c : Char) : Prop := c.toNat < 128 ∨ (0xAC00 ≤ c.toNat ∧ c.toNat ≤ 0xD7A3)

theorem Settled.notJamo {c : Char} (settled : Settled c) :
    (Nfc.isLead c || Nfc.isVowel c || Nfc.isTrail c) = false := by
  simp only [Settled] at settled
  simp only [Nfc.isLead, Nfc.isVowel, Nfc.isTrail, inRange, Bool.or_eq_false_iff,
    decide_eq_false_iff_not]
  omega

theorem Settled.folded {c : Char} (settled : Settled c) : Fold.folded c = c := by
  simp only [Settled] at settled
  have none : Fold.foldChar c = none := by
    simp only [Fold.foldChar, inRange, decide_eq_true_eq]
    rw [if_neg (by omega), if_neg (by omega), if_neg (by omega)]
  rw [Fold.folded, none]
  rfl

theorem Digit.ascii {c : Char} (digit : isAsciiDigit c = true) : c.toNat < 128 := by
  obtain ⟨d, small, rfl⟩ := exists_of_digit digit
  interval_cases d <;> decide

theorem hasConjoiningJamo_of_settled {text : List Char} (settled : ∀ c ∈ text, Settled c) :
    Nfc.hasConjoiningJamo text = false := by
  rw [Nfc.hasConjoiningJamo, List.any_eq_false]
  intro c member
  rw [(settled c member).notJamo]
  exact Bool.false_ne_true

theorem map_folded_of_settled {text : List Char} (settled : ∀ c ∈ text, Settled c) :
    text.map Fold.folded = text := by
  conv_rhs => rw [← List.map_id text]
  exact List.map_congr_left fun c member => (settled c member).folded

theorem mayStartNumeral_of_ascii {c : Char} (ascii : c.toNat < 128) :
    Hangul.mayStartNumeral c = false := by
  have one : ∀ entry ∈ Hangul.digitOneSyllable, 128 ≤ entry.1.toNat := by
    simp [Hangul.digitOneSyllable]
  have unit : ∀ entry ∈ Hangul.unitSyllable, 128 ≤ entry.1.toNat := by
    simp [Hangul.unitSyllable]
  have two : ∀ entry ∈ Hangul.digitTwoSyllable, ∀ d, entry.1.head? = some d →
      128 ≤ d.toNat := by
    simp [Hangul.digitTwoSyllable]
  simp only [Hangul.mayStartNumeral, Bool.or_eq_false_iff, List.any_eq_false, beq_iff_eq]
  refine ⟨⟨?_, ?_⟩, ?_⟩
  · intro entry member same
    exact Nat.not_le.mpr ascii (same ▸ one entry member)
  · intro entry member same
    exact Nat.not_le.mpr ascii (same ▸ unit entry member)
  · intro entry member same
    exact Nat.not_le.mpr ascii (two entry member c same)

namespace Hangul

theorem nextToken_of_plain {c : Char} (plain : mayStartNumeral c = false) (rest : List Char) :
    nextToken (c :: rest) = none := by
  simp only [mayStartNumeral, Bool.or_eq_false_iff, List.any_eq_false] at plain
  obtain ⟨⟨one, unit⟩, two⟩ := plain
  have noWord : digitTwoSyllable.find? (fun entry => entry.1.isPrefixOf (c :: rest)) = none := by
    rw [List.find?_eq_none]
    intro entry member leads
    have nonempty : ∀ entry ∈ digitTwoSyllable, entry.1 ≠ [] := by simp [digitTwoSyllable]
    obtain ⟨head, tail, word⟩ := List.exists_cons_of_ne_nil (nonempty entry member)
    rw [word, List.isPrefixOf_iff_prefix, List.cons_prefix_cons] at leads
    exact two entry member (by simp [word, leads.1])
  have noDigit : digitOneSyllable.find? (fun entry => entry.1 == c) = none := by
    rw [List.find?_eq_none]
    exact one
  have noUnit : unitSyllable.find? (fun entry => entry.1 == c) = none := by
    rw [List.find?_eq_none]
    exact unit
  simp only [nextToken, noWord, noDigit, noUnit]

/-- A text without numerals stays as it is. -/
theorem loop_plain {cfg : NumeralConfig} (builder : SpanMapBuilder) (before pending : List Char)
    {rest : List Char} (plain : ∀ c ∈ rest, mayStartNumeral c = false) :
    loop cfg builder before pending rest = builder.flush (pending ++ rest) := by
  induction rest generalizing before pending with
  | nil => rw [loop, List.append_nil]
  | cons c rest ih =>
      rw [List.forall_mem_cons] at plain
      rw [loop_of_none (nextToken_of_plain plain.1 rest), ih _ _ plain.2]
      simp

/-- A digit syllable is read as its digit, unless it starts a longer word. -/
theorem nextToken_syllable {c : Char} (digit : isAsciiDigit c = true) {rest : List Char}
    (apart : rest.head? ≠ some '곱') :
    nextToken (Synth.syllableOf c :: rest) = some (.digit (c.toNat - '0'.toNat), 1) := by
  obtain ⟨d, small, rfl⟩ := exists_of_digit digit
  interval_cases d
  case «1» =>
    have noWord : List.isPrefixOf ['일', '곱'] ('일' :: rest) = false := by
      cases rest with
      | nil => rfl
      | cons other rest =>
          have differs : ('곱' == other) = false := by
            rw [beq_eq_false_iff_ne]
            rintro rfl
            exact apart rfl
          simp [List.isPrefixOf, differs]
    change nextToken ('일' :: rest) = some (.digit 1, 1)
    have noEntry : digitTwoSyllable.find? (fun entry => entry.1.isPrefixOf ('일' :: rest)) =
        none := by
      simp [digitTwoSyllable, noWord]
    simp only [nextToken, noEntry]
    rfl
  all_goals rfl

theorem syllables_apart {value rest : List Char} (digits : ∀ c ∈ value, isAsciiDigit c = true)
    (apart : rest.head? ≠ some '곱') :
    (value.map Synth.syllableOf ++ rest).head? ≠ some '곱' := by
  cases value with
  | nil => exact apart
  | cons c value =>
      obtain ⟨d, small, rfl⟩ := exists_of_digit (digits c List.mem_cons_self)
      interval_cases d <;> exact fun same => absurd (Option.some.inj same) (by decide)

theorem runLength_syllables {value rest : List Char}
    (digits : ∀ c ∈ value, isAsciiDigit c = true) (apart : rest.head? ≠ some '곱') :
    runLength (value.map Synth.syllableOf ++ rest) = value.length + runLength rest := by
  induction value with
  | nil => simp
  | cons c value ih =>
      rw [List.forall_mem_cons] at digits
      have read := nextToken_syllable digits.1 (syllables_apart digits.2 apart)
      rw [List.map_cons, List.cons_append, runLength_of_some read, List.drop_one, List.tail_cons,
        ih digits.2, List.length_cons]
      omega

theorem tokensWithin_syllables {value rest : List Char}
    (digits : ∀ c ∈ value, isAsciiDigit c = true) (apart : rest.head? ≠ some '곱') :
    tokensWithin (value.map Synth.syllableOf ++ rest) value.length =
      value.map fun c => .digit (c.toNat - '0'.toNat) := by
  induction value with
  | nil => exact tokensWithin_zero _
  | cons c value ih =>
      rw [List.forall_mem_cons] at digits
      have read := nextToken_syllable digits.1 (syllables_apart digits.2 apart)
      rw [List.map_cons, List.cons_append, List.length_cons,
        tokensWithin_of_some read (Nat.succ_pos _) (Nat.succ_le_succ (Nat.zero_le _)),
        List.drop_one, List.tail_cons, Nat.succ_sub_one, ih digits.2, List.map_cons]

theorem digitChar_digit {c : Char} (digit : isAsciiDigit c = true) :
    Token.digitChar (.digit (c.toNat - '0'.toNat)) = some c := by
  obtain ⟨d, small, rfl⟩ := exists_of_digit digit
  interval_cases d <;> rfl

theorem convert_digits {value : List Char} (digits : ∀ c ∈ value, isAsciiDigit c = true) :
    convert (value.map fun c => .digit (c.toNat - '0'.toNat)) = some (value, ruleDigit) := by
  have noUnit : (value.map fun c => Token.digit (c.toNat - '0'.toNat)).any Token.isUnit =
      false := by
    simp [Token.isUnit]
  have read : (value.map fun c => Token.digit (c.toNat - '0'.toNat)).mapM Token.digitChar =
      some value := by
    induction value with
    | nil => rfl
    | cons c value ih =>
        rw [List.forall_mem_cons] at digits
        rw [List.map_cons, List.mapM_cons, digitChar_digit digits.1, ih digits.2 (by simp [Token.isUnit])]
        rfl
  rw [convert, noUnit, if_neg (by simp), read]
  rfl

/-- At least six syllables are read as digits, wherever the run is trimmed to them. -/
theorem loop_syllables (builder : SpanMapBuilder) (before pending : List Char)
    {value rest : List Char} (digits : ∀ c ∈ value, isAsciiDigit c = true)
    (long : 6 ≤ value.length) (apart : rest.head? ≠ some '곱')
    (trimmed : trimSentenceEnding (value.map Synth.syllableOf ++ rest)
      (value.length + runLength rest) = value.length) :
    loop {} builder before pending (value.map Synth.syllableOf ++ rest) =
      loop {} ((builder.flush pending).numeral (value.map Synth.syllableOf) value ruleDigit)
        ((value.map Synth.syllableOf).reverse ++ before) [] rest := by
  have scanned : scanRun (value.map Synth.syllableOf ++ rest) =
      (value.map fun c => .digit (c.toNat - '0'.toNat), value.length) := by
    simp only [scanRun, runLength_syllables digits apart, trimmed,
      tokensWithin_syllables digits apart]
  have nonempty : (value.map fun c => Token.digit (c.toNat - '0'.toNat)) ≠ [] := by
    rintro empty
    rw [List.map_eq_nil_iff.mp empty] at long
    exact absurd long (by decide)
  have trusted (after : List Char) : longEnough {} value before after = true := by
    simp [longEnough, long]
  rw [loop_of_converted scanned nonempty (convert_digits digits), if_pos (trusted _)]
  have width : value.length = (value.map Synth.syllableOf).length :=
    (List.length_map Synth.syllableOf).symm
  rw [width, List.take_left, List.drop_left]

/-- The early exit is no different from the walk. -/
theorem apply_eq_loop (text : List Char) (cfg : NumeralConfig) :
    apply text cfg = (loop cfg {} [] [] text).finish := by
  rw [apply]
  split
  next plain =>
    simp only [List.any_eq_true, not_exists, not_and, Bool.not_eq_true] at plain
    rw [loop_plain _ _ _ plain, List.nil_append, SpanMapBuilder.finish_flush]
  next => rfl

theorem apply_text (text : List Char) (cfg : NumeralConfig) :
    (Hangul.apply text cfg).1 = (loop cfg {} [] [] text).out := by
  rw [apply_eq_loop]
  rfl

theorem syllables_ne_nil {value : List Char} (long : 6 ≤ value.length) :
    value.map Synth.syllableOf ≠ [] := by
  rw [Ne, List.map_eq_nil_iff]
  rintro rfl
  exact absurd long (by decide)

/-- Syllables in front of a hyphen are read. -/
theorem apply_syllables_hyphen {value tail : List Char}
    (digits : ∀ c ∈ value, isAsciiDigit c = true) (long : 6 ≤ value.length)
    (plain : ∀ c ∈ tail, mayStartNumeral c = false) :
    (Hangul.apply (value.map Synth.syllableOf ++ '-' :: tail) {}).1 = value ++ '-' :: tail := by
  have hyphen : mayStartNumeral '-' = false := by decide
  have ended : runLength ('-' :: tail) = 0 :=
    runLength_of_none (nextToken_of_plain hyphen tail)
  have width : value.length = (value.map Synth.syllableOf).length :=
    (List.length_map Synth.syllableOf).symm
  have trimmed : trimSentenceEnding (value.map Synth.syllableOf ++ '-' :: tail)
      (value.length + runLength ('-' :: tail)) = value.length := by
    have noEnding : sentenceEndings.find? (fun entry =>
        entry.1.isSuffixOf (value.map Synth.syllableOf) && entry.2.isPrefixOf ('-' :: tail) &&
          decide (entry.1.length < (value.map Synth.syllableOf).length)) = none := by
      rw [List.find?_eq_none]
      have follows : ∀ entry ∈ sentenceEndings, entry.2.isPrefixOf ('-' :: tail) = false := by
        simp [sentenceEndings, List.isPrefixOf]
      intro entry member
      simp [follows entry member]
    rw [ended, Nat.add_zero, trimSentenceEnding]
    simp only [width, List.take_left, List.drop_left, noEnding]
  rw [apply_text, loop_syllables {} [] [] digits long (by simp) trimmed,
    loop_plain _ _ _ (by simpa [hyphen] using plain), flush_out,
    numeral_out _ (syllables_ne_nil long), flush_out]
  simp

/-- Syllables in front of the sentence ending are read, and the ending stays. -/
theorem apply_syllables_ending {value : List Char}
    (digits : ∀ c ∈ value, isAsciiDigit c = true) (long : 6 ≤ value.length) :
    (Hangul.apply (value.map Synth.syllableOf ++ ['이', '래', '요']) {}).1 =
      value ++ ['이', '래', '요'] := by
  have plain : ∀ c ∈ ['래', '요'], mayStartNumeral c = false := by
    simp [mayStartNumeral, digitOneSyllable, unitSyllable, digitTwoSyllable]
  have two : nextToken ['이', '래', '요'] = some (.digit 2, 1) := rfl
  have ended : runLength ['래', '요'] = 0 := runLength_of_none rfl
  have ending : runLength ['이', '래', '요'] = 1 := by
    rw [runLength_of_some two, List.drop_one, List.tail_cons, ended]
  have trimmed : trimSentenceEnding (value.map Synth.syllableOf ++ ['이', '래', '요'])
      (value.length + runLength ['이', '래', '요']) = value.length := by
    have width : value.length + 1 = (value.map Synth.syllableOf ++ ['이']).length := by simp
    have split : value.map Synth.syllableOf ++ ['이', '래', '요'] =
        (value.map Synth.syllableOf ++ ['이']) ++ ['래', '요'] := by simp
    have found : sentenceEndings.find? (fun entry =>
        entry.1.isSuffixOf (value.map Synth.syllableOf ++ ['이']) &&
          entry.2.isPrefixOf ['래', '요'] &&
          decide (entry.1.length < (value.map Synth.syllableOf ++ ['이']).length)) =
        some (['이'], ['래', '요']) := by
      have suffix : List.isSuffixOf ['이'] (value.map Synth.syllableOf ++ ['이']) = true := by
        rw [List.isSuffixOf_iff_suffix]
        exact List.suffix_append _ _
      have longer : 1 ≤ value.length := by omega
      simp [sentenceEndings, List.isPrefixOf, suffix, longer]
    rw [ending, split, trimSentenceEnding, width]
    simp only [List.take_left, List.drop_left, found]
    simp
  have scanned : scanRun ['이', '래', '요'] = ([.digit 2], 1) := by
    have kept : trimSentenceEnding ['이', '래', '요'] 1 = 1 := rfl
    have tokens : tokensWithin ['이', '래', '요'] 1 = [.digit 2] := by
      rw [tokensWithin_of_some two (by decide) (by decide), tokensWithin_zero]
    simp only [scanRun, ending, kept, tokens]
  have converted : convert [.digit 2] = some (['2'], ruleDigit) := rfl
  rw [apply_text, loop_syllables {} [] [] digits long (by simp) trimmed,
    loop_of_converted scanned (by simp) converted, if_neg]
  · simp only [List.take_succ_cons, List.take_zero, List.drop_succ_cons, List.drop_zero]
    rw [loop_plain _ _ _ plain, flush_out, numeral_out _ (syllables_ne_nil long), flush_out]
    simp
  · exact Bool.false_ne_true

end Hangul

/-! ## The other notations -/

theorem Digit.isDigitLike {c : Char} (digit : isAsciiDigit c = true) : isDigitLike c = true := by
  simp [Pii.isDigitLike, digit]

theorem Digit.notSeparator {c : Char} (digit : isAsciiDigit c = true) :
    Separator.isSeparator c = false := by
  obtain ⟨d, small, rfl⟩ := exists_of_digit digit
  interval_cases d <;> rfl

theorem Digit.notLookalike {c : Char} (digit : isAsciiDigit c = true) :
    Lookalike.lookalikeDigit c = none := by
  obtain ⟨d, small, rfl⟩ := exists_of_digit digit
  interval_cases d <;> rfl

/-- Single separators between digits are absorbed. -/
theorem Separator.loop_insertSeparator {positions : List Nat} {sep : Char}
    (separator : isSeparator sep = true) (builder : SpanMapBuilder)
    (before pending : List Char) (index : Nat) {value : List Char}
    (digits : ∀ c ∈ value, isAsciiDigit c = true)
    (after : 0 < index → before.head?.any isDigitLike = true) :
    (Separator.loop builder before pending
      (Synth.insertSeparatorFrom positions sep index value)).out =
        builder.out ++ pending ++ value := by
  induction value generalizing builder before pending index with
  | nil => rw [Synth.insertSeparatorFrom, Separator.loop, Hangul.flush_out, List.append_nil]
  | cons c value ih =>
      rw [List.forall_mem_cons] at digits
      have plain := Digit.notSeparator digits.1
      have kept (builder : SpanMapBuilder) (before pending : List Char) :
          (Separator.loop builder before pending
            (c :: Synth.insertSeparatorFrom positions sep (index + 1) value)).out =
              builder.out ++ pending ++ c :: value := by
        rw [Separator.loop, if_pos (.inl (by simp [plain])),
          ih _ (c :: before) _ _ digits.2 (fun _ => Digit.isDigitLike digits.1)]
        simp
      rw [Synth.insertSeparatorFrom]
      split
      next inserted =>
        have next : (c :: Synth.insertSeparatorFrom positions sep (index + 1) value).dropWhile
            isSeparator = c :: Synth.insertSeparatorFrom positions sep (index + 1) value := by
          rw [List.dropWhile_cons, plain]
          rfl
        have single : (c :: Synth.insertSeparatorFrom positions sep (index + 1) value).takeWhile
            isSeparator = [] := by
          rw [List.takeWhile_cons, plain]
          rfl
        rw [List.singleton_append, Separator.loop, if_neg, if_pos]
        · rw [next, single, kept, absorbRun_out, Hangul.flush_out]
          simp
        · rw [next]
          exact Digit.isDigitLike digits.1
        · simp [separator, after inserted.2]
      next => exact kept builder before pending

namespace Lookalike

theorem sideIsDigit_of_digit {c : Char} (digit : isAsciiDigit c = true) (side : List Char) :
    sideIsDigit (c :: side) = true := by
  rw [sideIsDigit, if_pos (Digit.isDigitLike digit)]

theorem lookalikeDigit_lookalikeOf {c letter : Char}
    (swapped : Synth.lookalikeOf c = some letter) : lookalikeDigit letter = some c := by
  unfold Synth.lookalikeOf at swapped
  split at swapped
  next zero =>
    obtain rfl := Option.some.inj swapped
    rw [zero]
    rfl
  next =>
    split at swapped
    next one =>
      obtain rfl := Option.some.inj swapped
      rw [one]
      rfl
    next => exact absurd swapped (by simp)

/-- Every letter stands between two digits, so it is corrected. -/
theorem corrected_toLookalike {limit total : Nat} (index changed : Nat) (previous : Bool)
    (before : List Char) {value : List Char} (digits : ∀ c ∈ value, isAsciiDigit c = true)
    (size : index + value.length = total)
    (left : 0 < index → previous = false → sideIsDigit before = true) :
    corrected before (Synth.toLookalikeFrom limit total index changed previous value) =
      value := by
  induction value generalizing index changed previous before with
  | nil => rfl
  | cons c value ih =>
      rw [List.forall_mem_cons] at digits
      rw [List.length_cons] at size
      rw [Synth.toLookalikeFrom]
      split
      next letter found =>
        obtain ⟨swapped, allowed⟩ := Option.filter_eq_some_iff.mp found
        simp only [decide_eq_true_eq] at allowed
        obtain ⟨⟨inner, within⟩, fresh, -⟩ := allowed
        rw [corrected, ih _ _ _ _ digits.2 (by omega) (by simp),
          lookalikeDigit_lookalikeOf swapped]
        have right : sideIsDigit (Synth.toLookalikeFrom limit total (index + 1) (changed + 1)
            true value) = true := by
          cases value with
          | nil =>
              simp only [List.length_nil] at size
              omega
          | cons d value =>
              rw [Synth.toLookalikeFrom]
              split
              next other refused =>
                simpa using (Option.filter_eq_some_iff.mp refused).2
              next => exact sideIsDigit_of_digit (digits.2 d List.mem_cons_self) _
        rw [left inner fresh, right]
        rfl
      next =>
        rw [corrected, Digit.notLookalike digits.1, ih _ _ _ _ digits.2 (by omega)
          (fun _ _ => sideIsDigit_of_digit digits.1 before)]
        rfl

end Lookalike

theorem folded_toFullwidth {value : List Char} (digits : ∀ c ∈ value, isAsciiDigit c = true) :
    (Synth.toFullwidth value).map Fold.folded = value := by
  rw [Synth.toFullwidth, List.map_map]
  conv_rhs => rw [← List.map_id value]
  apply List.map_congr_left
  intro c member
  obtain ⟨d, small, rfl⟩ := exists_of_digit (digits c member)
  interval_cases d <;> decide +kernel

theorem hasConjoiningJamo_toFullwidth {value : List Char}
    (digits : ∀ c ∈ value, isAsciiDigit c = true) :
    Nfc.hasConjoiningJamo (Synth.toFullwidth value) = false := by
  rw [Nfc.hasConjoiningJamo, List.any_eq_false, Synth.toFullwidth, List.forall_mem_map]
  intro c member
  have above : 0xFF10 ≤ (Synth.fullwidthOf c).toNat := by
    obtain ⟨d, small, rfl⟩ := exists_of_digit (digits c member)
    interval_cases d <;> decide +kernel
  simp only [Nfc.isLead, Nfc.isVowel, Nfc.isTrail, inRange, Bool.or_eq_true, decide_eq_true_eq]
  omega

theorem settled_syllableOf {c : Char} (digit : isAsciiDigit c = true) :
    Settled (Synth.syllableOf c) := by
  obtain ⟨d, small, rfl⟩ := exists_of_digit digit
  interval_cases d <;> exact .inr (by decide)

theorem utf8Len_of_ascii {text : List Char} (ascii : ∀ c ∈ text, c.toNat < 128) :
    utf8Len text = text.length := by
  induction text with
  | nil => rfl
  | cons c text ih =>
      rw [List.forall_mem_cons] at ascii
      have one : c.utf8Size = 1 := by
        rw [Char.utf8Size_eq_one_iff, UInt32.le_iff_toNat_le]
        exact Nat.le_of_lt_succ ascii.1
      rw [utf8Len_cons, ih ascii.2, one, List.length_cons]

/-! ## The pipeline -/

/-- A text whose passes are known, none of them longer than the text, is normalised. -/
theorem normalize_of_steps {text folded numbered corrected absorbed : List Char}
    (nfc : Nfc.hasConjoiningJamo text = false) (fold : text.map Fold.folded = folded)
    (hangul : (Hangul.apply folded {}).1 = numbered)
    (lookalike : Lookalike.corrected [] numbered = corrected)
    (separator : (Separator.apply corrected).1 = absorbed) (fits : Fits text)
    (widths : ∀ seam ∈ [folded, numbered, corrected, absorbed],
      utf8Len seam ≤ utf8Len text) :
    ∃ map, normalize text {} = .ok ⟨absorbed, map⟩ := by
  have texts : pipelineTexts (passes {}) text =
      [text, text, folded, numbered, corrected, absorbed] := by
    simp only [passes, pipelineTexts, if_true, Nfc.apply_of_plain nfc, Fold.apply_text, fold,
      hangul, Lookalike.apply_text, lookalike, separator]
  have final : passText (passes {}) text = absorbed := by
    simp only [passes, passText, List.foldl_cons, List.foldl_nil, if_true,
      Nfc.apply_of_plain nfc, Fold.apply_text, fold, hangul, Lookalike.apply_text, lookalike,
      separator]
  rw [← final]
  apply normalize_text
  rw [texts, List.forall_mem_cons, List.forall_mem_cons]
  refine ⟨fits, fits, ?_⟩
  intro seam member
  exact Nat.lt_of_le_of_lt (widths seam member) fits

/-- A Basic Latin text only goes through the last two passes. -/
theorem normalize_ascii {text corrected absorbed : List Char}
    (ascii : ∀ c ∈ text, c.toNat < 128)
    (lookalike : Lookalike.corrected [] text = corrected)
    (separator : (Separator.apply corrected).1 = absorbed) (fits : Fits text)
    (widths : utf8Len corrected ≤ utf8Len text ∧ utf8Len absorbed ≤ utf8Len text) :
    ∃ map, normalize text {} = .ok ⟨absorbed, map⟩ := by
  have settled : ∀ c ∈ text, Settled c := fun c member => .inl (ascii c member)
  have numerals : text.any Hangul.mayStartNumeral = false := by
    rw [List.any_eq_false]
    intro c member
    rw [mayStartNumeral_of_ascii (ascii c member)]
    exact Bool.false_ne_true
  refine normalize_of_steps (hasConjoiningJamo_of_settled settled)
    (map_folded_of_settled settled) (Hangul.apply_of_plain {} numerals) lookalike separator fits ?_
  simpa using widths

theorem Separator.apply_digits {value : List Char}
    (plain : ∀ c ∈ value, isSeparator c = false) : (Separator.apply value).1 = value := by
  rw [Separator.apply_text, Separator.loop_plain _ _ _ plain, Hangul.flush_out]
  rfl

theorem utf8Len_digits_le {value text : List Char} (digits : ∀ c ∈ value, isAsciiDigit c = true)
    (shorter : value.length ≤ text.length) : utf8Len value ≤ utf8Len text := by
  rw [utf8Len_of_ascii fun c member => Digit.ascii (digits c member)]
  exact shorter.trans (length_le_utf8Len text)

theorem Synth.mem_insertSeparatorFrom {positions : List Nat} {sep : Char} {index : Nat}
    {value : List Char} :
    ∀ c ∈ insertSeparatorFrom positions sep index value, c ∈ value ∨ c = sep := by
  induction value generalizing index with
  | nil => simp [insertSeparatorFrom]
  | cons c value ih =>
      intro d member
      rw [insertSeparatorFrom, List.mem_append, List.mem_cons] at member
      rcases member with inserted | rfl | inside
      · right
        split at inserted
        · exact List.mem_singleton.mp inserted
        · simp at inserted
      · exact .inl List.mem_cons_self
      · exact (ih d inside).imp_left (List.mem_cons_of_mem c)

theorem Synth.length_insertSeparatorFrom (positions : List Nat) (sep : Char) (index : Nat)
    (value : List Char) :
    value.length ≤ (insertSeparatorFrom positions sep index value).length := by
  induction value generalizing index with
  | nil => exact Nat.zero_le _
  | cons c value ih =>
      rw [insertSeparatorFrom, List.length_append, List.length_cons, List.length_cons]
      have bound := ih (index + 1)
      omega

/-- A character that may separate digits. -/
structure Separates (sep : Char) : Prop where
  ascii : sep.toNat < 128
  separator : Separator.isSeparator sep = true
  notLookalike : Lookalike.lookalikeDigit sep = none

theorem separates_hyphen : Separates '-' := ⟨by decide, by decide, by decide⟩

theorem separates_space : Separates ' ' := ⟨by decide, by decide, by decide⟩

/-- Digits with separators between them: only the last pass changes them. -/
theorem lastPasses_insertSeparator {value : List Char}
    (digits : ∀ c ∈ value, isAsciiDigit c = true) (positions : List Nat) {sep : Char}
    (separates : Separates sep) :
    Lookalike.corrected [] (Synth.insertSeparator value positions sep) =
        Synth.insertSeparator value positions sep ∧
      (Separator.apply (Synth.insertSeparator value positions sep)).1 = value := by
  constructor
  · apply Lookalike.corrected_of_plain
    intro c member
    rcases Synth.mem_insertSeparatorFrom c member with inside | rfl
    · exact Digit.notLookalike (digits c inside)
    · exact separates.notLookalike
  · rw [Separator.apply_text, Synth.insertSeparator,
      Separator.loop_insertSeparator separates.separator _ _ _ _ digits (by simp)]
    rfl

theorem normalize_insertSeparator {value : List Char}
    (digits : ∀ c ∈ value, isAsciiDigit c = true) (positions : List Nat) {sep : Char}
    (separates : Separates sep) (fits : Fits (Synth.insertSeparator value positions sep)) :
    ∃ map, normalize (Synth.insertSeparator value positions sep) {} = .ok ⟨value, map⟩ := by
  obtain ⟨lookalike, separator⟩ := lastPasses_insertSeparator digits positions separates
  refine normalize_ascii ?_ lookalike separator fits ⟨Nat.le_refl _, ?_⟩
  · intro c member
    rcases Synth.mem_insertSeparatorFrom c member with inside | rfl
    · exact Digit.ascii (digits c inside)
    · exact separates.ascii
  · exact utf8Len_digits_le digits (Synth.length_insertSeparatorFrom ..)

/-- Digits and stars stay as they are. -/
theorem normalize_starred {text : List Char}
    (chars : ∀ c ∈ text, isAsciiDigit c = true ∨ c = '*') (fits : Fits text) :
    ∃ map, normalize text {} = .ok ⟨text, map⟩ := by
  refine normalize_ascii ?_ ?_ ?_ fits ⟨Nat.le_refl _, Nat.le_refl _⟩
  · intro c member
    rcases chars c member with digit | rfl
    · exact Digit.ascii digit
    · decide
  · apply Lookalike.corrected_of_plain
    intro c member
    rcases chars c member with digit | rfl
    · exact Digit.notLookalike digit
    · rfl
  · apply Separator.apply_digits
    intro c member
    rcases chars c member with digit | rfl
    · exact Digit.notSeparator digit
    · rfl

theorem normalize_fullwidth {value : List Char} (digits : ∀ c ∈ value, isAsciiDigit c = true)
    (fits : Fits (Synth.toFullwidth value)) :
    ∃ map, normalize (Synth.toFullwidth value) {} = .ok ⟨value, map⟩ := by
  have numerals : value.any Hangul.mayStartNumeral = false := by
    rw [List.any_eq_false]
    intro c member
    rw [mayStartNumeral_of_ascii (Digit.ascii (digits c member))]
    exact Bool.false_ne_true
  have shorter : utf8Len value ≤ utf8Len (Synth.toFullwidth value) :=
    utf8Len_digits_le digits (by rw [Synth.toFullwidth, List.length_map])
  refine normalize_of_steps (hasConjoiningJamo_toFullwidth digits)
    (folded_toFullwidth digits) (Hangul.apply_of_plain {} numerals)
    (Lookalike.corrected_of_plain fun c member => Digit.notLookalike (digits c member))
    (Separator.apply_digits fun c member => Digit.notSeparator (digits c member)) fits ?_
  simpa using shorter

theorem Synth.mem_toLookalikeFrom {limit total index changed : Nat} {previous : Bool}
    {value : List Char} :
    ∀ c ∈ toLookalikeFrom limit total index changed previous value,
      c ∈ value ∨ c = 'O' ∨ c = 'l' := by
  induction value generalizing index changed previous with
  | nil => simp [toLookalikeFrom]
  | cons c value ih =>
      intro d member
      rw [toLookalikeFrom] at member
      split at member
      next letter found =>
        rcases List.mem_cons.mp member with rfl | inside
        · have swapped := (Option.filter_eq_some_iff.mp found).1
          unfold lookalikeOf at swapped
          split at swapped
          · exact .inr (.inl (Option.some.inj swapped).symm)
          · split at swapped
            · exact .inr (.inr (Option.some.inj swapped).symm)
            · exact absurd swapped (by simp)
        · exact (ih d inside).imp_left (List.mem_cons_of_mem c)
      next =>
        rcases List.mem_cons.mp member with rfl | inside
        · exact .inl List.mem_cons_self
        · exact (ih d inside).imp_left (List.mem_cons_of_mem c)

theorem Synth.length_toLookalikeFrom (limit total index changed : Nat) (previous : Bool)
    (value : List Char) :
    (toLookalikeFrom limit total index changed previous value).length = value.length := by
  induction value generalizing index changed previous with
  | nil => rfl
  | cons c value ih =>
      rw [toLookalikeFrom]
      split <;> rw [List.length_cons, List.length_cons, ih]

theorem normalize_lookalike {value : List Char} (digits : ∀ c ∈ value, isAsciiDigit c = true)
    (limit : Nat) (fits : Fits (Synth.toLookalike value limit)) :
    ∃ map, normalize (Synth.toLookalike value limit) {} = .ok ⟨value, map⟩ := by
  have shorter : utf8Len value ≤ utf8Len (Synth.toLookalike value limit) :=
    utf8Len_digits_le digits (Nat.le_of_eq (Synth.length_toLookalikeFrom ..).symm)
  refine normalize_ascii ?_
    (Lookalike.corrected_toLookalike 0 0 false [] digits (Nat.zero_add _) (by simp))
    (Separator.apply_digits fun c member => Digit.notSeparator (digits c member)) fits
    ⟨shorter, shorter⟩
  intro c member
  rcases Synth.mem_toLookalikeFrom c member with inside | rfl | rfl
  · exact Digit.ascii (digits c inside)
  · decide
  · decide

/-- Beyond the last position nothing is inserted. -/
theorem Synth.insertSeparatorFrom_beyond {positions : List Nat} {sep : Char} {index : Nat}
    (beyond : ∀ position ∈ positions, position < index) (value : List Char) :
    insertSeparatorFrom positions sep index value = value := by
  induction value generalizing index with
  | nil => rfl
  | cons c value ih =>
      have absent : ¬ (positions.contains index = true ∧ 0 < index) := by
        rintro ⟨present, -⟩
        exact Nat.lt_irrefl _ (beyond index (List.contains_iff_mem.mp present))
      rw [insertSeparatorFrom, if_neg absent, List.nil_append,
        ih fun position member => Nat.lt_succ_of_lt (beyond position member)]

/-- One separator splits the value. -/
theorem Synth.insertSeparatorFrom_single {sep : Char} {index position : Nat} {value : List Char}
    (ahead : index ≤ position) (inside : position < index + value.length)
    (positive : 0 < position) :
    insertSeparatorFrom [position] sep index value =
      value.take (position - index) ++ sep :: value.drop (position - index) := by
  induction value generalizing index with
  | nil =>
      simp only [List.length_nil] at inside
      omega
  | cons c value ih =>
      rw [List.length_cons] at inside
      rw [insertSeparatorFrom]
      by_cases here : index = position
      · subst here
        rw [if_pos ⟨by simp, positive⟩, insertSeparatorFrom_beyond (by simp), Nat.sub_self]
        rfl
      · obtain ⟨gap, eq⟩ : ∃ gap, position - index = gap + 1 := ⟨position - index - 1, by omega⟩
        have smaller : position - (index + 1) = gap := by omega
        rw [if_neg (by simp [here]), ih (by omega) (by omega), eq, smaller]
        rfl

theorem settled_syllables {value : List Char} (digits : ∀ c ∈ value, isAsciiDigit c = true) :
    ∀ c ∈ value.map Synth.syllableOf, Settled c := by
  rw [List.forall_mem_map]
  exact fun c member => settled_syllableOf (digits c member)

/-- Six syllables, a hyphen and digits: the numeral pass leaves digits and a hyphen. -/
theorem normalize_hangulDigits {value : List Char}
    (digits : ∀ c ∈ value, isAsciiDigit c = true) (long : 7 ≤ value.length)
    (fits : Fits ((value.take 6).map Synth.syllableOf ++ '-' :: value.drop 6)) :
    ∃ map, normalize ((value.take 6).map Synth.syllableOf ++ '-' :: value.drop 6) {} =
      .ok ⟨value, map⟩ := by
  have front : ∀ c ∈ value.take 6, isAsciiDigit c = true :=
    fun c member => digits c (List.mem_of_mem_take member)
  have back : ∀ c ∈ value.drop 6, isAsciiDigit c = true :=
    fun c member => digits c (List.mem_of_mem_drop member)
  have settled : ∀ c ∈ (value.take 6).map Synth.syllableOf ++ '-' :: value.drop 6,
      Settled c := by
    intro c member
    rcases List.mem_append.mp member with syllable | tail
    · exact settled_syllables front c syllable
    · rcases List.mem_cons.mp tail with rfl | digit
      · exact .inl (by decide)
      · exact .inl (Digit.ascii (back c digit))
  have six : 6 ≤ (value.take 6).length := by
    rw [List.length_take]
    omega
  have numbered := Hangul.apply_syllables_hyphen front six
    (fun c member => mayStartNumeral_of_ascii (Digit.ascii (back c member)))
  have grouped : value.take 6 ++ '-' :: value.drop 6 = Synth.insertSeparator value [6] '-' :=
    (Synth.insertSeparatorFrom_single (Nat.zero_le 6) (by omega) (by decide)).symm
  obtain ⟨lookalike, separator⟩ := lastPasses_insertSeparator digits [6] separates_hyphen
  rw [grouped] at numbered
  refine normalize_of_steps (hasConjoiningJamo_of_settled settled)
    (map_folded_of_settled settled) numbered lookalike separator fits ?_
  have ascii : ∀ c ∈ value.take 6 ++ '-' :: value.drop 6, c.toNat < 128 := by
    intro c member
    rcases List.mem_append.mp member with digit | tail
    · exact Digit.ascii (front c digit)
    · rcases List.mem_cons.mp tail with rfl | digit
      · decide
      · exact Digit.ascii (back c digit)
  have middle : utf8Len (Synth.insertSeparator value [6] '-') ≤
      utf8Len ((value.take 6).map Synth.syllableOf ++ '-' :: value.drop 6) := by
    rw [← grouped, utf8Len_of_ascii ascii]
    refine Nat.le_trans (Nat.le_of_eq ?_) (length_le_utf8Len _)
    simp
  have last : utf8Len value ≤
      utf8Len ((value.take 6).map Synth.syllableOf ++ '-' :: value.drop 6) := by
    apply utf8Len_digits_le digits
    simp only [List.length_append, List.length_map, List.length_take, List.length_cons,
      List.length_drop]
    omega
  simp only [List.forall_mem_cons]
  exact ⟨Nat.le_refl _, middle, middle, last, by simp⟩

/-- Syllables and a sentence ending: the ending stays. -/
theorem normalize_sentenceEnding {value : List Char}
    (digits : ∀ c ∈ value, isAsciiDigit c = true) (long : 7 ≤ value.length)
    (fits : Fits (value.map Synth.syllableOf ++ ['이', '래', '요'])) :
    ∃ map, normalize (value.map Synth.syllableOf ++ ['이', '래', '요']) {} =
      .ok ⟨value ++ ['이', '래', '요'], map⟩ := by
  have ending : ∀ c ∈ ['이', '래', '요'], Settled c ∧ Lookalike.lookalikeDigit c = none ∧
      Separator.isSeparator c = false := by
    simp only [List.forall_mem_cons]
    exact ⟨⟨.inr (by decide), rfl, rfl⟩, ⟨.inr (by decide), rfl, rfl⟩,
      ⟨.inr (by decide), rfl, rfl⟩, by simp⟩
  have settled : ∀ c ∈ value.map Synth.syllableOf ++ ['이', '래', '요'], Settled c := by
    intro c member
    rcases List.mem_append.mp member with syllable | tail
    · exact settled_syllables digits c syllable
    · exact (ending c tail).1
  have plain : ∀ c ∈ value ++ ['이', '래', '요'], Lookalike.lookalikeDigit c = none ∧
      Separator.isSeparator c = false := by
    intro c member
    rcases List.mem_append.mp member with digit | tail
    · exact ⟨Digit.notLookalike (digits c digit), Digit.notSeparator (digits c digit)⟩
    · exact (ending c tail).2
  have shorter : utf8Len (value ++ ['이', '래', '요']) ≤
      utf8Len (value.map Synth.syllableOf ++ ['이', '래', '요']) := by
    rw [utf8Len_append, utf8Len_append]
    exact Nat.add_le_add_right (utf8Len_digits_le digits (by rw [List.length_map])) _
  refine normalize_of_steps (hasConjoiningJamo_of_settled settled)
    (map_folded_of_settled settled) (Hangul.apply_syllables_ending digits (by omega))
    (Lookalike.corrected_of_plain fun c member => (plain c member).1)
    (Separator.apply_digits fun c member => (plain c member).2) fits ?_
  simpa using shorter

/-- What a rendering normalises to. -/
def Synth.restored (entity : EntityKind) (value : List Char) : Variant → List Char
  | .masked => toMasked value (maskedTail entity)
  | .sentenceEnding => value ++ ['이', '래', '요']
  | _ => value

/-- Every notation of a value of at least seven digits normalises back to the value: a
partly covered value to itself, and a sentence ending stays behind the value. -/
theorem normalize_render (entity : EntityKind) (value : List Char) (variant : Synth.Variant)
    (digits : ∀ c ∈ value, isAsciiDigit c = true) (long : 7 ≤ value.length)
    (fits : Fits (Synth.render entity value variant)) :
    ∃ map, normalize (Synth.render entity value variant) {} =
      .ok ⟨Synth.restored entity value variant, map⟩ := by
  cases variant with
  | plain => exact normalize_starred (fun c member => .inl (digits c member)) fits
  | literal => exact normalize_starred (fun c member => .inl (digits c member)) fits
  | hyphen => exact normalize_insertSeparator digits _ separates_hyphen fits
  | space => exact normalize_insertSeparator digits _ separates_space fits
  | fullwidth => exact normalize_fullwidth digits fits
  | lookalike => exact normalize_lookalike digits 2 fits
  | masked =>
      refine normalize_starred ?_ fits
      intro c member
      rcases List.mem_append.mp member with kept | covered
      · exact .inl (digits c (List.mem_of_mem_take kept))
      · exact .inr (List.eq_of_mem_replicate covered)
  | sentenceEnding =>
      have rendered : Synth.render entity value .sentenceEnding =
          value.map Synth.syllableOf ++ ['이', '래', '요'] := by
        simp [Synth.render, Synth.toHangulDigits]
      rw [rendered] at fits ⊢
      exact normalize_sentenceEnding digits long fits
  | hangulDigits =>
      have rendered : Synth.render entity value .hangulDigits =
          (value.take 6).map Synth.syllableOf ++ '-' :: value.drop 6 := by
        have six : ((value.take 6).map Synth.syllableOf).length = 6 := by
          rw [List.length_map, List.length_take]
          omega
        simp only [Synth.render, Synth.toHangulDigits, List.take_left' six, List.drop_left' six]
      rw [rendered] at fits ⊢
      exact normalize_hangulDigits digits long fits

theorem normalize_render_spoken :
    let value := ['9', '2', '0', '1', '0', '2', '2']
    (∀ c ∈ value, isAsciiDigit c = true) ∧ 7 ≤ value.length ∧
      Fits (Synth.render .resident value .sentenceEnding) ∧
      ∃ map, normalize (Synth.render .resident value .sentenceEnding) {} =
        .ok ⟨value ++ ['이', '래', '요'], map⟩ := by
  intro value
  have digits : ∀ c ∈ value, isAsciiDigit c = true := by
    simp [value, isAsciiDigit]
  have width : utf8Len (Synth.render .resident value .sentenceEnding) = 30 := by
    rfl
  have fits : Fits (Synth.render .resident value .sentenceEnding) := by
    rw [Fits, width]
    omega
  have long : 7 ≤ value.length := Nat.le_refl 7
  exact ⟨digits, long, fits, normalize_render .resident value .sentenceEnding digits long fits⟩

/-- Digits of exactly `2 ^ 32` bytes are not normalised: the offsets of the text wrap to
an empty segment, which does not compose. -/
theorem normalize_wrapped_digits {text : List Char}
    (digits : ∀ c ∈ text, isAsciiDigit c = true) (length : text.length = 2 ^ 32)
    (normalized : Normalized) : normalize text {} ≠ .ok normalized := by
  have width : utf8Len text = 2 ^ 32 := by
    rw [utf8Len_of_ascii fun c member => Digit.ascii (digits c member), length]
  intro ran
  rw [normalize, passes, List.foldlM_cons] at ran
  obtain ⟨next, applied, -⟩ := bind_eq_ok ran
  have plain := hasConjoiningJamo_of_settled
    fun c member => .inl (Digit.ascii (digits c member))
  have pass : Nfc.apply text = (text, SpanMap.identity text) := by
    rw [Nfc.apply, if_pos (by simp [plain])]
  have identity : SpanMap.identity text = (build [.keep text]).2 := rfl
  simp only [applyPass, if_true] at applied
  rw [pass, identity, build_keep_wraps width length] at applied
  split at applied
  next composed => exact compose_wrapped _ composed
  next => exact absurd applied (by simp)

theorem render_phone_plain (value : List Char) : Synth.render .phone value .plain = value := rfl

theorem not_normalize_render_wrapped :
    (∀ c ∈ List.replicate (2 ^ 32) '0', isAsciiDigit c = true) ∧
      7 ≤ (List.replicate (2 ^ 32) '0').length ∧
      ¬ ∃ map, normalize (Synth.render .phone (List.replicate (2 ^ 32) '0') .plain) {} =
        .ok ⟨Synth.restored .phone (List.replicate (2 ^ 32) '0') .plain, map⟩ := by
  have digits : ∀ c ∈ List.replicate (2 ^ 32) '0', isAsciiDigit c = true := by
    intro c member
    rw [List.eq_of_mem_replicate member]
    rfl
  have length : (List.replicate (2 ^ 32) '0').length = 2 ^ 32 := List.length_replicate
  refine ⟨digits, ?_, ?_⟩
  · rw [length]
    omega
  · rw [render_phone_plain]
    rintro ⟨map, ran⟩
    exact normalize_wrapped_digits digits length _ ran

end AiCoreStack.Pii
