import AiCoreStack.Pii.SynthRoundTrip

/-!
# Trimmed sentence endings

The numeral pass cuts a verb ending off a run and scans it again as a run of its own.
The walk is laid open as one builder call for each stop; the ending stays text unless
the value in front of it ends in a syllable that also marks a numeric context.
-/

namespace AiCoreStack.Pii

open AiCoreStack.Foundation
open AiCoreStack.Foundation.Alignment (Atom keeps)
open String (utf8Len utf8Len_append)

/-! ## Kept positions -/

namespace SpanMapBuilder

theorem pushIdentity_pushIdentity (segments : List Segment) {src src' dst dst' : Span} :
    pushIdentity (pushIdentity segments src dst) src' dst' =
      pushIdentity segments
        ⟨⟨src.byte.start, src'.byte.stop⟩, ⟨src.char.start, src'.char.stop⟩⟩
        ⟨⟨dst.byte.start, dst'.byte.stop⟩, ⟨dst.char.start, dst'.char.stop⟩⟩ := by
  rcases List.eq_nil_or_concat segments with rfl | ⟨front, last, rfl⟩
  · simp [pushIdentity, Segment.extendTo]
  · by_cases identity : last.kind = .identity
    · simp [pushIdentity, Segment.extendTo, identity]
    · simp [pushIdentity, Segment.extendTo, identity]

/-- Two texts kept one after the other are kept as one. -/
theorem keep_keep (builder : SpanMapBuilder) (left right : List Char) :
    (builder.keep left).keep right = builder.keep (left ++ right) := by
  by_cases emptyLeft : left = []
  · simp [keep, emptyLeft]
  · by_cases emptyRight : right = []
    · simp [keep, emptyRight]
    · simp [keep, emptyLeft, emptyRight, advanceSrc, advanceDst, pushIdentity_pushIdentity,
        UInt32.ofNat_add, UInt32.add_assoc]

end SpanMapBuilder

/-- The call that consumes a source position. -/
def callCovering : List Call → Nat → Option Call
  | [], _ => none
  | call :: calls, position =>
      if position < call.source.length then some call
      else callCovering calls (position - call.source.length)

theorem callCovering_append (left right : List Call) (position : Nat) :
    callCovering (left ++ right) ((left.flatMap Call.source).length + position) =
      callCovering right position := by
  induction left with
  | nil => simp
  | cons call left ih =>
      have width : ((call :: left).flatMap Call.source).length + position =
          call.source.length + ((left.flatMap Call.source).length + position) := by
        simp [Nat.add_assoc]
      rw [List.cons_append, callCovering, width, if_neg (by omega), Nat.add_sub_cancel_left, ih]

/-- A kept letter of an alignment lies in a run of its tiles. -/
theorem exists_run_of_expand {tiles : List Tile} {before after : List (Atom Char Weight)}
    {letter : Char} (expands : expand tiles = before ++ .keep letter :: after) :
    ∃ front text back left right, tiles = front ++ .run text :: back ∧
      text = left ++ letter :: right ∧ Alignment.src before = srcText front ++ left := by
  induction tiles generalizing before with
  | nil => simp at expands
  | cons tile tiles ih =>
      rw [expand_cons, List.append_eq_append_iff] at expands
      rcases expands with ⟨gap, beforeEq, restEq⟩ | ⟨gap, atomsEq, restEq⟩
      · obtain ⟨front, text, back, left, right, rfl, textEq, srcEq⟩ := ih restEq
        refine ⟨tile :: front, text, back, left, right, rfl, textEq, ?_⟩
        rw [beforeEq, Alignment.src_append, Tile.src_atoms, srcEq, srcText_cons, List.append_assoc]
      · cases gap with
        | nil =>
            rw [List.nil_append] at restEq
            rw [List.append_nil] at atomsEq
            have expandsRest : expand tiles = [] ++ .keep letter :: after := restEq.symm
            obtain ⟨front, text, back, left, right, rfl, textEq, srcEq⟩ := ih expandsRest
            refine ⟨tile :: front, text, back, left, right, rfl, textEq, ?_⟩
            rw [← atomsEq, Tile.src_atoms, srcText_cons, List.append_assoc, ← srcEq,
              Alignment.src_nil, List.append_nil]
        | cons atom gap =>
            obtain ⟨rfl, -⟩ := List.cons.inj restEq
            cases tile with
            | block source target weight =>
                cases before <;> simp [Tile.atoms] at atomsEq
            | run text =>
                obtain ⟨left, tail, rfl, leftEq, tailEq⟩ := List.map_eq_append_iff.mp atomsEq
                obtain ⟨letter', right, rfl, sameLetter, -⟩ := List.map_eq_cons_iff.mp tailEq
                obtain rfl := Atom.keep.inj sameLetter
                refine ⟨[], _, tiles, left, right, rfl, rfl, ?_⟩
                rw [← leftEq, srcText_nil, List.nil_append]
                exact Alignment.src_keeps left

theorem exists_split_at {α : Type*} {text : List α} {position : Nat}
    (inside : position < text.length) :
    ∃ left letter right, text = left ++ letter :: right ∧ left.length = position := by
  refine ⟨text.take position, text[position], text.drop (position + 1), ?_, ?_⟩
  · rw [← List.drop_eq_getElem_cons inside, List.take_append_drop]
  · rw [List.length_take]
    omega

/-- An identity segment over a source position, with the same text on both sides. -/
def InIdentity (text out : List Char) (map : SpanMap) (position : Nat) : Prop :=
  ∃ segment ∈ map.segments, segment.kind = .identity ∧
    segment.src.char.start.toNat ≤ position ∧ position < segment.src.char.stop.toNat ∧
    segment.src.slice text = segment.dst.slice out

/-- What a builder run keeps ends up in an identity segment. -/
theorem inIdentity_of_keep {calls : List Call} (fitsSrc : Fits (calls.flatMap Call.source))
    (fitsDst : Fits (build calls).1) {position : Nat} {kept : List Char}
    (covering : callCovering calls position = some (.keep kept)) :
    InIdentity (calls.flatMap Call.source) (build calls).1 (build calls).2 position := by
  have located : ∃ before letter after, callAtoms calls = before ++ .keep letter :: after ∧
      (Alignment.src before).length = position := by
    clear fitsSrc fitsDst
    induction calls generalizing position with
    | nil => simp [callCovering] at covering
    | cons call calls ih =>
        rw [callCovering] at covering
        split at covering
        next inside =>
          obtain rfl := Option.some.inj covering
          have nonempty : (Call.keep kept).source ≠ [] := by
            rintro empty
            rw [empty] at inside
            exact absurd inside (Nat.not_lt_zero _)
          change position < kept.length at inside
          obtain ⟨left, letter, right, rfl, width⟩ := exists_split_at inside
          refine ⟨keeps left, letter, keeps right ++ callAtoms calls, ?_, ?_⟩
          · change Call.atoms (.keep (left ++ letter :: right)) ++ callAtoms calls = _
            rw [Call.atoms, if_neg nonempty]
            simp [Call.tile, Tile.atoms, keeps]
          · rw [Alignment.src_keeps, width]
        next outside =>
          obtain ⟨before, letter, after, atomsEq, width⟩ := ih covering
          refine ⟨call.atoms ++ before, letter, after, ?_, ?_⟩
          · change call.atoms ++ callAtoms calls = _
            rw [atomsEq, List.append_assoc]
          · rw [Alignment.src_append, Call.src_atoms, List.length_append, width]
            omega
  obtain ⟨before, letter, after, atomsEq, width⟩ := located
  have expands : expand (pack (callAtoms calls)) = before ++ .keep letter :: after := by
    rw [expand_pack, atomsEq]
  obtain ⟨front, text, back, left, right, tilesEq, textEq, srcEq⟩ := exists_run_of_expand expands
  have tiles := tableOf_tilesTexts (solid_pack (consuming_callAtoms calls))
    (by rwa [srcText_pack, src_callAtoms]) (by rwa [dstText_pack, ← build_text])
  rw [srcText_pack, src_callAtoms, dstText_pack, ← build_text, ← build_eq fitsSrc fitsDst] at tiles
  have member : (Tile.run text).segment (srcText front) (dstText front) ∈
      (build calls).2.segments := by
    rw [build_eq fitsSrc fitsDst, tilesEq, tableOf, layout_append]
    simp
  have fitsText : Fits (srcText front ++ text) := by
    have whole : srcText (pack (callAtoms calls)) = calls.flatMap Call.source := by
      rw [srcText_pack, src_callAtoms]
    rw [← whole, tilesEq, srcText_append, srcText_cons, ← List.append_assoc] at fitsSrc
    exact fitsSrc.of_append_left
  have covers := covers_spanAt fitsText
  refine ⟨_, member, rfl, ?_, ?_, tiles.identity _ member rfl⟩
  · change (spanAt (srcText front) text).char.start.toNat ≤ position
    rw [covers.charStart, ← width, srcEq, List.length_append]
    omega
  · change position < (spanAt (srcText front) text).char.stop.toNat
    rw [covers.charStop, ← width, srcEq, textEq]
    simp

namespace Hangul

/-! ## The walk as builder calls -/

/-- How far the walk moves from a stop. -/
def advance (rest : List Char) : Nat :=
  if (scanRun rest).1 = [] then 1 else (scanRun rest).2

/-- The digits that the run at a stop is read as, if it is. -/
def readAs (cfg : NumeralConfig) (before rest : List Char) : Option (List Char × RuleId) :=
  if (scanRun rest).1 = [] then none
  else (convert (scanRun rest).1).filter fun reading =>
    longEnough cfg reading.1 before (rest.drop (scanRun rest).2)

/-- What the walk tells the builder at a stop. -/
def callAt (cfg : NumeralConfig) (before rest : List Char) : Call :=
  match readAs cfg before rest with
  | some (digits, rule) => .numeral (rest.take (advance rest)) digits rule
  | none => .keep (rest.take (advance rest))

theorem advance_pos (rest : List Char) : 0 < advance rest := by
  rw [advance]
  split
  next => exact Nat.one_pos
  next nonempty =>
    obtain ⟨token, tokens, tokensEq⟩ := List.exists_cons_of_ne_nil nonempty
    exact scanRun_positive (Prod.ext tokensEq rfl)

/-- The builder calls of the walk, one for each stop. -/
def calls (cfg : NumeralConfig) (before : List Char) : List Char → List Call
  | [] => []
  | c :: rest =>
      callAt cfg before (c :: rest) ::
        calls cfg (((c :: rest).take (advance (c :: rest))).reverse ++ before)
          ((c :: rest).drop (advance (c :: rest)))
termination_by text => text.length
decreasing_by
  have moves := advance_pos (c :: rest)
  simp only [List.length_drop, List.length_cons]
  omega

theorem calls_of_ne_nil {cfg : NumeralConfig} {before rest : List Char} (nonempty : rest ≠ []) :
    calls cfg before rest = callAt cfg before rest ::
      calls cfg ((rest.take (advance rest)).reverse ++ before) (rest.drop (advance rest)) := by
  obtain ⟨c, tail, rfl⟩ := List.exists_cons_of_ne_nil nonempty
  rw [calls]

theorem callAt_source (cfg : NumeralConfig) (before rest : List Char) :
    (callAt cfg before rest).source = rest.take (advance rest) := by
  rw [callAt]
  split <;> rfl

/-- The walk runs its calls. -/
theorem loop_eq_calls (cfg : NumeralConfig) (builder : SpanMapBuilder)
    (before pending rest : List Char) :
    loop cfg builder before pending rest =
      (calls cfg before rest).foldl Call.run (builder.flush pending) := by
  fun_induction loop cfg builder before pending rest with
  | case1 builder before pending => rw [calls, List.foldl_nil]
  | case2 builder before pending c rest stop scanned ih =>
      have moves : advance (c :: rest) = 1 := by rw [advance, scanned, if_pos rfl]
      have unread : readAs cfg before (c :: rest) = none := by rw [readAs, scanned, if_pos rfl]
      rw [ih, calls, callAt, unread, moves, List.foldl_cons]
      simp [Call.run, SpanMapBuilder.flush_eq_keep, SpanMapBuilder.keep_keep]
  | case3 builder before pending c rest token tokens stop scanned positive digits rule converted
      long ih =>
      have moves : advance (c :: rest) = stop := by rw [advance, scanned, if_neg (by simp)]
      have read : readAs cfg before (c :: rest) = some (digits, rule) := by
        rw [readAs, scanned, if_neg (by simp), converted]
        simp [long]
      rw [ih, calls, callAt, read, moves, List.foldl_cons]
      simp [Call.run, SpanMapBuilder.flush]
  | case4 builder before pending c rest token tokens stop scanned positive digits rule converted
      short ih =>
      have moves : advance (c :: rest) = stop := by rw [advance, scanned, if_neg (by simp)]
      have unread : readAs cfg before (c :: rest) = none := by
        rw [readAs, scanned, if_neg (by simp), converted]
        simp [short]
      rw [ih, calls, callAt, unread, moves, List.foldl_cons]
      simp [Call.run, SpanMapBuilder.flush_eq_keep, SpanMapBuilder.keep_keep]
  | case5 builder before pending c rest token tokens stop scanned positive failed ih =>
      have moves : advance (c :: rest) = stop := by rw [advance, scanned, if_neg (by simp)]
      have unread : readAs cfg before (c :: rest) = none := by
        rw [readAs, scanned, if_neg (by simp), failed]
        rfl
      rw [ih, calls, callAt, unread, moves, List.foldl_cons]
      simp [Call.run, SpanMapBuilder.flush_eq_keep, SpanMapBuilder.keep_keep]

@[simp] theorem calls_source (cfg : NumeralConfig) (before rest : List Char) :
    (calls cfg before rest).flatMap Call.source = rest := by
  fun_induction calls cfg before rest with
  | case1 before => rfl
  | case2 before c rest ih =>
      rw [List.flatMap_cons, ih, callAt_source, List.take_append_drop]

/-- The pass is a builder run. -/
theorem apply_eq_build (text : List Char) (cfg : NumeralConfig) :
    apply text cfg = build (calls cfg [] text) := by
  rw [apply_eq_loop, loop_eq_calls, SpanMapBuilder.flush, if_pos rfl, build]

/-- The stops of the walk: the text in front of a stop, and the text from it on. -/
inductive Stops (text : List Char) : List Char → List Char → Prop where
  | first : Stops text [] text
  | next {front rest : List Char} (stop : Stops text front rest) (more : rest ≠ []) :
      Stops text (front ++ rest.take (advance rest)) (rest.drop (advance rest))

theorem Stops.append {text front rest : List Char} (stop : Stops text front rest) :
    front ++ rest = text := by
  induction stop with
  | first => rfl
  | next stop more ih => rw [List.append_assoc, List.take_append_drop, ih]

/-- Every stop begins a call. -/
theorem Stops.calls {text front rest : List Char} (stop : Stops text front rest)
    (cfg : NumeralConfig) :
    ∃ earlier, Hangul.calls cfg [] text = earlier ++ Hangul.calls cfg front.reverse rest ∧
      earlier.flatMap Call.source = front := by
  induction stop with
  | first => exact ⟨[], rfl, rfl⟩
  | @next front rest stop more ih =>
      obtain ⟨earlier, callsEq, sourceEq⟩ := ih
      refine ⟨earlier ++ [callAt cfg front.reverse rest], ?_, ?_⟩
      · rw [callsEq, calls_of_ne_nil more, List.append_assoc, List.singleton_append,
          List.reverse_append]
      · simp [sourceEq, callAt_source]

/-- The call at a stop covers the characters that the walk passes there. -/
theorem Stops.covering {text front rest : List Char} (stop : Stops text front rest)
    (cfg : NumeralConfig) {offset : Nat} (within : offset < advance rest)
    (inside : offset < rest.length) :
    callCovering (Hangul.calls cfg [] text) (front.length + offset) =
      some (callAt cfg front.reverse rest) := by
  obtain ⟨earlier, callsEq, sourceEq⟩ := stop.calls cfg
  have more : rest ≠ [] := List.ne_nil_of_length_pos (Nat.zero_lt_of_lt inside)
  rw [callsEq, ← sourceEq, callCovering_append, sourceEq, calls_of_ne_nil more, callCovering,
    callAt_source, List.length_take, if_pos (by omega)]

/-! ## Where a run is cut -/

/-- Syllables that end a numeral of two syllables. -/
def secondSyllables : List Char := ['나', '섯', '곱', '덟', '홉']

/-- Syllables of numerals. -/
def numeralSyllables : List Char :=
  ['하', '다', '여', '아'] ++ secondSyllables ++ digitOneSyllable.map Prod.fst ++
    unitSyllable.map Prod.fst

/-- One token takes a numeral of two syllables or a single syllable. -/
theorem nextToken_cases {rest : List Char} {token : Token} {consumed : Nat}
    (read : nextToken rest = some (token, consumed)) :
    (∃ first second tail, rest = first :: second :: tail ∧ first ∈ numeralSyllables ∧
      second ∈ secondSyllables ∧ consumed = 2) ∨
    ∃ first tail, rest = first :: tail ∧ first ∈ numeralSyllables ∧ consumed = 1 := by
  unfold nextToken at read
  split at read
  next word value found =>
    left
    have member := List.mem_of_find?_eq_some found
    have leads := List.find?_some found
    simp only [List.isPrefixOf_iff_prefix] at leads
    have shape : ∀ entry ∈ digitTwoSyllable, ∃ first second, entry.1 = [first, second] ∧
        first ∈ numeralSyllables ∧ second ∈ secondSyllables := by
      simp [digitTwoSyllable, numeralSyllables, secondSyllables, digitOneSyllable]
    obtain ⟨first, second, wordEq, inFirst, inSecond⟩ := shape _ member
    change word = _ at wordEq
    rw [wordEq] at leads
    obtain ⟨tail, restEq⟩ := leads
    obtain ⟨-, rfl⟩ := Prod.mk.inj (Option.some.inj read)
    exact ⟨first, second, tail, restEq.symm, inFirst, inSecond, by rw [wordEq]; rfl⟩
  next =>
    right
    cases rest with
    | nil => exact absurd read (by simp)
    | cons c tail =>
        simp only at read
        split at read
        next entry value found =>
          obtain ⟨-, rfl⟩ := Prod.mk.inj (Option.some.inj read)
          have same := List.find?_some found
          have listed : entry ∈ digitOneSyllable.map Prod.fst :=
            List.mem_map_of_mem (List.mem_of_find?_eq_some found)
          obtain rfl : entry = c := by simpa using same
          exact ⟨entry, tail, rfl, by simp [numeralSyllables, listed], rfl⟩
        next =>
          split at read
          next entry value found =>
            obtain ⟨-, rfl⟩ := Prod.mk.inj (Option.some.inj read)
            have same := List.find?_some found
            have listed : entry ∈ unitSyllable.map Prod.fst :=
              List.mem_map_of_mem (List.mem_of_find?_eq_some found)
            obtain rfl : entry = c := by simpa using same
            exact ⟨entry, tail, rfl, by simp [numeralSyllables, listed], rfl⟩
          next => exact absurd read (by simp)

/-- A run is made of numeral syllables. -/
theorem mem_run {text : List Char} :
    ∀ c ∈ text.take (runLength text), c ∈ numeralSyllables := by
  fun_induction runLength text with
  | case1 text token consumed read bound ih =>
      intro c member
      rw [List.take_add, List.mem_append] at member
      rcases member with head | tail
      · rcases nextToken_cases read with ⟨first, second, rest, rfl, inFirst, inSecond, rfl⟩ |
          ⟨first, rest, rfl, inFirst, rfl⟩
        · simp only [List.take_succ_cons, List.take_zero, List.mem_cons, List.not_mem_nil,
            or_false] at head
          rcases head with rfl | rfl
          · exact inFirst
          · simp [numeralSyllables, inSecond]
        · simp only [List.take_succ_cons, List.take_zero, List.mem_cons, List.not_mem_nil,
            or_false] at head
          exact head ▸ inFirst
      · exact ih c tail
  | case2 text none => simp

/-- Only one numeral syllable also marks a numeric context. -/
theorem isNumericContext_numeral :
    ∀ c ∈ numeralSyllables, isNumericContext c = true → c = '일' := by
  simp [numeralSyllables, secondSyllables, digitOneSyllable, unitSyllable, isNumericContext,
    numericMarkers, isAsciiDigit]

/-- A token stops at a syllable that ends no numeral of two syllables. -/
theorem nextToken_le {front tail : List Char} {c : Char} {token : Token} {consumed : Nat}
    (nonempty : front ≠ []) (cuts : c ∉ secondSyllables)
    (read : nextToken (front ++ c :: tail) = some (token, consumed)) :
    consumed ≤ front.length := by
  obtain ⟨head, front, rfl⟩ := List.exists_cons_of_ne_nil nonempty
  rcases nextToken_cases read with ⟨first, second, rest, restEq, -, inSecond, rfl⟩ |
    ⟨first, rest, -, -, rfl⟩
  · cases front with
    | nil =>
        obtain ⟨-, rfl, -⟩ : head = first ∧ c = second ∧ tail = rest := by simpa using restEq
        exact absurd inSecond cuts
    | cons other front => simp
  · simp

/-- A run goes on from such a syllable as if it began there. -/
theorem runLength_append {front tail : List Char} {c : Char} (cuts : c ∉ secondSyllables)
    (reaches : front.length < runLength (front ++ c :: tail)) :
    runLength (front ++ c :: tail) = front.length + runLength (c :: tail) := by
  induction width : front.length using Nat.strong_induction_on generalizing front with
  | _ width_ ih =>
      subst width
      by_cases nonempty : front = []
      · simp [nonempty]
      · cases read : nextToken (front ++ c :: tail) with
        | none =>
            rw [runLength_of_none read] at reaches
            exact absurd reaches (Nat.not_lt_zero _)
        | some pair =>
            obtain ⟨token, consumed⟩ := pair
            have within := nextToken_le nonempty cuts read
            have positive := (nextToken_consumed read).1
            have dropped : (front ++ c :: tail).drop consumed =
                front.drop consumed ++ c :: tail := List.drop_append_of_le_length within
            rw [runLength_of_some read, dropped] at reaches ⊢
            have shorter : (front.drop consumed).length = front.length - consumed :=
              List.length_drop
            rw [ih (front.drop consumed).length (by omega) (by omega) rfl]
            omega

/-- The tokens of a run that is cut off in front of such a syllable. -/
theorem tokensWithin_ne_nil {front tail : List Char} {c : Char} (nonempty : front ≠ [])
    (cuts : c ∉ secondSyllables) (reaches : 0 < runLength (front ++ c :: tail)) :
    tokensWithin (front ++ c :: tail) front.length ≠ [] := by
  cases read : nextToken (front ++ c :: tail) with
  | none =>
      rw [runLength_of_none read] at reaches
      exact absurd reaches (Nat.not_lt_zero _)
  | some pair =>
      obtain ⟨token, consumed⟩ := pair
      rw [tokensWithin_of_some read (List.length_pos_of_ne_nil nonempty)
        (nextToken_le nonempty cuts read)]
      exact List.cons_ne_nil _ _

theorem runLength_le (text : List Char) : runLength text ≤ text.length := by
  fun_induction runLength text with
  | case1 text token consumed read bound ih =>
      rw [List.length_drop] at ih
      omega
  | case2 text none => exact Nat.zero_le _

theorem trimSentenceEnding_le (text : List Char) (stop : Nat) :
    trimSentenceEnding text stop ≤ stop := by
  rw [trimSentenceEnding]
  split
  · exact Nat.sub_le _ _
  · exact Nat.le_refl _

/-- A run of more than the pair loses it. -/
theorem trimSentenceEnding_pair (value after : List Char) :
    trimSentenceEnding (value ++ '일' :: '이' :: '구' :: '요' :: after) (value.length + 3) =
      value.length + 1 := by
  have run : (value ++ '일' :: '이' :: '구' :: '요' :: after).take (value.length + 3) =
      value ++ ['일', '이', '구'] := by simp [List.take_append]
  have rest : (value ++ '일' :: '이' :: '구' :: '요' :: after).drop (value.length + 3) =
      '요' :: after := by simp [List.drop_append]
  have ends : List.isSuffixOf ['이', '구'] (value ++ ['일', '이', '구']) = true := by
    rw [List.isSuffixOf_iff_suffix]
    exact ⟨value ++ ['일'], by simp⟩
  have found : sentenceEndings.find? (fun entry =>
      entry.1.isSuffixOf (value ++ ['일', '이', '구']) && entry.2.isPrefixOf ('요' :: after) &&
        entry.1.length < (value ++ ['일', '이', '구']).length) = some (['이', '구'], ['요']) := by
    rw [sentenceEndings, List.find?_cons_of_pos]
    simp [ends]
  rw [trimSentenceEnding, run, rest, found]
  rfl

/-! ## Shortened runs -/

/-- A shortened run is a value, an ending and what follows the ending. -/
theorem scanRun_shortened {rest : List Char} (shortened : (scanRun rest).2 < runLength rest) :
    ∃ value tail follows after, (tail, follows) ∈ sentenceEndings ∧
      rest = value ++ (tail ++ (follows ++ after)) ∧ value ≠ [] ∧
      (scanRun rest).2 = value.length ∧ runLength rest = value.length + tail.length := by
  change trimSentenceEnding rest (runLength rest) < runLength rest at shortened
  change ∃ value tail follows after, (tail, follows) ∈ sentenceEndings ∧
    rest = value ++ (tail ++ (follows ++ after)) ∧ value ≠ [] ∧
    trimSentenceEnding rest (runLength rest) = value.length ∧
    runLength rest = value.length + tail.length
  rw [trimSentenceEnding] at shortened ⊢
  split at shortened
  next tail follows found =>
    have member := List.mem_of_find?_eq_some found
    have ends := List.find?_some found
    simp only [Bool.and_eq_true, List.isSuffixOf_iff_suffix, List.isPrefixOf_iff_prefix,
      decide_eq_true_eq] at ends
    obtain ⟨⟨⟨value, runEq⟩, ⟨after, behind⟩⟩, longer⟩ := ends
    have width : (rest.take (runLength rest)).length = runLength rest := by
      rw [List.length_take, Nat.min_eq_left (runLength_le rest)]
    have split := congrArg List.length runEq
    rw [List.length_append, width] at split
    rw [width] at longer
    refine ⟨value, tail, follows, after, member, ?_, ?_, ?_, split.symm⟩
    · rw [behind, ← List.append_assoc, runEq, List.take_append_drop]
    · rintro rfl
      rw [List.length_nil, Nat.zero_add] at split
      omega
    · omega
  next => exact absurd shortened (Nat.lt_irrefl _)

/-- The walk stops again where it has cut an ending off. -/
theorem Stops.ending {text front value tail : List Char}
    (stop : Stops text front (value ++ '이' :: tail)) (nonempty : value ≠ [])
    (cut : (scanRun (value ++ '이' :: tail)).2 = value.length)
    (reaches : 0 < runLength (value ++ '이' :: tail)) :
    Stops text (front ++ value) ('이' :: tail) := by
  have tokens : (scanRun (value ++ '이' :: tail)).1 ≠ [] := by
    change tokensWithin _ (scanRun (value ++ '이' :: tail)).2 ≠ []
    rw [cut]
    exact tokensWithin_ne_nil nonempty (by decide) reaches
  have moves : advance (value ++ '이' :: tail) = value.length := by
    rw [advance, if_neg tokens, cut]
  have next := stop.next (by simp)
  rwa [moves, List.take_left, List.drop_left] at next

theorem scanRun_single {c : Char} {after : List Char} (ended : nextToken (c :: after) = none) :
    scanRun ('이' :: c :: after) = ([.digit 2], 1) := by
  have read : nextToken ('이' :: c :: after) = some (.digit 2, 1) := rfl
  have length : runLength ('이' :: c :: after) = 1 := by
    rw [runLength_of_some read, List.drop_one, List.tail_cons, runLength_of_none ended]
  have kept : trimSentenceEnding ('이' :: c :: after) 1 = 1 := by
    simp [trimSentenceEnding, sentenceEndings]
  have tokens : tokensWithin ('이' :: c :: after) 1 = [.digit 2] := by
    rw [tokensWithin_of_some read (by decide) (by decide), Nat.sub_self, tokensWithin_zero]
  simp only [scanRun, length, kept, tokens]

theorem runLength_pair (after : List Char) : runLength ('이' :: '구' :: '요' :: after) = 2 := by
  have two : nextToken ('이' :: '구' :: '요' :: after) = some (.digit 2, 1) := rfl
  have nine : nextToken ('구' :: '요' :: after) = some (.digit 9, 1) := rfl
  rw [runLength_of_some two, List.drop_one, List.tail_cons, runLength_of_some nine,
    List.drop_one, List.tail_cons, runLength_of_none rfl]

theorem runLength_critical (after : List Char) :
    runLength ('일' :: '이' :: '구' :: '요' :: after) = 3 := by
  have one : nextToken ('일' :: '이' :: '구' :: '요' :: after) = some (.digit 1, 1) := rfl
  rw [runLength_of_some one, List.drop_one, List.tail_cons, runLength_pair]

theorem scanRun_pair (after : List Char) :
    scanRun ('이' :: '구' :: '요' :: after) = ([.digit 2, .digit 9], 2) := by
  have two : nextToken ('이' :: '구' :: '요' :: after) = some (.digit 2, 1) := rfl
  have nine : nextToken ('구' :: '요' :: after) = some (.digit 9, 1) := rfl
  have kept : trimSentenceEnding ('이' :: '구' :: '요' :: after) 2 = 2 := rfl
  have tokens : tokensWithin ('이' :: '구' :: '요' :: after) 2 = [.digit 2, .digit 9] := by
    rw [tokensWithin_of_some two (by decide) (by decide), List.drop_one, List.tail_cons,
      tokensWithin_of_some nine (by decide) (by decide), tokensWithin_zero]
  simp only [scanRun, runLength_pair, kept, tokens]

theorem not_isWhitespace_numeral : ∀ c ∈ numeralSyllables, isWhitespace c = false := by
  simp [numeralSyllables, secondSyllables, digitOneSyllable, unitSyllable, isWhitespace]

/-- The pair is read as a number exactly behind the syllable that marks a context. -/
theorem readAs_pair {before after : List Char} {last : Char} (numeral : last ∈ numeralSyllables) :
    readAs {} (last :: before) ('이' :: '구' :: '요' :: after) =
      if last = '일' then some (['2', '9'], ruleDigit) else none := by
  have converted : convert [.digit 2, .digit 9] = some (['2', '9'], ruleDigit) := by decide
  have behind : charAfter ('요' :: after) 2 = some '요' := rfl
  have infront : charBefore (last :: before) 2 = some last := by
    rw [charBefore, skipBlanks, not_isWhitespace_numeral last numeral]
    rfl
  have context : hasNumericContext (last :: before) ('요' :: after) {} = isNumericContext last := by
    have other : isNumericContext '요' = false := by decide
    simp [hasNumericContext, behind, infront, other]
  rw [readAs, scanRun_pair, if_neg (by simp), converted]
  simp only [List.drop_succ_cons, List.drop_zero, Option.filter_some, longEnough, context]
  by_cases marks : last = '일'
  · subst marks
    rfl
  · have unmarked : isNumericContext last = false := by
      rw [Bool.eq_false_iff]
      exact fun marked => marks (isNumericContext_numeral last numeral marked)
    simp [unmarked, marks]

theorem readAs_single {before after : List Char} {c : Char}
    (ended : nextToken (c :: after) = none) : readAs {} before ('이' :: c :: after) = none := by
  have converted : convert [.digit 2] = some (['2'], ruleDigit) := by decide
  rw [readAs, scanRun_single ended, if_neg (by simp), converted]
  rfl

/-! ## Endings stay text -/

/-- A source position that the pass leaves as it is: it is kept by the builder, and in
texts that the offsets can address it lies in an identity segment of the map. -/
def StaysText (text : List Char) (position : Nat) : Prop :=
  (∃ kept, callCovering (calls {} [] text) position = some (.keep kept)) ∧
    (Fits text → Fits (apply text {}).1 →
      InIdentity text (apply text {}).1 (apply text {}).2 position)

/-- Whenever an ending is cut off a run, its syllables stay text. -/
def EndingsStayText (text : List Char) : Prop :=
  ∀ front rest, Stops text front rest → ∀ position,
    front.length + (scanRun rest).2 ≤ position → position < front.length + runLength rest →
      StaysText text position

theorem staysText_of_keep {text kept : List Char} {position : Nat}
    (covering : callCovering (calls {} [] text) position = some (.keep kept)) :
    StaysText text position := by
  refine ⟨⟨kept, covering⟩, ?_⟩
  intro fits fitsOut
  rw [apply_eq_build] at fitsOut ⊢
  have inside := inIdentity_of_keep (by rwa [calls_source]) fitsOut covering
  rwa [calls_source] at inside

theorem staysText_of_unread {text front rest : List Char} (stop : Stops text front rest)
    (unread : readAs {} front.reverse rest = none) {offset : Nat} (within : offset < advance rest)
    (inside : offset < rest.length) : StaysText text (front.length + offset) := by
  have covering := stop.covering {} within inside
  rw [callAt, unread] at covering
  exact staysText_of_keep covering

/-- A stop in front of a position from which the walk passes the position. -/
theorem exists_stop_before {text front middle rest : List Char}
    (stop : Stops text front (middle ++ rest)) (more : rest ≠ []) :
    ∃ front' middle', front ++ middle = front' ++ middle' ∧ Stops text front' (middle' ++ rest) ∧
      middle'.length < advance (middle' ++ rest) := by
  induction width : middle.length using Nat.strong_induction_on generalizing front middle with
  | _ width_ ih =>
      subst width
      by_cases passes : middle.length < advance (middle ++ rest)
      · exact ⟨front, middle, rfl, stop, passes⟩
      · have next := stop.next (by simp [more])
        have moves := advance_pos (middle ++ rest)
        rw [List.take_append_of_le_length (by omega), List.drop_append_of_le_length (by omega)]
          at next
        have shorter : (middle.drop (advance (middle ++ rest))).length < middle.length := by
          rw [List.length_drop]
          omega
        obtain ⟨front', middle', same, stop', passes'⟩ := ih _ shorter next rfl
        refine ⟨front', middle', ?_, stop', passes'⟩
        rw [← same, List.append_assoc, List.take_append_drop]

/-- The last syllable of a value is a numeral syllable. -/
theorem exists_last_of_run {value after : List Char} (nonempty : value ≠ [])
    (within : value.length ≤ runLength (value ++ after)) :
    ∃ start last, value = start ++ [last] ∧ last ∈ numeralSyllables := by
  rcases List.eq_nil_or_concat value with empty | ⟨start, last, rfl⟩
  · exact absurd empty nonempty
  · have inside : last ∈ (start.concat last ++ after).take
        (runLength (start.concat last ++ after)) := by
      rw [List.take_append, List.take_of_length_le within, List.concat_eq_append]
      simp
    exact ⟨start, last, List.concat_eq_append, mem_run last inside⟩

/-- Without the critical ending, every cut-off ending stays text. -/
theorem endingsStayText_of_free {text : List Char}
    (free : ¬ ['일', '이', '구', '요'] <:+: text) : EndingsStayText text := by
  intro front rest stop position low high
  have shortened : (scanRun rest).2 < runLength rest := by omega
  obtain ⟨value, tail, follows, after, ending, rfl, nonempty, cut, length⟩ :=
    scanRun_shortened shortened
  rw [cut] at low
  rw [length] at high
  obtain ⟨offset, rfl⟩ := Nat.exists_eq_add_of_le low
  have reaches : 0 < runLength (value ++ (tail ++ (follows ++ after))) := by omega
  rw [← List.length_append]
  have single (c : Char) (more : List Char) (ended : nextToken (c :: more) = none)
      (next : Stops text (front ++ value) ('이' :: c :: more)) (small : offset < 1) :
      StaysText text ((front ++ value).length + offset) := by
    have moves : advance ('이' :: c :: more) = 1 := by
      rw [advance, scanRun_single ended, if_neg (by simp)]
    exact staysText_of_unread next (readAs_single ended) (by omega) (by simp; omega)
  simp only [sentenceEndings, List.mem_cons, Prod.mk.injEq, List.not_mem_nil, or_false] at ending
  rcases ending with ⟨rfl, rfl⟩ | ⟨rfl, rfl⟩ | ⟨rfl, rfl⟩ | ⟨rfl, rfl⟩ | ⟨rfl, rfl⟩ | ⟨rfl, rfl⟩
  · have next : Stops text (front ++ value) ('이' :: '구' :: '요' :: after) :=
      stop.ending nonempty cut reaches
    have within : value.length ≤
        runLength (value ++ (['이', '구'] ++ (['요'] ++ after))) := by omega
    obtain ⟨start, last, rfl, numeral⟩ := exists_last_of_run nonempty within
    have other : last ≠ '일' := by
      rintro rfl
      apply free
      rw [← next.append]
      exact ⟨front ++ start, after, by simp⟩
    have moves : advance ('이' :: '구' :: '요' :: after) = 2 := by
      rw [advance, scanRun_pair, if_neg (by simp)]
    apply staysText_of_unread next _ (by simp at high; omega) (by simp at high ⊢; omega)
    rw [List.reverse_append, List.reverse_append, List.reverse_singleton, List.singleton_append,
      List.cons_append, readAs_pair numeral, if_neg other]
  all_goals
    exact single _ _ rfl (stop.ending nonempty cut reaches) (by simp at high; omega)

/-- The critical ending is read as a number. -/
theorem not_endingsStayText_of_infix {text : List Char}
    (occurs : ['일', '이', '구', '요'] <:+: text) : ¬ EndingsStayText text := by
  obtain ⟨before, after, rfl⟩ := occurs
  intro stays
  have start : Stops (before ++ ['일', '이', '구', '요'] ++ after) []
      (before ++ ('일' :: '이' :: '구' :: '요' :: after)) := by
    have whole : Stops (before ++ ['일', '이', '구', '요'] ++ after) [] _ := .first
    simpa using whole
  obtain ⟨front, value, -, stop, passes⟩ := exists_stop_before start (by simp)
  have three := runLength_critical after
  have reaches : value.length < runLength (value ++ '일' :: '이' :: '구' :: '요' :: after) := by
    by_cases empty : (scanRun (value ++ '일' :: '이' :: '구' :: '요' :: after)).1 = []
    · rw [advance, if_pos empty] at passes
      obtain rfl : value = [] := List.length_eq_zero_iff.mp (by omega)
      rw [List.nil_append, three]
      decide
    · rw [advance, if_neg empty] at passes
      exact Nat.lt_of_lt_of_le passes (trimSentenceEnding_le _ _)
  have length := runLength_append (by decide) reaches
  rw [three] at length
  have cut : (scanRun (value ++ '일' :: '이' :: '구' :: '요' :: after)).2 = value.length + 1 := by
    change trimSentenceEnding _ (runLength _) = _
    rw [length]
    exact trimSentenceEnding_pair value after
  have shape : value ++ '일' :: '이' :: '구' :: '요' :: after =
      (value ++ ['일']) ++ '이' :: '구' :: '요' :: after := by simp
  have width : (value ++ ['일']).length = value.length + 1 := by simp
  have next : Stops (before ++ ['일', '이', '구', '요'] ++ after) (front ++ (value ++ ['일']))
      ('이' :: '구' :: '요' :: after) := by
    apply Stops.ending (shape ▸ stop) (by simp)
    · rw [← shape, cut, width]
    · rw [← shape]
      omega
  have moves : advance ('이' :: '구' :: '요' :: after) = 2 := by
    rw [advance, scanRun_pair, if_neg (by simp)]
  have start : 0 < advance ('이' :: '구' :: '요' :: after) := by omega
  have covering := next.covering {} start (by simp)
  have read : readAs {} (front ++ (value ++ ['일'])).reverse ('이' :: '구' :: '요' :: after) =
      some (['2', '9'], ruleDigit) := by
    rw [List.reverse_append, List.reverse_append, List.reverse_singleton, List.singleton_append,
      List.cons_append, readAs_pair (by decide), if_pos rfl]
  obtain ⟨⟨kept, stayed⟩, -⟩ := stays front _ stop (front.length + (value.length + 1))
    (by omega) (by omega)
  rw [Nat.add_zero, List.length_append, width, stayed, callAt, read] at covering
  exact absurd (Option.some.inj covering) (by simp)

/-- Cut-off endings stay text exactly in the texts without the critical ending. -/
theorem endingsStayText_iff (text : List Char) :
    EndingsStayText text ↔ ¬ ['일', '이', '구', '요'] <:+: text := by
  constructor
  · intro stays occurs
    exact not_endingsStayText_of_infix occurs stays
  · exact endingsStayText_of_free

/-- The syllable in front of the ending marks a context, so the ending becomes a number. -/
theorem not_endingsStayText_one :
    (apply ['일', '이', '구', '요'] {}).1 = ['일', '2', '9', '요'] ∧
      ¬ EndingsStayText ['일', '이', '구', '요'] := by
  refine ⟨?_, not_endingsStayText_of_infix (List.infix_refl _)⟩
  have one : nextToken ['일', '이', '구', '요'] = some (.digit 1, 1) := rfl
  have length := runLength_critical []
  have scanned : scanRun ['일', '이', '구', '요'] = ([.digit 1], 1) := by
    have cut : trimSentenceEnding ['일', '이', '구', '요'] 3 = 1 := rfl
    rw [scanRun, length, cut, tokensWithin_of_some one (by decide) (by decide), Nat.sub_self,
      tokensWithin_zero]
  have value : convert [.digit 1] = some (['1'], ruleDigit) := by decide
  have pair : convert [.digit 2, .digit 9] = some (['2', '9'], ruleDigit) := by decide
  rw [apply_text, loop_of_converted scanned (by simp) value, if_neg (by decide)]
  change (loop {} {} ['일'] ['일'] ['이', '구', '요']).out = _
  rw [loop_of_converted (scanRun_pair []) (by simp) pair, if_pos (by rfl)]
  change (loop {} _ _ [] ['요']).out = _
  rw [loop_of_none rfl, loop]
  rfl

end Hangul

end AiCoreStack.Pii
