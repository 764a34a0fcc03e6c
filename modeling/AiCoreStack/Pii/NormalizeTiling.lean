import AiCoreStack.Foundation.Seams
import AiCoreStack.Pii.Normalize
import AiCoreStack.Pii.SpanLaws

/-!
# The pipeline tiles both texts

Every pass hands each source character to the builder exactly once, so a pass is
a builder run over its input.  The pipeline composes such runs; its map cuts the
input and the normalised text into corresponding pieces, as long as the texts
between the passes are representable.
-/

namespace AiCoreStack.Pii

open AiCoreStack.Foundation
open AiCoreStack.Foundation.Alignment (Atom keeps Consuming)
open String (utf8Len utf8Len_nil utf8Len_append)

/-! ## Passes are builder runs -/

/-- Characters that a call may produce several of. -/
def Digit (c : Char) : Prop := isAsciiDigit c = true

/-- An atom that produces one character or digits, and digits from digits. -/
def Orderly (atom : Atom Char Weight) : Prop := atom.Glued Digit ∧ atom.KeepsGlue Digit

theorem orderly_of_digits {atom : Atom Char Weight} (digits : ∀ c ∈ atom.dst, Digit c) :
    Orderly atom :=
  ⟨.inr digits, fun _ => digits⟩

theorem orderly_of_plain {atom : Atom Char Weight} (single : atom.dst.length ≤ 1)
    (plain : ∀ c ∈ atom.src, ¬ Digit c) : Orderly atom := by
  refine ⟨.inl single, ?_⟩
  rintro ⟨c, member, digit⟩
  exact absurd digit (plain c member)

/-- Calls whose atoms are orderly. -/
def Call.Orderly (call : Call) : Prop := ∀ atom ∈ call.atoms, Pii.Orderly atom

namespace Call

theorem keep_orderly (text : List Char) : (Call.keep text).Orderly := by
  intro atom member
  rw [atoms] at member
  split at member
  · simp at member
  · obtain ⟨c, -, rfl⟩ := List.mem_map.mp member
    refine ⟨.inl (le_refl _), ?_⟩
    rintro ⟨d, same, digit⟩ e member
    obtain rfl := List.mem_singleton.mp same
    obtain rfl := List.mem_singleton.mp member
    exact digit

/-- A call that makes one block is orderly when the block is. -/
theorem orderly_of_block (call : Call) {source target : List Char} {weight : Weight}
    (tile : call.tile = .block source target weight)
    (orderly : Pii.Orderly (.block source target weight)) : call.Orderly := by
  intro atom member
  rw [atoms] at member
  split at member
  · simp at member
  · rw [tile, Tile.atoms, List.mem_singleton] at member
    rwa [member]

end Call

/-- The builder has been fed exactly this text. -/
def Fed (builder : SpanMapBuilder) (text : List Char) : Prop :=
  ∃ calls : List Call, builder = calls.foldl Call.run {} ∧ calls.flatMap Call.source = text ∧
    ∀ call ∈ calls, call.Orderly

theorem fed_empty : Fed {} [] := ⟨[], rfl, rfl, by simp⟩

namespace Fed

variable {builder : SpanMapBuilder} {text : List Char}

theorem call (fed : Fed builder text) {call : Call} (orderly : call.Orderly) :
    Fed (Call.run builder call) (text ++ call.source) := by
  obtain ⟨calls, rfl, rfl, all⟩ := fed
  refine ⟨calls ++ [call], by simp, by simp, ?_⟩
  intro other member
  rcases List.mem_append.mp member with inside | last
  · exact all other inside
  · rwa [List.mem_singleton.mp last]

theorem flush (fed : Fed builder text) (pending : List Char) :
    Fed (builder.flush pending) (text ++ pending) := by
  unfold SpanMapBuilder.flush
  split
  next empty => simpa [empty] using fed
  next => exact fed.call (Call.keep_orderly pending)

theorem replace (fed : Fed builder text) (source target : List Char) (rule : RuleId)
    (orderly : ∀ weight, Orderly (.block source target weight)) :
    Fed (builder.replace source target rule) (text ++ source) :=
  fed.call (Call.orderly_of_block (.replace source target rule) rfl (orderly _))

theorem numeral (fed : Fed builder text) (source target : List Char) (rule : RuleId)
    (orderly : ∀ weight, Orderly (.block source target weight)) :
    Fed (builder.numeral source target rule) (text ++ source) :=
  fed.call (Call.orderly_of_block (.numeral source target rule) rfl (orderly _))

theorem absorb (fed : Fed builder text) (source : List Char) (rule : RuleId)
    (kind : Absorbed) : Fed (builder.absorb source rule kind) (text ++ source) :=
  fed.call (Call.orderly_of_block (.absorb source rule kind) rfl
    (orderly_of_digits (by simp [Atom.dst])))

end Fed

/-- A pass is a builder run over its input. -/
def IsPass (pass : List Char → List Char × SpanMap) : Prop :=
  ∀ text, ∃ calls, pass text = build calls ∧ calls.flatMap Call.source = text ∧
    ∀ atom ∈ callAtoms calls, Orderly atom

theorem Fed.finish {builder : SpanMapBuilder} {text : List Char} (fed : Fed builder text) :
    ∃ calls, builder.finish = build calls ∧ calls.flatMap Call.source = text ∧
      ∀ atom ∈ callAtoms calls, Orderly atom := by
  obtain ⟨calls, rfl, source, orderly⟩ := fed
  refine ⟨calls, rfl, source, ?_⟩
  intro atom member
  obtain ⟨call, inside, member⟩ := List.mem_flatMap.mp member
  exact orderly call inside atom member

/-- The fast path of every pass is the run that keeps the text. -/
theorem identity_run (text : List Char) :
    ∃ calls, (text, SpanMap.identity text) = build calls ∧
      calls.flatMap Call.source = text ∧ ∀ atom ∈ callAtoms calls, Orderly atom := by
  refine ⟨[.keep text], ?_, by simp [Call.source], ?_⟩
  · have out : (build [.keep text]).1 = text := by
      by_cases empty : text = []
      · simp [callAtoms, Call.atoms, Call.source, empty]
      · simp [callAtoms, Call.atoms, Call.source, Call.tile, Tile.dst, empty]
    exact Prod.ext out.symm rfl
  · intro atom member
    simp only [callAtoms, List.flatMap_singleton] at member
    exact Call.keep_orderly text atom member

/-! ## The five passes -/

theorem not_digit_of_inRange {low high : Nat} {c : Char} (above : 57 < low)
    (inside : inRange low high c = true) : ¬ Digit c := by
  intro digit
  simp only [Digit, isAsciiDigit, inRange, decide_eq_true_eq, Char.le_def,
    UInt32.le_iff_toNat_le] at digit inside
  have bound : c.toNat ≤ 57 := digit.2
  omega

theorem Nfc.not_digit_of_composeAt {text : List Char} {syllable : Char} {consumed : Nat}
    (composed : composeAt text = some (syllable, consumed)) :
    ∀ c ∈ text.take consumed, ¬ Digit c := by
  have lead {c : Char} (isLead : isLead c = true) : ¬ Digit c :=
    not_digit_of_inRange (by decide) isLead
  have vowel {c : Char} (isVowel : isVowel c = true) : ¬ Digit c :=
    not_digit_of_inRange (by decide) isVowel
  have trail {c : Char} (isTrail : isTrail c = true) : ¬ Digit c :=
    not_digit_of_inRange (by decide) isTrail
  have syllable {c : Char} (isSyllable : isLvSyllable c = true) : ¬ Digit c := by
    have inside : inRange sBase (sBase + sCount) c = true := by
      simp only [isLvSyllable, decide_eq_true_eq] at isSyllable
      simp only [inRange, decide_eq_true_eq]
      omega
    exact not_digit_of_inRange (by decide) inside
  unfold composeAt at composed
  split at composed
  · simp at composed
  next c0 rest =>
    split at composed
    next isLead =>
      split at composed
      · simp at composed
      next c1 rest =>
        split at composed
        · simp at composed
        next isVowel =>
          obtain ⟨_, -, pair⟩ := Option.map_eq_some_iff.mp composed
          split at pair
          next c2 rest =>
            split at pair
            next isTrail =>
              obtain rfl := (Prod.mk.inj pair).2
              simpa using ⟨lead isLead, vowel (by simpa using isVowel), trail isTrail⟩
            next =>
              obtain rfl := (Prod.mk.inj pair).2
              simpa using ⟨lead isLead, vowel (by simpa using isVowel)⟩
          next =>
            obtain rfl := (Prod.mk.inj pair).2
            simpa using ⟨lead isLead, vowel (by simpa using isVowel)⟩
    next =>
      split at composed
      next isSyllable =>
        split at composed
        · simp at composed
        next c1 rest =>
          split at composed
          next isTrail =>
            obtain ⟨_, -, pair⟩ := Option.map_eq_some_iff.mp composed
            obtain rfl := (Prod.mk.inj pair).2
            simpa using ⟨syllable isSyllable, trail isTrail⟩
          · simp at composed
      · simp at composed

theorem Nfc.loop_fed {builder : SpanMapBuilder} {text : List Char} (pending rest : List Char)
    (fed : Fed builder text) :
    Fed (Nfc.loop builder pending rest) (text ++ pending ++ rest) := by
  fun_induction Nfc.loop builder pending rest generalizing text with
  | case1 builder pending => simpa using fed.flush pending
  | case2 builder pending c rest syllable consumed composed positive ih =>
      have fedNext := ih ((fed.flush pending).replace _ [syllable] Nfc.ruleJamo fun weight =>
        orderly_of_plain (le_refl _) (Nfc.not_digit_of_composeAt composed))
      simpa using fedNext
  | case3 builder pending c rest composed ih => simpa using ih fed

theorem Fold.not_digit_of_foldChar {c folded : Char} {rule : RuleId}
    (found : foldChar c = some (folded, rule)) : ¬ Digit c := by
  intro digit
  simp only [Digit, isAsciiDigit, decide_eq_true_eq, Char.le_def,
    UInt32.le_iff_toNat_le] at digit
  have above : 48 ≤ c.toNat := digit.1
  have bound : c.toNat ≤ 57 := digit.2
  simp only [foldChar, inRange, decide_eq_true_eq] at found
  rw [if_neg (by omega), if_neg (by omega), if_neg (by omega)] at found
  exact absurd found (by simp)

theorem Fold.loop_fed {builder : SpanMapBuilder} {text : List Char} (pending rest : List Char)
    (fed : Fed builder text) :
    Fed (Fold.loop builder pending rest) (text ++ pending ++ rest) := by
  fun_induction Fold.loop builder pending rest generalizing text with
  | case1 builder pending => simpa using fed.flush pending
  | case2 builder pending c rest kept ih => simpa using ih fed
  | case3 builder pending c rest folded rule found ih =>
      have fedNext := ih ((fed.flush pending).replace [c] [folded] rule
        fun weight => orderly_of_plain (le_refl _)
          (by simpa [Atom.src] using Fold.not_digit_of_foldChar found))
      simpa using fedNext

theorem Hangul.nextToken_digit {rest : List Char} {value consumed : Nat}
    (read : nextToken rest = some (.digit value, consumed)) : value ≤ 9 := by
  have two : ∀ entry ∈ digitTwoSyllable, entry.2 ≤ 9 := by decide
  have one : ∀ entry ∈ digitOneSyllable, entry.2 ≤ 9 := by decide
  unfold nextToken at read
  split at read
  next word found =>
    simp only [Option.some.injEq, Prod.mk.injEq, Token.digit.injEq] at read
    rw [← read.1]
    exact two _ (List.mem_of_find?_eq_some found)
  next =>
    split at read
    · simp at read
    · split at read
      next found =>
        simp only [Option.some.injEq, Prod.mk.injEq, Token.digit.injEq] at read
        rw [← read.1]
        exact one _ (List.mem_of_find?_eq_some found)
      next =>
        split at read <;> simp at read

theorem Hangul.tokensWithin_digit (text : List Char) (stop : Nat) :
    ∀ value, Token.digit value ∈ tokensWithin text stop → value ≤ 9 := by
  fun_induction tokensWithin text stop with
  | case1 | case2 | case3 => simp
  | case4 text stop positive token consumed read bound fits ih =>
      intro value member
      rcases List.mem_cons.mp member with rfl | inside
      · exact nextToken_digit read
      · exact ih value inside

theorem Hangul.digit_of_digitChar {token : Token} {c : Char}
    (small : ∀ value, token = .digit value → value ≤ 9) (read : token.digitChar = some c) :
    Digit c := by
  cases token with
  | unit value => simp [Token.digitChar] at read
  | digit value =>
      have bound := small value rfl
      obtain rfl := Option.some.inj read
      interval_cases value <;> rfl

theorem exists_of_mem_mapM {α β : Type} {f : α → Option β} {xs : List α} {ys : List β}
    (mapped : xs.mapM f = some ys) {y : β} (member : y ∈ ys) : ∃ x ∈ xs, f x = some y := by
  induction xs generalizing ys with
  | nil =>
      obtain rfl : [] = ys := by simpa using mapped
      simp at member
  | cons x xs ih =>
      rw [List.mapM_cons] at mapped
      obtain ⟨first, head, mapped⟩ := Option.bind_eq_some_iff.mp mapped
      obtain ⟨rest, tail, mapped⟩ := Option.bind_eq_some_iff.mp mapped
      obtain rfl := Option.some.inj mapped
      rcases List.mem_cons.mp member with rfl | inside
      · exact ⟨x, List.mem_cons_self, head⟩
      · obtain ⟨other, otherMember, found⟩ := ih tail inside
        exact ⟨other, List.mem_cons_of_mem _ otherMember, found⟩

/-- Numerals are converted to digits. -/
theorem Hangul.digit_of_convert {text : List Char} {tokens : List Token} {stop : Nat}
    {digits : List Char} {rule : RuleId} (scanned : scanRun text = (tokens, stop))
    (converted : convert tokens = some (digits, rule)) : ∀ c ∈ digits, Digit c := by
  unfold convert at converted
  split at converted
  · split at converted
    · simp at converted
    · obtain ⟨value, -, pair⟩ := Option.map_eq_some_iff.mp converted
      obtain rfl := (Prod.mk.inj pair).1
      intro c member
      exact isAsciiDigit_of_isDigit (Nat.isDigit_of_mem_toDigits (by decide) (by decide) member)
  · obtain ⟨chars, read, pair⟩ := Option.map_eq_some_iff.mp converted
    obtain rfl := (Prod.mk.inj pair).1
    intro c member
    obtain ⟨token, inside, found⟩ := exists_of_mem_mapM read member
    apply digit_of_digitChar _ found
    rintro value rfl
    apply tokensWithin_digit text stop
    simp only [scanRun, Prod.mk.injEq] at scanned
    rwa [← scanned.2, scanned.1]

theorem Hangul.loop_fed (cfg : NumeralConfig) {builder : SpanMapBuilder} {text : List Char}
    (before pending rest : List Char) (fed : Fed builder text) :
    Fed (Hangul.loop cfg builder before pending rest) (text ++ pending ++ rest) := by
  fun_induction Hangul.loop cfg builder before pending rest generalizing text with
  | case1 builder before pending => simpa using fed.flush pending
  | case2 builder before pending c rest stop scanned ih => simpa using ih fed
  | case3 builder before pending c rest token tokens stop scanned positive digits rule converted
      long ih =>
      have fedNext := ih ((fed.flush pending).numeral ((c :: rest).take stop) digits
        rule fun weight => orderly_of_digits (Hangul.digit_of_convert scanned converted))
      simpa using fedNext
  | case4 builder before pending c rest token tokens stop scanned positive digits rule converted
      short ih => simpa using ih fed
  | case5 builder before pending c rest token tokens stop scanned positive failed ih =>
      simpa using ih fed

theorem Lookalike.digit_of_lookalikeDigit {c digit : Char}
    (found : lookalikeDigit c = some digit) : Digit digit := by
  unfold lookalikeDigit at found
  split at found
  · obtain rfl := Option.some.inj found
    rfl
  · split at found
    · obtain rfl := Option.some.inj found
      rfl
    · exact absurd found (by simp)

theorem Lookalike.loop_fed {builder : SpanMapBuilder} {text : List Char}
    (before pending rest : List Char) (fed : Fed builder text) :
    Fed (Lookalike.loop builder before pending rest) (text ++ pending ++ rest) := by
  fun_induction Lookalike.loop builder before pending rest generalizing text with
  | case1 builder before pending => simpa using fed.flush pending
  | case2 builder before pending c rest digit found ih =>
      have isDigit := Lookalike.digit_of_lookalikeDigit (Option.filter_eq_some_iff.mp found).1
      have fedNext := ih ((fed.flush pending).replace [c] [digit] Lookalike.ruleLookalike
        fun weight => orderly_of_digits (by simpa [Atom.dst] using isDigit))
      simpa using fedNext
  | case3 builder before pending c rest kept ih => simpa using ih fed

theorem Separator.absorbRun_fed {builder : SpanMapBuilder} {text run : List Char}
    (separators : ∀ c ∈ run, Separator.isSeparator c = true) (fed : Fed builder text) :
    Fed (Separator.absorbRun builder run) (text ++ run) := by
  fun_induction Separator.absorbRun builder run generalizing text with
  | case1 builder => simpa using fed
  | case2 builder c rest none => 
      have := separators c (by simp)
      simp [Separator.isSeparator, none] at this
  | case3 builder c rest rule kind found ih =>
      have fedNext := ih (fun other member => separators other
        (List.mem_cons_of_mem _ ((List.dropWhile_sublist _).subset member)))
        (fed.absorb (c :: rest.takeWhile (Separator.hasRule rule)) rule kind)
      simpa using fedNext

theorem Separator.loop_fed {builder : SpanMapBuilder} {text : List Char}
    (before pending rest : List Char) (fed : Fed builder text) :
    Fed (Separator.loop builder before pending rest) (text ++ pending ++ rest) := by
  fun_induction Separator.loop builder before pending rest generalizing text with
  | case1 builder before pending => simpa using fed.flush pending
  | case2 builder before pending c rest kept ih => simpa using ih fed
  | case3 builder before pending c rest candidate digit ih =>
      have separators : ∀ other ∈ c :: rest.takeWhile isSeparator, isSeparator other = true := by
        intro other member
        rcases List.mem_cons.mp member with rfl | inside
        · simpa using (not_or.mp candidate).1
        · exact List.mem_takeWhile_imp inside
      have fedNext := ih (absorbRun_fed separators (fed.flush pending))
      simpa using fedNext
  | case4 builder before pending c rest candidate other ih => simpa using ih fed

theorem nfc_isPass : IsPass Nfc.apply := by
  intro text
  unfold Nfc.apply
  split
  · exact identity_run text
  · simpa using (Nfc.loop_fed [] text fed_empty).finish

theorem fold_isPass : IsPass Fold.apply := by
  intro text
  unfold Fold.apply
  split
  · exact identity_run text
  · simpa using (Fold.loop_fed [] text fed_empty).finish

theorem hangul_isPass (cfg : NumeralConfig) : IsPass fun text => Hangul.apply text cfg := by
  intro text
  simp only [Hangul.apply]
  split
  · exact identity_run text
  · simpa using (Hangul.loop_fed cfg [] [] text fed_empty).finish

theorem lookalike_isPass : IsPass Lookalike.apply := by
  intro text
  unfold Lookalike.apply
  split
  · exact identity_run text
  · simpa using (Lookalike.loop_fed [] [] text fed_empty).finish

theorem separator_isPass : IsPass Separator.apply := by
  intro text
  unfold Separator.apply
  split
  · exact identity_run text
  · simpa using (Separator.loop_fed [] [] text fed_empty).finish

theorem passes_isPass (cfg : NormalizeConfig) : ∀ pass ∈ passes cfg, IsPass pass.2 := by
  simp only [passes, List.forall_mem_cons]
  exact ⟨nfc_isPass, fold_isPass, hangul_isPass cfg.numeral, lookalike_isPass,
    separator_isPass, by simp⟩

/-! ## The pipeline -/

/-- Texts at the seams of the pipeline, the input first. -/
def pipelineTexts : List (Bool × (List Char → List Char × SpanMap)) → List Char →
    List (List Char)
  | [], text => [text]
  | pass :: rest, text =>
      text :: pipelineTexts rest (if pass.1 then (pass.2 text).1 else text)

/-- The map is the table of an alignment between the input and the current text. -/
def Aligned (text : List Char) (current : Normalized) : Prop :=
  ∃ atoms, Consuming atoms ∧ Alignment.src atoms = text ∧
    Alignment.dst atoms = current.text ∧ current.map = tableOf (pack atoms) ∧
    ∀ atom ∈ atoms, atom.Glued Digit

theorem aligned_identity (text : List Char) : Aligned text ⟨text, SpanMap.identity text⟩ :=
  ⟨keeps text, Alignment.consuming_keeps text, by simp, by simp, identity_eq text,
    Alignment.keeps_glued⟩

/-- One pass succeeds and keeps the map aligned. -/
theorem applyPass_aligned {text : List Char} {current : Normalized} {enabled : Bool}
    {pass : List Char → List Char × SpanMap} (aligned : Aligned text current)
    (isPass : IsPass pass) (fitsText : Fits text) (fitsCurrent : Fits current.text)
    (fitsNext : Fits (if enabled then (pass current.text).1 else current.text)) :
    ∃ next, applyPass enabled pass current = .ok next ∧ Aligned text next ∧
      next.text = if enabled then (pass current.text).1 else current.text := by
  cases enabled with
  | false => exact ⟨current, rfl, aligned, rfl⟩
  | true =>
      obtain ⟨atoms, consuming, srcEq, dstEq, mapEq, glued⟩ := aligned
      obtain ⟨calls, passEq, sourceEq, orderly⟩ := isPass current.text
      simp only [if_true] at fitsNext ⊢
      rw [passEq] at fitsNext
      have tableEq := build_eq (sourceEq ▸ fitsCurrent) fitsNext
      have texts : Alignment.dst atoms = Alignment.src (callAtoms calls) := by
        rw [dstEq, src_callAtoms, sourceEq]
      rw [build_text] at fitsNext
      obtain ⟨result, composes, composed⟩ := compose_eq consuming (consuming_callAtoms calls)
        texts (srcEq ▸ fitsText) (dstEq ▸ fitsCurrent) fitsNext
      refine ⟨⟨(pass current.text).1, tableOf (pack result)⟩, ?_, ?_, rfl⟩
      · simp only [applyPass, if_true, passEq, tableEq, mapEq, composed]
      · refine ⟨result, composes.consuming consuming (consuming_callAtoms calls), ?_, ?_, rfl, ?_⟩
        · rw [composes.src_eq, srcEq]
        · rw [composes.dst_eq texts, passEq, build_text]
        · exact composes.glued glued (fun atom member => (orderly atom member).1)
            (fun atom member => (orderly atom member).2) texts (consuming_callAtoms calls)

/-- A chain of passes succeeds and keeps the map aligned. -/
theorem pipeline_aligned {text : List Char} {current : Normalized}
    (chain : List (Bool × (List Char → List Char × SpanMap)))
    (isPass : ∀ pass ∈ chain, IsPass pass.2) (aligned : Aligned text current)
    (fitsText : Fits text) (fits : ∀ seam ∈ pipelineTexts chain current.text, Fits seam) :
    ∃ final, chain.foldlM (fun current pass => applyPass pass.1 pass.2 current) current =
        .ok final ∧ Aligned text final ∧ Fits final.text := by
  induction chain generalizing current with
  | nil => exact ⟨current, rfl, aligned, fits _ (by simp [pipelineTexts])⟩
  | cons pass chain ih =>
      simp only [pipelineTexts, List.forall_mem_cons] at fits isPass
      have seam : Fits (if pass.1 then (pass.2 current.text).1 else current.text) := by
        apply fits.2
        cases chain <;> simp [pipelineTexts]
      obtain ⟨next, applied, alignedNext, textEq⟩ :=
        applyPass_aligned aligned isPass.1 fitsText fits.1 seam
      rw [← textEq] at fits
      obtain ⟨final, ran, alignedFinal, fitsFinal⟩ := ih isPass.2 alignedNext fits.2
      exact ⟨final, by rw [List.foldlM_cons, applied]; exact ran, alignedFinal, fitsFinal⟩

/-! ## Tilings -/

/-- The span of a piece placed after a text, exact in bytes and characters. -/
structure Covers (before piece : List Char) (span : Span) : Prop where
  byteStart : span.byte.start.toNat = utf8Len before
  byteStop : span.byte.stop.toNat = utf8Len (before ++ piece)
  charStart : span.char.start.toNat = before.length
  charStop : span.char.stop.toNat = (before ++ piece).length

/-- Segments that cut two texts, placed after two others, into corresponding
pieces.  Identity segments have the same piece on both sides. -/
inductive Tiling : List Char → List Char → List Segment → List Char → List Char → Prop where
  | nil {before after : List Char} : Tiling before after [] [] []
  | cons {before after piece piece' src dst : List Char} {segment : Segment}
      {segments : List Segment} :
      Covers before piece segment.src → Covers after piece' segment.dst →
      (segment.kind = .identity → piece = piece') →
      Tiling (before ++ piece) (after ++ piece') segments src dst →
      Tiling before after (segment :: segments) (piece ++ src) (piece' ++ dst)

/-- The map passes its own check, its segments cut the two texts into exact
pieces whose slices concatenate to the texts, and an identity segment has the
same slice on both sides. -/
structure TilesTexts (text out : List Char) (map : SpanMap) : Prop where
  valid : map.validate = .ok ()
  exact : Tiling [] [] map.segments text out
  srcSlices : (map.segments.mapM fun (segment : Segment) => segment.src.slice text).map List.flatten =
    some text
  dstSlices : (map.segments.mapM fun (segment : Segment) => segment.dst.slice out).map List.flatten =
    some out
  identity : ∀ segment ∈ map.segments, segment.kind = .identity →
    segment.src.slice text = segment.dst.slice out

theorem Fits.mark_toNat {text : List Char} (fits : Fits text) :
    (mark text).1.toNat = utf8Len text ∧ (mark text).2.toNat = text.length :=
  ⟨UInt32.toNat_ofNat_of_lt' fits, UInt32.toNat_ofNat_of_lt' fits.length_lt⟩

theorem mark_mono {before text : List Char} (fits : Fits (before ++ text)) :
    (mark before).1 ≤ (mark (before ++ text)).1 ∧
      (mark before).2 ≤ (mark (before ++ text)).2 := by
  obtain ⟨startByte, startChar⟩ := fits.of_append_left.mark_toNat
  obtain ⟨stopByte, stopChar⟩ := fits.mark_toNat
  rw [UInt32.le_iff_toNat_le, UInt32.le_iff_toNat_le, startByte, startChar, stopByte, stopChar,
    utf8Len_append, List.length_append]
  omega

theorem covers_spanAt {before piece : List Char} (fits : Fits (before ++ piece)) :
    Covers before piece (spanAt before piece) := by
  obtain ⟨startByte, startChar⟩ := fits.of_append_left.mark_toNat
  obtain ⟨stopByte, stopChar⟩ := fits.mark_toNat
  exact ⟨startByte, stopByte, startChar, stopChar⟩

theorem Covers.slice {before piece : List Char} {span : Span} (covers : Covers before piece span)
    (after : List Char) : span.slice (before ++ piece ++ after) = some piece := by
  rw [Span.slice, covers.byteStart, covers.byteStop, utf8Len_append]
  exact sliceBytes_append before piece after

/-- A layout is a tiling by the texts of its tiles. -/
theorem layout_tiling (before after : List Char) (tiles : List Tile)
    (fitsSrc : Fits (before ++ srcText tiles)) (fitsDst : Fits (after ++ dstText tiles)) :
    Tiling before after (layout before after tiles) (srcText tiles) (dstText tiles) := by
  induction tiles generalizing before after with
  | nil => exact .nil
  | cons tile tiles ih =>
      simp only [srcText_cons, dstText_cons, ← List.append_assoc] at fitsSrc fitsDst
      refine .cons ?_ ?_ ?_ (ih _ _ fitsSrc fitsDst)
      · rw [Tile.segment_src]
        exact covers_spanAt fitsSrc.of_append_left
      · rw [Tile.segment_dst]
        exact covers_spanAt fitsDst.of_append_left
      · rw [Tile.segment_identity]
        intro isRun
        obtain ⟨text, rfl⟩ := Tile.run_of_isRun isRun
        rfl

namespace Tiling

variable {before after src dst : List Char} {segments : List Segment}

theorem slices (tiling : Tiling before after segments src dst) :
    (segments.mapM fun (segment : Segment) => segment.src.slice (before ++ src)).map List.flatten =
        some src ∧
      (segments.mapM fun (segment : Segment) => segment.dst.slice (after ++ dst)).map
        List.flatten = some dst := by
  induction tiling with
  | nil => exact ⟨rfl, rfl⟩
  | @cons before after piece piece' src dst segment segments srcCovers dstCovers same rest ih =>
      simp only [List.append_assoc, Option.map_eq_some_iff] at ih
      obtain ⟨⟨sources, sourcesEq, flat⟩, targets, targetsEq, flat'⟩ := ih
      have head := srcCovers.slice src
      have head' := dstCovers.slice dst
      rw [List.append_assoc] at head head'
      simp [List.mapM_cons, head, head', sourcesEq, targetsEq, flat, flat']

theorem identity (tiling : Tiling before after segments src dst) :
    ∀ segment ∈ segments, segment.kind = .identity →
      segment.src.slice (before ++ src) = segment.dst.slice (after ++ dst) := by
  induction tiling with
  | nil => simp
  | @cons before after piece piece' src dst segment segments srcCovers dstCovers same rest ih =>
      intro other member kind
      rcases List.mem_cons.mp member with rfl | inside
      · rw [← List.append_assoc, srcCovers.slice, ← List.append_assoc, dstCovers.slice,
          same kind]
      · simpa using ih other inside kind

/-- The end of a tiled destination text is an offset. -/
theorem fits (tiling : Tiling before after segments src dst) (start : Fits after) :
    Fits (after ++ dst) := by
  induction tiling with
  | nil => simpa using start
  | @cons before after piece piece' src dst segment segments srcCovers dstCovers same rest ih =>
      rw [← List.append_assoc]
      apply ih
      have bound := segment.dst.byte.stop.toNat_lt
      rw [dstCovers.byteStop] at bound
      exact bound

end Tiling

theorem Fits.of_append_right {left right : List Char} (fits : Fits (left ++ right)) :
    Fits right := by
  unfold Fits at *
  rw [utf8Len_append] at fits
  omega

theorem validateKind_segment {before after : List Char} {tile : Tile} (index : Nat)
    (nonempty : tile.src ≠ []) (fitsSrc : Fits (before ++ tile.src))
    (fitsDst : Fits (after ++ tile.dst)) :
    SpanMap.validateKind index (tile.segment before after) = .ok () := by
  have srcEmpty := (not_congr (spanAt_isEmpty fitsSrc)).mpr nonempty
  cases tile with
  | run text =>
      simp only [Tile.src, Tile.dst] at fitsSrc fitsDst
      simp [SpanMap.validateKind, Tile.segment, spanAt_byteLen fitsSrc, spanAt_byteLen fitsDst,
        spanAt_charLen fitsSrc, spanAt_charLen fitsDst, NormalizationCost.isZero]
  | block source target weight =>
      simp only [Tile.src, Tile.dst] at fitsSrc fitsDst nonempty srcEmpty
      have srcBound := fitsSrc.of_append_right.length_lt
      have dstBound := fitsDst.of_append_right.length_lt
      by_cases empty : target = []
      · have dstEmpty := (spanAt_isEmpty fitsDst).mpr empty
        subst empty
        simp [SpanMap.validateKind, Tile.segment, Tile.kindOf, srcEmpty, dstEmpty]
      · have dstEmpty := (not_congr (spanAt_isEmpty fitsDst)).mpr empty
        by_cases grows : source.length < target.length
        · have longer := (ofNat_length_lt srcBound dstBound).mpr grows
          simp [SpanMap.validateKind, Tile.segment, Tile.kindOf, empty, grows,
            spanAt_charLen fitsSrc, spanAt_charLen fitsDst, longer]
        · simp [SpanMap.validateKind, Tile.segment, Tile.kindOf, empty, grows, srcEmpty,
            dstEmpty]

/-- A layout passes the invariant check. -/
theorem validateFrom_layout (index : Nat) (before after : List Char) {tiles : List Tile}
    (solid : Solid tiles) (fitsSrc : Fits (before ++ srcText tiles))
    (fitsDst : Fits (after ++ dstText tiles)) :
    SpanMap.validateFrom index (mark before).1 (mark before).2 (mark after).1 (mark after).2
      (layout before after tiles) = .ok () := by
  induction tiles generalizing index before after with
  | nil => rfl
  | cons tile tiles ih =>
      obtain ⟨nonempty, solidTail⟩ := solid_cons.mp solid
      simp only [srcText_cons, dstText_cons, ← List.append_assoc] at fitsSrc fitsDst
      have srcTile := fitsSrc.of_append_left
      have dstTile := fitsDst.of_append_left
      have srcEmpty := (not_congr (spanAt_isEmpty srcTile)).mpr nonempty
      have rest := ih (index + 1) _ _ solidTail fitsSrc fitsDst
      rw [layout_cons, SpanMap.validateFrom, validateKind_segment index nonempty srcTile dstTile]
      simp only [Tile.segment_src, Tile.segment_dst, spanAt_byte, spanAt_char]
      rw [if_neg (by simp), if_neg (by simp), if_neg, if_neg, if_neg srcEmpty]
      · exact rest
      · rintro (reversed | reversed)
        · exact absurd reversed (UInt32.not_lt.mpr (mark_mono srcTile).2)
        · exact absurd reversed (UInt32.not_lt.mpr (mark_mono dstTile).2)
      · rintro (reversed | reversed)
        · exact absurd reversed (UInt32.not_lt.mpr (mark_mono srcTile).1)
        · exact absurd reversed (UInt32.not_lt.mpr (mark_mono dstTile).1)

/-- The table of a tile list tiles its two texts. -/
theorem tableOf_tilesTexts {tiles : List Tile} (solid : Solid tiles)
    (fitsSrc : Fits (srcText tiles)) (fitsDst : Fits (dstText tiles)) :
    TilesTexts (srcText tiles) (dstText tiles) (tableOf tiles) := by
  have tiling := layout_tiling [] [] tiles fitsSrc fitsDst
  exact ⟨validateFrom_layout 0 [] [] solid fitsSrc fitsDst, tiling, tiling.slices.1,
    tiling.slices.2, tiling.identity⟩

/-- The pipeline succeeds on every text whose normal forms at the seams are
representable, and its map tiles the input and the normalised text. -/
theorem normalize_tiles (text : List Char) (cfg : NormalizeConfig)
    (fits : ∀ seam ∈ pipelineTexts (passes cfg) text, Fits seam) :
    ∃ normalized, normalize text cfg = .ok normalized ∧
      TilesTexts text normalized.text normalized.map := by
  have fitsText : Fits text := fits text (by simp [passes, pipelineTexts])
  obtain ⟨final, ran, ⟨atoms, consuming, srcEq, dstEq, mapEq, -⟩, fitsFinal⟩ :=
    pipeline_aligned (passes cfg) (passes_isPass cfg) (aligned_identity text) fitsText fits
  refine ⟨final, ran, ?_⟩
  rw [mapEq, ← dstEq, ← dstText_pack, ← srcEq, ← srcText_pack]
  exact tableOf_tilesTexts (solid_pack consuming) (by rwa [srcText_pack, srcEq])
    (by rwa [dstText_pack, dstEq])

theorem normalize_tiles_folded :
    (∀ seam ∈ pipelineTexts (passes { hangul := false, separator := false }) "１-O２".toList,
      Fits seam) ∧
      ∃ normalized,
        normalize "１-O２".toList { hangul := false, separator := false } = .ok normalized ∧
          TilesTexts "１-O２".toList normalized.text normalized.map :=
  ⟨by decide, normalize_tiles _ _ (by decide)⟩

end AiCoreStack.Pii
