import AiCoreStack.Pii.NormalizeTiling

/-!
# Texts that outgrow the offsets

The numeral pass can lengthen a text: `일억` takes six bytes and is rewritten to
nine digits.  A text well below `2 ^ 32` bytes can therefore normalise to one
that the `u32` offsets cannot reach any more.
-/

namespace AiCoreStack.Pii

open AiCoreStack.Foundation
open AiCoreStack.Foundation.Alignment (keeps)
open String (utf8Len utf8Len_nil utf8Len_cons utf8Len_append)

namespace SpanMapBuilder

theorem flush_eq_keep (builder : SpanMapBuilder) (pending : List Char) :
    builder.flush pending = builder.keep pending := by
  rw [flush]
  split
  next empty => simp [keep, empty]
  next => rfl

theorem finish_flush (text : List Char) :
    (({} : SpanMapBuilder).flush text).finish = (text, SpanMap.identity text) := by
  rw [flush_eq_keep]
  by_cases empty : text = []
  · simp [SpanMap.identity, finish, keep, empty]
  · simp [SpanMap.identity, finish, keep, empty, advanceSrc, advanceDst]

end SpanMapBuilder

namespace Hangul

theorem runLength_of_some {text : List Char} {token : Token} {consumed : Nat}
    (read : nextToken text = some (token, consumed)) :
    runLength text = consumed + runLength (text.drop consumed) := by
  rw [runLength]
  split
  next token' consumed' read' =>
      rw [read] at read'
      simp only [Option.some.injEq, Prod.mk.injEq] at read'
      rw [read'.2]
  next none => rw [read] at none; exact absurd none (by simp)

theorem runLength_of_none {text : List Char} (ended : nextToken text = none) :
    runLength text = 0 := by
  rw [runLength]
  split
  next token consumed read => rw [ended] at read; exact absurd read (by simp)
  next => rfl

theorem tokensWithin_of_some {text : List Char} {stop : Nat} {token : Token} {consumed : Nat}
    (read : nextToken text = some (token, consumed)) (positive : 0 < stop)
    (within : consumed ≤ stop) :
    tokensWithin text stop = token :: tokensWithin (text.drop consumed) (stop - consumed) := by
  rw [tokensWithin, if_neg (by omega)]
  split
  next none => rw [read] at none; exact absurd none (by simp)
  next token' consumed' read' =>
      rw [read] at read'
      simp only [Option.some.injEq, Prod.mk.injEq] at read'
      obtain ⟨rfl, rfl⟩ := read'
      rw [if_neg (by omega)]

/-- The reading of one hundred million in front of a digit. -/
theorem scanRun_hundredMillion (rest : List Char) :
    scanRun ('일' :: '억' :: '1' :: rest) = ([.digit 1, .unit 100000000], 2) := by
  have one : nextToken ('일' :: '억' :: '1' :: rest) = some (.digit 1, 1) := rfl
  have unit : nextToken ('억' :: '1' :: rest) = some (.unit 100000000, 1) := rfl
  have ended : nextToken ('1' :: rest) = none := rfl
  have length : runLength ('일' :: '억' :: '1' :: rest) = 2 := by
    rw [runLength_of_some one, List.drop_one, List.tail_cons, runLength_of_some unit,
      List.drop_one, List.tail_cons, runLength_of_none ended]
  have kept : trimSentenceEnding ('일' :: '억' :: '1' :: rest) 2 = 2 := rfl
  have tokens : tokensWithin ('일' :: '억' :: '1' :: rest) 2 =
      [.digit 1, .unit 100000000] := by
    rw [tokensWithin_of_some one (by decide) (by decide), List.drop_one, List.tail_cons,
      tokensWithin_of_some unit (by decide) (by decide), tokensWithin_zero]
  simp only [scanRun, length, kept, tokens]

theorem tokensWithin_of_none {text : List Char} (ended : nextToken text = none) (stop : Nat) :
    tokensWithin text stop = [] := by
  rw [tokensWithin]
  split
  · rfl
  · split
    · rfl
    next token consumed read => rw [ended] at read; exact absurd read (by simp)

variable {cfg : NumeralConfig} {builder : SpanMapBuilder} {before pending rest : List Char}

theorem loop_of_none {c : Char} (ended : nextToken (c :: rest) = none) :
    loop cfg builder before pending (c :: rest) =
      loop cfg builder (c :: before) (pending ++ [c]) rest := by
  rw [loop]
  split
  · rfl
  next token tokens stop scanned =>
      rw [scanRun, tokensWithin_of_none ended] at scanned
      exact absurd (Prod.mk.inj scanned).1 (by simp)

/-- A run that is read as digits is rewritten when the digits are trusted. -/
theorem loop_of_converted {text digits : List Char} {tokens : List Token} {stop : Nat}
    {rule : RuleId} (scanned : scanRun text = (tokens, stop)) (nonempty : tokens ≠ [])
    (converted : convert tokens = some (digits, rule)) :
    loop cfg builder before pending text =
      if longEnough cfg digits before (text.drop stop) then
        loop cfg ((builder.flush pending).numeral (text.take stop) digits rule)
          ((text.take stop).reverse ++ before) [] (text.drop stop)
      else
        loop cfg builder ((text.take stop).reverse ++ before) (pending ++ text.take stop)
          (text.drop stop) := by
  cases text with
  | nil =>
      have none : tokens = [] := by
        rw [← (Prod.mk.inj scanned).1, tokensWithin_of_none rfl]
      exact absurd none nonempty
  | cons c rest =>
      rw [loop]
      split
      next stop' empty =>
          rw [scanned] at empty
          exact absurd (Prod.mk.inj empty).1 nonempty
      next token tokens' stop' found =>
          rw [scanned] at found
          obtain ⟨rfl, rfl⟩ := Prod.mk.inj found
          simp only [converted]

theorem loop_hundredMillion :
    loop {} builder before pending ('일' :: '억' :: '1' :: rest) =
      loop {} ((builder.flush pending).numeral ['일', '억'] "100000000".toList ruleUnit)
        ('억' :: '일' :: before) [] ('1' :: rest) := by
  have converted : convert [.digit 1, .unit 100000000] =
      some ("100000000".toList, ruleUnit) := by decide
  rw [loop_of_converted (scanRun_hundredMillion rest) (by simp) converted, if_pos (by rfl)]
  rfl

theorem flush_out (builder : SpanMapBuilder) (pending : List Char) :
    (builder.flush pending).out = builder.out ++ pending := by
  unfold SpanMapBuilder.flush
  split
  next empty => simp [empty]
  next nonempty =>
      simp [SpanMapBuilder.keep, nonempty, SpanMapBuilder.advanceSrc, SpanMapBuilder.advanceDst]

/-- Digits in front of the end of the text stay as they are. -/
theorem loop_ones_out (count : Nat) :
    (loop cfg builder before pending (List.replicate count '1')).out =
      builder.out ++ pending ++ List.replicate count '1' := by
  induction count generalizing before pending with
  | zero => simp [loop, flush_out]
  | succ count ih =>
      rw [List.replicate_succ, loop_of_none rfl, ih]
      simp

/-- Output of the walk over repeated readings of one hundred million. -/
theorem loop_hundredMillions_out (count ones : Nat) :
    (loop {} builder before pending
      ((List.replicate count ['일', '억', '1']).flatten ++ List.replicate ones '1')).out =
      builder.out ++ pending ++ (List.replicate count "1000000001".toList).flatten ++
        List.replicate ones '1' := by
  induction count generalizing builder before pending with
  | zero => simpa using loop_ones_out ones
  | succ count ih =>
      simp only [List.replicate_succ, List.flatten_cons, List.cons_append, List.nil_append]
      rw [loop_hundredMillion, loop_of_none rfl, ih]
      simp [SpanMapBuilder.numeral, SpanMapBuilder.pushTransform, SpanMapBuilder.advanceSrc,
        SpanMapBuilder.advanceDst, flush_out]

end Hangul

/-- A text that the numeral pass lengthens by three bytes in seven. -/
def lengthening (count ones : Nat) : List Char :=
  'a' :: ((List.replicate count ['일', '억', '1']).flatten ++ List.replicate ones '1')

/-- Its normal form. -/
def lengthened (count ones : Nat) : List Char :=
  'a' :: ((List.replicate count "1000000001".toList).flatten ++ List.replicate ones '1')

theorem utf8Len_replicate_flatten (count : Nat) (piece : List Char) :
    utf8Len (List.replicate count piece).flatten = count * utf8Len piece := by
  induction count with
  | zero => simp
  | succ count ih =>
      rw [List.replicate_succ, List.flatten_cons, utf8Len_append, ih, Nat.add_mul]
      omega

theorem utf8Len_replicate_one (count : Nat) : utf8Len (List.replicate count '1') = count := by
  induction count with
  | zero => rfl
  | succ count ih =>
      rw [List.replicate_succ, utf8Len_cons, ih]
      rfl

theorem utf8Len_lengthening (count ones : Nat) :
    utf8Len (lengthening count ones) = 7 * count + ones + 1 := by
  have unit : utf8Len ['일', '억', '1'] = 7 := by decide
  have letter : 'a'.utf8Size = 1 := by decide
  rw [lengthening, utf8Len_cons, utf8Len_append, utf8Len_replicate_flatten,
    utf8Len_replicate_one, unit, letter]
  omega

theorem utf8Len_lengthened (count ones : Nat) :
    utf8Len (lengthened count ones) = 10 * count + ones + 1 := by
  have unit : utf8Len "1000000001".toList = 10 := by decide
  have letter : 'a'.utf8Size = 1 := by decide
  rw [lengthened, utf8Len_cons, utf8Len_append, utf8Len_replicate_flatten,
    utf8Len_replicate_one, unit, letter]
  omega

theorem hangul_apply_lengthening {count : Nat} (positive : 0 < count) (ones : Nat) :
    (Hangul.apply (lengthening count ones) {}).1 = lengthened count ones := by
  have starts : (lengthening count ones).any Hangul.mayStartNumeral = true := by
    obtain ⟨count, rfl⟩ := Nat.exists_eq_succ_of_ne_zero (Nat.ne_of_gt positive)
    have syllable : Hangul.mayStartNumeral '일' = true := by decide
    simp [lengthening, List.replicate_succ, syllable]
  rw [Hangul.apply, if_neg (by simp [starts])]
  change (Hangul.loop {} {} [] [] (lengthening count ones)).out = _
  rw [lengthening, Hangul.loop_of_none rfl, Hangul.loop_hundredMillions_out]
  rfl

/-- Only the numeral pass. -/
def numeralOnly : NormalizeConfig :=
  { nfc := false, fold := false, lookalike := false, separator := false }

theorem normalize_numeralOnly (text : List Char) :
    normalize text numeralOnly =
      applyPass true (fun current => Hangul.apply current {}) ⟨text, SpanMap.identity text⟩ := by
  cases composed : SpanMap.compose (SpanMap.identity text) (Hangul.apply text {}).2 <;>
    simp [normalize, passes, numeralOnly, applyPass, List.foldlM_cons, bind, Except.bind, pure,
      Except.pure, composed]

theorem normalize_numeralOnly_text {text : List Char} {normalized : Normalized}
    (ran : normalize text numeralOnly = .ok normalized) :
    normalized.text = (Hangul.apply text {}).1 := by
  rw [normalize_numeralOnly, applyPass, if_pos rfl] at ran
  split at ran
  · cases ran
    rfl
  · exact absurd ran (by simp)

/-! ## A single pass composes -/

/-- Spans of consecutive pieces. -/
def pieceSpans (before : List Char) : List (List Char) → List Span
  | [] => []
  | piece :: pieces => spanAt before piece :: pieceSpans (before ++ piece) pieces

theorem pieceSpans_append (before : List Char) (left right : List (List Char)) :
    pieceSpans before (left ++ right) =
      pieceSpans before left ++ pieceSpans (before ++ left.flatten) right := by
  induction left generalizing before with
  | nil => simp [pieceSpans]
  | cons piece left ih => simp [pieceSpans, ih]

/-- The builder's source offsets, whatever its output is. -/
structure Reads (builder : SpanMapBuilder) (pieces : List (List Char)) : Prop where
  spans : builder.segments.map Segment.src = pieceSpans [] pieces
  nonempty : [] ∉ pieces
  cursor : (builder.srcByte, builder.srcChar) = mark pieces.flatten

theorem reads_empty : Reads {} [] := ⟨rfl, by simp, rfl⟩

namespace Reads

variable {builder : SpanMapBuilder} {pieces : List (List Char)}

theorem srcSpan (reads : Reads builder pieces) (text : List Char) :
    (builder.advanceSrc text).2 = spanAt pieces.flatten text := by
  obtain ⟨byte, char⟩ := Prod.mk.injEq _ _ _ _ ▸ reads.cursor
  simp [SpanMapBuilder.advanceSrc, spanAt, mark_append, byte, char]
  simp [mark]

theorem cursor_advance (reads : Reads builder pieces) (text : List Char) :
    ((builder.advanceSrc text).1.srcByte, (builder.advanceSrc text).1.srcChar) =
      mark (pieces.flatten ++ text) := by
  obtain ⟨byte, char⟩ := Prod.mk.injEq _ _ _ _ ▸ reads.cursor
  rw [mark_append]
  simp [SpanMapBuilder.advanceSrc, mark, byte, char]

theorem push (reads : Reads builder pieces) {text : List Char} (nonempty : text ≠ [])
    {next : SpanMapBuilder}
    (spans : next.segments.map Segment.src =
      builder.segments.map Segment.src ++ [(builder.advanceSrc text).2])
    (cursor : (next.srcByte, next.srcChar) =
      ((builder.advanceSrc text).1.srcByte, (builder.advanceSrc text).1.srcChar)) :
    Reads next (pieces ++ [text]) := by
  constructor
  · rw [spans, reads.spans, reads.srcSpan, pieceSpans_append]
    simp [pieceSpans]
  · simpa [reads.nonempty] using nonempty
  · rw [cursor, reads.cursor_advance]
    simp

/-- A kept text may lengthen the last piece. -/
theorem keep (reads : Reads builder pieces) {text : List Char} (nonempty : text ≠ []) :
    ∃ longer, Reads (builder.keep text) longer ∧ longer.flatten = pieces.flatten ++ text := by
  have segments : (builder.keep text).segments =
      pushIdentity builder.segments (builder.advanceSrc text).2 (builder.advanceDst text).2 := by
    rw [SpanMapBuilder.keep, if_neg nonempty]
    rfl
  have cursor : ((builder.keep text).srcByte, (builder.keep text).srcChar) =
      ((builder.advanceSrc text).1.srcByte, (builder.advanceSrc text).1.srcChar) := by
    rw [SpanMapBuilder.keep, if_neg nonempty]
    rfl
  have appended (spans : (builder.keep text).segments.map Segment.src =
      builder.segments.map Segment.src ++ [(builder.advanceSrc text).2]) :
      ∃ longer, Reads (builder.keep text) longer ∧ longer.flatten = pieces.flatten ++ text :=
    ⟨pieces ++ [text], reads.push nonempty spans cursor, by simp⟩
  rw [pushIdentity] at segments
  split at segments
  next last found =>
    split at segments
    next identity =>
      -- the piece of the last segment takes the text in
      obtain ⟨init, initEq⟩ := List.getLast?_eq_some_iff.mp found
      rcases List.eq_nil_or_concat pieces with rfl | ⟨front, piece, rfl⟩
      · have none := reads.spans
        rw [initEq] at none
        simp [pieceSpans] at none
      · have spans := reads.spans
        rw [initEq, List.concat_eq_append, pieceSpans_append, List.map_append] at spans
        obtain ⟨initSpans, lastSpan⟩ := List.append_inj' spans rfl
        have lastSrc : last.src = spanAt front.flatten piece := by
          simpa [pieceSpans] using lastSpan
        refine ⟨front ++ [piece ++ text], ⟨?_, ?_, ?_⟩, by simp⟩
        · rw [segments, initEq, List.dropLast_concat, List.map_append, initSpans,
            pieceSpans_append, reads.srcSpan]
          simp [pieceSpans, Segment.extendTo, lastSrc, spanAt]
        · have old := reads.nonempty
          simp only [List.concat_eq_append, List.mem_append, not_or] at old
          simp [old.1, nonempty]
        · rw [cursor, reads.cursor_advance]
          simp
    next => exact appended (by simp [segments])
  next => exact appended (by simp [segments])

/-- Every call hands its source to the builder. -/
theorem step (reads : Reads builder pieces) (call : Call) :
    ∃ longer, Reads (Call.run builder call) longer ∧
      longer.flatten = pieces.flatten ++ call.source := by
  by_cases empty : call.source = []
  · refine ⟨pieces, ?_, by simp [empty]⟩
    cases call <;> simp only [Call.source] at empty <;> subst empty <;>
      simpa [Call.run, SpanMapBuilder.keep, SpanMapBuilder.replace, SpanMapBuilder.numeral,
        SpanMapBuilder.absorb] using reads
  · cases call with
    | keep text => exact reads.keep empty
    | replace source target rule =>
        simp only [Call.source] at empty
        refine ⟨pieces ++ [source], reads.push empty ?_ ?_, by simp [Call.source]⟩ <;>
          rw [Call.run, SpanMapBuilder.replace, if_neg empty]
        · simp [SpanMapBuilder.pushTransform, SpanMapBuilder.advanceSrc,
            SpanMapBuilder.advanceDst]
        · rfl
    | numeral source target rule =>
        simp only [Call.source] at empty
        refine ⟨pieces ++ [source], reads.push empty ?_ ?_, by simp [Call.source]⟩ <;>
          rw [Call.run, SpanMapBuilder.numeral, if_neg empty]
        · simp [SpanMapBuilder.pushTransform, SpanMapBuilder.advanceSrc,
            SpanMapBuilder.advanceDst]
        · rfl
    | absorb source rule kind =>
        simp only [Call.source] at empty
        refine ⟨pieces ++ [source], reads.push empty ?_ ?_, by simp [Call.source]⟩ <;>
          rw [Call.run, SpanMapBuilder.absorb, if_neg empty]
        · simp [SpanMapBuilder.pushTransform, SpanMapBuilder.advanceSrc]
        · rfl

end Reads

/-- The source offsets of a builder run, whatever its output is. -/
theorem build_reads (calls : List Call) :
    ∃ pieces, (build calls).2.segments.map Segment.src = pieceSpans [] pieces ∧ [] ∉ pieces ∧
      pieces.flatten = calls.flatMap Call.source := by
  have reads : ∃ pieces, Reads (calls.foldl Call.run {}) pieces ∧
      pieces.flatten = calls.flatMap Call.source := by
    induction calls using List.reverseRecOn with
    | nil => exact ⟨[], reads_empty, rfl⟩
    | append_singleton calls call ih =>
        obtain ⟨pieces, reads, flat⟩ := ih
        obtain ⟨longer, reads, flat'⟩ := reads.step call
        rw [List.foldl_append]
        exact ⟨longer, reads, by simp [flat', flat]⟩
  obtain ⟨pieces, reads, flat⟩ := reads
  exact ⟨pieces, reads.spans, reads.nonempty, flat⟩

/-- A position that a segment of the table starts or ends with is carried forward. -/
theorem forwardPoint_isOk {outer : SpanMap} {index : Nat} {segment : Segment}
    (byte char : UInt32) (found : outer.segments[index]? = some segment)
    (edge : segment.src.byte.start = byte ∨ segment.src.byte.stop = byte) :
    ∃ point, outer.forwardPoint index byte char = .ok point := by
  have carried : ∃ point,
      SpanMap.carryPoint segment.kind segment.src segment.dst byte char = some point := by
    unfold SpanMap.carryPoint
    split
    · exact ⟨_, rfl⟩
    next differs => exact ⟨_, if_pos (edge.resolve_left differs)⟩
  obtain ⟨point, carried⟩ := carried
  refine ⟨point, ?_⟩
  rw [SpanMap.forwardPoint, found]
  simp only [carried]

theorem backwardPoint_identity_run {text front rest : List Char} (split : text = front ++ rest)
    (fits : Fits text) :
    (tableOf [.run text]).backwardPoint 0 (mark front).1 (mark front).2 = .ok (mark front) := by
  subst split
  exact @backwardPoint_eq [] [] _ _ _ (Tile.Reached.part front rest) id
    (by simpa [Tile.dst] using fits)

/-- Nothing is left of a text exactly when the cut is at its end. -/
theorem cut_covers_iff {text front rest : List Char} (split : text = front ++ rest)
    (fits : Fits text) : (mark text).1 ≤ (mark front).1 ↔ rest = [] := by
  subst split
  constructor
  · intro covered
    by_contra nonempty
    exact UInt32.not_lt.mpr covered (mark_lt_append fits nonempty)
  · rintro rfl
    simp

theorem flatten_eq_nil {pieces : List (List Char)} (nonempty : [] ∉ pieces) :
    pieces.flatten = [] ↔ pieces = [] := by
  constructor
  · intro empty
    apply List.eq_nil_iff_forall_not_mem.mpr
    intro piece member
    exact nonempty (List.flatten_eq_nil_iff.mp empty piece member ▸ member)
  · rintro rfl
    rfl

/-- An identity run is cut wherever the next outer segment ends. -/
theorem widen_identity_run {text piece before rest : List Char} (bb : UInt32) {segJ : Segment}
    (js : List Segment) (split : text = before ++ piece ++ rest) (fits : Fits text)
    (src : segJ.src = spanAt before piece) :
    SpanMap.widen bb [] ((Tile.run text).segment [] []) [] [] segJ js =
      .ok ⟨[], (Tile.run text).segment [] [], [], [], segJ, js, (mark (before ++ piece)).1,
        (mark (before ++ piece)).2⟩ := by
  by_cases last : rest = []
  · subst last
    rw [widen_same]
    · simp [Tile.segment, spanAt, split]
    · simp [src, Tile.segment, spanAt, split]
  · have longer := mark_lt_append (split ▸ fits) last
    rw [← split] at longer
    rw [widen_inner_identity]
    · simp [src, spanAt]
    · simpa [src, Tile.segment, spanAt] using longer
    · rfl

/-- The loop over an identity run closes one group for every outer segment. -/
theorem composeLoop_identity {outer : SpanMap} {text : List Char} (before : List Char)
    (fits : Fits text) {pieces : List (List Char)} (done : List Segment) {js : List Segment}
    (table : outer.segments = done ++ js)
    (spans : js.map Segment.src = pieceSpans before pieces) (nonempty : [] ∉ pieces)
    (texts : text = before ++ pieces.flatten) (out : List Segment) :
    ∃ result, SpanMap.composeLoop (tableOf [.run text]) outer
      (if pieces = [] then [] else [(Tile.run text).segment [] []]) js
      (mark before).1 (mark before).2 out = .ok result := by
  induction pieces generalizing before done js out with
  | nil =>
      obtain rfl : js = [] := by simpa [pieceSpans] using spans
      exact ⟨out, by simp [SpanMap.composeLoop]⟩
  | cons piece pieces ih =>
      cases js with
      | nil => simp [pieceSpans] at spans
      | cons segJ js =>
          obtain ⟨head, tail⟩ := List.cons.inj spans
          simp only [List.mem_cons, not_or] at nonempty
          have split : text = before ++ piece ++ pieces.flatten := by simpa using texts
          have fitsAll : Fits (before ++ piece ++ pieces.flatten) := split ▸ fits
          have fitsPiece := fitsAll.of_append_left
          have produces : ((Tile.run text).segment [] []).dst.isEmpty = false := by
            rw [Tile.segment_dst, ← Bool.not_eq_true, spanAt_isEmpty (by exact fits)]
            intro empty
            change text = [] at empty
            rw [split] at empty
            simp [Ne.symm nonempty.1] at empty
          have consumes : segJ.src.isEmpty = false := by
            rw [head, ← Bool.not_eq_true, spanAt_isEmpty fitsPiece]
            exact Ne.symm nonempty.1
          have closed := widen_identity_run (mark before).1 js split fits head
          have aStart := backwardPoint_identity_run (List.append_assoc .. ▸ split) fits
          have aStop := backwardPoint_identity_run split fits
          have found : outer.segments[outer.segments.length - (segJ :: js).length]? =
              some segJ := by
            simp [table]
          obtain ⟨c0, cStart⟩ := forwardPoint_isOk (mark before).1 (mark before).2 found
            (.inl (by rw [head]; rfl))
          obtain ⟨c1, cStop⟩ := forwardPoint_isOk (mark (before ++ piece)).1
            (mark (before ++ piece)).2 found (.inr (by rw [head]; rfl))
          rw [if_neg (by simp), composeLoop_group produces consumes closed aStart aStop cStart
            cStop]
          have outerNext : (SpanMap.Group.mk [] ((Tile.run text).segment [] []) [] [] segJ js
              (mark (before ++ piece)).1 (mark (before ++ piece)).2).outerNext = js :=
            SpanMap.Group.outerNext_of_le (by rw [head]; exact UInt32.le_refl _)
          have innerNext : (SpanMap.Group.mk [] ((Tile.run text).segment [] []) [] [] segJ js
              (mark (before ++ piece)).1 (mark (before ++ piece)).2).innerNext =
              if pieces = [] then [] else [(Tile.run text).segment [] []] := by
            have covers : ((Tile.run text).segment [] []).dst.byte.stop ≤
                (mark (before ++ piece)).1 ↔ pieces = [] := by
              rw [← flatten_eq_nil nonempty.2, ← cut_covers_iff split fits]
              rfl
            by_cases last : pieces = []
            · rw [SpanMap.Group.innerNext, if_pos (covers.mpr last), if_pos last]
            · rw [SpanMap.Group.innerNext, if_neg (covers.not.mpr last), if_neg last]
          rw [innerNext, outerNext]
          exact ih (before ++ piece) (done ++ [segJ]) (by simp [table]) tail nonempty.2 split _

theorem srcEnd_of_spans {map : SpanMap} {pieces : List (List Char)}
    (spans : map.segments.map Segment.src = pieceSpans [] pieces) :
    map.srcEnd = mark pieces.flatten := by
  have last : map.segments.getLast?.map Segment.src = (pieceSpans [] pieces).getLast? := by
    rw [← spans, List.getLast?_map]
  rw [SpanMap.srcEnd]
  rcases List.eq_nil_or_concat pieces with rfl | ⟨init, piece, rfl⟩
  · rw [List.map_eq_nil_iff.mp spans]
    rfl
  · rw [List.concat_eq_append, pieceSpans_append, pieceSpans, pieceSpans,
      List.getLast?_concat] at last
    obtain ⟨segment, found, src⟩ := Option.map_eq_some_iff.mp last
    rw [found]
    simp [src, spanAt]

/-- The identity map of a representable text composes with every builder run over it,
also with one whose output offsets wrap. -/
theorem compose_identity_build {text : List Char} (fits : Fits text) {calls : List Call}
    (source : calls.flatMap Call.source = text) :
    ∃ map, SpanMap.compose (SpanMap.identity text) (build calls).2 = .ok map := by
  obtain ⟨pieces, spans, nonempty, flat⟩ := build_reads calls
  rw [source] at flat
  have ends : (SpanMap.identity text).dstEnd = (build calls).2.srcEnd := by
    rw [identity_eq, tableOf_dstEnd, dstText_pack, Alignment.dst_keeps,
      srcEnd_of_spans spans, flat]
  have looped : ∃ out, SpanMap.composeLoop (SpanMap.identity text) (build calls).2
      (SpanMap.identity text).segments (build calls).2.segments 0 0 [] = .ok out := by
    by_cases empty : text = []
    · have none := (flatten_eq_nil nonempty).mp (flat.trans empty)
      rw [none] at spans
      rw [List.map_eq_nil_iff.mp spans, empty]
      exact ⟨[], by simp [SpanMap.identity, SpanMapBuilder.keep, SpanMapBuilder.finish,
        SpanMap.composeLoop]⟩
    · have some : pieces ≠ [] := (flatten_eq_nil nonempty).not.mp (flat ▸ empty)
      have run := composeLoop_identity [] fits [] (List.nil_append _).symm
        spans nonempty flat.symm []
      rw [if_neg some] at run
      rw [identity_eq, pack_keeps empty]
      exact run
  obtain ⟨out, looped⟩ := looped
  refine ⟨⟨mergeAdjacentIdentity out⟩, ?_⟩
  rw [SpanMap.compose, if_neg (by simp [ends]), looped]

theorem normalize_numeralOnly_isOk {text : List Char} (fits : Fits text) :
    ∃ normalized, normalize text numeralOnly = .ok normalized := by
  obtain ⟨calls, passEq, source, -⟩ := hangul_isPass {} text
  obtain ⟨map, composed⟩ := compose_identity_build fits source
  rw [← passEq] at composed
  rw [normalize_numeralOnly, applyPass, if_pos rfl, composed]
  exact ⟨_, rfl⟩

/-! ## Lengthened past the offsets -/

/-- A text of 3006477109 bytes whose normal form has `2 ^ 32` bytes is not tiled. -/
theorem not_normalize_tiles_lengthening :
    utf8Len (lengthening 429496729 5) < 2 ^ 32 ∧
      ¬ ∃ normalized, normalize (lengthening 429496729 5) numeralOnly = .ok normalized ∧
        TilesTexts (lengthening 429496729 5) normalized.text normalized.map := by
  refine ⟨by rw [utf8Len_lengthening]; decide, ?_⟩
  rintro ⟨normalized, ran, tiles⟩
  have fits := tiles.exact.fits (by decide)
  rw [List.nil_append, normalize_numeralOnly_text ran, hangul_apply_lengthening (by decide),
    Fits, utf8Len_lengthened] at fits
  exact absurd fits (by decide)

/-! ## Blanks up to the limit -/

/-- A syllable in two letters, blanks, and an address. -/
def spaced (count : Nat) : List Char :=
  'ᄀ' :: 'ᅡ' :: (List.replicate count ' ' ++ "a@b.co".toList)

/-- Its normal form. -/
def unspaced (count : Nat) : List Char :=
  '가' :: (List.replicate count ' ' ++ "a@b.co".toList)

/-- Only the composing pass. -/
def composeOnly : NormalizeConfig :=
  { fold := false, hangul := false, lookalike := false, separator := false }

theorem Nfc.loop_of_none (builder : SpanMapBuilder) (pending : List Char) {rest : List Char}
    (plain : ∀ c ∈ rest, isLead c = false ∧ isLvSyllable c = false) :
    Nfc.loop builder pending rest = builder.flush (pending ++ rest) := by
  induction rest generalizing pending with
  | nil => rw [Nfc.loop, List.append_nil]
  | cons c rest ih =>
      rw [List.forall_mem_cons] at plain
      have none : composeAt (c :: rest) = none := by
        simp [composeAt, plain.1]
      rw [Nfc.loop]
      split
      next syllable consumed composed =>
        rw [none] at composed
        exact absurd composed (by simp)
      next => rw [ih _ plain.2, List.append_assoc, List.singleton_append]

theorem Nfc.plain_of_ascii {c : Char} (ascii : c.toNat < 128) :
    isLead c = false ∧ isLvSyllable c = false := by
  constructor
  · simp only [isLead, inRange, decide_eq_false_iff_not]
    omega
  · apply decide_eq_false
    rintro ⟨⟨above, -⟩, -⟩
    exact absurd (Nat.lt_of_lt_of_le ascii (by decide)) (Nat.not_lt.mpr above)

theorem ascii_of_mem_blanks {count : Nat} {c : Char}
    (member : c ∈ List.replicate count ' ' ++ "a@b.co".toList) : c.toNat < 128 := by
  have address : ∀ d ∈ "a@b.co".toList, d.toNat < 128 := by simp
  rcases List.mem_append.mp member with blank | inside
  · rw [List.eq_of_mem_replicate blank]
    decide
  · exact address c inside

theorem nfc_spaced (count : Nat) : Nfc.apply (spaced (count + 1)) =
    ((({} : SpanMapBuilder).replace ['ᄀ', 'ᅡ'] ['가'] Nfc.ruleJamo).keep
      (List.replicate (count + 1) ' ' ++ "a@b.co".toList)).finish := by
  have jamo : Nfc.hasConjoiningJamo (spaced (count + 1)) = true := by
    have lead : Nfc.isLead 'ᄀ' = true := by decide
    simp [Nfc.hasConjoiningJamo, spaced, lead]
  have composed (rest : List Char) : Nfc.composeAt ('ᄀ' :: 'ᅡ' :: ' ' :: rest) =
      some ('가', 2) := by
    have lead : Nfc.isLead 'ᄀ' = true := by decide
    have vowel : Nfc.isVowel 'ᅡ' = true := by decide
    have trail : Nfc.isTrail ' ' = false := by decide
    have syllable : charFromU32 (Nfc.sBase + (('ᄀ'.toNat - Nfc.lBase) * Nfc.vCount +
        ('ᅡ'.toNat - Nfc.vBase)) * Nfc.tCount + 0) = some '가' := by decide +kernel
    simp only [Nfc.composeAt, lead, vowel, trail, if_true, if_false, Bool.false_eq_true,
      not_true_eq_false, syllable]
    rfl
  have plain : ∀ c ∈ List.replicate (count + 1) ' ' ++ "a@b.co".toList,
      Nfc.isLead c = false ∧ Nfc.isLvSyllable c = false := by
    intro c member
    exact Nfc.plain_of_ascii (ascii_of_mem_blanks member)
  rw [Nfc.apply, if_neg (by simp [jamo]), spaced, List.replicate_succ, List.cons_append,
    Nfc.loop]
  split
  next syllable consumed found =>
    rw [composed] at found
    obtain ⟨rfl, rfl⟩ := Prod.mk.inj (Option.some.inj found)
    rw [List.replicate_succ, List.cons_append] at plain
    have walk := Nfc.loop_of_none ((({} : SpanMapBuilder).flush []).replace
      ['ᄀ', 'ᅡ'] ['가'] Nfc.ruleJamo) [] plain
    simp only [List.take_succ_cons, List.take_zero, List.drop_succ_cons, List.drop_zero]
    rw [walk, List.nil_append, SpanMapBuilder.flush, if_neg (by simp)]
    rfl
  next none =>
    rw [composed] at none
    exact absurd none (by simp)

/-- The table of the composing pass when the offsets wrap. -/
def wrappedTable : SpanMap :=
  ⟨[⟨⟨⟨0, 6⟩, ⟨0, 2⟩⟩, ⟨⟨0, 3⟩, ⟨0, 1⟩⟩, .replace, [Nfc.ruleJamo], { replacedChars := 2 }⟩,
    ⟨⟨⟨6, 10⟩, ⟨2, 6⟩⟩, ⟨⟨3, 7⟩, ⟨1, 5⟩⟩, .identity, [], {}⟩]⟩

theorem finish_wrapped {tail : List Char} (width : utf8Len tail = 2 ^ 32 + 4)
    (length : tail.length = 2 ^ 32 + 4) :
    ((({} : SpanMapBuilder).replace ['ᄀ', 'ᅡ'] ['가'] Nfc.ruleJamo).keep tail).finish =
      ('가' :: tail, wrappedTable) := by
  have nonempty : tail ≠ [] := by
    rintro rfl
    simp at length
  have wraps : UInt32.ofNat (2 ^ 32 + 4) = 4 := rfl
  rw [SpanMapBuilder.keep, if_neg nonempty]
  simp only [SpanMapBuilder.advanceSrc, SpanMapBuilder.advanceDst, width, length, wraps]
  rfl

theorem identity_wrapped {text : List Char} (width : utf8Len text = 2 ^ 32 + 10)
    (length : text.length = 2 ^ 32 + 6) :
    SpanMap.identity text = ⟨[⟨⟨⟨0, 10⟩, ⟨0, 6⟩⟩, ⟨⟨0, 10⟩, ⟨0, 6⟩⟩, .identity, [], {}⟩]⟩ := by
  have nonempty : text ≠ [] := by
    rintro rfl
    simp at length
  have wrapsByte : UInt32.ofNat (2 ^ 32 + 10) = 10 := rfl
  have wrapsChar : UInt32.ofNat (2 ^ 32 + 6) = 6 := rfl
  rw [SpanMap.identity, SpanMapBuilder.keep, if_neg nonempty]
  simp only [SpanMapBuilder.advanceSrc, SpanMapBuilder.advanceDst, width, length, wrapsByte,
    wrapsChar]
  rfl

theorem compose_wrappedTable :
    SpanMap.compose ⟨[⟨⟨⟨0, 10⟩, ⟨0, 6⟩⟩, ⟨⟨0, 10⟩, ⟨0, 6⟩⟩, .identity, [], {}⟩]⟩ wrappedTable =
      .ok wrappedTable := by
  decide +kernel

theorem blanks_width (count : Nat) :
    utf8Len (List.replicate count ' ' ++ "a@b.co".toList) = count + 6 := by
  have blank : utf8Len [' '] = 1 := by decide
  have address : utf8Len "a@b.co".toList = 6 := by decide
  have flat := utf8Len_replicate_flatten count [' ']
  rw [List.flatten_replicate_singleton, blank] at flat
  rw [utf8Len_append, flat, address]
  omega

theorem normalize_spaced {count : Nat} (size : count + 1 = 2 ^ 32 - 2) :
    normalize (spaced (count + 1)) composeOnly = .ok ⟨unspaced (count + 1), wrappedTable⟩ := by
  have blanks : utf8Len (List.replicate (count + 1) ' ' ++ "a@b.co".toList) = 2 ^ 32 + 4 := by
    rw [blanks_width]
    omega
  have chars : (List.replicate (count + 1) ' ' ++ "a@b.co".toList).length = 2 ^ 32 + 4 := by
    have address : "a@b.co".toList.length = 6 := by decide
    rw [List.length_append, List.length_replicate, address]
    omega
  have width : utf8Len (spaced (count + 1)) = 2 ^ 32 + 10 := by
    have lead : 'ᄀ'.utf8Size = 3 := by decide
    have vowel : 'ᅡ'.utf8Size = 3 := by decide
    rw [spaced, utf8Len_cons, utf8Len_cons, blanks, lead, vowel]
  have length : (spaced (count + 1)).length = 2 ^ 32 + 6 := by
    rw [spaced, List.length_cons, List.length_cons, chars]
  have pass : Nfc.apply (spaced (count + 1)) = (unspaced (count + 1), wrappedTable) := by
    rw [nfc_spaced, finish_wrapped blanks chars, unspaced]
  have composed : SpanMap.compose (SpanMap.identity (spaced (count + 1)))
      (Nfc.apply (spaced (count + 1))).2 = .ok wrappedTable := by
    rw [pass, identity_wrapped width length]
    exact compose_wrappedTable
  rw [pass] at composed
  simp [normalize, passes, composeOnly, applyPass, List.foldlM_cons, bind, Except.bind, pure,
    Except.pure, composed, pass]

end AiCoreStack.Pii
