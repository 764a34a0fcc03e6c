import AiCoreStack.Pii.Reversible
import AiCoreStack.Pii.Separate

/-!
# The offsets of a report

Everything that `detect` reports has the place of a span that a scanner came up
with.  Such a span has no digit on one side of either end, so it cuts no block of
the normalisation map.  Its source span is a piece of the text, with byte and
character offsets that agree, and lies over exactly the segments of the value.
-/

namespace AiCoreStack.Pii

open AiCoreStack.Foundation
open AiCoreStack.Foundation.Alignment (Atom keeps)
open String (utf8Len utf8Len_cons utf8Len_append)

/-! ## Seams at the ends of a lookup -/

/-- The atom produces a character. -/
def Produces (atom : Atom Char Weight) : Prop := atom.dst ≠ []

theorem pullStart_seam {tiles : List Tile} {start : Nat} (inside : start < (dstText tiles).length)
    (uncut : Uncut tiles start) :
    ∃ front atom back, expand tiles = front ++ atom :: back ∧ Produces atom ∧
      Alignment.src front = pullStart tiles start ∧ (Alignment.dst front).length = start := by
  induction tiles generalizing start with
  | nil => simp at inside
  | cons tile tiles ih =>
      obtain ⟨clean, uncutTail⟩ := uncut
      rw [dstText_cons, List.length_append] at inside
      rw [pullStart]
      split
      next within =>
        cases tile with
        | run text =>
            simp only [Tile.dst] at within
            have rest : Atom.keep text[start] :: keeps (text.drop (start + 1)) =
                (keeps (text.drop start) : List (Atom Char Weight)) := by
              rw [← List.getElem_cons_drop within]
              rfl
            refine ⟨keeps (text.take start), .keep text[start],
              keeps (text.drop (start + 1)) ++ expand tiles, ?_, by simp [Produces, Atom.dst],
              ?_, ?_⟩
            · rw [expand_cons, Tile.atoms, ← List.cons_append, rest, ← List.append_assoc,
                ← Alignment.keeps_append, List.take_append_drop]
            · simp [Tile.isRun, Tile.src]
            · rw [Alignment.dst_keeps, List.length_take]
              omega
        | block source target weight =>
            have zero : start = 0 := by
              rcases clean with isRun | zero | beyond
              · simp [Tile.isRun] at isRun
              · exact zero
              · omega
            subst zero
            exact ⟨[], .block source target weight, expand tiles, rfl,
              List.ne_nil_of_length_pos within, rfl, rfl⟩
      next beyond =>
        obtain ⟨front, atom, back, split, produces, source, width⟩ := ih (by omega) uncutTail
        refine ⟨tile.atoms ++ front, atom, back, ?_, produces, ?_, ?_⟩
        · rw [expand_cons, split, List.append_assoc]
        · rw [Alignment.src_append, Tile.src_atoms, source]
        · rw [Alignment.dst_append, Tile.dst_atoms, List.length_append, width]
          omega

theorem pullStop_seam {tiles : List Tile} {stop : Nat} (positive : 0 < stop)
    (inside : stop ≤ (dstText tiles).length) (uncut : Uncut tiles stop) :
    ∃ front atom back, expand tiles = front ++ atom :: back ∧ Produces atom ∧
      Alignment.src (front ++ [atom]) = pullStop tiles stop ∧
        (Alignment.dst (front ++ [atom])).length = stop := by
  induction tiles generalizing stop with
  | nil =>
      simp only [dstText_nil, List.length_nil] at inside
      omega
  | cons tile tiles ih =>
      obtain ⟨clean, uncutTail⟩ := uncut
      rw [dstText_cons, List.length_append] at inside
      rw [pullStop]
      split
      next within =>
        cases tile with
        | run text =>
            simp only [Tile.dst] at within
            have before : stop - 1 < text.length := by omega
            have rest : text.take stop = text.take (stop - 1) ++ [text[stop - 1]] := by
              rw [List.take_concat_get', Nat.sub_add_cancel positive]
            have taken : keeps (text.take (stop - 1)) ++ [Atom.keep text[stop - 1]] =
                (keeps (text.take stop) : List (Atom Char Weight)) := by
              rw [rest, Alignment.keeps_append]
              rfl
            refine ⟨keeps (text.take (stop - 1)), .keep text[stop - 1],
              keeps (text.drop stop) ++ expand tiles, ?_, by simp [Produces, Atom.dst], ?_, ?_⟩
            · rw [expand_cons, Tile.atoms, List.append_cons, taken, ← List.append_assoc,
                ← Alignment.keeps_append, List.take_append_drop]
            · rw [taken]
              simp [Tile.isRun, Tile.src]
            · rw [taken, Alignment.dst_keeps, List.length_take]
              omega
        | block source target weight =>
            have whole : target.length = stop := by
              simp only [Tile.dst] at within clean
              rcases clean with isRun | zero | beyond
              · simp [Tile.isRun] at isRun
              · omega
              · omega
            refine ⟨[], .block source target weight, expand tiles, rfl, ?_, ?_, ?_⟩
            · exact List.ne_nil_of_length_pos (by simpa [Atom.dst, whole] using positive)
            · simp [Tile.isRun, Tile.src, Atom.src]
            · simpa [Atom.dst] using whole
      next beyond =>
        obtain ⟨front, atom, back, split, produces, source, width⟩ :=
          ih (by omega) (by omega) uncutTail
        refine ⟨tile.atoms ++ front, atom, back, ?_, produces, ?_, ?_⟩
        · rw [expand_cons, split, List.append_assoc]
        · rw [List.append_assoc, Alignment.src_append, Tile.src_atoms, source]
        · rw [List.append_assoc, Alignment.dst_append, Tile.dst_atoms, List.length_append, width]
          omega

/-- The source piece lies over exactly the letters and blocks that make up the
destination piece: it neither starts nor ends with a letter that was deleted. -/
def LiesOver (tiles : List Tile) (source piece : Piece) : Prop :=
  ∃ front middle back, expand tiles = front ++ middle ++ back ∧
    Alignment.src front = source.before ∧ Alignment.src middle = source.body ∧
    Alignment.dst front = piece.before ∧ Alignment.dst middle = piece.body ∧
    (∀ atom, middle.head? = some atom → Produces atom) ∧
    ∀ atom, middle.getLast? = some atom → Produces atom

theorem liesOver_of_uncut {tiles : List Tile} {source piece : Piece} {after : List Char}
    (inText : piece.In (dstText tiles) after) (nonempty : piece.body ≠ [])
    (grows : source.body ≠ [])
    (uncutStart : Uncut tiles piece.before.length) (uncutStop : Uncut tiles piece.through.length)
    (beforeEq : source.before = pullStart tiles piece.before.length)
    (throughEq : source.through = pullStop tiles piece.through.length) :
    LiesOver tiles source piece := by
  have width : piece.before.length < piece.through.length := by
    simpa [Piece.through] using List.length_pos_of_ne_nil nonempty
  have inside : piece.through.length ≤ (dstText tiles).length :=
    List.IsPrefix.length_le ⟨after, inText.symm⟩
  obtain ⟨front, first, rest, split, firstProduces, frontSrc, frontDst⟩ :=
    pullStart_seam (by omega) uncutStart
  obtain ⟨upTo, last, back, split', lastProduces, upToSrc, upToDst⟩ :=
    pullStop_seam (by omega) inside uncutStop
  rw [← beforeEq] at frontSrc
  rw [← throughEq] at upToSrc
  rw [List.append_cons] at split'
  -- the seam of the start comes before that of the end, since the source text grows
  have shorter : front.length ≤ (upTo ++ [last]).length := by
    by_contra longer
    obtain ⟨more, rfl⟩ := leads_of_cuts split' split (Nat.le_of_not_le longer)
    rw [Alignment.src_append, upToSrc, Piece.through, List.append_assoc] at frontSrc
    have empty := List.append_right_eq_self.mp frontSrc
    exact grows (List.append_eq_nil_iff.mp empty).1
  obtain ⟨middle, through⟩ := leads_of_cuts split split' shorter
  rw [← through] at split' upToSrc upToDst
  have target : Alignment.dst (front ++ middle) ++ Alignment.dst back =
      piece.through ++ after := by
    rw [← Alignment.dst_append, ← split', ← inText]
    exact dst_expand tiles
  have dstEq := (List.append_inj target upToDst).1
  rw [Alignment.dst_append, Piece.through] at dstEq
  obtain ⟨frontEq, middleEq⟩ := List.append_inj dstEq frontDst
  rw [Alignment.src_append, frontSrc, Piece.through] at upToSrc
  have middleNonempty : middle ≠ [] := by
    rintro rfl
    exact nonempty middleEq.symm
  refine ⟨front, middle, back, split', frontSrc, List.append_cancel_left upToSrc, frontEq,
    middleEq, ?_, ?_⟩
  · intro atom found
    rw [split', List.append_assoc] at split
    obtain ⟨other, tail, rfl⟩ := List.exists_cons_of_ne_nil middleNonempty
    rw [List.cons_append] at split
    obtain rfl := (List.cons.inj (List.append_cancel_left split)).1
    obtain rfl := Option.some.inj found
    exact firstProduces
  · intro atom found
    have lastOf := congrArg List.getLast? through
    rw [List.getLast?_append_of_ne_nil _ middleNonempty, List.getLast?_concat, found] at lastOf
    obtain rfl := Option.some.inj lastOf
    exact lastProduces

/-! ## Where reported offsets come from -/

/-- The spans that the three scanners report. -/
def scannedSpans (text : List Char) : List Span :=
  Scanner.emails text ++ (Scanner.passports text ++ Scanner.digitRuns text)

section

variable {F : Type} [Scalar F] {cfg : Config F} {normalized : Normalized} {span : Span}

/-- A finding at the place of a span. -/
structure Finding.From (normalized : Normalized) (span : Span) (finding : Finding F) : Prop where
  source : finding.source = (normalized.map.toSource span).span
  target : finding.normalized = span
  snapped : finding.evidence.snapped = (normalized.map.toSource span).snapped

/-- A contribution whose findings and rejections are at the place of a span. -/
structure Contribution.From (normalized : Normalized) (span : Span)
    (contribution : Contribution F) : Prop where
  finding : ∀ finding, contribution.finding = some finding → finding.From normalized span
  rejections : ∀ rejection ∈ contribution.rejections,
    rejection.source = (normalized.map.toSource span).span

omit [Scalar F] in
theorem Contribution.From.none {rejections : List (Rejection F)}
    (placed : ∀ rejection ∈ rejections, rejection.source = (normalized.map.toSource span).span) :
    Contribution.From normalized span ⟨none, rejections⟩ where
  finding := by simp
  rejections := placed

omit [Scalar F] in
theorem Contribution.From.some {finding : Finding F} {rejections : List (Rejection F)}
    (found : finding.From normalized span)
    (placed : ∀ rejection ∈ rejections, rejection.source = (normalized.map.toSource span).span) :
    Contribution.From normalized span ⟨some finding, rejections⟩ where
  finding := by
    rintro other same
    rwa [← Option.some.inj same]
  rejections := placed

theorem emailFinding_from (normalized : Normalized) (span : Span) :
    (emailFinding normalized span : Finding F).From normalized span := ⟨rfl, rfl, rfl⟩

theorem weigh_from {veto : F} {candidate : Candidate F} {weighed : Weighed F}
    (ran : weigh cfg normalized span veto candidate = .ok weighed) :
    weighed.finding.From normalized span := by
  obtain ⟨hits, -, rest⟩ := bind_eq_ok ran
  obtain rfl := Except.ok.inj rest
  exact ⟨rfl, rfl, rfl⟩

theorem weighPassport_from {contribution : Contribution F}
    (ran : weighPassport cfg normalized span = .ok contribution) :
    contribution.From normalized span := by
  obtain ⟨veto, -, rest⟩ := bind_eq_ok ran
  obtain ⟨weighed, weighing, rest⟩ := bind_eq_ok rest
  have place := weigh_from weighing
  split at rest
  · obtain rfl := Except.ok.inj rest
    apply Contribution.From.none
    intro rejection member
    rw [List.mem_singleton.mp member]
    exact place.source
  · obtain rfl := Except.ok.inj rest
    exact .some place (by simp)

theorem compete_from {state : Contribution F} {weighed : Weighed F}
    (stateFrom : state.From normalized span) (place : weighed.finding.From normalized span) :
    (compete state weighed).From normalized span := by
  have extended {finding : Finding F} (found : finding.From normalized span)
      (reason : RejectReason) : ∀ rejection ∈ state.rejections ++ [finding.reject reason],
        rejection.source = (normalized.map.toSource span).span := by
    intro rejection member
    rcases List.mem_append.mp member with earlier | last
    · exact stateFrom.rejections rejection earlier
    · rw [List.mem_singleton.mp last]
      exact found.source
  unfold compete
  split
  next reason _ => exact ⟨stateFrom.finding, extended place reason⟩
  next =>
    split
    next => exact .some place stateFrom.rejections
    next best known =>
      split
      · exact .some place (extended (stateFrom.finding best known) .outranked)
      · exact .some (stateFrom.finding best known) (extended place .outranked)

theorem foldl_compete_from {state : Contribution F} {weighed : List (Weighed F)}
    (stateFrom : state.From normalized span)
    (places : ∀ one ∈ weighed, one.finding.From normalized span) :
    (weighed.foldl compete state).From normalized span := by
  induction weighed generalizing state with
  | nil => exact stateFrom
  | cons one weighed ih =>
      rw [List.forall_mem_cons] at places
      exact ih (compete_from stateFrom places.1) places.2

theorem weighRun_from {contribution : Contribution F}
    (ran : weighRun cfg normalized span = .ok contribution) :
    contribution.From normalized span := by
  obtain ⟨text, -, rest⟩ := bind_eq_ok ran
  split at rest
  · obtain rfl := Except.ok.inj rest
    exact .none (by simp)
  · obtain ⟨veto, -, rest⟩ := bind_eq_ok rest
    obtain ⟨weighed, mapped, rest⟩ := bind_eq_ok rest
    obtain rfl := Except.ok.inj rest
    apply foldl_compete_from (.none (by simp))
    intro one member
    obtain ⟨candidate, -, weighing⟩ := (mem_mapM_ok mapped).1 one member
    exact weigh_from weighing

/-- The parts of a detection that returns. -/
theorem detect_parts {text : List Char} {report : Report F}
    (detected : detect text cfg = .ok report) :
    ∃ normalized passports runs, normalize text cfg.normalize = .ok normalized ∧
      (Scanner.passports normalized.text).mapM (weighPassport cfg normalized) = .ok passports ∧
      (Scanner.digitRuns normalized.text).mapM (weighRun cfg normalized) = .ok runs ∧
      let found := (Scanner.emails normalized.text).map (emailFinding normalized) ++
        (passports ++ runs).filterMap Contribution.finding
      report.findings.Perm (dropContained found).1 ∧
      report.rejections.Perm
        ((passports ++ runs).flatMap Contribution.rejections ++ (dropContained found).2) ∧
      report.normalizedText = normalized.text := by
  obtain ⟨normalized, normal, rest⟩ := bind_eq_ok detected
  obtain ⟨passports, passportsRan, rest⟩ := bind_eq_ok rest
  obtain ⟨runs, runsRan, rest⟩ := bind_eq_ok rest
  obtain rfl := Except.ok.inj rest
  refine ⟨normalized, passports, runs, ?_, passportsRan, runsRan, List.perm_insertionSort ..,
    List.perm_insertionSort .., rfl⟩
  cases ran : normalize text cfg.normalize with
  | error error => simp [ran, Except.mapError] at normal
  | ok result =>
      rw [ran] at normal
      rw [Except.ok.inj normal]

/-- Every finding and every rejection is at the place of a scanned span. -/
theorem detect_from {text : List Char} {report : Report F}
    (detected : detect text cfg = .ok report) :
    ∃ normalized, normalize text cfg.normalize = .ok normalized ∧
      report.normalizedText = normalized.text ∧
      (∀ finding ∈ report.findings,
        ∃ span ∈ scannedSpans normalized.text, finding.From normalized span) ∧
      ∀ rejection ∈ report.rejections, ∃ span ∈ scannedSpans normalized.text,
        rejection.source = (normalized.map.toSource span).span := by
  obtain ⟨normalized, passports, runs, normal, passportsRan, runsRan, findings, rejections,
    textEq⟩ := detect_parts detected
  have contributed : ∀ contribution ∈ passports ++ runs,
      ∃ span ∈ scannedSpans normalized.text, contribution.From normalized span := by
    intro contribution member
    rcases List.mem_append.mp member with isPassport | isRun
    · obtain ⟨span, scanned, ran⟩ := (mem_mapM_ok passportsRan).1 contribution isPassport
      exact ⟨span, by simp [scannedSpans, scanned], weighPassport_from ran⟩
    · obtain ⟨span, scanned, ran⟩ := (mem_mapM_ok runsRan).1 contribution isRun
      exact ⟨span, by simp [scannedSpans, scanned], weighRun_from ran⟩
  have found : ∀ finding ∈ (Scanner.emails normalized.text).map (emailFinding normalized) ++
      (passports ++ runs).filterMap Contribution.finding,
        ∃ span ∈ scannedSpans normalized.text, finding.From normalized span := by
    intro finding member
    rcases List.mem_append.mp member with isEmail | other
    · obtain ⟨span, scanned, rfl⟩ := List.mem_map.mp isEmail
      exact ⟨span, by simp [scannedSpans, scanned], emailFinding_from normalized span⟩
    · obtain ⟨contribution, inside, eq⟩ := List.mem_filterMap.mp other
      obtain ⟨span, scanned, place⟩ := contributed contribution inside
      exact ⟨span, scanned, place.finding finding eq⟩
  refine ⟨normalized, normal, textEq, ?_, ?_⟩
  · intro finding member
    exact found finding (List.mem_filter.mp (findings.mem_iff.mp member)).1
  · intro rejection member
    rcases List.mem_append.mp (rejections.mem_iff.mp member) with own | dropped
    · obtain ⟨contribution, inside, member⟩ := List.mem_flatMap.mp own
      obtain ⟨span, scanned, place⟩ := contributed contribution inside
      exact ⟨span, scanned, place.rejections rejection member⟩
    · obtain ⟨finding, inside, rfl⟩ := List.mem_map.mp dropped
      obtain ⟨span, scanned, place⟩ := found finding (List.mem_filter.mp inside).1
      exact ⟨span, scanned, place.source⟩

end

/-- Scanned spans are pieces of the text with clean ends. -/
theorem scannedSpans_clean {text : List Char} {span : Span} (member : span ∈ scannedSpans text) :
    ∃ piece, span = Piece.span piece ∧ piece.CleanIn text := by
  obtain ⟨addresses, passports, runs, scanned⟩ := exists_scanned text
  rcases List.mem_append.mp member with isEmail | other
  · rw [scanned.addressSpans] at isEmail
    obtain ⟨cut, inside, rfl⟩ := List.mem_map.mp isEmail
    refine ⟨Scanner.addressPiece cut.1 cut.2, rfl, ?_⟩
    exact (Scanner.addressPiece_delimited (scanned.addressSound cut inside).1).clean
      Scanner.alphanumeric_of_digit (by simp [Scanner.addressPiece])
  · rcases List.mem_append.mp other with isPassport | isRun
    · rw [scanned.passportSpans] at isPassport
      obtain ⟨piece, inside, rfl⟩ := List.mem_map.mp isPassport
      obtain ⟨after, found⟩ := scanned.passportSound piece inside
      exact ⟨piece, rfl, found.delimited.clean Scanner.alphanumeric_of_digit found.nonempty⟩
    · rw [scanned.runSpans] at isRun
      obtain ⟨piece, inside, rfl⟩ := List.mem_map.mp isRun
      obtain ⟨after, found⟩ := scanned.runSound piece inside
      exact ⟨piece, rfl, found.delimited.clean Scanner.runChar_of_digit found.nonempty⟩

/-! ## Usable offsets -/

/-- A span that is a nonempty piece of a text, with byte and character offsets that
agree. -/
def Usable (text : List Char) (span : Span) : Prop :=
  ∃ before body after, text = before ++ body ++ after ∧ body ≠ [] ∧
    span.byte.start.toNat = utf8Len before ∧ span.byte.stop.toNat = utf8Len (before ++ body) ∧
    span.char.start.toNat = before.length ∧ span.char.stop.toNat = (before ++ body).length ∧
    span.slice text = some body

theorem usable_of_piece {text after : List Char} {piece : Piece} (fits : Fits text)
    (inText : piece.In text after) (nonempty : piece.body ≠ []) : Usable text piece.span := by
  have fitsThrough : Fits (piece.before ++ piece.body) := fits.of_leads ⟨after, inText.symm⟩
  have start := fitsThrough.of_append_left.mark_toNat
  have stop := fitsThrough.mark_toNat
  exact ⟨piece.before, piece.body, after, inText, nonempty, start.1, stop.1, start.2, stop.2,
    Piece.slice inText fits⟩

theorem Usable.onBoundaries {text : List Char} {span : Span} (usable : Usable text span) :
    OnBoundaries text span := by
  obtain ⟨before, body, after, rfl, -, start, stop, -⟩ := usable
  intro _ _
  rw [start, stop]
  exact ⟨⟨before, body ++ after, List.append_assoc .., rfl⟩, ⟨before ++ body, after, rfl, rfl⟩⟩

namespace Tiled

variable {text : List Char} {normalized : Normalized} {tiles : List Tile} {span : Span}

/-- A scanned span and its source span are pieces, the one over the other. -/
theorem scanned (tiled : Tiled text normalized tiles)
    (member : span ∈ scannedSpans normalized.text) :
    ∃ (source piece : Piece) (rest after : List Char), source.In text rest ∧ source.body ≠ [] ∧
      piece.In normalized.text after ∧ piece.body ≠ [] ∧ span = piece.span ∧
      (normalized.map.toSource span).span = source.span ∧
      (normalized.map.toSource span).snapped = false ∧ LiesOver tiles source piece ∧
      Uncut tiles piece.before.length ∧ Uncut tiles piece.through.length := by
  obtain ⟨piece, rfl, ⟨after, inText, startClean, stopClean⟩, nonempty⟩ :=
    scannedSpans_clean member
  obtain ⟨source, rest, inSource, grows, spanEq, beforeEq, throughEq⟩ :=
    tiled.toSource inText nonempty
  have uncutStart := tiled.uncut _ _ (by rw [← List.append_assoc]; exact inText) startClean
  have uncutStop := tiled.uncut _ _ inText stopClean
  have inTarget : piece.In (dstText tiles) after := by
    rw [tiled.target]
    exact inText
  have fits : Fits (dstText tiles) := by
    rw [tiled.target]
    exact tiled.fitsTarget
  refine ⟨source, piece, rest, after, inSource, grows, inText, nonempty, rfl, spanEq, ?_,
    liesOver_of_uncut inTarget nonempty grows uncutStart uncutStop beforeEq throughEq, uncutStart,
    uncutStop⟩
  rw [tiled.map]
  exact toSource_unsnapped fits inTarget nonempty uncutStart uncutStop

end Tiled

/-- Everything that detection reports about a text has usable offsets, and masking with
the report does not panic unless a policy does. -/
def ReportsUsable {F : Type} [Scalar F] (text : List Char) (cfg : Config F) : Prop :=
  ∃ report, detect text cfg = .ok report ∧
    (∀ finding ∈ report.findings,
      Usable text finding.source ∧ Usable report.normalizedText finding.normalized) ∧
    (∀ rejection ∈ report.rejections, Usable text rejection.source) ∧
    ∀ [Hmac] (policies : PolicySet), (∀ entity length, (policies.policyFor entity).Renders length) →
      ∃ out, maskReport text report policies = some out ∧ mask text cfg policies = .ok out

theorem detect_usable {F : Type} [Scalar F] (text : List Char) (cfg : Config F)
    (fits : ∀ seam ∈ pipelineTexts (passes cfg.normalize) text, Fits seam) :
    ReportsUsable text cfg := by
  obtain ⟨normalized, tiles, normal, tiled⟩ := normalize_tiled fits
  obtain ⟨report, detected, -⟩ := detect_ok cfg normal tiled.fitsTarget
  obtain ⟨other, normal', textEq, findings, rejections⟩ := detect_from detected
  obtain rfl := Except.ok.inj (normal.symm.trans normal')
  have sourceUsable : ∀ span ∈ scannedSpans normalized.text,
      Usable text (normalized.map.toSource span).span := by
    intro span member
    obtain ⟨source, _, rest, _, inSource, grows, _, _, _, spanEq, _⟩ := tiled.scanned member
    rw [spanEq]
    exact usable_of_piece tiled.fitsSource inSource grows
  have findingsUsable : ∀ finding ∈ report.findings,
      Usable text finding.source ∧ Usable report.normalizedText finding.normalized := by
    intro finding member
    obtain ⟨span, scanned, place⟩ := findings finding member
    rw [place.source, place.target, textEq]
    refine ⟨sourceUsable span scanned, ?_⟩
    obtain ⟨_, piece, _, after, _, _, inText, nonempty, rfl, _⟩ := tiled.scanned scanned
    exact usable_of_piece tiled.fitsTarget inText nonempty
  refine ⟨report, detected, findingsUsable, ?_, ?_⟩
  · intro rejection member
    obtain ⟨span, scanned, place⟩ := rejections rejection member
    rw [place]
    exact sourceUsable span scanned
  · intro _ policies renders
    obtain ⟨out, ran⟩ := maskFindings_isSome (fun _ => exists_firstFree tiled.fitsSource)
      (fun finding _ original _ => renders finding.entity original.length)
      (fun finding member => (findingsUsable finding member).1.onBoundaries)
    refine ⟨out, ran, ?_⟩
    rw [mask, detected]
    exact congrArg orPanic ran

/-- The offsets of a telephone number in full-width digits, and of an address. -/
theorem detect_usable_folded :
    (∀ seam ∈ pipelineTexts (passes { hangul := false, separator := false })
      "전화 ０１０１２３４５６７８, a@b.co".toList, Fits seam) ∧
      ReportsUsable "전화 ０１０１２３４５６７８, a@b.co".toList
        { (Config.standard : Config Exact) with
          normalize := { hangul := false, separator := false } } :=
  ⟨by decide, detect_usable _ { Config.standard with
    normalize := { hangul := false, separator := false } } (by decide)⟩

/-- Whether masking panicked. -/
def panicked {α : Type} : Except Failure α → Bool
  | .error .panic => true
  | _ => false

theorem eq_panic_of_panicked {α : Type} {result : Except Failure α}
    (panics : panicked result = true) : result = .error .panic := by
  cases result with
  | ok value => exact absurd panics (by simp [panicked])
  | error error => cases error <;> simp [panicked] at panics ⊢

open Sample in
/-- A text of 3006477109 bytes makes masking panic under every policy, and so does a
small text under a policy whose sum of kept characters overflows, or whose hash is to
have more digits than a string. -/
theorem mask_panics :
    (utf8Len (lengthening 429496729 5) < 2 ^ 32 ∧
      ∀ policies, mask (lengthening 429496729 5)
        { (Config.standard : Config Exact) with normalize := numeralOnly } policies =
          .error .panic) ∧
      mask "a@b.co".toList (Config.standard : Config Exact)
        ⟨.partialReveal (2 ^ 64 - 1) 1 '*', []⟩ = .error .panic ∧
      mask "a@b.co".toList (Config.standard : Config Exact)
        ⟨.hash [0x6b] (2 ^ 63), []⟩ = .error .panic := by
  refine ⟨⟨by rw [utf8Len_lengthening]; decide, ?_⟩, ?_, ?_⟩
  · intro policies
    rw [mask, detect_lengthening]
    rfl
  · have panics : panicked (mask "a@b.co".toList (Config.standard : Config Exact)
        ⟨.partialReveal (2 ^ 64 - 1) 1 '*', []⟩) = true := by decide +kernel
    exact eq_panic_of_panicked panics
  · have panics : panicked (mask "a@b.co".toList (Config.standard : Config Exact)
        ⟨.hash [0x6b] (2 ^ 63), []⟩) = true := by decide +kernel
    exact eq_panic_of_panicked panics

/-- Whether an offset lies strictly inside a range. -/
def Range32.Inside (range : Range32) (offset : UInt32) : Prop :=
  range.start < offset ∧ offset < range.stop

/-- A clean cut lies strictly inside no block. -/
theorem not_inside_of_uncut {tiles : List Tile} (fits : Fits (dstText tiles)) {front : List Char}
    (leads : front <+: dstText tiles) (uncut : Uncut tiles front.length) {segment : Segment}
    (member : segment ∈ (tableOf tiles).segments) (rewritten : segment.kind ≠ .identity) :
    ¬ segment.dst.byte.Inside (mark front).1 := by
  obtain ⟨left, tile, right, rfl, rfl⟩ := mem_layout member
  rw [List.nil_append, List.nil_append] at rewritten ⊢
  rw [Ne, Tile.segment_identity] at rewritten
  obtain ⟨-, clean, -⟩ := uncut_append.mp uncut
  rw [Tile.segment_dst, spanAt_byte]
  rintro ⟨starts, stops⟩
  rw [mark_lt_iff_length fits dstText_left_leads leads] at starts
  rw [mark_lt_iff_length fits leads dstText_tile_leads, List.length_append] at stops
  have level := clean.resolve_left rewritten
  omega

/-- No end of a scanned span lies strictly inside a rewritten segment, and no finding is
widened: its source span lies over exactly its value. -/
def ReportsUnsnapped {F : Type} [Scalar F] (text : List Char) (cfg : Config F) : Prop :=
  ∃ normalized tiles report, normalize text cfg.normalize = .ok normalized ∧
    Tiled text normalized tiles ∧
    (∀ span ∈ scannedSpans normalized.text, ∀ segment ∈ normalized.map.segments,
      segment.kind ≠ .identity →
        ¬ segment.dst.byte.Inside span.byte.start ∧ ¬ segment.dst.byte.Inside span.byte.stop) ∧
    detect text cfg = .ok report ∧
    ∀ finding ∈ report.findings, finding.evidence.snapped = false ∧
      ∃ source piece : Piece, finding.source = source.span ∧ finding.normalized = piece.span ∧
        LiesOver tiles source piece

theorem detect_unsnapped {F : Type} [Scalar F] (text : List Char) (cfg : Config F)
    (fits : ∀ seam ∈ pipelineTexts (passes cfg.normalize) text, Fits seam) :
    ReportsUnsnapped text cfg := by
  obtain ⟨normalized, tiles, normal, tiled⟩ := normalize_tiled fits
  obtain ⟨report, detected, -⟩ := detect_ok cfg normal tiled.fitsTarget
  obtain ⟨other, normal', -, findings, -⟩ := detect_from detected
  obtain rfl := Except.ok.inj (normal.symm.trans normal')
  refine ⟨normalized, tiles, report, normal, tiled, ?_, detected, ?_⟩
  · intro span member segment inside rewritten
    obtain ⟨_, piece, _, after, _, _, inText, _, rfl, _, _, _, uncutStart, uncutStop⟩ :=
      tiled.scanned member
    rw [tiled.map] at inside
    have target : dstText tiles = piece.through ++ after := tiled.target.trans inText
    have fitsTarget : Fits (dstText tiles) := by
      rw [tiled.target]
      exact tiled.fitsTarget
    have leads : piece.through <+: dstText tiles := ⟨after, target.symm⟩
    exact ⟨not_inside_of_uncut fitsTarget ((List.prefix_append _ _).trans leads) uncutStart inside
      rewritten, not_inside_of_uncut fitsTarget leads uncutStop inside rewritten⟩
  · intro finding member
    obtain ⟨span, scanned, place⟩ := findings finding member
    obtain ⟨source, piece, _, _, _, _, _, _, rfl, spanEq, unsnapped, lies, _⟩ :=
      tiled.scanned scanned
    exact ⟨place.snapped.trans unsnapped, source, piece, place.source.trans spanEq, place.target,
      lies⟩

theorem detect_unsnapped_folded :
    (∀ seam ∈ pipelineTexts (passes { hangul := false, separator := false })
      "전화 ０１０１２３４５６７８, a@b.co".toList, Fits seam) ∧
      ReportsUnsnapped "전화 ０１０１２３４５６７８, a@b.co".toList
        { (Config.standard : Config Exact) with
          normalize := { hangul := false, separator := false } } :=
  ⟨by decide, detect_unsnapped _ { Config.standard with
    normalize := { hangul := false, separator := false } } (by decide)⟩

/-! ## A text beyond the offsets -/

theorem Scanner.emailsFrom_skip {fuel : Nat} {before plain rest : List Char}
    (noAt : '@' ∉ plain) :
    emailsFrom (plain.length + fuel) before (plain ++ rest) =
      emailsFrom fuel (before ++ plain) rest := by
  induction plain generalizing before with
  | nil => simp
  | cons c plain ih =>
      simp only [List.mem_cons, not_or] at noAt
      rw [List.length_cons, Nat.succ_add, List.cons_append, emailsFrom,
        if_neg (by simp [Ne.symm noAt.1]), ih noAt.2, List.append_assoc,
        List.singleton_append]

theorem Scanner.digitRuns_of_no_run {text : List Char}
    (plain : ∀ c ∈ text, isRunChar c = false) : digitRuns text = [] := by
  suffices walk : ∀ before, digitRunsFrom before [] text = [] from walk []
  induction text with
  | nil => intro before; rfl
  | cons c text ih =>
      intro before
      rw [List.forall_mem_cons] at plain
      rw [digitRunsFrom, if_neg (by simp [plain.1]), ih plain.2]
      rfl

/-- The address after the blanks is found. -/
theorem Scanner.emails_unspaced (count : Nat) : emails (unspaced (count + 1)) =
    [spanAt ('가' :: List.replicate (count + 1) ' ') "a@b.co".toList] := by
  generalize blanksEq : '가' :: List.replicate (count + 1) ' ' = blanks
  have split : unspaced (count + 1) = (blanks ++ ['a']) ++ "@b.co".toList := by
    simp [unspaced, ← blanksEq]
  have noAt : '@' ∉ blanks ++ ['a'] := by simp [← blanksEq]
  have last : blanks = '가' :: List.replicate count ' ' ++ [' '] := by
    rw [← blanksEq, List.replicate_succ', List.cons_append]
  have owner : localPart (blanks ++ ['a']) = ['a'] := by
    have letter : isLocalPart 'a' = true := by decide
    have blank : isLocalPart ' ' = false := by decide
    rw [localPart, List.rtakeWhile_concat, if_pos letter, last, List.rtakeWhile_concat,
      if_neg (by simp [blank])]
    rfl
  have domain : domainPart ['b', '.', 'c', 'o'] = ['b', '.', 'c', 'o'] := by decide
  have address : isAddress (blanks ++ ['a']) ['b', '.', 'c', 'o'] = true := by
    have domainOk : plausibleDomain ['b', '.', 'c', 'o'] = true := by decide
    simp [isAddress, owner, domain, domainOk]
  have rest : "@b.co".toList = ['@', 'b', '.', 'c', 'o'] := by simp
  rw [emails, if_pos (by simp [unspaced]), split, List.length_append, emailsFrom_skip noAt, rest]
  simp only [List.length_cons, List.length_nil, List.nil_append]
  rw [emailsFrom, if_pos ⟨rfl, address⟩, owner, domain]
  simp [emailsFrom, List.rdrop]

theorem plain_unspaced {count : Nat} {c : Char} (member : c ∈ unspaced count) :
    Scanner.isAsciiUppercase c = false ∧ Scanner.isRunChar c = false := by
  have address : ∀ d ∈ "a@b.co".toList,
      Scanner.isAsciiUppercase d = false ∧ Scanner.isRunChar d = false := by
    simp [Scanner.isAsciiUppercase, Scanner.isRunChar, isAsciiDigit]
  rcases List.mem_cons.mp member with rfl | tail
  · decide
  · rcases List.mem_append.mp tail with blank | inside
    · rw [List.eq_of_mem_replicate blank]
      decide
    · exact address c inside

/-- A lookup that starts in the composed syllable is widened. -/
theorem toSource_wrappedTable {span : Span} (start : span.byte.start = 1)
    (stop : span.byte.stop = 7) : (wrappedTable.toSource span).snapped = true := by
  obtain ⟨⟨low, high⟩, chars⟩ := span
  obtain rfl : low = 1 := start
  obtain rfl : high = 7 := stop
  rfl

theorem dropContained_singleton {F : Type} (finding : Finding F) :
    dropContained [finding] = ([finding], []) := by
  have alone : swallowed [finding.source] finding.source = false := by
    simp [swallowed]
  simp [dropContained, alone]

/-- Beyond `2 ^ 32` bytes a finding is widened: the wrapped start of the address falls
inside the composed syllable. -/
theorem detect_snapped :
    ∃ report, detect (spaced (2 ^ 32 - 2))
        { (Config.standard : Config Exact) with normalize := composeOnly } = .ok report ∧
      ∃ finding ∈ report.findings, finding.evidence.snapped = true := by
  obtain ⟨count, size⟩ : ∃ count, count + 1 = 2 ^ 32 - 2 := ⟨2 ^ 32 - 3, rfl⟩
  rw [← size]
  have passports : Scanner.passports (unspaced (count + 1)) = [] :=
    Scanner.passports_of_no_capital fun _ member => (plain_unspaced member).1
  have runs : Scanner.digitRuns (unspaced (count + 1)) = [] :=
    Scanner.digitRuns_of_no_run fun _ member => (plain_unspaced member).2
  have mapped : (normalize (spaced (count + 1)) composeOnly).mapError Failure.error =
      .ok ⟨unspaced (count + 1), wrappedTable⟩ := by
    rw [normalize_spaced size]
    rfl
  generalize spanEq : spanAt ('가' :: List.replicate (count + 1) ' ') "a@b.co".toList = span
  have addresses := Scanner.emails_unspaced count
  rw [spanEq] at addresses
  have start : span.byte.start = 1 := by
    have width : utf8Len ('가' :: List.replicate (count + 1) ' ') = 2 ^ 32 + 1 := by
      have syllable : '가'.utf8Size = 3 := by decide
      have blanks := blanks_width (count + 1)
      have address : utf8Len "a@b.co".toList = 6 := by decide
      rw [utf8Len_append, address] at blanks
      rw [utf8Len_cons, syllable]
      omega
    rw [← spanEq, spanAt_byte, mark, width]
    rfl
  have stop : span.byte.stop = 7 := by
    have width : utf8Len ('가' :: List.replicate (count + 1) ' ' ++ "a@b.co".toList) =
        2 ^ 32 + 7 := by
      have syllable : '가'.utf8Size = 3 := by decide
      rw [List.cons_append, utf8Len_cons, blanks_width, syllable]
      omega
    rw [← spanEq, spanAt_byte]
    simp only [mark, width]
    rfl
  simp only [detect, mapped, ok_bind, addresses, passports, runs, List.mapM_nil, pure_bind,
    List.map_cons, List.map_nil, List.append_nil, List.filterMap_nil, dropContained_singleton]
  exact ⟨_, rfl, emailFinding ⟨unspaced (count + 1), wrappedTable⟩ span, by simp,
    toSource_wrappedTable start stop⟩

end AiCoreStack.Pii
