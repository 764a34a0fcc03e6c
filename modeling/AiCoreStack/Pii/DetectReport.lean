import AiCoreStack.Foundation.Outcome
import AiCoreStack.Pii.MaskRoundTrip
import AiCoreStack.Pii.ScannerSpans

/-!
# What detection reports

Every span that a scanner reports lies on character boundaries of the normalised
text, so nothing in detection panics.  The source spans of the findings are the
source pieces of the accepted scanner pieces, less those that lie in wider ones.
-/

namespace AiCoreStack.Pii

open AiCoreStack.Foundation
open String (utf8Len utf8Len_append)

/-! ## Weighing never panics -/

section

variable {F : Type} [Scalar F]

theorem Piece.split {piece : Piece} {text after : List Char} (inText : piece.In text after)
    (fits : Fits text) :
    splitAtByte text piece.span.byte.start.toNat = some (piece.before, piece.body ++ after) ∧
      splitAtByte text piece.span.byte.stop.toNat = some (piece.through, after) := by
  have leads : piece.through <+: text := ⟨after, inText.symm⟩
  have fitsThrough := fits.of_leads leads
  have start : piece.span.byte.start.toNat = utf8Len piece.before :=
    fitsThrough.of_append_left.mark_toNat.1
  have stop : piece.span.byte.stop.toNat = utf8Len piece.through := fitsThrough.mark_toNat.1
  rw [start, stop, inText]
  constructor
  · rw [Piece.through, List.append_assoc]
    exact splitAtByte_append _ _
  · exact splitAtByte_append _ _

theorem Piece.slice {piece : Piece} {text after : List Char} (inText : piece.In text after)
    (fits : Fits text) : piece.span.slice text = some piece.body := by
  have covers := covers_spanAt (fits.of_leads ⟨after, inText.symm⟩)
  rw [inText]
  exact covers.slice after

theorem Context.find_isSome {piece : Piece} {text after : List Char}
    (inText : piece.In text after) (fits : Fits text) (window : Nat) (table : List (Cue F)) :
    ∃ hits, Context.find text piece.span window table = some hits := by
  obtain ⟨start, stop⟩ := Piece.split inText fits
  unfold Context.find Context.windowBefore Context.windowAfter
  rw [start, stop]
  exact ⟨_, rfl⟩

variable (cfg : Config F) {normalized : Normalized} {piece : Piece} {after : List Char}

theorem vetoTotal_ok (inText : piece.In normalized.text after) (fits : Fits normalized.text) :
    ∃ veto, vetoTotal normalized.text piece.span cfg = .ok veto := by
  obtain ⟨hits, found⟩ := Context.find_isSome inText fits cfg.contextWindow
    (Context.exclude : List (Cue F))
  exact ⟨Context.total hits, by rw [vetoTotal, found]; rfl⟩

theorem weigh_ok (inText : piece.In normalized.text after) (fits : Fits normalized.text)
    (veto : F) (candidate : Candidate F) :
    ∃ weighed, weigh cfg normalized piece.span veto candidate = .ok weighed ∧
      weighed.finding.source = (normalized.map.toSource piece.span).span := by
  obtain ⟨hits, found⟩ := Context.find_isSome inText fits cfg.contextWindow candidate.cues
  unfold weigh
  rw [found]
  exact ⟨_, rfl, rfl⟩

/-- A contribution whose finding, if any, has the given source span. -/
def Contribution.At (contribution : Contribution F) (source : Span) : Prop :=
  ∀ finding, contribution.finding = some finding → finding.source = source

theorem weighPassport_ok (inText : piece.In normalized.text after)
    (fits : Fits normalized.text) :
    ∃ contribution, weighPassport cfg normalized piece.span = .ok contribution ∧
      contribution.At (normalized.map.toSource piece.span).span := by
  obtain ⟨veto, vetoEq⟩ := vetoTotal_ok cfg inText fits
  obtain ⟨weighed, weighedEq, source⟩ := weigh_ok cfg inText fits veto
    Entity.passportCandidate
  rw [weighPassport, vetoEq, ok_bind, weighedEq, ok_bind]
  split
  · exact ⟨_, rfl, by simp [Contribution.At]⟩
  · refine ⟨_, rfl, ?_⟩
    rintro finding found
    obtain rfl := Option.some.inj found
    exact source

theorem compete_at {source : Span} {state : Contribution F} {weighed : Weighed F}
    (stateAt : state.At source) (weighedAt : weighed.finding.source = source) :
    (compete state weighed).At source := by
  unfold compete
  split
  · exact stateAt
  · split
    · rintro finding found
      obtain rfl := Option.some.inj found
      exact weighedAt
    next best known =>
      split
      · rintro finding found
        obtain rfl := Option.some.inj found
        exact weighedAt
      · rintro finding found
        obtain rfl := Option.some.inj found
        exact stateAt _ known

theorem foldl_compete_at {source : Span} {state : Contribution F} {weighed : List (Weighed F)}
    (stateAt : state.At source) (weighedAt : ∀ one ∈ weighed, one.finding.source = source) :
    (weighed.foldl compete state).At source := by
  induction weighed generalizing state with
  | nil => exact stateAt
  | cons one weighed ih =>
      rw [List.forall_mem_cons] at weighedAt
      exact ih (compete_at stateAt weighedAt.1) weighedAt.2

theorem weighRun_ok (inText : piece.In normalized.text after)
    (fits : Fits normalized.text) :
    ∃ contribution, weighRun cfg normalized piece.span = .ok contribution ∧
      contribution.At (normalized.map.toSource piece.span).span := by
  rw [weighRun, Piece.slice inText fits, orPanic, ok_bind]
  split
  · exact ⟨_, rfl, by simp [Contribution.At]⟩
  next digits read =>
    obtain ⟨veto, vetoEq⟩ := vetoTotal_ok cfg inText fits
    rw [vetoEq, ok_bind]
    have total : ∀ candidate ∈ Entity.candidates digits,
        ∃ weighed, weigh cfg normalized piece.span veto candidate = .ok weighed := by
      intro candidate _
      exact (weigh_ok cfg inText fits veto candidate).imp fun _ ok => ok.1
    obtain ⟨weighed, mapped, -⟩ := mapM_ok Unit total
    rw [mapped, ok_bind]
    refine ⟨_, rfl, foldl_compete_at (by simp [Contribution.At]) ?_⟩
    intro one member
    obtain ⟨candidate, -, eq⟩ := (mem_mapM_ok mapped).1 one member
    obtain ⟨other, otherEq, source⟩ := weigh_ok cfg inText fits veto candidate
    rw [otherEq] at eq
    rwa [← Except.ok.inj eq]

/-! ## The findings of a text -/

/-- The finding of a passport number that is reported. -/
def acceptedPassport (normalized : Normalized) (span : Span) : Option (Finding F) :=
  (weighPassport cfg normalized span).toOption.bind Contribution.finding

/-- The finding of a digit run that is reported. -/
def acceptedRun (normalized : Normalized) (span : Span) : Option (Finding F) :=
  (weighRun cfg normalized span).toOption.bind Contribution.finding

/-- Everything the scanners come up with. -/
def foundIn (normalized : Normalized) : List (Finding F) :=
  (Scanner.emails normalized.text).map (emailFinding normalized) ++
    ((Scanner.passports normalized.text).filterMap (acceptedPassport cfg normalized) ++
      (Scanner.digitRuns normalized.text).filterMap (acceptedRun cfg normalized))

theorem acceptedPassport_source (inText : piece.In normalized.text after)
    (fits : Fits normalized.text) {finding : Finding F}
    (accepted : acceptedPassport cfg normalized piece.span = some finding) :
    finding.source = (normalized.map.toSource piece.span).span := by
  obtain ⟨contribution, ran, place⟩ := weighPassport_ok cfg inText fits
  rw [acceptedPassport, ran] at accepted
  exact place finding accepted

theorem acceptedRun_source (inText : piece.In normalized.text after)
    (fits : Fits normalized.text) {finding : Finding F}
    (accepted : acceptedRun cfg normalized piece.span = some finding) :
    finding.source = (normalized.map.toSource piece.span).span := by
  obtain ⟨contribution, ran, place⟩ := weighRun_ok cfg inText fits
  rw [acceptedRun, ran] at accepted
  exact place finding accepted

/-- Detection succeeds on a normalised text that fits, and reports in position
order the findings that lie in no wider one. -/
theorem detect_ok {text : List Char} (normal : normalize text cfg.normalize = .ok normalized)
    (fits : Fits normalized.text) :
    ∃ report, detect text cfg = .ok report ∧
      report.findings = ordered (dropContained (foundIn cfg normalized)).1 := by
  obtain ⟨passportPieces, passportSpans, passportSound, -⟩ :=
    Scanner.passports_pieces normalized.text
  obtain ⟨runPieces, runSpans, runSound, -⟩ := Scanner.digitRuns_pieces normalized.text
  have passportsTotal : ∀ span ∈ Scanner.passports normalized.text,
      ∃ contribution, weighPassport cfg normalized span = .ok contribution := by
    intro span member
    rw [passportSpans] at member
    obtain ⟨piece, inside, rfl⟩ := List.mem_map.mp member
    obtain ⟨after, isPassport⟩ := passportSound piece inside
    exact (weighPassport_ok cfg isPassport.inText fits).imp fun _ ok => ok.1
  have runsTotal : ∀ span ∈ Scanner.digitRuns normalized.text,
      ∃ contribution, weighRun cfg normalized span = .ok contribution := by
    intro span member
    rw [runSpans] at member
    obtain ⟨piece, inside, rfl⟩ := List.mem_map.mp member
    obtain ⟨after, isRun⟩ := runSound piece inside
    exact (weighRun_ok cfg isRun.inText fits).imp fun _ ok => ok.1
  obtain ⟨passports, passportsRan, passportsFound⟩ := mapM_ok (Finding F) passportsTotal
  obtain ⟨runs, runsRan, runsFound⟩ := mapM_ok (Finding F) runsTotal
  unfold detect
  rw [normal, Except.mapError, ok_bind, passportsRan, ok_bind, runsRan, ok_bind]
  refine ⟨_, rfl, ?_⟩
  simp only [List.filterMap_append, passportsFound, runsFound]
  rfl

/-! ## Source spans of the findings -/

theorem map_filterMap_eq {α β γ : Type} {g : α → Option β} {h : β → γ} {image : α → γ}
    {xs : List α} (same : ∀ x ∈ xs, ∀ y, g x = some y → h y = image x) :
    (xs.filterMap g).map h = (xs.filter fun x => (g x).isSome).map image := by
  induction xs with
  | nil => rfl
  | cons x xs ih =>
      rw [List.forall_mem_cons] at same
      cases found : g x with
      | none => simp [found, ih same.2]
      | some y => simp [found, ih same.2, same.1 y found]

/-- Whether a piece is reported as a passport number. -/
def reportsPassport (normalized : Normalized) (piece : Piece) : Bool :=
  (acceptedPassport cfg normalized piece.span).isSome

/-- Whether a piece is reported as a digit run. -/
def reportsRun (normalized : Normalized) (piece : Piece) : Bool :=
  (acceptedRun cfg normalized piece.span).isSome

/-- The pieces of a normalised text that the scanners find, as three lists. -/
structure Scanned (text : List Char) (addresses : List (List Char × List Char))
    (passports runs : List Piece) : Prop where
  addressSpans : Scanner.emails text =
    addresses.map fun cut => (Scanner.addressPiece cut.1 cut.2).span
  addressSound : ∀ cut ∈ addresses, text = cut.1 ++ '@' :: cut.2 ∧
    Scanner.isAddress cut.1 cut.2 = true
  addressOrder : addresses.Pairwise fun left right =>
    (Scanner.addressPiece left.1 left.2).through.length ≤ right.1.length
  addressComplete : ∀ front back, text = front ++ '@' :: back →
    Scanner.isAddress front back = true → (front, back) ∈ addresses
  passportSpans : Scanner.passports text = passports.map Piece.span
  passportSound : ∀ piece ∈ passports, ∃ after, Scanner.IsPassport text piece after
  passportOrder : passports.Pairwise fun left right => left.through.length ≤ right.before.length
  runSpans : Scanner.digitRuns text = runs.map Piece.span
  runSound : ∀ piece ∈ runs, ∃ after, Scanner.IsRun text piece after
  runOrder : runs.Pairwise fun left right => left.through.length ≤ right.before.length

theorem exists_scanned (text : List Char) :
    ∃ addresses passports runs, Scanned text addresses passports runs := by
  obtain ⟨addresses, addressSpans, addressSound, addressOrder, addressComplete⟩ :=
    Scanner.emails_cuts text
  obtain ⟨passports, passportSpans, passportSound, passportOrder⟩ :=
    Scanner.passports_pieces text
  obtain ⟨runs, runSpans, runSound, runOrder⟩ := Scanner.digitRuns_pieces text
  exact ⟨addresses, passports, runs, addressSpans, addressSound, addressOrder, addressComplete,
    passportSpans, passportSound, passportOrder, runSpans, runSound, runOrder⟩

/-- The pieces behind the findings. -/
def acceptedPieces (normalized : Normalized) (addresses : List (List Char × List Char))
    (passports runs : List Piece) : List Piece :=
  addresses.map (fun cut => Scanner.addressPiece cut.1 cut.2) ++
    (passports.filter (reportsPassport cfg normalized) ++
      runs.filter (reportsRun cfg normalized))

variable {addresses : List (List Char × List Char)} {passports runs : List Piece}

/-- The findings lie where the source pieces of the accepted pieces do. -/
theorem foundIn_sources (scanned : Scanned normalized.text addresses passports runs)
    (fits : Fits normalized.text) :
    (foundIn cfg normalized).map Finding.source =
      (acceptedPieces cfg normalized addresses passports runs).map
        fun piece => (normalized.map.toSource piece.span).span := by
  have passportSources : ∀ piece ∈ passports, ∀ finding,
      acceptedPassport cfg normalized piece.span = some finding →
        finding.source = (normalized.map.toSource piece.span).span := by
    intro piece member finding accepted
    obtain ⟨after, isPassport⟩ := scanned.passportSound piece member
    exact acceptedPassport_source cfg isPassport.inText fits accepted
  have runSources : ∀ piece ∈ runs, ∀ finding,
      acceptedRun cfg normalized piece.span = some finding →
        finding.source = (normalized.map.toSource piece.span).span := by
    intro piece member finding accepted
    obtain ⟨after, isRun⟩ := scanned.runSound piece member
    exact acceptedRun_source cfg isRun.inText fits accepted
  rw [foundIn, acceptedPieces, scanned.addressSpans, scanned.passportSpans, scanned.runSpans]
  simp only [List.map_append, List.map_map, List.filterMap_map, Function.comp_def]
  rw [map_filterMap_eq passportSources, map_filterMap_eq runSources]
  rfl

theorem Scanner.IsPassport.nonempty {text : List Char} {piece : Piece} {after : List Char}
    (isPassport : Scanner.IsPassport text piece after) : piece.body ≠ [] := by
  obtain ⟨letters, digits, body, some, -⟩ := isPassport.shaped
  rw [body]
  exact List.append_ne_nil_of_left_ne_nil some _

theorem Scanner.IsRun.nonempty {text : List Char} {piece : Piece} {after : List Char}
    (isRun : Scanner.IsRun text piece after) : piece.body ≠ [] := by
  intro empty
  have candidate := isRun.candidate
  rw [empty] at candidate
  exact absurd candidate (by decide)

theorem acceptedPieces_in (scanned : Scanned normalized.text addresses passports runs) :
    ∀ piece ∈ acceptedPieces cfg normalized addresses passports runs,
      (∃ after, piece.In normalized.text after) ∧ piece.body ≠ [] := by
  intro piece member
  rcases List.mem_append.mp member with isAddress | other
  · obtain ⟨cut, inside, rfl⟩ := List.mem_map.mp isAddress
    refine ⟨⟨cut.2.drop (Scanner.domainPart cut.2).length, ?_⟩, by simp [Scanner.addressPiece]⟩
    rw [(scanned.addressSound cut inside).1]
    exact Scanner.addressPiece_in cut.1 cut.2
  · rcases List.mem_append.mp other with isPassport | isRun
    · obtain ⟨after, found⟩ := scanned.passportSound piece (List.mem_filter.mp isPassport).1
      exact ⟨⟨after, found.inText⟩, found.nonempty⟩
    · obtain ⟨after, found⟩ := scanned.runSound piece (List.mem_filter.mp isRun).1
      exact ⟨⟨after, found.inText⟩, found.nonempty⟩

/-- Every finding is a piece of the text. -/
theorem foundIn_piece {text : List Char} {tiles : List Tile}
    (tiled : Tiled text normalized tiles) :
    ∀ finding ∈ foundIn cfg normalized, ∃ (source : Piece) (rest : List Char),
      source.In text rest ∧ source.body ≠ [] ∧ finding.source = source.span := by
  intro finding member
  obtain ⟨addresses, passports, runs, scanned⟩ := exists_scanned normalized.text
  have place := List.mem_map_of_mem (f := Finding.source) member
  rw [foundIn_sources cfg scanned tiled.fitsTarget] at place
  obtain ⟨piece, inside, sourceEq⟩ := List.mem_map.mp place
  obtain ⟨⟨after, inText⟩, nonempty⟩ := acceptedPieces_in cfg scanned piece inside
  obtain ⟨source, rest, inSource, someSource, spanEq, -⟩ := tiled.toSource inText nonempty
  exact ⟨source, rest, inSource, someSource, sourceEq.symm.trans spanEq⟩

/-- Findings lie on character boundaries of the text. -/
theorem foundIn_onBoundaries {text : List Char} {tiles : List Tile}
    (tiled : Tiled text normalized tiles) :
    ∀ finding ∈ foundIn cfg normalized, OnBoundaries text finding.source := by
  intro finding member
  obtain ⟨source, rest, inSource, -, spanEq⟩ := foundIn_piece cfg tiled finding member
  rw [spanEq]
  intro _ _
  obtain ⟨start, stop⟩ := Piece.split inSource tiled.fitsSource
  rw [isBoundary_iff_isSome, isBoundary_iff_isSome, start, stop]
  exact ⟨rfl, rfl⟩

/-- Findings lie in the text and are not empty. -/
theorem foundIn_range {text : List Char} {tiles : List Tile}
    (tiled : Tiled text normalized tiles) :
    ∀ finding ∈ foundIn cfg normalized,
      finding.source.byte.start.toNat < finding.source.byte.stop.toNat ∧
        finding.source.byte.stop.toNat ≤ utf8Len text := by
  intro finding member
  obtain ⟨source, rest, inSource, nonempty, spanEq⟩ := foundIn_piece cfg tiled finding member
  have leads : source.through <+: text := ⟨rest, inSource.symm⟩
  have fits := tiled.fitsSource.of_leads leads
  have start : source.span.byte.start.toNat = utf8Len source.before := fits.of_append_left.mark_toNat.1
  have stop : source.span.byte.stop.toNat = utf8Len source.through := fits.mark_toNat.1
  rw [spanEq, start, stop]
  refine ⟨?_, utf8Len_le_of_leads leads⟩
  rw [Piece.through, utf8Len_append]
  exact Nat.lt_add_of_pos_right (utf8Len_pos nonempty)

theorem foundIn_length (fits : Fits normalized.text) :
    (foundIn cfg normalized).length < 2 ^ 64 := by
  obtain ⟨emails, passports, runs⟩ := Scanner.spans_length normalized.text
  have width := fits.length_lt
  have somePassports := List.length_filterMap_le (acceptedPassport cfg normalized)
    (Scanner.passports normalized.text)
  have someRuns := List.length_filterMap_le (acceptedRun cfg normalized)
    (Scanner.digitRuns normalized.text)
  rw [foundIn, List.length_append, List.length_append, List.length_map]
  omega

end

end AiCoreStack.Pii
