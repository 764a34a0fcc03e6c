import AiCoreStack.Pii.Detect
import AiCoreStack.Pii.Lookup

/-!
# What the scanners report

Every span a scanner reports is the place of a piece of the text, and the
characters next to a piece say why it ends there.  Pieces of one scanner come in
text order.
-/

namespace AiCoreStack.Pii

open AiCoreStack.Foundation
open String (utf8Len utf8Len_append)

namespace Scanner

theorem not_uppercase_of_digit {c : Char} (digit : isAsciiDigit c = true) :
    isAsciiUppercase c = false := by
  simp only [isAsciiDigit, isAsciiUppercase, decide_eq_true_eq, decide_eq_false_iff_not,
    Char.le_def, UInt32.le_iff_toNat_le] at digit ⊢
  have below : c.toNat ≤ 57 := digit.2
  rintro ⟨above, -⟩
  have capital : 65 ≤ c.toNat := above
  omega

/-- A maximal run of digits and masks with at least two digits. -/
structure IsRun (text : List Char) (piece : Piece) (after : List Char) : Prop where
  inText : piece.In text after
  chars : ∀ c ∈ piece.body, isRunChar c = true
  candidate : runIsCandidate piece.body = true
  bounded : ∀ c, piece.before.getLast? = some c → isRunChar c = false
  ended : ∀ c, after.head? = some c → isRunChar c = false

theorem digitRunsFrom_pieces (before run rest : List Char)
    (chars : ∀ c ∈ run, isRunChar c = true)
    (bounded : ∀ c, before.getLast? = some c → isRunChar c = false) :
    ∃ pieces : List Piece, digitRunsFrom before run rest = pieces.map Piece.span ∧
      (∀ piece ∈ pieces, before.length ≤ piece.before.length ∧
        ∃ after, IsRun (before ++ run ++ rest) piece after) ∧
      pieces.Pairwise fun left right => left.through.length ≤ right.before.length := by
  induction rest generalizing before run with
  | nil =>
      rw [digitRunsFrom, closeRun]
      split
      next candidate =>
        refine ⟨[⟨before, run⟩], rfl, ?_, List.pairwise_singleton _ _⟩
        simp only [List.forall_mem_singleton, le_refl, true_and]
        exact ⟨[], by simp [Piece.In, Piece.through], chars, candidate, bounded, by simp⟩
      next => exact ⟨[], rfl, by simp, List.Pairwise.nil⟩
  | cons c rest ih =>
      rw [digitRunsFrom]
      split
      next isRun =>
        have charsNext : ∀ d ∈ run ++ [c], isRunChar d = true := by
          intro d member
          rcases List.mem_append.mp member with inside | last
          · exact chars d inside
          · rwa [List.mem_singleton.mp last]
        simpa using ih before (run ++ [c]) charsNext bounded
      next other =>
        have other : isRunChar c = false := by simpa using other
        obtain ⟨pieces, spans, sound, sorted⟩ := ih (before ++ run ++ [c]) [] (by simp)
          (by simpa using other)
        have whole : before ++ run ++ [c] ++ [] ++ rest = before ++ run ++ c :: rest := by simp
        rw [whole] at sound
        rw [closeRun, spans]
        split
        next candidate =>
          refine ⟨⟨before, run⟩ :: pieces, rfl, ?_, ?_⟩
          · rw [List.forall_mem_cons]
            refine ⟨⟨le_refl _, c :: rest, by simp [Piece.In, Piece.through], chars, candidate,
              bounded, by simpa using other⟩, ?_⟩
            intro piece member
            obtain ⟨later, isRun⟩ := sound piece member
            simp only [List.length_append] at later
            exact ⟨by omega, isRun⟩
          · rw [List.pairwise_cons]
            refine ⟨?_, sorted⟩
            intro piece member
            have later := (sound piece member).1
            simp only [List.length_append, Piece.through] at later ⊢
            omega
        next =>
          refine ⟨pieces, rfl, ?_, sorted⟩
          intro piece member
          obtain ⟨later, isRun⟩ := sound piece member
          simp only [List.length_append] at later
          exact ⟨by omega, isRun⟩

theorem digitRuns_pieces (text : List Char) :
    ∃ pieces : List Piece, digitRuns text = pieces.map Piece.span ∧
      (∀ piece ∈ pieces, ∃ after, IsRun text piece after) ∧
      pieces.Pairwise fun left right => left.through.length ≤ right.before.length := by
  obtain ⟨pieces, spans, sound, sorted⟩ := digitRunsFrom_pieces [] [] text (by simp) (by simp)
  exact ⟨pieces, spans, fun piece member => (sound piece member).2, sorted⟩

/-! ## Passport numbers -/

/-- One or two capitals and seven or eight digits, bounded on both sides. -/
structure IsPassport (text : List Char) (piece : Piece) (after : List Char) : Prop where
  inText : piece.In text after
  shaped : ∃ letters digits, piece.body = letters ++ digits ∧ letters ≠ [] ∧
    (∀ c ∈ letters, isAsciiUppercase c = true) ∧ (∀ c ∈ digits, isAsciiDigit c = true) ∧
    isShaped letters digits = true
  bounded : ∀ c, piece.before.getLast? = some c → isAsciiAlphanumeric c = false
  ended : ∀ c, after.head? = some c → isAsciiAlphanumeric c = false

theorem not_any_eq_some {option : Option Char} {property : Char → Bool}
    (absent : ¬ option.any property = true) :
    ∀ c, option = some c → property c = false := by
  rintro c rfl
  simpa using absent

theorem drop_of_append {text front back : List Char} (whole : text = front ++ back) :
    text.drop front.length = back :=
  (congrArg (List.drop front.length) whole).trans List.drop_left

/-- Capitals and digits at the head of a text. -/
theorem passport_split (text : List Char) :
    text = passportLetters text ++ passportDigits text ++
      text.drop (passportLetters text ++ passportDigits text).length := by
  have letters : passportLetters text <+: text :=
    (List.takeWhile_prefix _).trans (List.take_prefix 2 text)
  obtain ⟨rest, restEq⟩ := letters
  have dropped := drop_of_append restEq.symm
  have whole : text = (passportLetters text ++ passportDigits text) ++
      rest.dropWhile isAsciiDigit := by
    rw [passportDigits, dropped, List.append_assoc, List.takeWhile_append_dropWhile, restEq]
  rw [drop_of_append whole]
  exact whole

theorem passportsFrom_pieces (fuel : Nat) (before rest : List Char) :
    ∃ pieces : List Piece, passportsFrom fuel before rest = pieces.map Piece.span ∧
      (∀ piece ∈ pieces, before.length ≤ piece.before.length ∧
        ∃ after, IsPassport (before ++ rest) piece after) ∧
      pieces.Pairwise fun left right => left.through.length ≤ right.before.length := by
  induction fuel generalizing before rest with
  | zero => exact ⟨[], rfl, by simp, List.Pairwise.nil⟩
  | succ fuel ih =>
      cases rest with
      | nil => exact ⟨[], rfl, by simp, List.Pairwise.nil⟩
      | cons c rest =>
          rw [passportsFrom]
          split
          next =>
            obtain ⟨pieces, spans, sound, sorted⟩ := ih (before ++ [c]) rest
            refine ⟨pieces, spans, ?_, sorted⟩
            intro piece member
            obtain ⟨later, isPassport⟩ := sound piece member
            simp only [List.length_append] at later
            exact ⟨by omega, by simpa using isPassport⟩
          next starts =>
            rw [not_or] at starts
            have whole := passport_split (c :: rest)
            generalize lettersEq : passportLetters (c :: rest) = letters at starts whole ⊢
            generalize digitsEq : passportDigits (c :: rest) = digits at whole ⊢
            generalize afterEq : (c :: rest).drop (letters ++ digits).length = after at whole
            obtain ⟨pieces, spans, sound, sorted⟩ := ih (before ++ (letters ++ digits)) after
            simp only [afterEq]
            have text : before ++ (letters ++ digits) ++ after = before ++ c :: rest := by
              rw [whole, List.append_assoc]
            rw [text] at sound
            have uppercase : ∀ d ∈ letters, isAsciiUppercase d = true := by
              rw [← lettersEq]
              exact fun d member => List.mem_takeWhile_imp member
            have digit : ∀ d ∈ digits, isAsciiDigit d = true := by
              rw [← digitsEq]
              exact fun d member => List.mem_takeWhile_imp member
            rw [spans]
            split
            next found =>
              refine ⟨⟨before, letters ++ digits⟩ :: pieces, rfl, ?_, ?_⟩
              · rw [List.forall_mem_cons]
                refine ⟨⟨le_refl _, after, text.symm,
                  ⟨letters, digits, rfl, starts.2, uppercase, digit, found.1⟩,
                  not_any_eq_some starts.1, not_any_eq_some found.2⟩, ?_⟩
                intro piece member
                obtain ⟨later, isPassport⟩ := sound piece member
                simp only [List.length_append] at later
                exact ⟨by omega, isPassport⟩
              · rw [List.pairwise_cons]
                refine ⟨?_, sorted⟩
                intro piece member
                simpa [Piece.through] using (sound piece member).1
            next =>
              refine ⟨pieces, rfl, ?_, sorted⟩
              intro piece member
              obtain ⟨later, isPassport⟩ := sound piece member
              simp only [List.length_append] at later
              exact ⟨by omega, isPassport⟩

theorem passports_pieces (text : List Char) :
    ∃ pieces : List Piece, passports text = pieces.map Piece.span ∧
      (∀ piece ∈ pieces, ∃ after, IsPassport text piece after) ∧
      pieces.Pairwise fun left right => left.through.length ≤ right.before.length := by
  obtain ⟨pieces, spans, sound, sorted⟩ := passportsFrom_pieces text.length [] text
  exact ⟨pieces, spans, fun piece member => (sound piece member).2, sorted⟩

/-! ## Addresses -/

/-- The address around an at sign between two texts. -/
def addressPiece (front back : List Char) : Piece :=
  ⟨front.rdrop (localPart front).length, localPart front ++ '@' :: domainPart back⟩

theorem rdrop_of_append {text front back : List Char} (whole : text = front ++ back) :
    text.rdrop back.length = front :=
  (congrArg (fun list => List.rdrop list back.length) whole).trans List.rdrop_append_length

theorem localPart_split (front : List Char) :
    front = front.rdrop (localPart front).length ++ localPart front ∧
      ∀ c, (front.rdrop (localPart front).length).getLast? = some c →
        isLocalPart c = false ∨ c = '.' := by
  generalize dotsEq : (front.rtakeWhile isLocalPart).takeWhile (· == '.') = dots
  have whole : front = (front.rdropWhile isLocalPart ++ dots) ++ localPart front := by
    rw [localPart, ← dotsEq, List.append_assoc, List.takeWhile_append_dropWhile,
      List.rdropWhile_append_rtakeWhile]
  rw [rdrop_of_append whole]
  refine ⟨whole, ?_⟩
  intro c last
  rcases List.eq_nil_or_concat dots with rfl | ⟨init, final, rfl⟩
  · left
    rw [List.append_nil] at last
    have nonempty : front.rdropWhile isLocalPart ≠ [] := by
      intro empty
      simp [empty] at last
    rw [List.getLast?_eq_some_getLast nonempty, Option.some.injEq] at last
    rw [← last]
    simpa using List.rdropWhile_last_not isLocalPart front nonempty
  · right
    rw [List.concat_eq_append, ← List.append_assoc, List.getLast?_concat,
      Option.some.injEq] at last
    have member : final ∈ (front.rtakeWhile isLocalPart).takeWhile (· == '.') := by
      simp [dotsEq]
    rw [← last]
    simpa using List.mem_takeWhile_imp member

theorem localPart_chars {front : List Char} {c : Char} (member : c ∈ localPart front) :
    isLocalPart c = true :=
  List.mem_rtakeWhile_imp ((List.dropWhile_sublist _).subset member)

theorem domainPart_split (back : List Char) :
    back = domainPart back ++ back.drop (domainPart back).length ∧
      ∀ c, (back.drop (domainPart back).length).head? = some c →
        isDomainPart c = false ∨ c = '.' ∨ c = '-' := by
  generalize trimmedEq : (back.takeWhile isDomainPart).rtakeWhile
    (fun c => c == '.' || c == '-') = trimmed
  have whole : back = domainPart back ++ (trimmed ++ back.dropWhile isDomainPart) := by
    rw [domainPart, ← trimmedEq, ← List.append_assoc, List.rdropWhile_append_rtakeWhile,
      List.takeWhile_append_dropWhile]
  rw [drop_of_append whole]
  refine ⟨whole, ?_⟩
  intro c first
  cases trimmed with
  | nil =>
      left
      rw [List.nil_append] at first
      have stops := List.head?_dropWhile_not isDomainPart back
      rw [first] at stops
      simpa using stops
  | cons d trimmed =>
      right
      rw [List.cons_append, List.head?_cons, Option.some.injEq] at first
      have member : d ∈ (back.takeWhile isDomainPart).rtakeWhile
          (fun c => c == '.' || c == '-') := by
        simp [trimmedEq]
      rw [← first]
      simpa using List.mem_rtakeWhile_imp member

theorem domainPart_chars {back : List Char} {c : Char} (member : c ∈ domainPart back) :
    isDomainPart c = true :=
  List.mem_takeWhile_imp ((List.rdropWhile_prefix _ _).subset member)

theorem addressPiece_through (front back : List Char) :
    (addressPiece front back).through = front ++ '@' :: domainPart back := by
  simp only [Piece.through, addressPiece, ← List.append_assoc, ← (localPart_split front).1]

theorem addressPiece_in (front back : List Char) :
    (addressPiece front back).In (front ++ '@' :: back)
      (back.drop (domainPart back).length) := by
  rw [Piece.In, addressPiece_through, List.append_assoc, List.cons_append,
    ← (domainPart_split back).1]

theorem at_not_mem_domainPart (back : List Char) : '@' ∉ domainPart back := by
  intro member
  exact absurd (domainPart_chars member) (by decide)

/-- An at sign behind the cursor is behind the domain of an address that starts
at the cursor. -/
theorem at_after_domain {before rest front back : List Char}
    (cut : before ++ '@' :: rest = front ++ '@' :: back) (later : before.length < front.length) :
    (before ++ '@' :: domainPart rest).length ≤ front.length := by
  have first : front ++ '@' :: back = (before ++ ['@']) ++ rest := by
    rw [← cut, List.append_assoc, List.singleton_append]
  have inside : before ++ ['@'] <+: front := leads_of_cuts first rfl (by simpa using later)
  obtain ⟨middle, rfl⟩ := inside
  have restEq : rest = middle ++ '@' :: back := by simpa using cut
  have domain := restEq.symm.trans (domainPart_split rest).1
  have short : (domainPart rest).length ≤ middle.length := by
    by_contra long
    have second : middle ++ '@' :: back = (middle ++ ['@']) ++ back := by
      rw [List.append_assoc, List.singleton_append]
    have through : middle ++ ['@'] <+: domainPart rest := by
      apply leads_of_cuts second domain
      rw [List.length_append, List.length_singleton]
      omega
    exact at_not_mem_domainPart rest (through.subset (by simp))
  simp only [List.length_append, List.length_cons, List.length_nil]
  omega

/-- What the walk over at signs reports: the cuts of the text at which an address
is joined, in text order. -/
theorem emailsFrom_cuts (fuel : Nat) (before rest : List Char) :
    ∃ cuts : List (List Char × List Char),
      emailsFrom fuel before rest = cuts.map (fun cut => (addressPiece cut.1 cut.2).span) ∧
      (∀ cut ∈ cuts, before.length ≤ cut.1.length ∧ before ++ rest = cut.1 ++ '@' :: cut.2 ∧
        isAddress cut.1 cut.2 = true) ∧
      (cuts.Pairwise fun left right =>
        (addressPiece left.1 left.2).through.length ≤ right.1.length) ∧
      (rest.length ≤ fuel → ∀ front back, before ++ rest = front ++ '@' :: back →
        before.length ≤ front.length → isAddress front back = true → (front, back) ∈ cuts) := by
  induction fuel generalizing before rest with
  | zero =>
      refine ⟨[], rfl, by simp, List.Pairwise.nil, ?_⟩
      intro short front back cut later joined
      have empty : rest = [] := List.eq_nil_of_length_eq_zero (by omega)
      have lengths := congrArg List.length cut
      simp only [empty, List.length_append, List.length_cons, List.length_nil] at lengths
      omega
  | succ fuel ih =>
      cases rest with
      | nil =>
          refine ⟨[], rfl, by simp, List.Pairwise.nil, ?_⟩
          intro _ front back cut later joined
          have lengths := congrArg List.length cut
          simp only [List.length_append, List.length_cons, List.length_nil] at lengths
          omega
      | cons c rest =>
          rw [emailsFrom]
          split
          next found =>
            obtain ⟨rfl, joined⟩ := found
            obtain ⟨cuts, spans, sound, sorted, complete⟩ :=
              ih (before ++ '@' :: domainPart rest) (rest.drop (domainPart rest).length)
            have text : before ++ '@' :: domainPart rest ++ rest.drop (domainPart rest).length =
                before ++ '@' :: rest := by
              rw [List.append_assoc, List.cons_append, ← (domainPart_split rest).1]
            rw [text] at sound complete
            refine ⟨(before, rest) :: cuts, by rw [spans]; rfl, ?_, ?_, ?_⟩
            · rw [List.forall_mem_cons]
              refine ⟨⟨le_refl _, rfl, joined⟩, ?_⟩
              intro cut member
              obtain ⟨later, rest⟩ := sound cut member
              simp only [List.length_append] at later
              exact ⟨by omega, rest⟩
            · rw [List.pairwise_cons]
              refine ⟨?_, sorted⟩
              intro cut member
              rw [addressPiece_through]
              exact (sound cut member).1
            · intro enough front back cut later joined'
              rcases Nat.lt_or_eq_of_le later with strictly | same
              · apply List.mem_cons_of_mem
                apply complete _ front back cut (at_after_domain cut strictly) joined'
                simp only [List.length_drop, List.length_cons] at enough ⊢
                omega
              · obtain ⟨rfl, tails⟩ := List.append_inj cut same
                simp only [List.cons.injEq, true_and] at tails
                subst tails
                exact List.mem_cons_self
          next notFound =>
            obtain ⟨cuts, spans, sound, sorted, complete⟩ := ih (before ++ [c]) rest
            have text : before ++ [c] ++ rest = before ++ c :: rest := by simp
            rw [text] at sound complete
            refine ⟨cuts, spans, ?_, sorted, ?_⟩
            · intro cut member
              obtain ⟨later, rest⟩ := sound cut member
              simp only [List.length_append] at later
              exact ⟨by omega, rest⟩
            · intro enough front back cut later joined
              rcases Nat.lt_or_eq_of_le later with strictly | same
              · apply complete (by simpa using enough) front back cut _ joined
                simpa using strictly
              · obtain ⟨rfl, tails⟩ := List.append_inj cut same
                simp only [List.cons.injEq] at tails
                obtain ⟨rfl, rfl⟩ := tails
                exact absurd ⟨rfl, joined⟩ notFound

theorem emails_cuts (text : List Char) :
    ∃ cuts : List (List Char × List Char),
      emails text = cuts.map (fun cut => (addressPiece cut.1 cut.2).span) ∧
      (∀ cut ∈ cuts, text = cut.1 ++ '@' :: cut.2 ∧ isAddress cut.1 cut.2 = true) ∧
      (cuts.Pairwise fun left right =>
        (addressPiece left.1 left.2).through.length ≤ right.1.length) ∧
      ∀ front back, text = front ++ '@' :: back → isAddress front back = true →
        (front, back) ∈ cuts := by
  obtain ⟨cuts, spans, sound, sorted, complete⟩ := emailsFrom_cuts text.length [] text
  rw [emails]
  split
  next =>
    refine ⟨cuts, spans, fun cut member => (sound cut member).2, sorted, ?_⟩
    intro front back cut joined
    exact complete (le_refl _) front back cut (Nat.zero_le _) joined
  next absent =>
    refine ⟨[], rfl, by simp, List.Pairwise.nil, ?_⟩
    rintro front back rfl
    exact absurd (by simp) absent

/-! ## How many spans there can be -/

theorem digitRunsFrom_length (before run rest : List Char) :
    (digitRunsFrom before run rest).length ≤ rest.length + 1 := by
  have closed (before run : List Char) : (closeRun before run).length ≤ 1 := by
    unfold closeRun
    split <;> simp
  induction rest generalizing before run with
  | nil => exact closed before run
  | cons c rest ih =>
      rw [digitRunsFrom]
      split
      · exact (ih _ _).trans (Nat.le_succ _)
      · rw [List.length_append, List.length_cons]
        have first := closed before run
        have others := ih (before ++ run ++ [c]) []
        omega

theorem emailsFrom_length (fuel : Nat) (before rest : List Char) :
    (emailsFrom fuel before rest).length ≤ fuel := by
  induction fuel generalizing before rest with
  | zero => exact Nat.le_refl _
  | succ fuel ih =>
      cases rest with
      | nil => exact Nat.zero_le _
      | cons c rest =>
          rw [emailsFrom]
          split
          · exact Nat.succ_le_succ (ih _ _)
          · exact (ih _ _).trans (Nat.le_succ _)

theorem passportsFrom_length (fuel : Nat) (before rest : List Char) :
    (passportsFrom fuel before rest).length ≤ fuel := by
  induction fuel generalizing before rest with
  | zero => exact Nat.le_refl _
  | succ fuel ih =>
      cases rest with
      | nil => exact Nat.zero_le _
      | cons c rest =>
          rw [passportsFrom]
          split
          · exact (ih _ _).trans (Nat.le_succ _)
          · simp only [List.length_append]
            have others := ih (before ++ (passportLetters (c :: rest) ++ passportDigits (c :: rest)))
              ((c :: rest).drop (passportLetters (c :: rest) ++ passportDigits (c :: rest)).length)
            simp only [List.length_append] at others
            split
            · simp only [List.length_singleton]
              omega
            · simp only [List.length_nil]
              omega

theorem spans_length (text : List Char) :
    (emails text).length ≤ text.length ∧ (passports text).length ≤ text.length ∧
      (digitRuns text).length ≤ text.length + 1 := by
  refine ⟨?_, passportsFrom_length _ _ _, digitRunsFrom_length _ _ _⟩
  unfold emails
  split
  · exact emailsFrom_length _ _ _
  · exact Nat.zero_le _

end Scanner

end AiCoreStack.Pii
