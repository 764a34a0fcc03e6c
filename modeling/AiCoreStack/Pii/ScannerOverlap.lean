import AiCoreStack.Pii.DetectReport

/-!
# How scanner pieces overlap

A passport number, or a digit run without a star, lies in every address it meets,
and such a run lies in every passport number it meets.  What is left are two
addresses that share a domain and a local part, and runs with stars, which stand
in the way of the other scanners.
-/

namespace AiCoreStack.Pii

open AiCoreStack.Foundation
open AiCoreStack.Foundation.Alignment (Clean)

/-! ## Pieces of one text -/

namespace Piece

variable {piece other : Piece} {text after after' front back : List Char}

/-- A cut in a piece or at its end stands behind one of its characters. -/
theorem last_inside (inText : piece.In text after) (cut : text = front ++ back)
    (above : piece.before.length < front.length) (below : front.length ≤ piece.through.length) :
    ∃ c ∈ piece.body, front.getLast? = some c := by
  have leading : front <+: piece.before ++ (piece.body ++ after) :=
    ⟨back, by rw [← cut, inText, through, List.append_assoc]⟩
  have inner := leading_split leading above.le below
  have nonempty : piece.body.take (front.length - piece.before.length) ≠ [] := by
    intro empty
    rw [empty, List.append_nil] at inner
    rw [inner] at above
    exact absurd above (Nat.lt_irrefl _)
  generalize takenEq : piece.body.take (front.length - piece.before.length) = taken
    at inner nonempty
  refine ⟨taken.getLast nonempty, ?_, ?_⟩
  · apply List.take_subset (front.length - piece.before.length)
    rw [takenEq]
    exact List.getLast_mem nonempty
  · rw [inner, List.getLast?_append_of_ne_nil _ nonempty,
      List.getLast?_eq_some_getLast nonempty]

/-- A cut in a piece or at its start stands in front of one of its characters. -/
theorem head_inside (inText : piece.In text after) (cut : text = front ++ back)
    (above : piece.before.length ≤ front.length) (below : front.length < piece.through.length) :
    ∃ c ∈ piece.body, back.head? = some c := by
  have leading : front <+: piece.before ++ (piece.body ++ after) :=
    ⟨back, by rw [← cut, inText, through, List.append_assoc]⟩
  have inner := leading_split leading above below.le
  rw [through, List.length_append] at below
  have backEq : back = piece.body.drop (front.length - piece.before.length) ++ after := by
    have whole := cut.symm.trans inText
    rw [through, ← List.take_append_drop (front.length - piece.before.length) piece.body,
      ← List.append_assoc, ← inner, List.append_assoc] at whole
    exact List.append_cancel_left whole
  have nonempty : piece.body.drop (front.length - piece.before.length) ≠ [] := by
    intro empty
    rw [List.drop_eq_nil_iff] at empty
    omega
  refine ⟨(piece.body.drop (front.length - piece.before.length)).head nonempty, ?_, ?_⟩
  · exact List.drop_subset _ _ (List.head_mem nonempty)
  · rw [backEq, List.head?_append_of_ne_nil _ nonempty, List.head?_eq_some_head nonempty]

theorem body_subset (inPiece : piece.In text after) (inOther : other.In text after')
    (within : piecePlace.Within piece other) : ∀ c ∈ piece.body, c ∈ other.body := by
  intro c member
  obtain ⟨left, right, split⟩ := List.append_of_mem member
  have cut : text = (piece.before ++ left) ++ (c :: right ++ after) := by
    rw [inPiece, through, split]
    simp
  have starts : other.before.length ≤ piece.before.length := within.1
  have stops : piece.through.length ≤ other.through.length := within.2
  have width : (piece.before ++ left).length < piece.through.length := by
    rw [through, split]
    simp
  have above : other.before.length ≤ (piece.before ++ left).length := by
    rw [List.length_append]
    omega
  obtain ⟨d, inside, head⟩ := head_inside inOther cut above (by omega)
  rw [List.cons_append, List.head?_cons, Option.some.injEq] at head
  rwa [head]

/-- Pieces that lie in each other are the same. -/
theorem eq_of_within (inPiece : piece.In text after) (inOther : other.In text after')
    (within : piecePlace.Within piece other) (within' : piecePlace.Within other piece) :
    piece = other := by
  have starts : piece.before.length = other.before.length := Nat.le_antisymm within'.1 within.1
  have stops : piece.through.length = other.through.length := Nat.le_antisymm within.2 within'.2
  have throughs := (List.append_inj (inPiece.symm.trans inOther) stops).1
  obtain ⟨befores, bodies⟩ := List.append_inj throughs starts
  cases piece
  cases other
  simp_all

end Piece

theorem Piece.width_pos {piece : Piece} (nonempty : piece.body ≠ []) :
    piecePlace.start piece < piecePlace.stop piece := by
  simpa [piecePlace, Piece.through] using List.length_pos_of_ne_nil nonempty

/-- A piece of a text with no character of a class right in front of it or right
behind it. -/
structure Delimited (isMember : Char → Bool) (text : List Char) (piece : Piece)
    (after : List Char) : Prop where
  inText : piece.In text after
  bounded : ∀ c, piece.before.getLast? = some c → isMember c = false
  ended : ∀ c, after.head? = some c → isMember c = false

/-- A piece made of the class lies in every delimited piece that it meets. -/
theorem Delimited.within {isMember : Char → Bool} {text after after' : List Char}
    {piece other : Piece} (delimited : Delimited isMember text other after')
    (inPiece : piece.In text after) (chars : ∀ c ∈ piece.body, isMember c = true)
    (overlap : ¬ piecePlace.Apart piece other) : piecePlace.Within piece other := by
  have meets := not_or.mp overlap
  simp only [piecePlace, Nat.not_le] at meets
  constructor
  · by_contra early
    have cut : text = other.before ++ (other.body ++ after') := by
      rw [delimited.inText, Piece.through, List.append_assoc]
    obtain ⟨c, member, last⟩ := Piece.last_inside inPiece cut (Nat.lt_of_not_le early) meets.1.le
    exact absurd (chars c member) (by simp [delimited.bounded c last])
  · by_contra late
    obtain ⟨c, member, head⟩ := Piece.head_inside inPiece delimited.inText meets.2.le
      (Nat.lt_of_not_le late)
    exact absurd (chars c member) (by simp [delimited.ended c head])

/-- Delimited pieces have clean ends when digits belong to the class. -/
theorem Delimited.clean {isMember : Char → Bool} {text after : List Char} {piece : Piece}
    (delimited : Delimited isMember text piece after)
    (digits : ∀ c, isAsciiDigit c = true → isMember c = true) (nonempty : piece.body ≠ []) :
    piece.CleanIn text := by
  refine ⟨⟨after, delimited.inText, .inl ?_, .inr ?_⟩, nonempty⟩
  · intro c last digit
    exact absurd (digits c digit) (by simp [delimited.bounded c last])
  · intro c head digit
    exact absurd (digits c digit) (by simp [delimited.ended c head])

/-! ## Pieces of the three scanners -/

namespace Scanner

theorem alphanumeric_of_digit (c : Char) (digit : isAsciiDigit c = true) :
    isAsciiAlphanumeric c = true := by
  simp [isAsciiAlphanumeric, digit]

theorem runChar_of_digit (c : Char) (digit : isAsciiDigit c = true) : isRunChar c = true := by
  simp [isRunChar, digit]

theorem localPart_of_domainPart {c : Char} (domain : isDomainPart c = true) :
    isLocalPart c = true := by
  simp only [isDomainPart, isLocalPart, Bool.or_eq_true] at domain ⊢
  tauto

theorem not_alphanumeric_of_bound {c : Char} (bound : isLocalPart c = false ∨ c = '.') :
    isAsciiAlphanumeric c = false := by
  rcases bound with outside | rfl
  · simp only [isLocalPart, Bool.or_eq_false_iff] at outside
    exact outside.1.1.1.1.1
  · decide

theorem not_alphanumeric_of_end {c : Char}
    (bound : isDomainPart c = false ∨ c = '.' ∨ c = '-') : isAsciiAlphanumeric c = false := by
  rcases bound with outside | rfl | rfl
  · simp only [isDomainPart, Bool.or_eq_false_iff] at outside
    exact outside.1.1
  · decide
  · decide

/-- The address around an at sign is delimited by letters and digits. -/
theorem addressPiece_delimited {text front back : List Char} (cut : text = front ++ '@' :: back) :
    Delimited isAsciiAlphanumeric text (addressPiece front back)
      (back.drop (domainPart back).length) where
  inText := by
    rw [cut]
    exact addressPiece_in front back
  bounded c last := not_alphanumeric_of_bound ((localPart_split front).2 c last)
  ended c head := not_alphanumeric_of_end ((domainPart_split back).2 c head)

theorem IsPassport.delimited {text after : List Char} {piece : Piece}
    (isPassport : IsPassport text piece after) : Delimited isAsciiAlphanumeric text piece after :=
  ⟨isPassport.inText, isPassport.bounded, isPassport.ended⟩

theorem IsPassport.chars {text after : List Char} {piece : Piece}
    (isPassport : IsPassport text piece after) :
    ∀ c ∈ piece.body, isAsciiAlphanumeric c = true := by
  obtain ⟨letters, digits, body, -, uppercase, digit, -⟩ := isPassport.shaped
  intro c member
  rw [body] at member
  rcases List.mem_append.mp member with inside | inside
  · simp [isAsciiAlphanumeric, isAsciiAlphabetic, uppercase c inside]
  · exact alphanumeric_of_digit c (digit c inside)

theorem IsRun.delimited {text after : List Char} {piece : Piece}
    (isRun : IsRun text piece after) : Delimited isRunChar text piece after :=
  ⟨isRun.inText, isRun.bounded, isRun.ended⟩

theorem IsRun.alphanumeric {text after : List Char} {piece : Piece}
    (isRun : IsRun text piece after) (plain : '*' ∉ piece.body) :
    ∀ c ∈ piece.body, isAsciiAlphanumeric c = true := by
  intro c member
  have char := isRun.chars c member
  simp only [isRunChar, Bool.or_eq_true, beq_iff_eq] at char
  rcases char with ((digit | rfl) | rfl) | rfl
  · exact alphanumeric_of_digit c digit
  · exact absurd member plain
  · decide
  · decide

theorem at_not_mem_localPart (front : List Char) : '@' ∉ localPart front := by
  intro member
  exact absurd (localPart_chars member) (by decide)

theorem star_not_mem_addressPiece (front back : List Char) : '*' ∉ (addressPiece front back).body := by
  simp only [addressPiece, List.mem_append, List.mem_cons]
  rintro (inside | same | inside)
  · exact absurd (localPart_chars inside) (by decide)
  · exact absurd same (by decide)
  · exact absurd (domainPart_chars inside) (by decide)

theorem at_mem_addressPiece (front back : List Char) : '@' ∈ (addressPiece front back).body := by
  simp [addressPiece]

theorem IsPassport.not_mem {text after : List Char} {piece : Piece} {c : Char}
    (isPassport : IsPassport text piece after) (other : isAsciiAlphanumeric c = false) :
    c ∉ piece.body := by
  intro member
  exact absurd (isPassport.chars c member) (by simp [other])

theorem IsRun.at_not_mem {text after : List Char} {piece : Piece}
    (isRun : IsRun text piece after) : '@' ∉ piece.body := by
  intro member
  exact absurd (isRun.chars '@' member) (by decide)

/-- The at sign of an address lies in it. -/
theorem at_inside_addressPiece (front back : List Char) :
    (addressPiece front back).before.length ≤ front.length ∧
      front.length < (addressPiece front back).through.length := by
  refine ⟨by simp [addressPiece, List.rdrop], ?_⟩
  rw [addressPiece_through, List.length_append, List.length_cons]
  omega

/-- The only at sign in an address is the one that joins it. -/
theorem at_in_addressPiece {text front back front' back' : List Char}
    (cut : text = front ++ '@' :: back) (cut' : text = front' ++ '@' :: back')
    (above : (addressPiece front back).before.length ≤ front'.length)
    (below : front'.length < (addressPiece front back).through.length) :
    front' = front ∧ back' = back := by
  have same : front'.length = front.length := by
    rcases Nat.lt_trichotomy front'.length front.length with earlier | same | later
    · exfalso
      have localPiece : (⟨(addressPiece front back).before, localPart front⟩ : Piece).In text
          ('@' :: back) := by
        rw [Piece.In, Piece.through, cut]
        congr 1
        exact (localPart_split front).1
      have through : front'.length <
          (⟨(addressPiece front back).before, localPart front⟩ : Piece).through.length := by
        rw [Piece.through, addressPiece, ← (localPart_split front).1]
        exact earlier
      obtain ⟨c, member, head⟩ := Piece.head_inside localPiece cut' above through
      rw [List.head?_cons, Option.some.injEq] at head
      exact at_not_mem_localPart front (head ▸ member)
    · exact same
    · exfalso
      have domainPiece : (⟨front ++ ['@'], domainPart back⟩ : Piece).In text
          (back.drop (domainPart back).length) := by
        simp only [Piece.In, Piece.through, List.append_assoc, List.cons_append, List.nil_append]
        rw [← (domainPart_split back).1, cut]
      rw [addressPiece_through] at below
      obtain ⟨c, member, head⟩ := Piece.head_inside domainPiece cut' (by simpa using later)
        (by simpa [Piece.through] using below)
      rw [List.head?_cons, Option.some.injEq] at head
      exact at_not_mem_domainPart back (head ▸ member)
  obtain ⟨fronts, backs⟩ := List.append_inj (cut'.symm.trans cut) same
  exact ⟨fronts, (List.cons.inj backs).2⟩

/-- Two addresses with only local-part characters between their at signs: the
domain of the first is in the local part of the second. -/
def SharedDomain (text : List Char) : Prop :=
  ∃ front middle back, text = front ++ '@' :: (middle ++ '@' :: back) ∧
    (∀ c ∈ middle, isLocalPart c = true) ∧ isAddress front (middle ++ '@' :: back) = true ∧
    isAddress (front ++ '@' :: middle) back = true

theorem localPart_of_middle {front middle : List Char}
    (chars : ∀ c ∈ middle, isLocalPart c = true) :
    localPart (front ++ '@' :: middle) = middle.dropWhile (· == '.') := by
  rw [localPart]
  congr 1
  have ends : (middle.reverse ++ '@' :: front.reverse).takeWhile isLocalPart = middle.reverse := by
    rw [List.takeWhile_append_of_pos (by simpa using chars),
      List.takeWhile_cons_of_neg (by decide), List.append_nil]
  rw [List.rtakeWhile, List.reverse_append, List.reverse_cons, List.append_assoc,
    List.singleton_append, ends, List.reverse_reverse]

/-- The first label of a domain is not empty. -/
theorem head_domainPart {front back : List Char} (joined : isAddress front back = true) :
    ∃ c rest, domainPart back = c :: rest ∧ c ≠ '.' := by
  simp only [isAddress, Bool.and_eq_true, decide_eq_true_eq, ne_eq] at joined
  obtain ⟨⟨-, nonempty⟩, labels⟩ := joined
  cases domain : domainPart back with
  | nil => exact absurd domain nonempty
  | cons c rest =>
      refine ⟨c, rest, rfl, ?_⟩
      rintro rfl
      rw [domain] at labels
      simp [plausibleDomain, List.splitOn, List.splitOnP_cons_eq_if_modifyHead] at labels

/-- Addresses that share a domain overlap in part. -/
theorem addressPiece_crosses {front middle back : List Char}
    (chars : ∀ c ∈ middle, isLocalPart c = true)
    (joined : isAddress front (middle ++ '@' :: back) = true) :
    piecePlace.Crosses (addressPiece front (middle ++ '@' :: back))
      (addressPiece (front ++ '@' :: middle) back) := by
  obtain ⟨c, rest, domain, noDot⟩ := head_domainPart joined
  have same : front ++ '@' :: (middle ++ '@' :: back) = (front ++ '@' :: middle) ++ '@' :: back := by
    simp
  have nested := at_after_domain same (by simp)
  have undotted : middle.dropWhile (· == '.') = middle := by
    have whole := (domainPart_split (middle ++ '@' :: back)).1
    rw [domain, List.cons_append] at whole
    cases middle with
    | nil =>
        rw [domain] at nested
        simp at nested
    | cons first middle =>
        have same : first = c := (List.cons.inj whole).1
        simp [same, noDot]
  have before : (addressPiece (front ++ '@' :: middle) back).before = front ++ ['@'] := by
    rw [addressPiece, localPart_of_middle chars, undotted]
    apply rdrop_of_append
    simp
  have through := addressPiece_through (front ++ '@' :: middle) back
  have through' := addressPiece_through front (middle ++ '@' :: back)
  have starts := (at_inside_addressPiece front (middle ++ '@' :: back)).1
  have long : 0 < (domainPart (middle ++ '@' :: back)).length := by simp [domain]
  simp only [Placement.Crosses, Placement.Apart, Placement.Within, piecePlace, before, through,
    through', List.length_append, List.length_cons, List.length_nil] at nested ⊢
  omega

/-- Addresses that overlap share a domain. -/
theorem sharedDomain_of_overlap {text front back front' back' : List Char}
    (cut : text = front ++ '@' :: back) (cut' : text = front' ++ '@' :: back')
    (joined : isAddress front back = true) (joined' : isAddress front' back' = true)
    (order : front.length < front'.length)
    (overlap : ¬ piecePlace.Apart (addressPiece front back) (addressPiece front' back')) :
    SharedDomain text := by
  have meets := not_or.mp overlap
  simp only [piecePlace, Nat.not_le] at meets
  have split := (localPart_split front').1
  have leads : front ++ ['@'] <+: front' := by
    apply leads_of_cuts _ cut' (by simpa using order)
    · exact back
    · rw [cut, List.append_assoc, List.singleton_append]
  -- the local part of the second address starts behind the first at sign
  have behind : front.length < (addressPiece front' back').before.length := by
    by_contra early
    have inside := order.trans (at_inside_addressPiece front' back').2
    have same := (at_in_addressPiece cut' cut (Nat.le_of_not_lt early) inside).1
    rw [same] at order
    exact absurd order (Nat.lt_irrefl _)
  have inFront : (addressPiece front' back').before <+: front' := ⟨localPart front', split.symm⟩
  obtain ⟨leading, beforeEq⟩ := List.prefix_of_prefix_length_le leads inFront (by simpa using behind)
  have frontEq : front' = front ++ '@' :: (leading ++ localPart front') :=
    calc front' = (addressPiece front' back').before ++ localPart front' := split
      _ = front ++ '@' :: (leading ++ localPart front') := by
        rw [← beforeEq]
        simp
  -- and what is in front of it belongs to the domain of the first
  have inDomain : leading <+: domainPart back := by
    have cutBefore : text =
        (addressPiece front' back').before ++ (localPart front' ++ '@' :: back') := by
      rw [cut', ← List.append_assoc]
      congr 1
    have nested : (addressPiece front' back').before <+: (addressPiece front back).through :=
      leads_of_cuts cutBefore (cut.trans (addressPiece_in front back)) meets.1.le
    rw [← beforeEq, addressPiece_through, List.append_assoc, List.singleton_append,
      List.prefix_append_right_inj, List.cons_prefix_cons] at nested
    exact nested.2
  have backEq : back = (leading ++ localPart front') ++ '@' :: back' := by
    rw [cut, frontEq, List.append_assoc, List.cons_append] at cut'
    exact (List.cons.inj (List.append_cancel_left cut')).2
  refine ⟨front, leading ++ localPart front', back', by rw [cut, backEq], ?_, by rwa [← backEq],
    by rwa [← frontEq]⟩
  intro c member
  rcases List.mem_append.mp member with inside | inside
  · exact localPart_of_domainPart (domainPart_chars (inDomain.subset inside))
  · exact localPart_chars inside

end Scanner

/-! ## Passport numbers that are digit runs -/

section

variable {F : Type} [Scalar F]

theorem Checksum.toDigits_length {text : List Char} {digits : List Nat}
    (read : Checksum.toDigits text = some digits) : digits.length = text.length := by
  induction text generalizing digits with
  | nil =>
      obtain rfl : [] = digits := by simpa [Checksum.toDigits] using read
      rfl
  | cons c text ih =>
      rw [Checksum.toDigits, List.mapM_cons] at read
      obtain ⟨digit, -, read⟩ := Option.bind_eq_some_iff.mp read
      obtain ⟨rest, tail, read⟩ := Option.bind_eq_some_iff.mp read
      obtain rfl := Option.some.inj read
      rw [List.length_cons, List.length_cons, ih tail]

theorem Checksum.toDigits_head {text : List Char} {digits : List Nat}
    (read : Checksum.toDigits ('X' :: text) = some digits) :
    ∃ rest, digits = Checksum.masked :: rest := by
  rw [Checksum.toDigits, List.mapM_cons] at read
  obtain ⟨digit, head, read⟩ := Option.bind_eq_some_iff.mp read
  obtain ⟨rest, -, read⟩ := Option.bind_eq_some_iff.mp read
  obtain rfl := Option.some.inj read
  refine ⟨rest, ?_⟩
  obtain rfl : Checksum.masked = digit := by simpa [Checksum.isMaskChar] using head
  rfl

/-- Eight or nine places of which the first is masked have no reading. -/
theorem Entity.candidates_masked {rest : List Nat} (short : 7 ≤ rest.length ∧ rest.length ≤ 8) :
    (Entity.candidates (Checksum.masked :: rest) : List (Candidate F)) = [] := by
  have resident : (Entity.residentCandidates (Checksum.masked :: rest) : List (Candidate F)) = [] := by
    rw [Entity.residentCandidates, Checksum.analyzeResident, if_pos]
    rw [List.length_cons]
    omega
  have phone : Entity.phoneRule (Entity.asText (Checksum.masked :: rest)) = none := by
    have text : Entity.asText (Checksum.masked :: rest) = '*' :: Entity.asText rest := rfl
    rw [text]
    simp only [Entity.phoneRule]
    have unmatched (codes : List String)
        (digits : ∀ code ∈ codes, ∃ c rest, code.toList = c :: rest ∧ c ≠ '*') :
        Entity.startsWithCode codes ('*' :: Entity.asText rest) = false := by
      rw [Entity.startsWithCode, List.any_eq_false]
      intro code member
      obtain ⟨c, tail, codeEq, other⟩ := digits code member
      simp [codeEq, other]
    simp [unmatched, Entity.mobilePrefixes, Entity.areaCodes, Entity.representativePrefixes]
  have birth : Entity.birthDateRule (Checksum.masked :: rest) = none := by
    rw [Entity.birthDateRule, if_pos]
    simp [Checksum.hasMasked]
  simp only [Entity.candidates, resident, phone, birth, List.length_cons]
  rw [if_neg (by omega), if_neg (by omega), if_neg (by omega), if_neg (by omega)]
  rfl

theorem Scanner.eq_X_of_uppercase {c : Char} (run : Scanner.isRunChar c = true)
    (uppercase : Scanner.isAsciiUppercase c = true) : c = 'X' := by
  simp only [Scanner.isRunChar, Bool.or_eq_true, beq_iff_eq] at run
  rcases run with ((digit | rfl) | rfl) | rfl
  · rw [Scanner.not_uppercase_of_digit digit] at uppercase
    exact absurd uppercase (by simp)
  · exact absurd uppercase (by decide)
  · rfl
  · exact absurd uppercase (by decide)

/-- A passport number is not reported as a digit run. -/
theorem not_reportsRun_of_passport (cfg : Config F) {normalized : Normalized} {piece : Piece}
    {after after' : List Char} (fits : Fits normalized.text)
    (isPassport : Scanner.IsPassport normalized.text piece after)
    (isRun : Scanner.IsRun normalized.text piece after') :
    reportsRun cfg normalized piece = false := by
  obtain ⟨letters, digits, body, nonempty, uppercase, -, shaped⟩ := isPassport.shaped
  obtain ⟨first, letters, rfl⟩ := List.exists_cons_of_ne_nil nonempty
  obtain rfl : first = 'X' := by
    apply Scanner.eq_X_of_uppercase
    · exact isRun.chars first (by simp [body])
    · exact uppercase first List.mem_cons_self
  simp only [Scanner.isShaped, decide_eq_true_eq, List.length_cons] at shaped
  rw [reportsRun, acceptedRun, weighRun, Piece.slice isRun.inText fits, orPanic, ok_bind, body, List.cons_append]
  split
  · rfl
  next values read =>
    obtain ⟨veto, vetoEq⟩ := vetoTotal_ok cfg isRun.inText fits
    obtain ⟨rest, rfl⟩ := Checksum.toDigits_head read
    have length := Checksum.toDigits_length read
    simp only [List.length_cons, List.length_append] at length
    rw [vetoEq, ok_bind, Entity.candidates_masked (by omega)]
    rfl

end

/-! ## Accepted pieces -/

section

variable {F : Type} [Scalar F] {cfg : Config F} {normalized : Normalized}
variable {addresses : List (List Char × List Char)} {passports runs : List Piece}

/-- A digit run that is reported and has a star in it. -/
def Starred (cfg : Config F) (normalized : Normalized) (runs : List Piece) (piece : Piece) :
    Prop :=
  piece ∈ runs ∧ reportsRun cfg normalized piece = true ∧ '*' ∈ piece.body

/-- An address, or a passport number that is reported. -/
def Plain (cfg : Config F) (normalized : Normalized) (addresses : List (List Char × List Char))
    (passports : List Piece) (piece : Piece) : Prop :=
  (∃ cut ∈ addresses, piece = Scanner.addressPiece cut.1 cut.2) ∨
    (piece ∈ passports ∧ reportsPassport cfg normalized piece = true)

theorem mem_acceptedPieces {piece : Piece} :
    piece ∈ acceptedPieces cfg normalized addresses passports runs ↔
      Plain cfg normalized addresses passports piece ∨
        (piece ∈ runs ∧ reportsRun cfg normalized piece = true) := by
  simp only [acceptedPieces, Plain, List.mem_append, List.mem_map, List.mem_filter, or_assoc,
    eq_comm]

variable (scanned : Scanned normalized.text addresses passports runs)

include scanned

theorem plain_delimited {piece : Piece} (plain : Plain cfg normalized addresses passports piece) :
    ∃ after, Delimited Scanner.isAsciiAlphanumeric normalized.text piece after := by
  rcases plain with ⟨cut, member, rfl⟩ | ⟨member, -⟩
  · exact ⟨_, Scanner.addressPiece_delimited (scanned.addressSound cut member).1⟩
  · obtain ⟨after, isPassport⟩ := scanned.passportSound piece member
    exact ⟨after, isPassport.delimited⟩

theorem acceptedPieces_clean {piece : Piece}
    (accepted : piece ∈ acceptedPieces cfg normalized addresses passports runs) :
    piece.CleanIn normalized.text := by
  have nonempty := (acceptedPieces_in cfg scanned piece accepted).2
  rcases mem_acceptedPieces.mp accepted with plain | ⟨member, -⟩
  · obtain ⟨after, delimited⟩ := plain_delimited scanned plain
    exact delimited.clean Scanner.alphanumeric_of_digit nonempty
  · obtain ⟨after, isRun⟩ := scanned.runSound piece member
    exact isRun.delimited.clean Scanner.runChar_of_digit nonempty

theorem runs_apart {piece other : Piece} (member : piece ∈ runs) (member' : other ∈ runs)
    (differ : piece ≠ other) : piecePlace.Apart piece other := by
  have apart : runs.Pairwise piecePlace.Apart := scanned.runOrder.imp fun order => .inl order
  exact apart.forall member member' differ

/-- Pieces that overlap in part are two addresses, or a run with a star is one of
them. -/
theorem crossing_kinds {piece other : Piece}
    (accepted : piece ∈ acceptedPieces cfg normalized addresses passports runs)
    (accepted' : other ∈ acceptedPieces cfg normalized addresses passports runs)
    (crosses : piecePlace.Crosses piece other) :
    (∃ cut ∈ addresses, ∃ cut' ∈ addresses, piece = Scanner.addressPiece cut.1 cut.2 ∧
      other = Scanner.addressPiece cut'.1 cut'.2) ∨
    (Starred cfg normalized runs piece ∧ Plain cfg normalized addresses passports other) ∨
    (Starred cfg normalized runs other ∧ Plain cfg normalized addresses passports piece) := by
  obtain ⟨⟨after, inPiece⟩, -⟩ := acceptedPieces_in cfg scanned piece accepted
  obtain ⟨⟨after', inOther⟩, -⟩ := acceptedPieces_in cfg scanned other accepted'
  have differ : piece ≠ other := by
    rintro rfl
    exact crosses.2.1 (Placement.Within.refl piece)
  rcases mem_acceptedPieces.mp accepted with plain | ⟨isRun, reported⟩
  · obtain ⟨_, delimited⟩ := plain_delimited scanned plain
    rcases mem_acceptedPieces.mp accepted' with plain' | ⟨isRun', reported'⟩
    · obtain ⟨_, delimited'⟩ := plain_delimited scanned plain'
      rcases plain with ⟨cut, member, pieceEq⟩ | ⟨member, -⟩
      · rcases plain' with ⟨cut', member', otherEq⟩ | ⟨member', -⟩
        · exact .inl ⟨cut, member, cut', member', pieceEq, otherEq⟩
        · obtain ⟨_, isPassport⟩ := scanned.passportSound other member'
          exact absurd (delimited.within inOther isPassport.chars crosses.symm.1) crosses.2.2
      · obtain ⟨_, isPassport⟩ := scanned.passportSound piece member
        exact absurd (delimited'.within inPiece isPassport.chars crosses.1) crosses.2.1
    · by_cases star : '*' ∈ other.body
      · exact .inr (.inr ⟨⟨isRun', reported', star⟩, plain⟩)
      · obtain ⟨_, found⟩ := scanned.runSound other isRun'
        exact absurd (delimited.within inOther (found.alphanumeric star) crosses.symm.1)
          crosses.2.2
  · rcases mem_acceptedPieces.mp accepted' with plain' | ⟨isRun', reported'⟩
    · by_cases star : '*' ∈ piece.body
      · exact .inr (.inl ⟨⟨isRun, reported, star⟩, plain'⟩)
      · obtain ⟨_, delimited'⟩ := plain_delimited scanned plain'
        obtain ⟨_, found⟩ := scanned.runSound piece isRun
        exact absurd (delimited'.within inPiece (found.alphanumeric star) crosses.1) crosses.2.1
    · exact absurd (runs_apart scanned isRun isRun' differ) crosses.1

theorem plain_star {piece : Piece} (plain : Plain cfg normalized addresses passports piece) :
    '*' ∉ piece.body := by
  rcases plain with ⟨cut, -, rfl⟩ | ⟨member, -⟩
  · exact Scanner.star_not_mem_addressPiece cut.1 cut.2
  · obtain ⟨_, isPassport⟩ := scanned.passportSound piece member
    exact isPassport.not_mem (by decide)

/-- A run with a star that meets another piece overlaps it in part, unless it has
the whole of it. -/
theorem starred_crosses {run piece : Piece} (starred : Starred cfg normalized runs run)
    (plain : Plain cfg normalized addresses passports piece)
    (overlap : ¬ piecePlace.Apart run piece) (outside : ¬ piecePlace.Within piece run) :
    piecePlace.Crosses run piece := by
  obtain ⟨isRun, reported, star⟩ := starred
  obtain ⟨⟨_, inRun⟩, -⟩ := acceptedPieces_in cfg scanned run
    (mem_acceptedPieces.mpr (.inr ⟨isRun, reported⟩))
  obtain ⟨⟨_, inPiece⟩, -⟩ := acceptedPieces_in cfg scanned piece (mem_acceptedPieces.mpr (.inl plain))
  refine ⟨overlap, ?_, outside⟩
  intro within
  exact plain_star scanned plain (Piece.body_subset inRun inPiece within '*' star)

theorem address_not_within_run {cut : List Char × List Char} (member : cut ∈ addresses)
    {run : Piece} (isRun : run ∈ runs) :
    ¬ piecePlace.Within (Scanner.addressPiece cut.1 cut.2) run := by
  intro within
  obtain ⟨_, found⟩ := scanned.runSound run isRun
  have delimited := Scanner.addressPiece_delimited (scanned.addressSound cut member).1
  exact found.at_not_mem (Piece.body_subset delimited.inText found.inText within '@'
    (Scanner.at_mem_addressPiece cut.1 cut.2))

/-- Pieces that overlap in part do not lie in one accepted piece. -/
theorem crossing_alone {piece other whole : Piece}
    (accepted : piece ∈ acceptedPieces cfg normalized addresses passports runs)
    (accepted' : other ∈ acceptedPieces cfg normalized addresses passports runs)
    (accepted'' : whole ∈ acceptedPieces cfg normalized addresses passports runs)
    (crosses : piecePlace.Crosses piece other) :
    ¬ (piecePlace.Within piece whole ∧ piecePlace.Within other whole) := by
  rintro ⟨within, within'⟩
  obtain ⟨⟨_, inPiece⟩, -⟩ := acceptedPieces_in cfg scanned piece accepted
  obtain ⟨⟨_, inOther⟩, -⟩ := acceptedPieces_in cfg scanned other accepted'
  obtain ⟨⟨_, inWhole⟩, -⟩ := acceptedPieces_in cfg scanned whole accepted''
  -- a piece around a run with a star is that run
  have starred {run plain : Piece} (isStarred : Starred cfg normalized runs run)
      (inRun : piecePlace.Within run whole) (inPlain : piecePlace.Within plain whole)
      {after : List Char} (inText : run.In normalized.text after) : piecePlace.Within plain run := by
    have star := Piece.body_subset inText inWhole inRun '*' isStarred.2.2
    rcases mem_acceptedPieces.mp accepted'' with isPlain | ⟨isRun, -⟩
    · exact absurd star (plain_star scanned isPlain)
    · by_cases same : run = whole
      · rwa [same]
      · obtain ⟨_, found⟩ := scanned.runSound run isStarred.1
        exact absurd (runs_apart scanned isStarred.1 isRun same)
          (inRun.not_apart (Piece.width_pos found.nonempty))
  rcases crossing_kinds scanned accepted accepted' crosses with
    ⟨cut, member, cut', member', rfl, rfl⟩ | ⟨isStarred, -⟩ | ⟨isStarred, -⟩
  · -- a piece around two addresses would have two at signs
    have atSign := Piece.body_subset inPiece inWhole within '@'
      (Scanner.at_mem_addressPiece cut.1 cut.2)
    rcases mem_acceptedPieces.mp accepted'' with (⟨around, inside, rfl⟩ | ⟨isPassport, -⟩) | ⟨isRun, -⟩
    · have single {cut : List Char × List Char} (isCut : cut ∈ addresses)
          (inAround : piecePlace.Within (Scanner.addressPiece cut.1 cut.2)
            (Scanner.addressPiece around.1 around.2)) : cut = around := by
        obtain ⟨above, below⟩ := Scanner.at_inside_addressPiece cut.1 cut.2
        have starts : _ ≤ (Scanner.addressPiece cut.1 cut.2).before.length := inAround.1
        have stops : (Scanner.addressPiece cut.1 cut.2).through.length ≤ _ := inAround.2
        exact Prod.ext_iff.mpr (Scanner.at_in_addressPiece (scanned.addressSound around inside).1
          (scanned.addressSound cut isCut).1 (starts.trans above) (below.trans_le stops))
      rw [single member within, single member' within'] at crosses
      exact crosses.2.1 (Placement.Within.refl _)
    · obtain ⟨_, found⟩ := scanned.passportSound whole isPassport
      exact found.not_mem (by decide) atSign
    · obtain ⟨_, found⟩ := scanned.runSound whole isRun
      exact found.at_not_mem atSign
  · exact crosses.2.2 (starred isStarred within within' inPiece)
  · exact crosses.2.1 (starred isStarred within' within inOther)

/-- No two accepted pieces are the same. -/
theorem acceptedPieces_distinct (fits : Fits normalized.text) :
    (acceptedPieces cfg normalized addresses passports runs).Pairwise
      fun piece other => ¬ (piecePlace.Within piece other ∧ piecePlace.Within other piece) := by
  have ordered {pieces : List Piece} (nonempty : ∀ piece ∈ pieces, piece.body ≠ [])
      (order : pieces.Pairwise fun left right => left.through.length ≤ right.before.length) :
      pieces.Pairwise fun piece other =>
        ¬ (piecePlace.Within piece other ∧ piecePlace.Within other piece) := by
    refine order.imp_of_mem fun member _ apart within => ?_
    exact within.1.not_apart (Piece.width_pos (nonempty _ member)) (.inl apart)
  have accepted := acceptedPieces_in cfg scanned
  rw [acceptedPieces, List.pairwise_append, List.pairwise_append]
  refine ⟨?_, ⟨?_, ?_, ?_⟩, ?_⟩
  · rw [List.pairwise_map]
    apply scanned.addressOrder.imp
    rintro left right order ⟨-, within⟩
    have stops : (Scanner.addressPiece right.1 right.2).through.length ≤
        (Scanner.addressPiece left.1 left.2).through.length := within.2
    have inside := (Scanner.at_inside_addressPiece right.1 right.2).2
    omega
  · apply ordered _ (scanned.passportOrder.filter _)
    intro piece member
    exact (accepted piece (by simp [acceptedPieces, List.mem_filter.mp member])).2
  · apply ordered _ (scanned.runOrder.filter _)
    intro piece member
    exact (accepted piece (by simp [acceptedPieces, List.mem_filter.mp member])).2
  · rintro passport isPassport run isRun ⟨within, within'⟩
    obtain ⟨isPassport, -⟩ := List.mem_filter.mp isPassport
    obtain ⟨isRun, reported⟩ := List.mem_filter.mp isRun
    obtain ⟨_, foundPassport⟩ := scanned.passportSound passport isPassport
    obtain ⟨_, foundRun⟩ := scanned.runSound run isRun
    obtain rfl := Piece.eq_of_within foundPassport.inText foundRun.inText within within'
    rw [not_reportsRun_of_passport cfg fits foundPassport foundRun] at reported
    exact absurd reported (by decide)
  · rintro address isAddress piece member ⟨within, -⟩
    obtain ⟨cut, isCut, rfl⟩ := List.mem_map.mp isAddress
    have inText := (Scanner.addressPiece_delimited (scanned.addressSound cut isCut).1).inText
    have atSign := Scanner.at_mem_addressPiece cut.1 cut.2
    rcases List.mem_append.mp member with isPassport | isRun
    · obtain ⟨_, found⟩ := scanned.passportSound piece (List.mem_filter.mp isPassport).1
      exact found.not_mem (by decide) (Piece.body_subset inText found.inText within '@' atSign)
    · exact address_not_within_run scanned isCut (List.mem_filter.mp isRun).1 within

end

/-! ## Collisions -/

section

variable {F : Type} [Scalar F]

/-- Findings of a normalised text that overlap in part: two addresses share a
domain, or a reported digit run with a star in it meets an address, or a reported
passport number that it does not contain. -/
def Collides (cfg : Config F) (normalized : Normalized) : Prop :=
  Scanner.SharedDomain normalized.text ∨
    ∃ run ∈ Scanner.digitRuns normalized.text, (acceptedRun cfg normalized run).isSome = true ∧
      (∃ chars, run.slice normalized.text = some chars ∧ '*' ∈ chars) ∧
      ((∃ address ∈ Scanner.emails normalized.text, ¬ spanPlace.Apart run address) ∨
        ∃ passport ∈ Scanner.passports normalized.text,
          (acceptedPassport cfg normalized passport).isSome = true ∧
            ¬ spanPlace.Apart run passport ∧ ¬ spanPlace.Within passport run)

variable {cfg : Config F} {normalized : Normalized}
variable {addresses : List (List Char × List Char)} {passports runs : List Piece}
variable (scanned : Scanned normalized.text addresses passports runs)
variable (fits : Fits normalized.text)

include scanned fits

theorem collides_of_starred {run piece : Piece} (starred : Starred cfg normalized runs run)
    (plain : Plain cfg normalized addresses passports piece)
    (crosses : piecePlace.Crosses run piece) : Collides cfg normalized := by
  obtain ⟨isRun, reported, star⟩ := starred
  obtain ⟨_, found⟩ := scanned.runSound run isRun
  obtain ⟨_, delimited⟩ := plain_delimited scanned plain
  have place := Piece.span_place fits found.inText delimited.inText
  have place' := Piece.span_place fits delimited.inText found.inText
  refine .inr ⟨run.span, ?_, reported, ⟨run.body, Piece.slice found.inText fits, star⟩, ?_⟩
  · rw [scanned.runSpans]
    exact List.mem_map_of_mem isRun
  rcases plain with ⟨cut, member, rfl⟩ | ⟨member, reportedPassport⟩
  · refine .inl ⟨_, ?_, (not_congr place.1).mpr crosses.1⟩
    rw [scanned.addressSpans]
    exact List.mem_map_of_mem member
  · refine .inr ⟨piece.span, ?_, reportedPassport, (not_congr place.1).mpr crosses.1,
      (not_congr place'.2).mpr crosses.2.2⟩
    rw [scanned.passportSpans]
    exact List.mem_map_of_mem member

/-- Accepted pieces overlap in part exactly when there is a collision. -/
theorem crosses_iff_collides :
    (∃ piece ∈ acceptedPieces cfg normalized addresses passports runs,
      ∃ other ∈ acceptedPieces cfg normalized addresses passports runs,
        piecePlace.Crosses piece other) ↔ Collides cfg normalized := by
  constructor
  · rintro ⟨piece, accepted, other, accepted', crosses⟩
    rcases crossing_kinds scanned accepted accepted' crosses with
      ⟨cut, member, cut', member', rfl, rfl⟩ | ⟨starred, plain⟩ | ⟨starred, plain⟩
    · obtain ⟨cutEq, joined⟩ := scanned.addressSound cut member
      obtain ⟨cutEq', joined'⟩ := scanned.addressSound cut' member'
      rcases Nat.lt_trichotomy cut.1.length cut'.1.length with order | same | order
      · exact .inl (Scanner.sharedDomain_of_overlap cutEq cutEq' joined joined' order crosses.1)
      · obtain ⟨fronts, backs⟩ := List.append_inj (cutEq.symm.trans cutEq') same
        rw [fronts, (List.cons.inj backs).2] at crosses
        exact absurd (Placement.Within.refl _) crosses.2.1
      · exact .inl (Scanner.sharedDomain_of_overlap cutEq' cutEq joined' joined order
          crosses.symm.1)
    · exact collides_of_starred scanned fits starred plain crosses
    · exact collides_of_starred scanned fits starred plain crosses.symm
  · rintro (shared | ⟨span, scannedRun, reported, ⟨chars, slice, star⟩, meets⟩)
    · obtain ⟨front, middle, back, whole, chars, joined, joined'⟩ := shared
      have first := scanned.addressComplete _ _ whole joined
      have second := scanned.addressComplete (front ++ '@' :: middle) back (by simp [whole]) joined'
      exact ⟨_, mem_acceptedPieces.mpr (.inl (.inl ⟨_, first, rfl⟩)), _,
        mem_acceptedPieces.mpr (.inl (.inl ⟨_, second, rfl⟩)),
        Scanner.addressPiece_crosses chars joined⟩
    · rw [scanned.runSpans] at scannedRun
      obtain ⟨run, isRun, rfl⟩ := List.mem_map.mp scannedRun
      obtain ⟨_, found⟩ := scanned.runSound run isRun
      rw [Piece.slice found.inText fits, Option.some.injEq] at slice
      have starred : Starred cfg normalized runs run := ⟨isRun, reported, slice ▸ star⟩
      refine ⟨run, mem_acceptedPieces.mpr (.inr ⟨isRun, reported⟩), ?_⟩
      rcases meets with ⟨address, isAddress, overlap⟩ | ⟨passport, isPassport, accepted, overlap, outside⟩
      · rw [scanned.addressSpans] at isAddress
        obtain ⟨cut, member, rfl⟩ := List.mem_map.mp isAddress
        have plain : Plain cfg normalized addresses passports (Scanner.addressPiece cut.1 cut.2) :=
          .inl ⟨cut, member, rfl⟩
        have inText := (Scanner.addressPiece_delimited (scanned.addressSound cut member).1).inText
        refine ⟨_, mem_acceptedPieces.mpr (.inl plain), starred_crosses scanned starred plain ?_
          (address_not_within_run scanned member isRun)⟩
        rwa [← (Piece.span_place fits found.inText inText).1]
      · rw [scanned.passportSpans] at isPassport
        obtain ⟨piece, member, rfl⟩ := List.mem_map.mp isPassport
        obtain ⟨_, found'⟩ := scanned.passportSound piece member
        have plain : Plain cfg normalized addresses passports piece := .inr ⟨member, accepted⟩
        refine ⟨_, mem_acceptedPieces.mpr (.inl plain), starred_crosses scanned starred plain ?_ ?_⟩
        · rwa [← (Piece.span_place fits found.inText found'.inText).1]
        · rwa [← (Piece.span_place fits found'.inText found.inText).2]

end

end AiCoreStack.Pii
