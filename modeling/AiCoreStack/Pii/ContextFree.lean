import AiCoreStack.Pii.Evidence
import AiCoreStack.Pii.NormalizeTiling

/-!
# Normalising a fragment on its own

The composing pass and the folding pass, read as scans that turn a text into atoms of one
character each.  A scan that starts or stops between two atoms gives the same atoms, so
normalising what a range of the normalised text comes from gives that range again.
-/

namespace AiCoreStack.Pii

open AiCoreStack.Foundation
open AiCoreStack.Foundation.Alignment (Atom Consuming Composes keeps fuse)
open String (utf8Len utf8Len_append utf8Len_cons utf8Len_nil)

/-! ## Runs that lay out given atoms -/

/-- The builder has been fed calls that lay out these atoms. -/
def Laid (builder : SpanMapBuilder) (atoms : List (Atom Char Weight)) : Prop :=
  ∃ calls : List Call, builder = calls.foldl Call.run {} ∧ callAtoms calls = atoms

theorem laid_empty : Laid {} [] := ⟨[], rfl, rfl⟩

theorem callAtoms_keep (text : List Char) : callAtoms [.keep text] = keeps text := by
  by_cases empty : text = []
  · simp [callAtoms, Call.atoms, Call.source, empty, keeps]
  · simp [callAtoms, Call.atoms, Call.source, Call.tile, Tile.atoms, empty]

namespace Laid

variable {builder : SpanMapBuilder} {atoms : List (Atom Char Weight)}

theorem call (laid : Laid builder atoms) (call : Call) :
    Laid (Call.run builder call) (atoms ++ callAtoms [call]) := by
  obtain ⟨calls, rfl, rfl⟩ := laid
  exact ⟨calls ++ [call], by simp, callAtoms_append calls [call]⟩

theorem flush (laid : Laid builder atoms) (pending : List Char) :
    Laid (builder.flush pending) (atoms ++ keeps pending) := by
  rw [SpanMapBuilder.flush]
  split
  next empty => simpa [empty, keeps] using laid
  next =>
    rw [← callAtoms_keep]
    exact laid.call (.keep pending)

/-- A run that rewrites a fragment. -/
theorem replace (laid : Laid builder atoms) {source : List Char} (nonempty : source ≠ [])
    (target : List Char) (rule : RuleId) :
    Laid (builder.replace source target rule)
      (atoms ++ [.block source target ⟨{rule}, { replacedChars := Call.count source }⟩]) := by
  have run := laid.call (.replace source target rule)
  have atomsEq : callAtoms [.replace source target rule] =
      [.block source target ⟨{rule}, { replacedChars := Call.count source }⟩] := by
    simp [callAtoms, Call.atoms, Call.source, nonempty, Call.tile, Tile.atoms]
  rwa [atomsEq] at run

theorem finish (laid : Laid builder atoms) :
    ∃ calls, builder.finish = build calls ∧ callAtoms calls = atoms := by
  obtain ⟨calls, rfl, atomsEq⟩ := laid
  exact ⟨calls, rfl, atomsEq⟩

end Laid

/-- The fast path of a pass lays out the text as it is. -/
theorem exists_keep_run (text : List Char) :
    ∃ calls, (text, SpanMap.identity text) = build calls ∧ callAtoms calls = keeps text := by
  refine ⟨[.keep text], ?_, callAtoms_keep text⟩
  have out : (build [.keep text]).1 = text := by
    rw [build_text, callAtoms_keep, Alignment.dst_keeps]
  exact Prod.ext out.symm rfl

theorem charFromU32_toNat {n : Nat} {c : Char} (found : charFromU32 n = some c) :
    c.toNat = n := by
  rw [charFromU32] at found
  split at found
  next valid =>
    rw [← Option.some.inj found, Char.toNat_ofNat, if_pos valid]
  next => exact absurd found (by simp)

theorem charFromU32_isSome {n : Nat} (low : n < 0xD800) : ¬ charFromU32 n = none := by
  rw [charFromU32, if_pos (.inl low)]
  simp

/-- Width of a character by its scalar value. -/
theorem utf8Size_eq (c : Char) : c.utf8Size =
    if c.toNat ≤ 0x7F then 1 else if c.toNat ≤ 0x7FF then 2 else if c.toNat ≤ 0xFFFF then 3
    else 4 := rfl

/-! ## The composing pass as a scan -/

namespace Nfc

/-- Atoms of a text under the composing walk. -/
def scan : List Char → List (Atom Char Weight)
  | [] => []
  | c :: rest =>
      match composed : composeAt (c :: rest) with
      | some (syllable, consumed) =>
          have := composeAt_consumed composed
          .block ((c :: rest).take consumed) [syllable]
              ⟨{ruleJamo}, { replacedChars := Call.count ((c :: rest).take consumed) }⟩ ::
            scan ((c :: rest).drop consumed)
      | none => .keep c :: scan rest
termination_by text => text.length
decreasing_by
  · simp only [List.length_drop, List.length_cons]
    omega
  · simp

@[simp] theorem scan_nil : scan [] = [] := by
  rw [scan]

theorem scan_of_none {c : Char} {rest : List Char} (plain : composeAt (c :: rest) = none) :
    scan (c :: rest) = .keep c :: scan rest := by
  rw [scan]
  split
  next syllable consumed composed =>
    rw [plain] at composed
    exact absurd composed (by simp)
  next => rfl

theorem scan_of_some {text : List Char} {syllable : Char} {consumed : Nat}
    (composed : composeAt text = some (syllable, consumed)) :
    scan text = .block (text.take consumed) [syllable]
        ⟨{ruleJamo}, { replacedChars := Call.count (text.take consumed) }⟩ ::
      scan (text.drop consumed) := by
  cases text with
  | nil => exact absurd composed (by simp [composeAt])
  | cons c rest =>
      rw [scan]
      split
      next syllable' consumed' composed' =>
        rw [composed] at composed'
        obtain ⟨rfl, rfl⟩ := Prod.mk.inj (Option.some.inj composed')
        rfl
      next plain =>
        rw [composed] at plain
        exact absurd plain (by simp)

/-- The walk lays out the atoms of the scan. -/
theorem loop_laid {builder : SpanMapBuilder} {atoms : List (Atom Char Weight)}
    (pending rest : List Char) (laid : Laid builder atoms) :
    Laid (loop builder pending rest) (atoms ++ keeps pending ++ scan rest) := by
  fun_induction loop builder pending rest generalizing atoms with
  | case1 builder pending => simpa using laid.flush pending
  | case2 builder pending c rest syllable consumed composed positive ih =>
      have nonempty : (c :: rest).take consumed ≠ [] := by
        rw [ne_eq, List.take_eq_nil_iff]
        rintro (zero | empty)
        · omega
        · exact positive.2 empty
      have laidNext := ih ((laid.flush pending).replace nonempty [syllable] ruleJamo)
      rw [scan_of_some composed]
      simpa [keeps] using laidNext
  | case3 builder pending c rest plain ih =>
      have laidNext := ih laid
      rw [scan_of_none plain]
      simpa [keeps] using laidNext

theorem scan_of_plain {text : List Char} (plain : hasConjoiningJamo text = false) :
    scan text = keeps text := by
  induction text with
  | nil => rw [scan_nil, keeps, List.map_nil]
  | cons c rest ih =>
      rw [hasConjoiningJamo, List.any_cons, Bool.or_eq_false_iff] at plain
      have lead : isLead c = false := by simp_all
      have none : composeAt (c :: rest) = none := by
        simp only [composeAt, lead, Bool.false_eq_true, if_false]
        split
        · cases rest with
          | nil => rfl
          | cons d rest =>
              have trail : isTrail d = false := by simp_all
              simp [trail]
        · rfl
      rw [scan_of_none none, ih plain.2]
      rfl

theorem apply_laid (text : List Char) :
    ∃ calls, apply text = build calls ∧ callAtoms calls = scan text := by
  rw [apply]
  split
  next plain =>
    rw [scan_of_plain (by simpa using plain)]
    exact exists_keep_run text
  next => simpa [keeps] using (loop_laid [] text laid_empty).finish

theorem scan_src (text : List Char) : Alignment.src (scan text) = text := by
  fun_induction scan text with
  | case1 => rfl
  | case2 c rest syllable consumed composed positive ih =>
      rw [Alignment.src_cons, ih]
      exact List.take_append_drop _ _
  | case3 c rest plain ih =>
      rw [Alignment.src_cons, ih]
      rfl

theorem scan_dst_length (text : List Char) : ∀ atom ∈ scan text, atom.dst.length = 1 := by
  fun_induction scan text with
  | case1 => simp
  | case2 c rest syllable consumed composed positive ih => exact List.forall_mem_cons.mpr ⟨rfl, ih⟩
  | case3 c rest plain ih => exact List.forall_mem_cons.mpr ⟨rfl, ih⟩

/-- What the first atom of a scan is. -/
theorem scan_cons {text : List Char} {atom : Atom Char Weight} {atoms : List (Atom Char Weight)}
    (scanned : scan text = atom :: atoms) :
    (∃ c rest, text = c :: rest ∧ composeAt text = none ∧ atom = .keep c ∧ atoms = scan rest) ∨
    ∃ syllable consumed, composeAt text = some (syllable, consumed) ∧
      atom = .block (text.take consumed) [syllable]
        ⟨{ruleJamo}, { replacedChars := Call.count (text.take consumed) }⟩ ∧
      atoms = scan (text.drop consumed) := by
  cases composed : composeAt text with
  | none =>
      left
      cases text with
      | nil =>
          rw [scan_nil] at scanned
          exact absurd scanned (by simp)
      | cons c rest =>
          rw [scan_of_none composed] at scanned
          obtain ⟨atomEq, atomsEq⟩ := List.cons.inj scanned
          exact ⟨c, rest, rfl, rfl, atomEq.symm, atomsEq.symm⟩
  | some pair =>
      right
      rw [scan_of_some composed] at scanned
      obtain ⟨atomEq, atomsEq⟩ := List.cons.inj scanned
      exact ⟨pair.1, pair.2, rfl, atomEq.symm, atomsEq.symm⟩

/-! ### Cutting the text

A composed syllable is read off the characters it consumes, and a look ahead past them
never makes a syllable that the shorter text does not have. -/

/-- Offset of the final consonant behind a vowel, and what the syllable consumes. -/
def trailing : List Char → Nat × Nat
  | c2 :: _ => if isTrail c2 then (c2.toNat - tBase, 3) else (0, 2)
  | [] => (0, 2)

theorem trailing_bounds (rest : List Char) :
    (trailing rest).1 ≤ 27 ∧ 2 ≤ (trailing rest).2 ∧ (trailing rest).2 ≤ rest.length + 2 := by
  cases rest with
  | nil => simp [trailing]
  | cons c2 rest =>
      by_cases trail : isTrail c2 = true
      · have range := trail
        simp only [isTrail, inRange, decide_eq_true_eq] at range
        rw [trailing, if_pos trail, tBase, List.length_cons]
        omega
      · simp [trailing, trail]

theorem composeAt_lead {a b : Char} (lead : isLead a = true) (vowel : isVowel b = true)
    (rest : List Char) : composeAt (a :: b :: rest) =
      (charFromU32 (sBase + ((a.toNat - lBase) * vCount + (b.toNat - vBase)) * tCount +
        (trailing rest).1)).map (·, (trailing rest).2) := by
  simp only [composeAt, lead, vowel, if_true, not_true_eq_false, if_false]
  rfl

theorem composeAt_complete {a : Char} (other : isLead a = false) (b : Char) (rest : List Char) :
    composeAt (a :: b :: rest) =
      if isLvSyllable a ∧ isTrail b then
        (charFromU32 (a.toNat + (b.toNat - tBase))).map (·, 2)
      else none := by
  by_cases complete : isLvSyllable a = true
  · simp [composeAt, other, complete]
  · simp [composeAt, other, complete]

/-- A syllable takes two or three characters, the first of them from behind Latin. -/
theorem composeAt_shape {text : List Char} {syllable : Char} {consumed : Nat}
    (composed : composeAt text = some (syllable, consumed)) :
    2 ≤ consumed ∧ consumed ≤ text.length ∧ syllable.toNat < 0x10000 ∧
      ∀ c ∈ text.head?, 0x800 ≤ c.toNat := by
  match text with
  | [] => exact absurd composed (by simp [composeAt])
  | [a] => exact absurd composed (by simp [composeAt])
  | a :: b :: rest =>
      simp only [List.length_cons, List.head?_cons, Option.mem_some_iff, forall_eq']
      by_cases lead : isLead a = true
      · by_cases vowel : isVowel b = true
        · rw [composeAt_lead lead vowel] at composed
          obtain ⟨_, found, pair⟩ := Option.map_eq_some_iff.mp composed
          obtain ⟨rfl, rfl⟩ := Prod.mk.inj pair
          have place := charFromU32_toNat found
          have bounds := trailing_bounds rest
          simp only [isLead, isVowel, inRange, decide_eq_true_eq] at lead vowel
          simp only [sBase, lBase, vBase, vCount, tCount] at place
          omega
        · exact absurd composed (by simp [composeAt, lead, vowel])
      · rw [composeAt_complete (Bool.not_eq_true _ ▸ lead)] at composed
        split at composed
        next complete =>
          obtain ⟨_, found, pair⟩ := Option.map_eq_some_iff.mp composed
          obtain ⟨rfl, rfl⟩ := Prod.mk.inj pair
          have place := charFromU32_toNat found
          obtain ⟨complete, trail⟩ := complete
          simp only [isLvSyllable, isTrail, inRange, decide_eq_true_eq] at complete trail
          simp only [sBase, sCount, vCount, tCount, tBase] at complete place
          omega
        next => exact absurd composed (by simp)

/-- A leading consonant and a vowel compose. -/
theorem composeAt_ne_none {a b : Char} (lead : isLead a = true) (vowel : isVowel b = true)
    (rest : List Char) : composeAt (a :: b :: rest) ≠ none := by
  rw [composeAt_lead lead vowel, ne_eq, Option.map_eq_none_iff]
  apply charFromU32_isSome
  have bounds := trailing_bounds rest
  simp only [isLead, isVowel, inRange, decide_eq_true_eq] at lead vowel
  simp only [sBase, lBase, vBase, vCount, tCount]
  omega

/-- A syllable that is composed within a leading part is composed from it. -/
theorem composeAt_left_of_some {left right : List Char} {syllable : Char} {consumed : Nat}
    (composed : composeAt (left ++ right) = some (syllable, consumed))
    (within : consumed ≤ left.length) : composeAt left = some (syllable, consumed) := by
  match left, right with
  | [], _ =>
      have positive := (composeAt_consumed composed).1
      rw [List.length_nil] at within
      omega
  | [a], _ =>
      have two := (composeAt_shape composed).1
      rw [List.length_singleton] at within
      omega
  | [a, b], [] => exact composed
  | [a, b], c :: rest =>
      by_cases trail : isLead a = true ∧ isTrail c = true
      · -- the third character would be consumed as well
        simp only [composeAt, List.cons_append, List.nil_append, trail.1, trail.2, if_true] at composed
        split at composed
        · exact absurd composed (by simp)
        · obtain ⟨_, -, pair⟩ := Option.map_eq_some_iff.mp composed
          have three := (Prod.mk.inj pair).2
          simp only [List.length_cons, List.length_nil] at within
          omega
      · rw [← composed]
        by_cases lead : isLead a = true
        · have other : ¬ isTrail c = true := fun isTrail => trail ⟨lead, isTrail⟩
          simp [composeAt, lead, other]
        · simp [composeAt, lead]
  | a :: b :: c :: left, right =>
      rw [← composed]
      rfl

/-- A text that composes nothing at its head still does not when it is cut. -/
theorem composeAt_left_of_none {left right : List Char} (plain : composeAt (left ++ right) = none) :
    composeAt left = none := by
  match left, right with
  | [], _ => rfl
  | [a], _ => simp [composeAt]
  | [a, b], [] => exact plain
  | [a, b], c :: rest =>
      by_cases lead : isLead a = true
      · by_cases vowel : isVowel b = true
        · exact absurd plain (composeAt_ne_none lead vowel (c :: rest))
        · simp [composeAt, lead, vowel]
      · rw [← plain]
        simp [composeAt, lead]
  | a :: b :: c :: left, right =>
      rw [← plain]
      rfl

theorem scan_suffix {text : List Char} {front back : List (Atom Char Weight)}
    (scanned : scan text = front ++ back) : scan (Alignment.src back) = back := by
  induction front generalizing text with
  | nil =>
      rw [List.nil_append] at scanned
      rw [← scanned, scan_src]
  | cons atom front ih =>
      rcases scan_cons scanned with ⟨c, rest, -, -, -, atomsEq⟩ | ⟨syllable, consumed, -, -, atomsEq⟩
      · exact ih atomsEq.symm
      · exact ih atomsEq.symm

theorem scan_prefix {text : List Char} {front back : List (Atom Char Weight)}
    (scanned : scan text = front ++ back) : scan (Alignment.src front) = front := by
  induction front generalizing text with
  | nil => exact scan_nil
  | cons atom front ih =>
      have whole := scan_src text
      rw [scanned, List.cons_append, Alignment.src_cons, Alignment.src_append,
        ← List.append_assoc] at whole
      rcases scan_cons scanned with ⟨c, rest, -, plain, rfl, atomsEq⟩ |
        ⟨syllable, consumed, composed, rfl, atomsEq⟩
      · rw [← whole] at plain
        have cut : composeAt (c :: Alignment.src front) = none := composeAt_left_of_none plain
        change scan (c :: Alignment.src front) = _
        rw [scan_of_none cut, ih atomsEq.symm]
      · have width : (text.take consumed).length = consumed :=
          List.length_take_of_le (composeAt_shape composed).2.1
        rw [← whole] at composed
        have cut := composeAt_left_of_some composed (by
          rw [List.length_append, Atom.src, width]
          exact Nat.le_add_right _ _)
        rw [Alignment.src_cons, scan_of_some cut]
        simp only [Atom.src]
        rw [List.take_left' width, List.drop_left' width, ih atomsEq.symm]

/-- Scanning the source of some atoms of a scan gives these atoms. -/
theorem scan_cut {text : List Char} {front middle back : List (Atom Char Weight)}
    (scanned : scan text = front ++ (middle ++ back)) :
    scan (Alignment.src middle) = middle := by
  have tail := scan_suffix scanned
  exact scan_prefix tail

end Nfc

/-! ## The folding pass as a scan -/

namespace Fold

/-- What folding makes of one character. -/
def foldAtom (c : Char) : Atom Char Weight :=
  match foldChar c with
  | none => .keep c
  | some (folded, rule) => .block [c] [folded] ⟨{rule}, { replacedChars := Call.count [c] }⟩

theorem loop_laid {builder : SpanMapBuilder} {atoms : List (Atom Char Weight)}
    (pending rest : List Char) (laid : Laid builder atoms) :
    Laid (loop builder pending rest) (atoms ++ keeps pending ++ rest.map foldAtom) := by
  fun_induction loop builder pending rest generalizing atoms with
  | case1 builder pending => simpa using laid.flush pending
  | case2 builder pending c rest kept ih =>
      have laidNext := ih laid
      rw [List.map_cons, foldAtom, kept]
      simpa [keeps] using laidNext
  | case3 builder pending c rest folded rule found ih =>
      have laidNext := ih ((laid.flush pending).replace (List.cons_ne_nil c []) [folded] rule)
      rw [List.map_cons, foldAtom, found]
      simpa [keeps] using laidNext

theorem apply_laid (text : List Char) :
    ∃ calls, apply text = build calls ∧ callAtoms calls = text.map foldAtom := by
  rw [apply]
  split
  next plain =>
    have kept : text.map foldAtom = keeps text := by
      apply List.map_congr_left
      intro c member
      have none : foldChar c = none := by
        rw [← Option.isNone_iff_eq_none]
        simp only [List.any_eq_true, not_exists, not_and, Bool.not_eq_true,
          Option.isSome_eq_false_iff] at plain
        exact plain c member
      rw [foldAtom, none]
    rw [kept]
    exact exists_keep_run text
  next => simpa [keeps] using (loop_laid [] text laid_empty).finish

theorem foldAtom_src (c : Char) : (foldAtom c).src = [c] := by
  rw [foldAtom]
  split <;> rfl

theorem foldAtom_dst_length (c : Char) : (foldAtom c).dst.length = 1 := by
  rw [foldAtom]
  split <;> rfl

/-- A character folds to one of one byte. -/
theorem utf8Size_of_foldChar {c folded : Char} {rule : RuleId}
    (found : foldChar c = some (folded, rule)) : folded.utf8Size = 1 := by
  have ascii : folded.toNat ≤ 0x7F := by
    rw [foldChar] at found
    split at found
    next wide =>
      obtain ⟨_, place, pair⟩ := Option.map_eq_some_iff.mp found
      obtain ⟨rfl, -⟩ := Prod.mk.inj pair
      have value := charFromU32_toNat place
      simp only [inRange, decide_eq_true_eq] at wide
      omega
    next =>
      split at found
      next =>
        obtain ⟨rfl, -⟩ := Prod.mk.inj (Option.some.inj found)
        decide
      next =>
        split at found
        next =>
          obtain ⟨rfl, -⟩ := Prod.mk.inj (Option.some.inj found)
          decide
        next => exact absurd found (by simp)
  rw [utf8Size_eq, if_pos ascii]

theorem foldAtom_width (c : Char) : utf8Len (foldAtom c).dst ≤ utf8Len (foldAtom c).src := by
  rw [foldAtom]
  split
  next => exact Nat.le_refl _
  next folded rule found =>
    have positive := c.utf8Size_pos
    simp only [Atom.src, Atom.dst, utf8Len_cons, utf8Len_nil, utf8Size_of_foldChar found]
    omega

/-- An atom of one character with that character folded. -/
def foldAfter (atom : Atom Char Weight) : Atom Char Weight :=
  match atom.dst with
  | [c] => fuse [atom] [foldAtom c]
  | _ => atom

/-- Folding after a scan whose atoms give one character each. -/
theorem foldAfter_spec {atom : Atom Char Weight} (single : atom.dst.length = 1) :
    ∃ c, atom.dst = [c] ∧ foldAfter atom = fuse [atom] [foldAtom c] ∧
      Alignment.Irreducible [atom] [foldAtom c] := by
  obtain ⟨c, dstEq⟩ := List.length_eq_one_iff.mp single
  refine ⟨c, dstEq, by rw [foldAfter, dstEq], Alignment.single_irreducible ?_ (by simp [dstEq])⟩
  rw [single, foldAtom_src]
  rfl

theorem foldAfter_src {atom : Atom Char Weight} (single : atom.dst.length = 1) :
    (foldAfter atom).src = atom.src := by
  obtain ⟨c, -, afterEq, irreducible⟩ := foldAfter_spec single
  rw [afterEq, irreducible.fuse_src]
  simp

theorem foldAfter_dst_length {atom : Atom Char Weight} (single : atom.dst.length = 1) :
    (foldAfter atom).dst.length = 1 := by
  obtain ⟨c, dstEq, afterEq, irreducible⟩ := foldAfter_spec single
  rw [afterEq, irreducible.fuse_dst (by simp [dstEq, foldAtom_src])]
  simpa using foldAtom_dst_length c

theorem composes_foldAfter {atoms : List (Atom Char Weight)}
    (single : ∀ atom ∈ atoms, atom.dst.length = 1) :
    Composes atoms ((Alignment.dst atoms).map foldAtom) (atoms.map foldAfter) := by
  induction atoms with
  | nil => exact .nil
  | cons atom atoms ih =>
      obtain ⟨here, later⟩ := List.forall_mem_cons.mp single
      obtain ⟨c, dstEq, afterEq, irreducible⟩ := foldAfter_spec here
      have composes := Composes.group irreducible (ih later)
      rw [Alignment.dst_cons, dstEq, List.map_cons, afterEq]
      simpa using composes

end Fold

/-! ## The context-free pipeline -/

/-- Atoms of a text under the context-free pipeline. -/
def cleanAtoms (text : List Char) : List (Atom Char Weight) :=
  (Nfc.scan text).map Fold.foldAfter

theorem cleanAtoms_src (text : List Char) : Alignment.src (cleanAtoms text) = text := by
  have composes := Fold.composes_foldAfter (Nfc.scan_dst_length text)
  rw [cleanAtoms, composes.src_eq, Nfc.scan_src]

theorem cleanAtoms_dst_length (text : List Char) :
    ∀ atom ∈ cleanAtoms text, atom.dst.length = 1 := by
  intro atom member
  obtain ⟨before, inScan, rfl⟩ := List.mem_map.mp member
  exact Fold.foldAfter_dst_length (Nfc.scan_dst_length text before inScan)

theorem Nfc.scan_consuming (text : List Char) : Consuming (scan text) := by
  obtain ⟨calls, -, atomsEq⟩ := apply_laid text
  rw [← atomsEq]
  exact consuming_callAtoms calls

theorem cleanAtoms_consuming (text : List Char) : Consuming (cleanAtoms text) := by
  intro atom member
  obtain ⟨before, inScan, rfl⟩ := List.mem_map.mp member
  rw [Fold.foldAfter_src (Nfc.scan_dst_length text before inScan)]
  exact Nfc.scan_consuming text before inScan

/-- Atoms that do not widen give a text that is not wider. -/
theorem fits_dst {atoms : List (Atom Char Weight)}
    (narrow : ∀ atom ∈ atoms, utf8Len atom.dst ≤ utf8Len atom.src)
    (fits : Fits (Alignment.src atoms)) : Fits (Alignment.dst atoms) := by
  refine Nat.lt_of_le_of_lt ?_ fits
  clear fits
  induction atoms with
  | nil => exact Nat.le_refl _
  | cons atom atoms ih =>
      obtain ⟨here, later⟩ := List.forall_mem_cons.mp narrow
      rw [Alignment.dst_cons, Alignment.src_cons, utf8Len_append, utf8Len_append]
      exact Nat.add_le_add here (ih later)

theorem Nfc.scan_width (text : List Char) :
    ∀ atom ∈ scan text, utf8Len atom.dst ≤ utf8Len atom.src := by
  fun_induction scan text with
  | case1 => simp
  | case2 c rest syllable consumed composed positive ih =>
      refine List.forall_mem_cons.mpr ⟨?_, ih⟩
      obtain ⟨two, -, small, large⟩ := composeAt_shape composed
      have first := large c rfl
      obtain ⟨count, rfl⟩ : ∃ count, consumed = count + 1 := ⟨consumed - 1, by omega⟩
      have narrow : syllable.utf8Size ≤ c.utf8Size := by
        rw [utf8Size_eq, utf8Size_eq, if_neg (show ¬ c.toNat ≤ 0x7F by omega),
          if_neg (show ¬ c.toNat ≤ 0x7FF by omega)]
        repeat' split
        all_goals omega
      simp only [Atom.src, Atom.dst, List.take_succ_cons, utf8Len_cons, utf8Len_nil]
      omega
  | case3 c rest plain ih => exact List.forall_mem_cons.mpr ⟨Nat.le_refl _, ih⟩

theorem Fold.scan_src (text : List Char) : Alignment.src (text.map foldAtom) = text := by
  induction text with
  | nil => rfl
  | cons c text ih => rw [List.map_cons, Alignment.src_cons, foldAtom_src, ih, List.singleton_append]

theorem Fold.fits_scan {text : List Char} (fits : Fits text) :
    Fits (Alignment.dst (text.map foldAtom)) := by
  apply fits_dst
  · intro atom member
    obtain ⟨c, -, rfl⟩ := List.mem_map.mp member
    exact foldAtom_width c
  · rwa [scan_src]

theorem Nfc.fits_scan {text : List Char} (fits : Fits text) : Fits (Alignment.dst (scan text)) :=
  fits_dst (scan_width text) (by rwa [scan_src])

theorem cleanAtoms_dst (text : List Char) : Alignment.dst (cleanAtoms text) =
    Alignment.dst ((Alignment.dst (Nfc.scan text)).map Fold.foldAtom) :=
  (Fold.composes_foldAfter (Nfc.scan_dst_length text)).dst_eq (Fold.scan_src _).symm

/-- One pass whose atoms are known. -/
theorem applyPass_atoms {inner outer result : List (Atom Char Weight)}
    {pass : List Char → List Char × SpanMap}
    (run : ∃ calls, pass (Alignment.dst inner) = build calls ∧ callAtoms calls = outer)
    (consuming : Consuming inner) (texts : Alignment.dst inner = Alignment.src outer)
    (composes : Composes inner outer result) (fitsSrc : Fits (Alignment.src inner))
    (fitsMiddle : Fits (Alignment.dst inner)) (fitsDst : Fits (Alignment.dst outer)) :
    applyPass true pass ⟨Alignment.dst inner, tableOf (pack inner)⟩ =
      .ok ⟨Alignment.dst result, tableOf (pack result)⟩ := by
  obtain ⟨calls, passEq, rfl⟩ := run
  have tableEq : (build calls).2 = tableOf (pack (callAtoms calls)) := by
    apply build_eq
    · rwa [← src_callAtoms, ← texts]
    · rwa [build_text]
  obtain ⟨other, composes', composed⟩ := compose_eq consuming (consuming_callAtoms calls) texts
    fitsSrc fitsMiddle fitsDst
  obtain rfl := composes.unique (consuming_callAtoms calls) composes'
  simp only [applyPass, if_true, passEq, tableEq, composed, build_text, composes.dst_eq texts]

/-- Context-free normalisation lays out the atoms of the scan. -/
theorem normalize_contextFree {text : List Char} (fits : Fits text) :
    normalize text .contextFree =
      .ok ⟨Alignment.dst (cleanAtoms text), tableOf (pack (cleanAtoms text))⟩ := by
  have fitsScan := Nfc.fits_scan fits
  have composing : applyPass true Nfc.apply ⟨text, SpanMap.identity text⟩ =
      .ok ⟨Alignment.dst (Nfc.scan text), tableOf (pack (Nfc.scan text))⟩ := by
    have composes := Composes.keeps_left (Nfc.scan text)
    rw [Nfc.scan_src] at composes
    have pass := applyPass_atoms (by simpa using Nfc.apply_laid text)
      (Alignment.consuming_keeps text) (by simp [Nfc.scan_src]) composes (by simpa using fits)
      (by simpa using fits) fitsScan
    simpa [identity_eq] using pass
  have folding := applyPass_atoms (Fold.apply_laid _) (Nfc.scan_consuming text)
    (Fold.scan_src _).symm (Fold.composes_foldAfter (Nfc.scan_dst_length text))
    (by rwa [Nfc.scan_src]) fitsScan (Fold.fits_scan fitsScan)
  simp only [normalize, passes, NormalizeConfig.contextFree, List.foldlM_cons, List.foldlM_nil,
    composing, bind, Except.bind, folding]
  rfl

/-! ## Cutting -/

/-- A range of a text that atoms of one character produce is produced by some of them. -/
theorem exists_atoms_of_piece {atoms : List (Atom Char Weight)}
    (single : ∀ atom ∈ atoms, atom.dst.length = 1) {piece : Piece} {after : List Char}
    (inText : piece.In (Alignment.dst atoms) after) :
    ∃ front middle back, atoms = front ++ (middle ++ back) ∧
      Alignment.dst front = piece.before ∧ Alignment.dst middle = piece.body := by
  have cut (text rest : List Char) : ∀ atoms : List (Atom Char Weight),
      (∀ atom ∈ atoms, atom.dst.length = 1) → Alignment.dst atoms = text ++ rest →
      ∃ front back, atoms = front ++ back ∧ Alignment.dst front = text ∧
        Alignment.dst back = rest := by
    induction text with
    | nil => exact fun atoms _ whole => ⟨[], atoms, rfl, rfl, whole⟩
    | cons c text ih =>
        intro atoms single whole
        cases atoms with
        | nil => exact absurd whole (by simp)
        | cons atom atoms =>
            obtain ⟨here, later⟩ := List.forall_mem_cons.mp single
            obtain ⟨d, dstEq⟩ := List.length_eq_one_iff.mp here
            rw [Alignment.dst_cons, dstEq] at whole
            obtain ⟨rfl, rest'⟩ := List.cons.inj whole
            obtain ⟨front, back, rfl, frontEq, backEq⟩ := ih atoms later rest'
            exact ⟨atom :: front, back, rfl, by rw [Alignment.dst_cons, dstEq, frontEq]; rfl, backEq⟩
  have whole := inText
  rw [Piece.In, Piece.through, List.append_assoc] at whole
  obtain ⟨front, rest, rfl, frontEq, restEq⟩ := cut _ _ atoms single whole
  obtain ⟨middle, back, rfl, middleEq, -⟩ := cut _ _ rest
    (fun atom member => single atom (List.mem_append_right _ member)) restEq
  exact ⟨front, middle, back, rfl, frontEq, middleEq⟩

/-- Cleaning the source of some atoms of a clean text gives these atoms. -/
theorem cleanAtoms_cut {text : List Char} {front middle back : List (Atom Char Weight)}
    (split : cleanAtoms text = front ++ (middle ++ back)) :
    cleanAtoms (Alignment.src middle) = middle := by
  obtain ⟨front', rest, scanned, -, restEq⟩ := List.map_eq_append_iff.mp split
  obtain ⟨middle', back', rfl, rfl, -⟩ := List.map_eq_append_iff.mp restEq
  have single : ∀ atom ∈ middle', atom.dst.length = 1 := by
    intro atom member
    apply Nfc.scan_dst_length text
    rw [scanned]
    simp [member]
  rw [cleanAtoms, (Fold.composes_foldAfter single).src_eq, Nfc.scan_cut scanned]

/-- Every range of the normalised text is what its source normalises to. -/
def CommutesWithCutting (text : List Char) : Prop :=
  ∃ normalized, normalize text .contextFree = .ok normalized ∧
    ∀ (piece : Piece) (after : List Char), piece.In normalized.text after → piece.body ≠ [] →
      (normalized.map.toSource piece.span).snapped = false ∧
        ∃ fragment again,
          (normalized.map.toSource piece.span).span.slice text = some fragment ∧
            normalize fragment .contextFree = .ok again ∧ again.text = piece.body

/-- Context-free normalisation commutes with cutting a text that fits. -/
theorem normalize_commutesWithCutting {text : List Char} (fits : Fits text) :
    CommutesWithCutting text := by
  refine ⟨_, normalize_contextFree fits, ?_⟩
  intro piece after inText nonempty
  have single := cleanAtoms_dst_length text
  obtain ⟨front, middle, back, split, frontEq, middleEq⟩ := exists_atoms_of_piece single inText
  have srcEq := cleanAtoms_src text
  have again := cleanAtoms_cut split
  have consuming := cleanAtoms_consuming text
  have fitsDst : Fits (Alignment.dst (cleanAtoms text)) := by
    rw [cleanAtoms_dst]
    exact Fold.fits_scan (Nfc.fits_scan fits)
  rw [split] at single srcEq inText consuming fitsDst ⊢
  have produces : ∀ atom ∈ front ++ (middle ++ back), atom.dst ≠ [] := by
    intro atom member empty
    have one := single atom member
    rw [empty] at one
    exact absurd one (by simp)
  have some : middle ≠ [] := by
    rintro rfl
    exact nonempty middleEq.symm
  have through : (Alignment.dst (front ++ middle)).length = piece.through.length := by
    rw [Alignment.dst_append, frontEq, middleEq]
    rfl
  constructor
  · rw [← dstText_pack] at fitsDst inText
    apply toSource_unsnapped fitsDst inText nonempty
    · rw [← frontEq]
      exact uncut_of_seam (expand_pack _)
    · rw [← through]
      exact uncut_of_seam (by rw [expand_pack, List.append_assoc])
  · obtain ⟨source, rest, inSource, -, spanEq, beforeEq, throughEq⟩ :=
      toSource_pack consuming fitsDst inText nonempty
    rw [← frontEq, Alignment.startIn_seam
      (fun atom member => produces atom (List.mem_append_right _ member)) (by simp [some])]
      at beforeEq
    rw [← through, ← List.append_assoc,
      Alignment.stopIn_seam
        (fun atom member => produces atom (by simp at member ⊢; tauto)) (by simp [some])]
      at throughEq
    rw [srcEq] at inSource
    have bodyEq : source.body = Alignment.src middle := by
      rw [Piece.through, beforeEq, Alignment.src_append] at throughEq
      exact List.append_cancel_left throughEq
    have fitsSource : Fits (source.before ++ source.body) := fits.of_leads ⟨rest, inSource.symm⟩
    have fitsFragment : Fits (Alignment.src middle) := bodyEq ▸ fitsSource.of_append_right
    refine ⟨Alignment.src middle, _, ?_, normalize_contextFree fitsFragment, ?_⟩
    · rw [spanEq, ← bodyEq]
      have sliced := (covers_spanAt fitsSource).slice rest
      rwa [← show text = source.before ++ source.body ++ rest from inSource] at sliced
    · rw [again, middleEq]

/-- A syllable of three jamo, one completed by a final consonant, a full-width letter. -/
theorem normalize_commutesWithCutting_jamo :
    Fits "\u1112\u1161\u11AB가\u11A8Ａ".toList ∧
      CommutesWithCutting "\u1112\u1161\u11AB가\u11A8Ａ".toList := by
  have fits : Fits "\u1112\u1161\u11AB가\u11A8Ａ".toList := by
    unfold Fits
    decide
  exact ⟨fits, normalize_commutesWithCutting fits⟩

/-- A text whose length wraps to zero has no normal form. -/
theorem not_commutesWithCutting {size : Nat} (wraps : size = 2 ^ 32) :
    ¬ CommutesWithCutting (List.replicate size 'a') := by
  have width : utf8Len (List.replicate size 'a') = 2 ^ 32 := by rw [utf8Len_replicate, wraps]
  have length : (List.replicate size 'a').length = 2 ^ 32 := by rw [List.length_replicate, wraps]
  have plain : Nfc.hasConjoiningJamo (List.replicate size 'a') = false := by
    rw [Nfc.hasConjoiningJamo, List.any_eq_false]
    intro c member
    rw [List.eq_of_mem_replicate member]
    decide
  clear wraps
  generalize List.replicate size 'a' = text at *
  have pass : Nfc.apply text = (text, SpanMap.identity text) := by
    rw [Nfc.apply, if_pos (by simp [plain])]
  have identity : SpanMap.identity text = (build [.keep text]).2 := rfl
  rw [build_keep_wraps width length] at identity
  rintro ⟨normalized, ran, -⟩
  simp only [normalize, passes, NormalizeConfig.contextFree, List.foldlM_cons, applyPass, if_true,
    pass, bind, Except.bind] at ran
  cases composed : SpanMap.compose (SpanMap.identity text) (SpanMap.identity text) with
  | ok map =>
      rw [identity] at composed
      exact compose_wrapped map composed
  | error error =>
      rw [composed] at ran
      exact absurd ran (by simp)

theorem not_commutesWithCutting_wrapped :
    ¬ CommutesWithCutting (List.replicate (2 ^ 32) 'a') :=
  not_commutesWithCutting rfl

end AiCoreStack.Pii
