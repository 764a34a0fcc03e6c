import Mathlib

/-!
# Replacing a pattern everywhere

Non-overlapping occurrences from left to right.  A pattern whose first item occurs nowhere else
in it cannot overlap itself or any other such pattern, so a replacement goes from mark to mark
and leaves everything between them alone.
-/

namespace AiCoreStack.Foundation.Replace

variable {α : Type} [DecidableEq α]

/-- Replace what is left after so many items. -/
def replaceFrom (pattern replacement : List α) : Nat → List α → List α
  | _, [] => []
  | skip + 1, _ :: rest => replaceFrom pattern replacement skip rest
  | 0, a :: rest =>
      if pattern.isPrefixOf (a :: rest) then
        replacement ++ replaceFrom pattern replacement (pattern.length - 1) rest
      else a :: replaceFrom pattern replacement 0 rest

/-- `str::replace` for a pattern that is not empty. -/
def replaceAll (pattern replacement text : List α) : List α :=
  replaceFrom pattern replacement 0 text

/-- The number of places where a pattern stands. -/
def occurrences (pattern : List α) : List α → Nat
  | [] => 0
  | a :: rest => (if pattern <+: a :: rest then 1 else 0) + occurrences pattern rest

theorem replaceFrom_append (pattern replacement skipped rest : List α) :
    replaceFrom pattern replacement skipped.length (skipped ++ rest) =
      replaceFrom pattern replacement 0 rest := by
  induction skipped with
  | nil => rfl
  | cons a skipped ih =>
      rw [List.length_cons, List.cons_append, replaceFrom]
      exact ih

/-! ## From mark to mark -/

variable {mark : α} {body replacement : List α}

theorem replaceAll_cons_of_ne {a : α} (other : a ≠ mark) (rest : List α) :
    replaceAll (mark :: body) replacement (a :: rest) =
      a :: replaceAll (mark :: body) replacement rest := by
  have apart : ¬ (mark :: body).isPrefixOf (a :: rest) = true := by
    rw [List.isPrefixOf_iff_prefix, List.cons_prefix_cons]
    exact fun both => other both.1.symm
  rw [replaceAll, replaceFrom, if_neg apart]
  rfl

theorem replaceAll_marked (rest : List α) :
    replaceAll (mark :: body) replacement (mark :: (body ++ rest)) =
      replacement ++ replaceAll (mark :: body) replacement rest := by
  have here : (mark :: body).isPrefixOf (mark :: (body ++ rest)) = true := by
    rw [List.isPrefixOf_iff_prefix, List.cons_prefix_cons]
    exact ⟨rfl, List.prefix_append _ _⟩
  rw [replaceAll, replaceFrom, if_pos here, List.length_cons, Nat.add_sub_cancel,
    replaceFrom_append]
  rfl

theorem replaceAll_unmarked {rest : List α} (apart : ¬ body <+: rest) :
    replaceAll (mark :: body) replacement (mark :: rest) =
      mark :: replaceAll (mark :: body) replacement rest := by
  have absent : ¬ (mark :: body).isPrefixOf (mark :: rest) = true := by
    rw [List.isPrefixOf_iff_prefix, List.cons_prefix_cons]
    exact fun both => apart both.2
  rw [replaceAll, replaceFrom, if_neg absent]
  rfl

omit [DecidableEq α] in
/-- Induction over a text as a replacement goes through it. -/
theorem mark_induction (mark : α) (body : List α) {motive : List α → Prop} (nil : motive [])
    (other : ∀ a rest, a ≠ mark → motive rest → motive (a :: rest))
    (marked : ∀ rest, motive rest → motive (mark :: (body ++ rest)))
    (unmarked : ∀ rest, ¬ body <+: rest → motive rest → motive (mark :: rest))
    (text : List α) : motive text := by
  induction size : text.length using Nat.strong_induction_on generalizing text with
  | _ size ih =>
      cases text with
      | nil => exact nil
      | cons a rest =>
          rw [List.length_cons] at size
          by_cases isMark : a = mark
          · subst isMark
            by_cases here : body <+: rest
            · obtain ⟨rest, rfl⟩ := here
              rw [List.length_append] at size
              exact marked rest (ih rest.length (by omega) rest rfl)
            · exact unmarked rest here (ih rest.length (by omega) rest rfl)
          · exact other a rest isMark (ih rest.length (by omega) rest rfl)

/-- Nothing is replaced ahead of the first mark. -/
theorem replaceAll_append {front : List α} (clear : mark ∉ front) (rest : List α) :
    replaceAll (mark :: body) replacement (front ++ rest) =
      front ++ replaceAll (mark :: body) replacement rest := by
  induction front with
  | nil => rfl
  | cons a front ih =>
      rw [List.mem_cons, not_or] at clear
      rw [List.cons_append, replaceAll_cons_of_ne (Ne.symm clear.1), ih clear.2, List.cons_append]

/-! ## What a replacement leaves -/

section Single

variable {single : α}

/-- What stands ahead of the first mark after a replacement stood there before. -/
theorem prefix_of_prefix_replaceAll {front : List α} (clear : mark ∉ front)
    (fresh : single ∉ front) {text : List α}
    (leads : front <+: replaceAll (mark :: body) [single] text) : front <+: text := by
  induction front generalizing text with
  | nil => exact List.nil_prefix
  | cons b front ih =>
      rw [List.mem_cons, not_or] at clear fresh
      cases text with
      | nil => simp [replaceAll, replaceFrom] at leads
      | cons a rest =>
          by_cases isMark : a = mark
          · subst isMark
            by_cases here : body <+: rest
            · obtain ⟨rest, rfl⟩ := here
              rw [replaceAll_marked, List.singleton_append, List.cons_prefix_cons] at leads
              exact absurd leads.1.symm fresh.1
            · rw [replaceAll_unmarked here, List.cons_prefix_cons] at leads
              exact absurd leads.1.symm clear.1
          · rw [replaceAll_cons_of_ne isMark, List.cons_prefix_cons] at leads
            rw [List.cons_prefix_cons]
            exact ⟨leads.1, ih clear.2 fresh.2 leads.2⟩

/-- A replacement makes no new marked pattern. -/
theorem infix_of_infix_replaceAll {front : List α} (clear : mark ∉ front)
    (fresh : single ∉ mark :: front) {text : List α}
    (inside : mark :: front <:+: replaceAll (mark :: body) [single] text) :
    mark :: front <:+: text := by
  rw [List.mem_cons, not_or] at fresh
  induction text using mark_induction mark body with
  | nil => simp [replaceAll, replaceFrom] at inside
  | other a rest isOther ih =>
      rw [replaceAll_cons_of_ne isOther, List.infix_cons_iff, List.cons_prefix_cons] at inside
      rcases inside with ⟨same, _⟩ | later
      · exact absurd same.symm isOther
      · exact (ih later).trans (List.suffix_cons a rest).isInfix
  | marked rest ih =>
      rw [replaceAll_marked, List.singleton_append, List.infix_cons_iff, List.cons_prefix_cons]
        at inside
      rcases inside with ⟨same, _⟩ | later
      · exact absurd same.symm fresh.1
      · exact (ih later).trans ((List.suffix_append body rest).trans
          (List.suffix_cons mark _)).isInfix
  | unmarked rest _ ih =>
      rw [replaceAll_unmarked ‹_›, List.infix_cons_iff, List.cons_prefix_cons] at inside
      rcases inside with ⟨_, leads⟩ | later
      · have stood := prefix_of_prefix_replaceAll clear fresh.2 leads
        exact (List.cons_prefix_cons.mpr ⟨rfl, stood⟩).isInfix
      · exact (ih later).trans (List.suffix_cons mark rest).isInfix

/-- The pattern is gone. -/
theorem not_infix_replaceAll (clear : mark ∉ body) (fresh : single ∉ mark :: body)
    (text : List α) : ¬ mark :: body <:+: replaceAll (mark :: body) [single] text := by
  rw [List.mem_cons, not_or] at fresh
  induction text using mark_induction mark body with
  | nil => simp [replaceAll, replaceFrom]
  | other a rest isOther ih =>
      rw [replaceAll_cons_of_ne isOther, List.infix_cons_iff, List.cons_prefix_cons]
      rintro (⟨same, _⟩ | later)
      · exact isOther same.symm
      · exact ih later
  | marked rest ih =>
      rw [replaceAll_marked, List.singleton_append, List.infix_cons_iff, List.cons_prefix_cons]
      rintro (⟨same, _⟩ | later)
      · exact fresh.1 same.symm
      · exact ih later
  | unmarked rest apart ih =>
      rw [replaceAll_unmarked apart, List.infix_cons_iff, List.cons_prefix_cons]
      rintro (⟨_, leads⟩ | later)
      · exact apart (prefix_of_prefix_replaceAll clear fresh.2 leads)
      · exact ih later

end Single

/-- A text without the pattern stays as it is. -/
theorem replaceAll_eq_self {text : List α} (absent : ¬ mark :: body <:+: text) :
    replaceAll (mark :: body) replacement text = text := by
  induction text with
  | nil => rfl
  | cons a rest ih =>
      have later := ih fun inside => absent (inside.trans (List.suffix_cons a rest).isInfix)
      by_cases isMark : a = mark
      · subst isMark
        have apart : ¬ body <+: rest := fun leads =>
          absent (List.cons_prefix_cons.mpr ⟨rfl, leads⟩).isInfix
        rw [replaceAll_unmarked apart, later]
      · rw [replaceAll_cons_of_ne isMark, later]

/-! ## Escaped texts -/

omit [DecidableEq α] in
/-- What stands ahead of the first mark of an escaped text is not escaped. -/
theorem prefix_of_prefix_flatMap {escape : α → List α}
    (escapes : ∀ a, escape a = [a] ∨ ∃ tail, escape a = mark :: tail) {front : List α}
    (clear : mark ∉ front) {text : List α} (leads : front <+: text.flatMap escape) :
    front <+: text := by
  induction front generalizing text with
  | nil => exact List.nil_prefix
  | cons b front ih =>
      rw [List.mem_cons, not_or] at clear
      cases text with
      | nil => simp at leads
      | cons a rest =>
          rw [List.flatMap_cons] at leads
          rcases escapes a with plain | ⟨tail, escaped⟩
          · rw [plain, List.singleton_append, List.cons_prefix_cons] at leads
            rw [List.cons_prefix_cons]
            exact ⟨leads.1, ih clear.2 leads.2⟩
          · rw [escaped, List.cons_append, List.cons_prefix_cons] at leads
            exact absurd leads.1.symm clear.1

/-- Replacing the escape of one item by the item takes the escape back, unless the text itself
holds the pattern. -/
theorem replaceAll_flatMap {escape escape' : α → List α} {a : α}
    (escapes : ∀ b, escape b = [b] ∨
      ∃ tail, escape b = mark :: tail ∧ mark ∉ tail ∧ (b ≠ a → ∀ rest, ¬ body <+: tail ++ rest))
    (whole : escape a = mark :: body) (taken : escape' a = [a])
    (others : ∀ b, b ≠ a → escape' b = escape b) (clear : mark ∉ body) {text : List α}
    (absent : escape mark = [mark] → ¬ mark :: body <:+: text) :
    replaceAll (mark :: body) [a] (text.flatMap escape) = text.flatMap escape' := by
  have marks (b : α) : escape b = [b] ∨ ∃ tail, escape b = mark :: tail :=
    (escapes b).imp_right fun ⟨tail, escaped, _⟩ => ⟨tail, escaped⟩
  induction text with
  | nil => rfl
  | cons b rest ih =>
      have later := ih fun raw inside =>
        absent raw (inside.trans (List.suffix_cons b rest).isInfix)
      rw [List.flatMap_cons, List.flatMap_cons]
      by_cases isEscaped : b = a
      · rw [isEscaped, whole, taken, List.cons_append, replaceAll_marked, later]
      · rw [others b isEscaped]
        rcases escapes b with plain | ⟨tail, escaped, clean, apart⟩
        · by_cases isMark : b = mark
          · have raw : escape mark = [mark] := by rw [← isMark, plain]
            have behind : ¬ body <+: rest.flatMap escape := by
              intro leads
              apply absent raw
              rw [isMark]
              exact (List.cons_prefix_cons.mpr
                ⟨rfl, prefix_of_prefix_flatMap marks clear leads⟩).isInfix
            rw [plain, isMark, List.singleton_append, replaceAll_unmarked behind, later,
              List.singleton_append]
          · rw [plain, List.singleton_append, replaceAll_cons_of_ne isMark, later,
              List.singleton_append]
        · rw [escaped, List.cons_append, replaceAll_unmarked (apart isEscaped _),
            replaceAll_append clean, later, List.cons_append]

/-! ## Counting -/

theorem occurrences_append_le (pattern left right : List α) :
    occurrences pattern left + occurrences pattern right ≤ occurrences pattern (left ++ right) := by
  induction left with
  | nil => simp [occurrences]
  | cons a left ih =>
      rw [List.cons_append, occurrences, occurrences]
      have kept : (if pattern <+: a :: left then 1 else 0) ≤
          if pattern <+: a :: (left ++ right) then 1 else 0 := by
        split
        next here =>
          have still : pattern <+: a :: (left ++ right) :=
            here.trans (List.prefix_append (a :: left) right)
          rw [if_pos still]
        next => exact Nat.zero_le _
      omega

theorem occurrences_cons_of_ne {a : α} (other : a ≠ mark) (front rest : List α) :
    occurrences (mark :: front) (a :: rest) = occurrences (mark :: front) rest := by
  rw [occurrences, if_neg fun leads => other (List.cons_prefix_cons.mp leads).1.symm, Nat.zero_add]

theorem occurrences_append_of_notMem {text : List α} (clear : mark ∉ text) (front rest : List α) :
    occurrences (mark :: front) (text ++ rest) = occurrences (mark :: front) rest := by
  induction text with
  | nil => rfl
  | cons a text ih =>
      rw [List.mem_cons, not_or] at clear
      rw [List.cons_append, occurrences_cons_of_ne (Ne.symm clear.1), ih clear.2]

/-- A replacement leaves the occurrences of other marked patterns. -/
theorem occurrences_le_replaceAll {front : List α} (clear : mark ∉ body) (clear' : mark ∉ front)
    (apart : ∀ rest, ¬ front <+: body ++ rest) (replacement text : List α) :
    occurrences (mark :: front) text ≤
      occurrences (mark :: front) (replaceAll (mark :: body) replacement text) := by
  induction text using mark_induction mark body with
  | nil => exact Nat.zero_le _
  | other a rest isOther ih =>
      rw [replaceAll_cons_of_ne isOther, occurrences_cons_of_ne isOther,
        occurrences_cons_of_ne isOther]
      exact ih
  | marked rest ih =>
      have notHere : ¬ mark :: front <+: mark :: (body ++ rest) := fun leads =>
        apart rest (List.cons_prefix_cons.mp leads).2
      rw [replaceAll_marked, occurrences, if_neg notHere, Nat.zero_add,
        occurrences_append_of_notMem clear]
      have split := occurrences_append_le (mark :: front) replacement
        (replaceAll (mark :: body) replacement rest)
      omega
  | unmarked rest notBody ih =>
      have kept : (if mark :: front <+: mark :: rest then 1 else 0) ≤
          if mark :: front <+: mark :: replaceAll (mark :: body) replacement rest then 1
          else 0 := by
        split
        next leads =>
          obtain ⟨tail, rfl⟩ := (List.cons_prefix_cons.mp leads).2
          rw [replaceAll_append clear', if_pos (List.cons_prefix_cons.mpr
            ⟨rfl, List.prefix_append front _⟩)]
        next => exact Nat.zero_le _
      rw [replaceAll_unmarked notBody, occurrences, occurrences]
      omega

/-- Counted items are not lost, and each occurrence of the pattern brings those of the
replacement. -/
theorem countP_replaceAll (counted : α → Bool) (clear : mark ∉ body)
    (silent : ∀ a ∈ mark :: body, counted a = false) (replacement text : List α) :
    (replaceAll (mark :: body) replacement text).countP counted =
      text.countP counted +
        occurrences (mark :: body) text * replacement.countP counted := by
  rw [List.forall_mem_cons] at silent
  induction text using mark_induction mark body with
  | nil => simp [replaceAll, replaceFrom, occurrences]
  | other a rest isOther ih =>
      rw [replaceAll_cons_of_ne isOther, occurrences_cons_of_ne isOther, List.countP_cons,
        List.countP_cons, ih]
      omega
  | marked rest ih =>
      have here : mark :: body <+: mark :: (body ++ rest) :=
        List.cons_prefix_cons.mpr ⟨rfl, List.prefix_append _ _⟩
      have quiet : body.countP counted = 0 := List.countP_eq_zero.mpr fun a member => by
        simp [silent.2 a member]
      rw [replaceAll_marked, List.countP_append, ih, occurrences, if_pos here,
        occurrences_append_of_notMem clear, List.countP_cons_of_neg (by simp [silent.1]),
        List.countP_append, quiet, Nat.add_mul, Nat.one_mul]
      omega
  | unmarked rest notBody ih =>
      have notHere : ¬ mark :: body <+: mark :: rest := fun leads =>
        notBody (List.cons_prefix_cons.mp leads).2
      rw [replaceAll_unmarked notBody, occurrences, if_neg notHere, Nat.zero_add,
        List.countP_cons_of_neg (by simp [silent.1]), ih,
        List.countP_cons_of_neg (by simp [silent.1])]

end AiCoreStack.Foundation.Replace
