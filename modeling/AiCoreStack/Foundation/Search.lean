import Mathlib

/-!
# First occurrence of a pattern in a list

`splitOnce pattern text` cuts `text` around the first occurrence of `pattern`, the
list form of `str::find`.  Occurrences of a pattern that does not overlap itself
cannot straddle the seam between a text free of the pattern and a copy of it.
-/

namespace AiCoreStack.Foundation

universe u

variable {α : Type u} [DecidableEq α]

/-- Text before and after the first occurrence of `pattern`. -/
def splitOnce (pattern : List α) : List α → Option (List α × List α)
  | [] => if pattern = [] then some ([], []) else none
  | a :: text =>
      if pattern <+: a :: text then
        some ([], (a :: text).drop pattern.length)
      else
        (splitOnce pattern text).map fun cut => (a :: cut.1, cut.2)

/-- A successful search puts the pattern back between the two halves. -/
theorem splitOnce_append {pattern text before after : List α}
    (found : splitOnce pattern text = some (before, after)) :
    text = before ++ pattern ++ after := by
  induction text generalizing before after with
  | nil =>
      simp only [splitOnce] at found
      split at found
      next empty =>
        simp only [Option.some.injEq, Prod.mk.injEq] at found
        obtain ⟨rfl, rfl⟩ := found
        simp [empty]
      next => exact absurd found (by simp)
  | cons a text ih =>
      simp only [splitOnce] at found
      split at found
      next here =>
        obtain ⟨rest, restEq⟩ := here
        simp only [Option.some.injEq, Prod.mk.injEq] at found
        obtain ⟨rfl, rfl⟩ := found
        simp [← restEq]
      next =>
        rw [Option.map_eq_some_iff] at found
        obtain ⟨⟨head, tail⟩, inner, pair⟩ := found
        simp only [Prod.mk.injEq] at pair
        obtain ⟨rfl, rfl⟩ := pair
        simp [ih inner]

/-- The half before the first occurrence together with all but the last
element of the pattern is too short to hold an earlier occurrence. -/
theorem splitOnce_first {pattern text before after : List α}
    (found : splitOnce pattern text = some (before, after))
    {left right : List α} (other : text = left ++ pattern ++ right) :
    before.length ≤ left.length := by
  induction text generalizing before after left with
  | nil =>
      simp only [splitOnce] at found
      split at found
      next =>
        simp only [Option.some.injEq, Prod.mk.injEq] at found
        simp [← found.1]
      next => exact absurd found (by simp)
  | cons a text ih =>
      simp only [splitOnce] at found
      split at found
      next =>
        simp only [Option.some.injEq, Prod.mk.injEq] at found
        simp [← found.1]
      next absent =>
        rw [Option.map_eq_some_iff] at found
        obtain ⟨⟨head, tail⟩, inner, pair⟩ := found
        simp only [Prod.mk.injEq] at pair
        obtain ⟨rfl, rfl⟩ := pair
        cases left with
        | nil => exact absurd ⟨right, by simpa using other.symm⟩ absent
        | cons b left =>
            simp only [List.cons_append, List.cons.injEq] at other
            simpa using ih inner other.2

theorem splitOnce_eq_none {pattern text : List α} :
    splitOnce pattern text = none ↔ ¬ pattern <:+: text := by
  induction text with
  | nil => by_cases empty : pattern = [] <;> simp [splitOnce, empty]
  | cons a text ih =>
      by_cases here : pattern <+: a :: text
      · simp [splitOnce, here, here.isInfix]
      · simp [splitOnce, here, ih, List.infix_cons_iff]

theorem splitOnce_isSome {pattern text : List α} (occurs : pattern <:+: text) :
    ∃ before after, splitOnce pattern text = some (before, after) := by
  cases found : splitOnce pattern text with
  | none => exact absurd occurs (splitOnce_eq_none.mp found)
  | some cut => exact ⟨cut.1, cut.2, rfl⟩

theorem splitOnce_isSome_iff {pattern text : List α} :
    (splitOnce pattern text).isSome = true ↔ pattern <:+: text := by
  rw [← not_iff_not, Bool.not_eq_true, Option.isSome_eq_false_iff, Option.isNone_iff_eq_none,
    splitOnce_eq_none]

/-- The first half of a first occurrence contains no occurrence. -/
theorem splitOnce_absent {pattern text before after : List α}
    (nonempty : pattern ≠ [])
    (found : splitOnce pattern text = some (before, after)) :
    ¬ pattern <:+: before := by
  rintro ⟨left, right, rfl⟩
  have whole := splitOnce_append found
  have other : left ++ pattern ++ right ++ pattern ++ after =
      left ++ pattern ++ (right ++ pattern ++ after) := by simp
  have first := splitOnce_first found (whole.trans other)
  have positive := List.length_pos_of_ne_nil nonempty
  simp only [List.length_append] at first
  omega

omit [DecidableEq α] in
/-- An occurrence that a shorter text does not contain ends after it. -/
theorem length_lt_of_not_infix {pattern front text before after : List α}
    (leads : front <+: text) (absent : ¬ pattern <:+: front)
    (occurs : text = before ++ pattern ++ after) :
    front.length < before.length + pattern.length := by
  by_contra short
  apply absent
  have inside : before ++ pattern <+: front := by
    apply List.prefix_of_prefix_length_le ⟨after, occurs.symm⟩ leads
    rw [List.length_append]
    exact Nat.le_of_not_lt short
  exact (List.suffix_append before pattern).isInfix.trans inside.isInfix

/-- An occurrence with nothing earlier is the first occurrence. -/
theorem splitOnce_eq_some_of_first {pattern before after : List α}
    (first : ∀ left right, before ++ pattern ++ after = left ++ pattern ++ right →
      before.length ≤ left.length) :
    splitOnce pattern (before ++ pattern ++ after) = some (before, after) := by
  have occurs : pattern <:+: before ++ pattern ++ after := ⟨before, after, rfl⟩
  obtain ⟨head, tail, found⟩ := splitOnce_isSome occurs
  have whole := splitOnce_append found
  have upper : head.length ≤ before.length := splitOnce_first found rfl
  have lower := first head tail whole
  have lengths : before.length = head.length := by omega
  rw [List.append_assoc, List.append_assoc] at whole
  obtain ⟨rfl, same⟩ := List.append_inj whole lengths
  rw [found, List.append_cancel_left same]

/-- A pattern whose head does not occur in `before` is found right after it. -/
theorem splitOnce_of_head_not_mem {head : α} {tail before after : List α}
    (absent : head ∉ before) :
    splitOnce (head :: tail) (before ++ (head :: tail) ++ after) =
      some (before, after) := by
  apply splitOnce_eq_some_of_first
  intro left right same
  by_contra shorter
  simp only [List.append_assoc, List.cons_append] at same
  rcases List.append_eq_append_iff.mp same with
    ⟨middle, leftEq, -⟩ | ⟨middle, beforeEq, sameTail⟩
  · exact shorter (by simp [leftEq])
  · cases middle with
    | nil => exact shorter (by simp [beforeEq])
    | cons a middle =>
        simp only [List.cons_append, List.cons.injEq] at sameTail
        exact absent (by simp [beforeEq, sameTail.1])

/-- The search finds the occurrence with the least in front of it. -/
theorem splitOnce_eq_least {pattern text : List α} {width : Nat} :
    (splitOnce pattern text).map (fun cut => cut.1.length) = some width ↔
      IsLeast {n | ∃ before after, text = before ++ pattern ++ after ∧ before.length = n} width := by
  constructor
  · intro found
    obtain ⟨⟨before, after⟩, cut, rfl⟩ := Option.map_eq_some_iff.mp found
    refine ⟨⟨before, after, splitOnce_append cut, rfl⟩, ?_⟩
    rintro n ⟨left, right, other, rfl⟩
    exact splitOnce_first cut other
  · rintro ⟨⟨before, after, occurs, rfl⟩, least⟩
    rw [occurs, splitOnce_eq_some_of_first]
    · rfl
    · intro left right other
      exact least ⟨left, right, occurs.trans other, rfl⟩

/-- No proper nonempty prefix of the pattern is also a suffix of it. -/
def BorderFree (pattern : List α) : Prop :=
  ∀ border, border <+: pattern → border <:+ pattern → border ≠ [] →
    border = pattern

omit [DecidableEq α] in
/-- A pattern whose last element occurs nowhere else does not overlap itself. -/
theorem borderFree_of_last {init : List α} {last : α} (fresh : last ∉ init) :
    BorderFree (init ++ [last]) := by
  rintro border ⟨rest, pre⟩ ⟨front, post⟩ nonempty
  obtain ⟨inside, final, rfl⟩ :=
    (List.eq_nil_or_concat border).resolve_left nonempty
  rw [List.concat_eq_append, ← List.append_assoc] at post
  obtain ⟨-, sameLast⟩ := List.append_inj' post rfl
  simp only [List.cons.injEq, and_true] at sameLast
  subst sameLast
  rw [List.concat_eq_append, List.append_assoc, List.append_eq_append_iff] at pre
  rcases pre with ⟨middle, initEq, tailEq⟩ | ⟨middle, insideEq, tailEq⟩
  · cases middle with
    | nil =>
        simp only [List.nil_append, List.cons_append, List.cons.injEq, true_and] at tailEq
        simp [initEq]
    | cons a middle =>
        simp only [List.cons_append, List.nil_append, List.cons.injEq] at tailEq
        exact absurd (by simp [initEq, tailEq.1]) fresh
  · have lengths := congrArg List.length tailEq
    simp only [List.length_append, List.length_singleton] at lengths
    have middleNil : middle = [] := List.eq_nil_of_length_eq_zero (by omega)
    have restNil : rest = [] := List.eq_nil_of_length_eq_zero (by omega)
    simp [insideEq, middleNil]

/-- A pattern that does not overlap itself is found exactly at the seam when
the text before the seam is free of it. -/
theorem splitOnce_of_absent {pattern before after : List α}
    (borderFree : BorderFree pattern) (absent : ¬ pattern <:+: before) :
    splitOnce pattern (before ++ pattern ++ after) = some (before, after) := by
  apply splitOnce_eq_some_of_first
  intro left right same
  by_contra shorter
  have ordered : left.length < before.length := by omega
  simp only [List.append_assoc] at same
  rcases List.append_eq_append_iff.mp same with
    ⟨middle, leftEq, -⟩ | ⟨middle, beforeEq, tailEq⟩
  · exact shorter (by simp [leftEq])
  · rcases List.append_eq_append_iff.mp tailEq with
      ⟨inside, middleEq, -⟩ | ⟨overlap, patternEq, restEq⟩
    · exact absent ⟨left, inside, by simp [beforeEq, middleEq]⟩
    · have isPrefix : overlap <+: pattern := by
        apply List.prefix_of_prefix_length_le ⟨right, restEq.symm⟩ ⟨after, rfl⟩
        simp [patternEq]
      rcases List.eq_nil_or_concat overlap with rfl | ⟨_, _, overlapEq⟩
      · exact absent ⟨left, [], by simp [beforeEq, patternEq]⟩
      · have whole := borderFree overlap isPrefix ⟨middle, patternEq.symm⟩
          (by simp [overlapEq])
        have lengths := congrArg List.length patternEq
        rw [whole] at lengths
        simp only [List.length_append, beforeEq] at lengths ordered
        omega

end AiCoreStack.Foundation
