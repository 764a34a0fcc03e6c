import AiCoreStack.Pii.Entity

/-!
# What the context search finds

A cue is found when its word lies wholly in the window in front of the span or in the
window behind it, at the distance of the nearest such occurrence.  The window in front is
never empty, so a window of no characters still shows one.
-/

namespace AiCoreStack.Pii.Context

open AiCoreStack.Foundation
open String (utf8Len)

/-- Distances at which a word occurs in the last characters of the text before a span. -/
def gapsBefore (front word : List Char) (window : Nat) : Set Nat :=
  {n | ∃ left right, front = left ++ word ++ right ∧ word.length + right.length ≤ window ∧
    right.length = n}

/-- Distances at which a word occurs in the first characters of the text after a span. -/
def gapsAfter (back word : List Char) (window : Nat) : Set Nat :=
  {n | ∃ left right, back = left ++ word ++ right ∧ left.length + word.length ≤ window ∧
    left.length = n}

/-- Distances of the occurrences of a word that lie within the window of a span. -/
def gaps (front back word : List Char) (window : Nat) : Set Nat :=
  gapsBefore front word window ∪ gapsAfter back word window

/-! ## The two searches -/

theorem gapsAfter_eq (back word : List Char) (window : Nat) :
    gapsAfter back word window =
      {n | ∃ before after, back.take window = before ++ word ++ after ∧ before.length = n} := by
  ext n
  constructor
  · rintro ⟨left, right, rfl, within, rfl⟩
    refine ⟨left, right.take (window - (left ++ word).length), ?_, rfl⟩
    rw [List.take_append, List.take_of_length_le (by rwa [List.length_append])]
  · rintro ⟨before, after, shown, rfl⟩
    refine ⟨before, after ++ back.drop window, ?_, ?_, rfl⟩
    · rw [← List.append_assoc, ← shown, List.take_append_drop]
    · have bound := List.length_take_le window back
      rw [shown, List.length_append, List.length_append] at bound
      omega

theorem gapsBefore_eq (front word : List Char) (window : Nat) :
    gapsBefore front word window = gapsAfter front.reverse word.reverse window := by
  ext n
  constructor
  · rintro ⟨left, right, rfl, within, rfl⟩
    refine ⟨right.reverse, left.reverse, by simp, ?_, by simp⟩
    rw [List.length_reverse, List.length_reverse]
    omega
  · rintro ⟨left, right, mirrored, within, rfl⟩
    refine ⟨right.reverse, left.reverse, ?_, ?_, by simp⟩
    · rw [← List.reverse_reverse front, mirrored]
      simp
    · rw [List.length_reverse] at within ⊢
      omega

theorem distanceAfter_eq_least {back word : List Char} {window distance : Nat} :
    distanceAfter word (back.take window) = some distance ↔
      IsLeast (gapsAfter back word window) distance := by
  rw [gapsAfter_eq]
  exact splitOnce_eq_least

theorem distanceBefore_eq_least {front word : List Char} {window distance : Nat} :
    distanceBefore word (front.rtake window) = some distance ↔
      IsLeast (gapsBefore front word window) distance := by
  rw [gapsBefore_eq, ← distanceAfter_eq_least, distanceBefore, distanceAfter,
    List.rtake_eq_reverse_take_reverse, List.reverse_reverse]

/-- The nearer of two nearest occurrences is the nearest of both kinds. -/
theorem nearest_eq_least {before after : Option Nat} {left right : Set Nat}
    (nearestLeft : ∀ n, before = some n ↔ IsLeast left n)
    (nearestRight : ∀ n, after = some n ↔ IsLeast right n) (distance : Nat) :
    nearest before after = some distance ↔ IsLeast (left ∪ right) distance := by
  have emptyOf (side : Option Nat) (set : Set Nat) (least : ∀ n, side = some n ↔ IsLeast set n)
      (absent : side = none) : set = ∅ := by
    rw [← Set.not_nonempty_iff_eq_empty]
    intro nonempty
    have found := (least _).mpr ⟨Nat.sInf_mem nonempty, fun n member => Nat.sInf_le member⟩
    rw [absent] at found
    cases found
  have uniqueOf {set : Set Nat} {n : Nat} (least : IsLeast set n) :
      some n = some distance ↔ IsLeast set distance := by
    rw [Option.some.injEq]
    exact ⟨fun same => same ▸ least, fun least' => least.unique least'⟩
  cases before with
  | none =>
      have noLeft := emptyOf none left nearestLeft rfl
      rw [noLeft, Set.empty_union]
      exact nearestRight distance
  | some b =>
      have leastLeft := (nearestLeft b).mp rfl
      cases after with
      | none =>
          have noRight := emptyOf none right nearestRight rfl
          rw [noRight, Set.union_empty]
          exact nearestLeft distance
      | some a =>
          have leastRight := (nearestRight a).mp rfl
          exact uniqueOf (leastLeft.union leastRight)

/-! ## The window -/

variable {F : Type} [Scalar F]

/-- The hit of a cue at a distance. -/
def hitAt (cue : Cue F) (distance : Nat) : ContextHit F :=
  ⟨cue.word, distance, Scalar.mul cue.weight (decay distance)⟩

/-- The search returns one hit for each cue whose word occurs within the window, at the
distance of its nearest occurrence, and no other. -/
def RespectsWindow (front inside back : List Char) (span : Span) (window : Nat)
    (table : List (Cue F)) : Prop :=
  ∃ hits, find (front ++ inside ++ back) span window table = some hits ∧
    ∃ distanceOf : Cue F → Option Nat,
      hits.Perm (table.filterMap fun cue => (distanceOf cue).map (hitAt cue)) ∧
      ∀ cue ∈ table, ∀ distance, distanceOf cue = some distance ↔
        IsLeast (gaps front back cue.word.toList window) distance

/-- What the search finds of a cue. -/
def found (front back : List Char) (window : Nat) (cue : Cue F) : Option Nat :=
  nearest (distanceBefore cue.word.toList (front.rtake (max window 1)))
    (distanceAfter cue.word.toList (back.take window))

omit [Scalar F] in
theorem found_eq_least (front back : List Char) (window : Nat) (cue : Cue F) (distance : Nat) :
    found front back window cue = some distance ↔
      IsLeast (gapsBefore front cue.word.toList (max window 1) ∪
        gapsAfter back cue.word.toList window) distance :=
  nearest_eq_least (fun _ => distanceBefore_eq_least) (fun _ => distanceAfter_eq_least) distance

/-- The span covers the part between the two outer ones. -/
structure Covers (front inside : List Char) (span : Span) : Prop where
  start : utf8Len front = span.byte.start.toNat
  stop : utf8Len (front ++ inside) = span.byte.stop.toNat

theorem find_eq {front inside back : List Char} {span : Span} (covers : Covers front inside span)
    (window : Nat) (table : List (Cue F)) :
    find (front ++ inside ++ back) span window table =
      some ((table.filterMap fun cue => (found front back window cue).map (hitAt cue)).insertionSort
        hitOrder) := by
  have before : windowBefore (front ++ inside ++ back) span.byte.start.toNat window =
      some (front.rtake (max window 1)) := by
    rw [windowBefore, ← covers.start, List.append_assoc, splitAtByte_append, Option.map_some]
  have after : windowAfter (front ++ inside ++ back) span.byte.stop.toNat window =
      some (back.take window) := by
    rw [windowAfter, ← covers.stop, splitAtByte_append, Option.map_some]
  rw [find, before, after]
  rfl

/-- A word of one character that stands right in front of the span. -/
def TouchedBy (front word : List Char) : Prop := ∃ left c, front = left ++ [c] ∧ word = [c]

theorem gapsBefore_zero (front word : List Char) (nonempty : word ≠ []) :
    gapsBefore front word 0 = ∅ := by
  rw [Set.eq_empty_iff_forall_notMem]
  rintro n ⟨left, right, -, within, -⟩
  have positive := List.length_pos_iff.mpr nonempty
  omega

theorem gapsAfter_zero (back word : List Char) (nonempty : word ≠ []) :
    gapsAfter back word 0 = ∅ := by
  rw [Set.eq_empty_iff_forall_notMem]
  rintro n ⟨left, right, -, within, -⟩
  have positive := List.length_pos_iff.mpr nonempty
  omega

omit [Scalar F] in
/-- Without a window the character in front of the span is still searched. -/
theorem found_of_touched {front back : List Char} {cue : Cue F}
    (touched : TouchedBy front cue.word.toList) : found front back 0 cue = some 0 := by
  obtain ⟨left, c, frontEq, wordEq⟩ := touched
  rw [found_eq_least]
  refine ⟨.inl ⟨left, [], ?_, ?_, rfl⟩, fun n _ => Nat.zero_le n⟩
  · rw [frontEq, wordEq, List.append_nil]
  · simp [wordEq]

theorem gapsBefore_one {front word : List Char} (nonempty : word ≠ [])
    (free : ¬ TouchedBy front word) : gapsBefore front word 1 = ∅ := by
  rw [Set.eq_empty_iff_forall_notMem]
  rintro n ⟨left, right, frontEq, within, -⟩
  have positive := List.length_pos_iff.mpr nonempty
  obtain ⟨c, rfl⟩ := List.length_eq_one_iff.mp (by omega : word.length = 1)
  obtain rfl : right = [] := List.length_eq_zero_iff.mp (by simpa using within)
  exact free ⟨left, c, by simpa using frontEq, rfl⟩

/-- A search that respects an empty window has no cue that touches the span. -/
theorem untouched_of_respects {front inside back : List Char} {span : Span}
    (covers : Covers front inside span) {table : List (Cue F)}
    (nonempty : ∀ cue ∈ table, cue.word.toList ≠ [])
    (respects : RespectsWindow front inside back span 0 table) {cue : Cue F}
    (member : cue ∈ table) : ¬ TouchedBy front cue.word.toList := by
  intro touched
  obtain ⟨hits, foundEq, distanceOf, perm, least⟩ := respects
  have hit : hitAt cue 0 ∈ hits := by
    rw [find_eq covers, Option.some.injEq] at foundEq
    rw [← foundEq, List.mem_insertionSort, List.mem_filterMap]
    exact ⟨cue, member, by rw [found_of_touched touched, Option.map_some]⟩
  obtain ⟨other, memberOther, hitOther⟩ := List.mem_filterMap.mp (perm.mem_iff.mp hit)
  obtain ⟨distance, distanceEq, -⟩ := Option.map_eq_some_iff.mp hitOther
  have inWindow := ((least other memberOther distance).mp distanceEq).1
  rw [gaps, gapsBefore_zero _ _ (nonempty other memberOther),
    gapsAfter_zero _ _ (nonempty other memberOther), Set.empty_union] at inWindow
  exact inWindow

/-- The search respects the window exactly when it is not empty, or no cue is the one
character in front of the span. -/
theorem respectsWindow_iff {front inside : List Char} (back : List Char) {span : Span}
    (covers : Covers front inside span) (window : Nat) {table : List (Cue F)}
    (nonempty : ∀ cue ∈ table, cue.word.toList ≠ []) :
    RespectsWindow front inside back span window table ↔
      window ≠ 0 ∨ ∀ cue ∈ table, ¬ TouchedBy front cue.word.toList := by
  constructor
  · intro respects
    rcases Nat.eq_zero_or_pos window with rfl | positive
    · exact .inr fun cue member => untouched_of_respects covers nonempty respects member
    · exact .inl positive.ne'
  · intro condition
    refine ⟨_, find_eq covers window table, found front back window,
      List.perm_insertionSort _ _, ?_⟩
    intro cue member distance
    rw [found_eq_least, gaps]
    rcases Nat.eq_zero_or_pos window with rfl | positive
    · have free := condition.resolve_left (not_not.mpr rfl) cue member
      rw [Nat.max_eq_right (Nat.zero_le 1), gapsBefore_zero _ _ (nonempty cue member),
        gapsBefore_one (nonempty cue member) free]
    · rw [Nat.max_eq_left positive]

theorem respectsWindow_iff_near :
    Covers ['한', '글', ' '] ['1'] ⟨⟨7, 8⟩, ⟨3, 4⟩⟩ ∧
      RespectsWindow (F := Exact) ['한', '글', ' '] ['1'] ['!'] ⟨⟨7, 8⟩, ⟨3, 4⟩⟩ 3 [⟨"글", .fin 1⟩] := by
  have covers : Covers ['한', '글', ' '] ['1'] ⟨⟨7, 8⟩, ⟨3, 4⟩⟩ := ⟨by decide, by decide⟩
  have nonempty : ∀ cue ∈ [(⟨"글", .fin 1⟩ : Cue Exact)], cue.word.toList ≠ [] := by simp
  exact ⟨covers, (respectsWindow_iff ['!'] covers 3 nonempty).mpr (.inl (by decide))⟩

/-- A window of no characters finds the character in front of the span. -/
theorem not_respectsWindow_zero :
    (find (F := Exact) ['a', '1'] ⟨⟨1, 2⟩, ⟨1, 2⟩⟩ 0 [⟨"a", .fin 1⟩]).map List.length = some 1 ∧
      ¬ RespectsWindow (F := Exact) ['a'] ['1'] [] ⟨⟨1, 2⟩, ⟨1, 2⟩⟩ 0 [⟨"a", .fin 1⟩] := by
  have covers : Covers ['a'] ['1'] ⟨⟨1, 2⟩, ⟨1, 2⟩⟩ := ⟨by decide, by decide⟩
  constructor
  · decide
  · intro respects
    exact untouched_of_respects covers (by simp) respects List.mem_cons_self ⟨[], 'a', rfl, rfl⟩

end AiCoreStack.Pii.Context
