import AiCoreStack.Pii.SpanCompose

/-!
# Laws of span map composition

Builder runs that feed one another compose associatively, with the identity map
as unit on both sides.  The laws hold as long as all texts involved are shorter
than `2 ^ 32` bytes, the limit of the `u32` offsets.
-/

namespace AiCoreStack.Pii

open AiCoreStack.Foundation
open AiCoreStack.Foundation.Alignment (Atom keeps Consuming Composes)
open String (utf8Len utf8Len_nil utf8Len_cons)

/-- Associativity and unit laws for three consecutive builder runs. -/
def ComposeLaws (first second third : List Call) : Prop :=
  (∃ firstSecond secondThird whole,
    SpanMap.compose (build first).2 (build second).2 = .ok firstSecond ∧
    SpanMap.compose (build second).2 (build third).2 = .ok secondThird ∧
    SpanMap.compose firstSecond (build third).2 = .ok whole ∧
    SpanMap.compose (build first).2 secondThird = .ok whole) ∧
  SpanMap.compose (SpanMap.identity (first.flatMap Call.source)) (build first).2 =
    .ok (build first).2 ∧
  SpanMap.compose (build first).2 (SpanMap.identity (build first).1) = .ok (build first).2

/-- The identity map is a unit on both sides of a representable run. -/
theorem compose_identity {calls : List Call} (fitsSrc : Fits (calls.flatMap Call.source))
    (fitsDst : Fits (build calls).1) :
    SpanMap.compose (SpanMap.identity (calls.flatMap Call.source)) (build calls).2 =
        .ok (build calls).2 ∧
      SpanMap.compose (build calls).2 (SpanMap.identity (build calls).1) =
        .ok (build calls).2 := by
  rw [build_eq fitsSrc fitsDst, identity_eq, identity_eq, build_text]
  rw [build_text] at fitsDst
  rw [← src_callAtoms] at fitsSrc ⊢
  have consuming := consuming_callAtoms calls
  constructor
  · obtain ⟨result, composes, composed⟩ := compose_eq
      (Alignment.consuming_keeps (Alignment.src (callAtoms calls))) consuming (by simp)
      (by simpa using fitsSrc) (by simpa using fitsSrc) fitsDst
    rw [composed, composes.unique consuming (Composes.keeps_left (callAtoms calls))]
  · obtain ⟨result, composes, composed⟩ := compose_eq consuming
      (Alignment.consuming_keeps (Alignment.dst (callAtoms calls))) (by simp) fitsSrc fitsDst
      (by simpa using fitsDst)
    rw [composed, composes.unique (Alignment.consuming_keeps _)
      (Composes.keeps_right (callAtoms calls))]

/-- Three consecutive runs over representable texts compose associatively, and
the identity maps are units. -/
theorem composeLaws (first second third : List Call)
    (secondInput : second.flatMap Call.source = (build first).1)
    (thirdInput : third.flatMap Call.source = (build second).1)
    (fits0 : Fits (first.flatMap Call.source)) (fits1 : Fits (build first).1)
    (fits2 : Fits (build second).1) (fits3 : Fits (build third).1) :
    ComposeLaws first second third := by
  refine ⟨?_, compose_identity fits0 fits1⟩
  rw [build_eq fits0 fits1, build_eq (secondInput ▸ fits1) fits2,
    build_eq (thirdInput ▸ fits2) fits3]
  rw [build_text] at fits1 fits2 fits3 secondInput thirdInput
  rw [← src_callAtoms] at fits0 secondInput thirdInput
  have consuming1 := consuming_callAtoms first
  have consuming2 := consuming_callAtoms second
  have consuming3 := consuming_callAtoms third
  obtain ⟨firstSecond, pair, pairEq⟩ :=
    compose_eq consuming1 consuming2 secondInput.symm fits0 fits1 fits2
  obtain ⟨secondThird, pair', pairEq'⟩ :=
    compose_eq consuming2 consuming3 thirdInput.symm (secondInput ▸ fits1) fits2 fits3
  have pairDst := pair.dst_eq secondInput.symm
  obtain ⟨left, leftComposes, leftEq⟩ :=
    compose_eq (pair.consuming consuming1 consuming2) consuming3 (pairDst.trans thirdInput.symm)
      (pair.src_eq ▸ fits0) (pairDst ▸ fits2) fits3
  obtain ⟨right, rightComposes, rightEq⟩ :=
    compose_eq consuming1 (pair'.consuming consuming2 consuming3)
      (secondInput.symm.trans pair'.src_eq.symm) fits0 fits1
      (pair'.dst_eq thirdInput.symm ▸ fits3)
  have same := Composes.assoc consuming2 consuming3 secondInput.symm thirdInput.symm pair
    leftComposes pair' rightComposes
  exact ⟨_, _, _, pairEq, pairEq', leftEq, same ▸ rightEq⟩

theorem composeLaws_fold_then_absorb :
    (build [.replace "x".toList "12".toList "fold"]).1 = "12".toList ∧
      ComposeLaws [.keep "x".toList] [.replace "x".toList "12".toList "fold"]
        [.absorb "1".toList "sep" .separator, .keep "2".toList] :=
  ⟨by decide, composeLaws _ _ _ (by decide) (by decide) (by unfold Fits; decide)
    (by unfold Fits; decide) (by unfold Fits; decide) (by unfold Fits; decide)⟩

theorem utf8Len_replicate (n : Nat) : utf8Len (List.replicate n 'a') = n := by
  induction n with
  | zero => rfl
  | succ n ih =>
      rw [List.replicate_succ, utf8Len_cons, ih]
      rfl

/-- A text of exactly `2 ^ 32` one-byte characters wraps to an empty segment. -/
theorem build_keep_wraps {text : List Char} (width : utf8Len text = 2 ^ 32)
    (length : text.length = 2 ^ 32) :
    (build [.keep text]).2 =
      ⟨[⟨Span.emptyAt 0 0, Span.emptyAt 0 0, .identity, [], {}⟩]⟩ := by
  have nonempty : text ≠ [] := by
    rintro rfl
    simp at length
  have wraps : UInt32.ofNat (2 ^ 32) = 0 := by decide
  have zero : (0 : UInt32) + 0 = 0 := by decide
  simp only [build, List.foldl_cons, List.foldl_nil, Call.run, SpanMapBuilder.keep,
    if_neg nonempty, SpanMapBuilder.advanceSrc, SpanMapBuilder.advanceDst, width, length, wraps,
    zero, SpanMapBuilder.finish, pushIdentity, List.getLast?_nil, Span.emptyAt, List.nil_append]

/-- A text of `2 ^ 32` letters, behind a name so that nothing evaluates it. -/
theorem exists_wrapped : ∃ text, List.replicate (2 ^ 32) 'a' = text ∧ utf8Len text = 2 ^ 32 ∧
    text.length = 2 ^ 32 ∧ text ≠ [] ∧
    [Call.keep text].flatMap Call.source = (build [.keep text]).1 := by
  generalize textEq : List.replicate (2 ^ 32) 'a' = text
  have length : text.length = 2 ^ 32 := by rw [← textEq, List.length_replicate]
  have nonempty : text ≠ [] := List.ne_nil_of_length_pos (by omega)
  refine ⟨text, rfl, by rw [← textEq, utf8Len_replicate], length, nonempty, ?_⟩
  simp [build_text, callAtoms, Call.atoms, Call.source, Call.tile, Tile.dst, nonempty]

theorem compose_wrapped (map : SpanMap) :
    SpanMap.compose ⟨[⟨Span.emptyAt 0 0, Span.emptyAt 0 0, .identity, [], {}⟩]⟩
        ⟨[⟨Span.emptyAt 0 0, Span.emptyAt 0 0, .identity, [], {}⟩]⟩ ≠ .ok map := by
  have empty : Span.isEmpty (Span.emptyAt 0 0) = true := by decide
  rw [SpanMap.compose, if_neg (by decide), composeLoop_delete (c := (0, 0)) (by decide) (by rfl)]
  simp only [SpanMap.composeLoop.eq_def, empty, if_true]
  simp

/-- At `2 ^ 32` bytes the left unit law fails: the composition does not keep the
wrapped identity segment. -/
theorem not_composeLaws_wrapped :
    [Call.keep (List.replicate (2 ^ 32) 'a')].flatMap Call.source =
        (build [.keep (List.replicate (2 ^ 32) 'a')]).1 ∧
      ¬ ComposeLaws [.keep (List.replicate (2 ^ 32) 'a')]
        [.keep (List.replicate (2 ^ 32) 'a')] [.keep (List.replicate (2 ^ 32) 'a')] := by
  obtain ⟨text, textEq, width, length, -, feeds⟩ := exists_wrapped
  rw [textEq]
  refine ⟨feeds, ?_⟩
  rintro ⟨-, leftUnit, -⟩
  have identity : SpanMap.identity ([Call.keep text].flatMap Call.source) =
      (build [.keep text]).2 := by
    rw [List.flatMap_singleton]
    rfl
  rw [identity, build_keep_wraps width length] at leftUnit
  exact compose_wrapped _ leftUnit

end AiCoreStack.Pii
