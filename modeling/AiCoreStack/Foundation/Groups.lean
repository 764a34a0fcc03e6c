import AiCoreStack.Foundation.Alignment

/-!
# Where the groups of a composition lie

Every atom of a composition stands for a group of both alignments, and every atom of
either alignment lies in one group.
-/

namespace AiCoreStack.Foundation.Alignment

universe u v

/-- An element of a list in two parts lies in one of them. -/
theorem append_eq_append_cons {α : Type u} {head tail left right : List α} {letter : α}
    (split : head ++ tail = left ++ letter :: right) :
    (∃ post, head = left ++ letter :: post ∧ right = post ++ tail) ∨
      ∃ pre, left = head ++ pre ∧ tail = pre ++ letter :: right := by
  rcases List.append_eq_append_iff.mp split with ⟨rest, leftEq, tailEq⟩ | ⟨rest, rfl, restEq⟩
  · exact .inr ⟨rest, leftEq, tailEq⟩
  · cases rest with
    | nil => exact .inr ⟨[], by simp, restEq.symm⟩
    | cons other rest =>
        obtain ⟨rfl, rfl⟩ := List.cons.inj restEq
        exact .inl ⟨rest, rfl, rfl⟩

variable {α : Type u} {W : Type v}

/-- Two atoms that meet in a nonempty text are a group. -/
theorem single_irreducible {inner outer : Atom α W}
    (meets : inner.dst.length = outer.src.length) (nonempty : inner.dst ≠ []) :
    Irreducible [inner] [outer] where
  nonempty := .inl (by simp)
  synced := by simpa [Synced] using meets
  atomic := by
    intro innerHead innerTail outerHead outerTail innerEq outerEq synced
    have width := List.length_pos_of_ne_nil nonempty
    rcases List.cons_eq_append_iff.mp innerEq with ⟨rfl, rfl⟩ | ⟨rest, rfl, restEq⟩
    · rcases List.cons_eq_append_iff.mp outerEq with ⟨rfl, rfl⟩ | ⟨rest, rfl, -⟩
      · exact .inl ⟨rfl, rfl⟩
      · simp only [Synced, dst_nil, src_cons, List.length_append, List.length_nil] at synced
        omega
    · obtain ⟨rfl, rfl⟩ := List.append_eq_nil_iff.mp restEq.symm
      rcases List.cons_eq_append_iff.mp outerEq with ⟨rfl, rfl⟩ | ⟨rest, rfl, restEq⟩
      · simp only [Synced, src_nil, dst_cons, List.length_append, List.length_nil] at synced
        omega
      · exact .inr ⟨rfl, (List.append_eq_nil_iff.mp restEq.symm).2⟩

variable [AddCommMonoid W]

/-- A group of a composition with what lies in front of it and behind it. -/
structure Grouped (inner outer result : List (Atom α W)) where
  innerFront : List (Atom α W)
  innerHead : List (Atom α W)
  innerBack : List (Atom α W)
  outerFront : List (Atom α W)
  outerHead : List (Atom α W)
  outerBack : List (Atom α W)
  front : List (Atom α W)
  back : List (Atom α W)
  innerEq : inner = innerFront ++ (innerHead ++ innerBack)
  outerEq : outer = outerFront ++ (outerHead ++ outerBack)
  resultEq : result = front ++ fuse innerHead outerHead :: back
  irreducible : Irreducible innerHead outerHead
  ahead : Composes innerFront outerFront front

namespace Grouped

variable {inner outer result : List (Atom α W)} (group : Grouped inner outer result)

/-- The atom that stands for the group. -/
def atom : Atom α W := fuse group.innerHead group.outerHead

/-- The same group behind a further group. -/
def behind {innerHead outerHead : List (Atom α W)} (irreducible : Irreducible innerHead outerHead) :
    Grouped (innerHead ++ inner) (outerHead ++ outer) (fuse innerHead outerHead :: result) where
  innerFront := innerHead ++ group.innerFront
  innerHead := group.innerHead
  innerBack := group.innerBack
  outerFront := outerHead ++ group.outerFront
  outerHead := group.outerHead
  outerBack := group.outerBack
  front := fuse innerHead outerHead :: group.front
  back := group.back
  innerEq := by rw [List.append_assoc, ← group.innerEq]
  outerEq := by rw [List.append_assoc, ← group.outerEq]
  resultEq := by rw [List.cons_append, ← group.resultEq]
  irreducible := group.irreducible
  ahead := .group irreducible group.ahead

/-- The first group. -/
def first {innerHead outerHead : List (Atom α W)} (irreducible : Irreducible innerHead outerHead)
    (inner outer result : List (Atom α W)) :
    Grouped (innerHead ++ inner) (outerHead ++ outer) (fuse innerHead outerHead :: result) where
  innerFront := []
  innerHead := innerHead
  innerBack := inner
  outerFront := []
  outerHead := outerHead
  outerBack := outer
  front := []
  back := result
  innerEq := rfl
  outerEq := rfl
  resultEq := rfl
  irreducible := irreducible
  ahead := .nil

theorem atom_src : group.atom.src = src group.innerHead := group.irreducible.fuse_src

theorem front_src : src group.front = src group.innerFront := group.ahead.src_eq

/-- The middle texts agree in front of the group and in the group. -/
theorem middle (texts : dst inner = src outer) :
    dst group.innerFront = src group.outerFront ∧ dst group.innerHead = src group.outerHead := by
  have whole : dst (group.innerFront ++ (group.innerHead ++ group.innerBack)) =
      src (group.outerFront ++ (group.outerHead ++ group.outerBack)) := by
    rw [← group.innerEq, ← group.outerEq]
    exact texts
  rw [dst_append, src_append, dst_append, src_append] at whole
  obtain ⟨fronts, rest⟩ := List.append_inj whole group.ahead.synced
  exact ⟨fronts, (List.append_inj rest group.irreducible.synced).1⟩

theorem atom_dst (texts : dst inner = src outer) : group.atom.dst = dst group.outerHead :=
  group.irreducible.fuse_dst (group.middle texts).2

theorem front_dst (texts : dst inner = src outer) : dst group.front = dst group.outerFront :=
  group.ahead.dst_eq (group.middle texts).1

/-- A group with a rewritten block in it is rewritten. -/
theorem atom_eq_block {atom : Atom α W} (member : atom ∈ group.innerHead ∨ atom ∈ group.outerHead)
    (rewritten : atom.isKeep = false) :
    group.atom = .block (src group.innerHead) (dst group.outerHead)
      (weight group.innerHead + weight group.outerHead) := by
  rw [Grouped.atom, fuse, if_neg]
  rw [Bool.and_eq_true, List.all_eq_true, List.all_eq_true]
  rintro ⟨innerKept, outerKept⟩
  rcases member with member | member
  · exact absurd (innerKept atom member) (by simp [rewritten])
  · exact absurd (outerKept atom member) (by simp [rewritten])

end Grouped

namespace Composes

variable {inner outer result : List (Atom α W)}

/-- The group that an atom of the composition stands for. -/
theorem group_of_result {front back : List (Atom α W)} {atom : Atom α W}
    (composes : Composes inner outer result) (split : result = front ++ atom :: back) :
    ∃ group : Grouped inner outer result, group.front = front ∧ group.atom = atom := by
  induction composes generalizing front with
  | nil => exact absurd split (by simp)
  | @group innerHead outerHead inner outer result irreducible composes ih =>
      cases front with
      | nil =>
          obtain ⟨rfl, rfl⟩ := List.cons.inj split
          exact ⟨.first irreducible inner outer _, rfl, rfl⟩
      | cons other front =>
          obtain ⟨rfl, rest⟩ := List.cons.inj split
          obtain ⟨group, frontEq, atomEq⟩ := ih rest
          exact ⟨group.behind irreducible, congrArg (_ :: ·) frontEq, atomEq⟩

/-- The group that an atom of the inner alignment lies in. -/
theorem group_of_inner {left right : List (Atom α W)} {atom : Atom α W}
    (composes : Composes inner outer result) (split : inner = left ++ atom :: right) :
    ∃ (group : Grouped inner outer result) (pre post : List (Atom α W)),
      group.innerHead = pre ++ atom :: post ∧ left = group.innerFront ++ pre := by
  induction composes generalizing left with
  | nil => exact absurd split (by simp)
  | @group innerHead outerHead inner outer result irreducible composes ih =>
      rcases append_eq_append_cons split with ⟨post, headEq, -⟩ | ⟨pre, rfl, innerEq⟩
      · exact ⟨.first irreducible inner outer result, left, post, headEq, rfl⟩
      · obtain ⟨group, pre, post, headEq, rfl⟩ := ih innerEq
        exact ⟨group.behind irreducible, pre, post, headEq, (List.append_assoc _ _ _).symm⟩

/-- The group that an atom of the outer alignment lies in. -/
theorem group_of_outer {left right : List (Atom α W)} {atom : Atom α W}
    (composes : Composes inner outer result) (split : outer = left ++ atom :: right) :
    ∃ (group : Grouped inner outer result) (pre post : List (Atom α W)),
      group.outerHead = pre ++ atom :: post ∧ left = group.outerFront ++ pre := by
  induction composes generalizing left with
  | nil => exact absurd split (by simp)
  | @group innerHead outerHead inner outer result irreducible composes ih =>
      rcases append_eq_append_cons split with ⟨post, headEq, -⟩ | ⟨pre, rfl, outerEq⟩
      · exact ⟨.first irreducible inner outer result, left, post, headEq, rfl⟩
      · obtain ⟨group, pre, post, headEq, rfl⟩ := ih outerEq
        exact ⟨group.behind irreducible, pre, post, headEq, (List.append_assoc _ _ _).symm⟩

end Composes

end AiCoreStack.Foundation.Alignment
