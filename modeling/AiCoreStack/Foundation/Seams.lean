import AiCoreStack.Foundation.Alignment

/-!
# Seams of an alignment

An atom with several destination letters cannot be cut in the middle.  When such
letters are all of one kind (the glue), a cut next to a letter of another kind
falls on a seam between atoms.  Alignments whose outer atoms turn glue into glue
keep this property under composition.
-/

namespace AiCoreStack.Foundation.Alignment

universe u v

variable {α : Type u} {W : Type v} (glue : α → Prop)

/-- Letters produced together are a single one or all glue. -/
def Atom.Glued (atom : Atom α W) : Prop := atom.dst.length ≤ 1 ∨ ∀ letter ∈ atom.dst, glue letter

/-- Glue in the source is glue in the destination. -/
def Atom.KeepsGlue (atom : Atom α W) : Prop :=
  (∃ letter ∈ atom.src, glue letter) → ∀ letter ∈ atom.dst, glue letter

/-- A cut between two texts that glue does not hold together. -/
def Clean (left right : List α) : Prop :=
  (∀ letter, left.getLast? = some letter → ¬ glue letter) ∨
    ∀ letter, right.head? = some letter → ¬ glue letter

variable {glue}

theorem keeps_glued {text : List α} : ∀ atom ∈ (keeps text : List (Atom α W)), atom.Glued glue := by
  intro atom member
  obtain ⟨letter, -, rfl⟩ := List.mem_map.mp member
  exact .inl (le_refl _)

/-- A clean cut of the destination falls on a seam. -/
theorem exists_seam {atoms : List (Atom α W)} (glued : ∀ atom ∈ atoms, atom.Glued glue)
    {left right : List α} (texts : dst atoms = left ++ right) (clean : Clean glue left right) :
    ∃ front back, atoms = front ++ back ∧ dst front = left ∧ dst back = right := by
  induction atoms generalizing left with
  | nil =>
      obtain ⟨rfl, rfl⟩ := List.append_eq_nil_iff.mp texts.symm
      exact ⟨[], [], rfl, rfl, rfl⟩
  | cons atom atoms ih =>
      rw [List.forall_mem_cons] at glued
      rw [dst_cons] at texts
      rcases List.append_eq_append_iff.mp texts with ⟨rest, leftEq, restEq⟩ | ⟨rest, dstEq, rightEq⟩
      · have cleanRest : Clean glue rest right := by
          apply clean.imp_left
          intro before letter last
          apply before letter
          rw [leftEq, List.getLast?_append, last]
          rfl
        obtain ⟨front, back, split, frontEq, backEq⟩ := ih glued.2 restEq cleanRest
        exact ⟨atom :: front, back, by rw [split, List.cons_append],
          by rw [dst_cons, frontEq, leftEq], backEq⟩
      · cases left with
        | nil => exact ⟨[], atom :: atoms, rfl, rfl, by rw [dst_cons, texts, List.nil_append]⟩
        | cons first left =>
            cases rest with
            | nil =>
                rw [List.append_nil] at dstEq
                exact ⟨[atom], atoms, rfl, by simpa using dstEq, by simpa using rightEq.symm⟩
            | cons next rest =>
                exfalso
                have all : ∀ letter ∈ atom.dst, glue letter := by
                  apply glued.1.resolve_left
                  simp [dstEq]
                rcases clean with before | after
                · have last := List.getLast?_eq_some_getLast (List.cons_ne_nil first left)
                  exact before _ last (all _ (by
                    rw [dstEq]
                    exact List.mem_append_left _ (List.getLast_mem _)))
                · exact after next (by rw [rightEq]; rfl) (all next (by simp [dstEq]))

variable {inner outer : List (Atom α W)}

/-- Inside an irreducible group no outer seam is a clean cut. -/
theorem Irreducible.not_clean (irreducible : Irreducible inner outer)
    (glued : ∀ atom ∈ inner, atom.Glued glue) (texts : dst inner = src outer)
    {front back : List (Atom α W)} (split : outer = front ++ back) (frontSome : front ≠ [])
    (backSome : back ≠ []) : ¬ Clean glue (src front) (src back) := by
  intro clean
  rw [split, src_append] at texts
  obtain ⟨innerFront, innerBack, innerSplit, frontEq, -⟩ := exists_seam glued texts clean
  rcases irreducible.atomic innerFront innerBack front back innerSplit split
    (Synced.of_eq frontEq) with ⟨-, empty⟩ | ⟨-, empty⟩
  · exact frontSome empty
  · exact backSome empty

/-- In a group with several outer atoms each of them consumes glue. -/
theorem Irreducible.exists_glue (irreducible : Irreducible inner outer)
    (glued : ∀ atom ∈ inner, atom.Glued glue) (texts : dst inner = src outer)
    (consuming : Consuming outer) {front back : List (Atom α W)} {atom : Atom α W}
    (split : outer = front ++ atom :: back) (several : front ≠ [] ∨ back ≠ []) :
    ∃ letter ∈ atom.src, glue letter := by
  have nonempty : atom.src ≠ [] := consuming atom (by simp [split])
  rcases several with frontSome | backSome
  · -- the seam in front of the atom
    have dirty := irreducible.not_clean glued texts split frontSome (by simp)
    by_contra absent
    apply dirty
    right
    intro letter first isGlue
    rw [src_cons, List.head?_append_of_ne_nil _ nonempty] at first
    exact absent ⟨letter, List.mem_of_head? first, isGlue⟩
  · -- the seam behind it
    have shifted : outer = (front ++ [atom]) ++ back := by
      rw [split, List.append_assoc, List.singleton_append]
    have dirty := irreducible.not_clean glued texts shifted (by simp) backSome
    by_contra absent
    apply dirty
    left
    intro letter last isGlue
    rw [src_append, src_cons, src_nil, List.append_nil,
      List.getLast?_append_of_ne_nil _ nonempty] at last
    exact absent ⟨letter, List.mem_of_getLast? last, isGlue⟩

/-- What a group produces is a single letter or all glue. -/
theorem Irreducible.glued (irreducible : Irreducible inner outer)
    (innerGlued : ∀ atom ∈ inner, atom.Glued glue) (outerGlued : ∀ atom ∈ outer, atom.Glued glue)
    (outerKeeps : ∀ atom ∈ outer, atom.KeepsGlue glue) (texts : dst inner = src outer)
    (consuming : Consuming outer) :
    (dst outer).length ≤ 1 ∨ ∀ letter ∈ dst outer, glue letter := by
  by_cases single : outer.length ≤ 1
  · match outer, single with
    | [], _ => exact .inl (Nat.zero_le _)
    | [atom], _ => simpa [Atom.Glued] using outerGlued atom (by simp)
  · right
    intro letter member
    obtain ⟨atom, inside, member⟩ := List.mem_flatMap.mp member
    obtain ⟨front, back, split⟩ := List.append_of_mem inside
    have several : front ≠ [] ∨ back ≠ [] := by
      by_contra alone
      obtain ⟨rfl, rfl⟩ := not_or.mp alone |>.imp not_not.mp not_not.mp
      simp [split] at single
    exact outerKeeps atom inside
      (irreducible.exists_glue innerGlued texts consuming split several) letter member

/-- Composition keeps clean cuts on seams. -/
theorem Composes.glued [AddCommMonoid W] {result : List (Atom α W)}
    (composes : Composes inner outer result)
    (innerGlued : ∀ atom ∈ inner, atom.Glued glue) (outerGlued : ∀ atom ∈ outer, atom.Glued glue)
    (outerKeeps : ∀ atom ∈ outer, atom.KeepsGlue glue) (texts : dst inner = src outer)
    (consuming : Consuming outer) : ∀ atom ∈ result, atom.Glued glue := by
  induction composes with
  | nil => simp
  | @group innerHead outerHead inner outer result irreducible composes ih =>
      simp only [List.forall_mem_append] at innerGlued outerGlued outerKeeps
      rw [dst_append, src_append] at texts
      obtain ⟨headTexts, tailTexts⟩ := List.append_inj texts irreducible.synced
      rw [List.forall_mem_cons]
      refine ⟨?_, ih innerGlued.2 outerGlued.2 outerKeeps.2 tailTexts consuming.append_right⟩
      rw [Atom.Glued, irreducible.fuse_dst headTexts]
      exact irreducible.glued innerGlued.1 outerGlued.1 outerKeeps.1 headTexts
        consuming.append_left

end AiCoreStack.Foundation.Alignment
