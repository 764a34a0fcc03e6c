import Mathlib

/-!
# Monotone alignments and their composition

An alignment relates two texts by a list of atoms: an atom keeps one letter, or
rewrites a nonempty source block to a destination block and carries a weight.
Two alignments that meet in one middle text compose by fusing the atoms between
consecutive positions at which both can be cut.  Composition is associative: all
three alignments are cut at common positions until none is left.
-/

namespace AiCoreStack.Foundation.Alignment

universe u v

/-- One step of an alignment. -/
inductive Atom (α : Type u) (W : Type v) where
  | keep (letter : α)
  | block (source target : List α) (weight : W)

namespace Atom

variable {α : Type u} {W : Type v}

/-- Letters consumed on the source side. -/
def src : Atom α W → List α
  | keep letter => [letter]
  | block source _ _ => source

/-- Letters produced on the destination side. -/
def dst : Atom α W → List α
  | keep letter => [letter]
  | block _ target _ => target

/-- Whether the atom passes its letter through. -/
def isKeep : Atom α W → Bool
  | keep _ => true
  | block _ _ _ => false

/-- Weight of an atom; kept letters are free. -/
def weight [Zero W] : Atom α W → W
  | keep _ => 0
  | block _ _ weight => weight

end Atom

variable {α : Type u} {W : Type v}

/-- Source text of an alignment. -/
def src (atoms : List (Atom α W)) : List α := atoms.flatMap Atom.src

/-- Destination text of an alignment. -/
def dst (atoms : List (Atom α W)) : List α := atoms.flatMap Atom.dst

/-- Every atom consumes at least one source letter. -/
def Consuming (atoms : List (Atom α W)) : Prop := ∀ atom ∈ atoms, atom.src ≠ []

/-- Total weight of an alignment. -/
def weight [AddCommMonoid W] (atoms : List (Atom α W)) : W :=
  (atoms.map Atom.weight).sum

/-- The alignment that keeps every letter of a text. -/
def keeps (text : List α) : List (Atom α W) := text.map Atom.keep

@[simp] theorem src_nil : src ([] : List (Atom α W)) = [] := rfl
@[simp] theorem dst_nil : dst ([] : List (Atom α W)) = [] := rfl

@[simp] theorem src_cons (atom : Atom α W) (atoms : List (Atom α W)) :
    src (atom :: atoms) = atom.src ++ src atoms := by
  simp [src]

@[simp] theorem dst_cons (atom : Atom α W) (atoms : List (Atom α W)) :
    dst (atom :: atoms) = atom.dst ++ dst atoms := by
  simp [dst]

@[simp] theorem src_append (left right : List (Atom α W)) :
    src (left ++ right) = src left ++ src right := by
  simp [src]

@[simp] theorem dst_append (left right : List (Atom α W)) :
    dst (left ++ right) = dst left ++ dst right := by
  simp [dst]

@[simp] theorem src_keeps (text : List α) :
    src (keeps text : List (Atom α W)) = text := by
  induction text with
  | nil => rfl
  | cons letter text ih => simpa [keeps, Atom.src] using ih

@[simp] theorem dst_keeps (text : List α) :
    dst (keeps text : List (Atom α W)) = text := by
  induction text with
  | nil => rfl
  | cons letter text ih => simpa [keeps, Atom.dst] using ih

@[simp] theorem keeps_append (left right : List α) :
    (keeps (left ++ right) : List (Atom α W)) = keeps left ++ keeps right := by
  simp [keeps]

theorem Consuming.append_left {left right : List (Atom α W)}
    (consuming : Consuming (left ++ right)) : Consuming left :=
  fun atom member => consuming atom (List.mem_append_left _ member)

theorem Consuming.append_right {left right : List (Atom α W)}
    (consuming : Consuming (left ++ right)) : Consuming right :=
  fun atom member => consuming atom (List.mem_append_right _ member)

theorem Consuming.eq_nil_of_src {atoms : List (Atom α W)}
    (consuming : Consuming atoms) (empty : src atoms = []) : atoms = [] := by
  cases atoms with
  | nil => rfl
  | cons atom atoms =>
      simp only [src_cons, List.append_eq_nil_iff] at empty
      exact absurd empty.1 (consuming atom (by simp))

theorem consuming_keeps (text : List α) :
    Consuming (keeps text : List (Atom α W)) := by
  intro atom member
  simp only [keeps, List.mem_map] at member
  obtain ⟨letter, -, rfl⟩ := member
  simp [Atom.src]

section Fusion

variable [AddCommMonoid W]

@[simp] theorem weight_nil : weight ([] : List (Atom α W)) = 0 := rfl

@[simp] theorem weight_cons (atom : Atom α W) (atoms : List (Atom α W)) :
    weight (atom :: atoms) = atom.weight + weight atoms := by
  simp [weight]

@[simp] theorem weight_append (left right : List (Atom α W)) :
    weight (left ++ right) = weight left + weight right := by
  simp [weight]

@[simp] theorem weight_keeps (text : List α) :
    weight (keeps text : List (Atom α W)) = 0 := by
  induction text with
  | nil => rfl
  | cons letter text ih => simpa [keeps, Atom.weight] using ih

/-- One atom standing for a group of inner and outer atoms that meet in the
same middle block. -/
def fuse (inner outer : List (Atom α W)) : Atom α W :=
  if inner.all Atom.isKeep && outer.all Atom.isKeep then
    match src inner with
    | letter :: _ => .keep letter
    | [] => .block [] (dst outer) 0
  else
    .block (src inner) (dst outer) (weight inner + weight outer)

end Fusion

/-- The middle texts of the two alignments have equal length. -/
def Synced (inner outer : List (Atom α W)) : Prop :=
  (dst inner).length = (src outer).length

/-- A nonempty synchronised pair with no synchronised cut strictly inside. -/
structure Irreducible (inner outer : List (Atom α W)) : Prop where
  nonempty : inner ≠ [] ∨ outer ≠ []
  synced : Synced inner outer
  atomic : ∀ innerHead innerTail outerHead outerTail,
    inner = innerHead ++ innerTail → outer = outerHead ++ outerTail →
    Synced innerHead outerHead →
    (innerHead = [] ∧ outerHead = []) ∨ (innerTail = [] ∧ outerTail = [])

/-- Composition of alignments, group by irreducible group. -/
inductive Composes [AddCommMonoid W] :
    List (Atom α W) → List (Atom α W) → List (Atom α W) → Prop where
  | nil : Composes [] [] []
  | group {innerHead outerHead inner outer result : List (Atom α W)} :
      Irreducible innerHead outerHead → Composes inner outer result →
      Composes (innerHead ++ inner) (outerHead ++ outer)
        (fuse innerHead outerHead :: result)

theorem Synced.append {inner outer inner' outer' : List (Atom α W)}
    (first : Synced inner outer) (second : Synced inner' outer') :
    Synced (inner ++ inner') (outer ++ outer') := by
  simp only [Synced, dst_append, src_append, List.length_append] at *
  omega

theorem Synced.cancel {inner outer inner' outer' : List (Atom α W)}
    (whole : Synced (inner ++ inner') (outer ++ outer'))
    (first : Synced inner outer) : Synced inner' outer' := by
  simp only [Synced, dst_append, src_append, List.length_append] at *
  omega

/-! ## Irreducible groups -/

section Groups

variable {inner outer : List (Atom α W)}

theorem Synced.of_eq (texts : dst inner = src outer) : Synced inner outer :=
  congrArg List.length texts

/-- An irreducible group of kept letters holds one letter on each side. -/
theorem Irreducible.keep_keep (irreducible : Irreducible inner outer)
    (innerKeep : inner.all Atom.isKeep) (outerKeep : outer.all Atom.isKeep) :
    ∃ left right, inner = [.keep left] ∧ outer = [.keep right] := by
  have synced := irreducible.synced
  cases inner with
  | nil =>
      cases outer with
      | nil => exact absurd rfl (irreducible.nonempty.resolve_left (by simp))
      | cons atom outer => cases atom <;> simp_all [Synced, Atom.src, Atom.isKeep]
  | cons first inner =>
      cases outer with
      | nil => cases first <;> simp_all [Synced, Atom.dst, Atom.isKeep]
      | cons second outer =>
          cases first with
          | block source target weight => simp [Atom.isKeep] at innerKeep
          | keep left =>
              cases second with
              | block source target weight => simp [Atom.isKeep] at outerKeep
              | keep right =>
                  rcases irreducible.atomic [.keep left] inner [.keep right] outer
                    rfl rfl rfl with empty | ⟨rfl, rfl⟩
                  · simp at empty
                  · exact ⟨left, right, rfl, rfl⟩

theorem keep_keep_irreducible (left right : α) :
    Irreducible [(Atom.keep left : Atom α W)] [.keep right] where
  nonempty := .inl (by simp)
  synced := rfl
  atomic := by
    intro innerHead innerTail outerHead outerTail innerEq outerEq synced
    rcases List.cons_eq_append_iff.mp innerEq with ⟨rfl, rfl⟩ | ⟨rest, rfl, restEq⟩
    · rcases List.cons_eq_append_iff.mp outerEq with ⟨rfl, rfl⟩ | ⟨rest, rfl, -⟩
      · exact .inl ⟨rfl, rfl⟩
      · simp [Synced, Atom.src] at synced
    · obtain ⟨rfl, rfl⟩ := List.append_eq_nil_iff.mp restEq.symm
      rcases List.cons_eq_append_iff.mp outerEq with ⟨rfl, rfl⟩ | ⟨rest, rfl, restEq⟩
      · simp [Synced, Atom.dst] at synced
      · exact .inr ⟨rfl, (List.append_eq_nil_iff.mp restEq.symm).2⟩

/-- The first irreducible group of a synchronised pair is determined. -/
theorem Irreducible.unique
    {innerHead outerHead innerHead' outerHead' inner' outer' : List (Atom α W)}
    (first : Irreducible innerHead outerHead)
    (consuming : Consuming (outerHead ++ outer))
    (second : Irreducible innerHead' outerHead')
    (innerEq : innerHead ++ inner = innerHead' ++ inner')
    (outerEq : outerHead ++ outer = outerHead' ++ outer') :
    innerHead = innerHead' ∧ outerHead = outerHead' := by
  have firstWidth := first.synced
  have secondWidth := second.synced
  simp only [Synced] at firstWidth secondWidth
  have consuming' : Consuming (outerHead' ++ outer') := outerEq ▸ consuming
  rcases List.append_eq_append_iff.mp innerEq with
    ⟨innerMid, rfl, -⟩ | ⟨innerMid, rfl, -⟩ <;>
  rcases List.append_eq_append_iff.mp outerEq with
    ⟨outerMid, rfl, -⟩ | ⟨outerMid, rfl, -⟩
  · rcases second.atomic innerHead innerMid outerHead outerMid rfl rfl
      first.synced with ⟨rfl, rfl⟩ | ⟨rfl, rfl⟩
    · exact absurd first.nonempty (by simp)
    · simp
  · have zero : (src outerMid).length = 0 := by
      simp only [dst_append, src_append, List.length_append] at firstWidth secondWidth
      omega
    obtain rfl := consuming.append_left.append_right.eq_nil_of_src
      (List.eq_nil_of_length_eq_zero zero)
    rcases second.atomic innerHead innerMid outerHead' [] rfl (by simp)
      (by simpa using first.synced) with ⟨rfl, rfl⟩ | ⟨rfl, -⟩
    · exact absurd first.nonempty (by simp)
    · simp
  · have zero : (src outerMid).length = 0 := by
      simp only [dst_append, src_append, List.length_append] at firstWidth secondWidth
      omega
    obtain rfl := consuming'.append_left.append_right.eq_nil_of_src
      (List.eq_nil_of_length_eq_zero zero)
    rcases first.atomic innerHead' innerMid outerHead [] rfl (by simp)
      (by simpa using second.synced) with ⟨rfl, rfl⟩ | ⟨rfl, -⟩
    · exact absurd second.nonempty (by simp)
    · simp
  · rcases first.atomic innerHead' innerMid outerHead' outerMid rfl rfl
      second.synced with ⟨rfl, rfl⟩ | ⟨rfl, rfl⟩
    · exact absurd second.nonempty (by simp)
    · simp

/-- Letters kept in front of one block that rewrites them all. -/
theorem keeps_block_irreducible (source target : List α) (weight : W) :
    Irreducible (keeps source) [Atom.block source target weight] where
  nonempty := .inr (by simp)
  synced := by simp [Synced, Atom.src]
  atomic := by
    intro innerHead innerTail outerHead outerTail innerEq outerEq synced
    have widths := congrArg (fun atoms => (dst atoms).length) innerEq
    simp only [dst_append, dst_keeps, List.length_append] at widths
    rcases List.cons_eq_append_iff.mp outerEq with ⟨rfl, rfl⟩ | ⟨rest, rfl, restEq⟩
    · left
      refine ⟨?_, rfl⟩
      cases innerHead with
      | nil => rfl
      | cons atom innerHead =>
          have member : atom ∈ (keeps source : List (Atom α W)) := by simp [innerEq]
          simp only [keeps, List.mem_map] at member
          obtain ⟨letter, -, rfl⟩ := member
          simp [Synced, Atom.dst] at synced
    · right
      obtain ⟨rfl, rfl⟩ := List.append_eq_nil_iff.mp restEq.symm
      refine ⟨?_, rfl⟩
      simp only [Synced, src_cons, Atom.src, src_nil, List.append_nil] at synced
      cases innerTail with
      | nil => rfl
      | cons atom innerTail =>
          have member : atom ∈ (keeps source : List (Atom α W)) := by simp [innerEq]
          simp only [keeps, List.mem_map] at member
          obtain ⟨letter, -, rfl⟩ := member
          simp only [dst_cons, Atom.dst, List.length_append,
            List.length_singleton] at widths
          omega

/-- One block in front of the kept letters it produced. -/
theorem block_keeps_irreducible (source target : List α) (weight : W) :
    Irreducible [Atom.block source target weight] (keeps target) where
  nonempty := .inl (by simp)
  synced := by simp [Synced, Atom.dst]
  atomic := by
    intro innerHead innerTail outerHead outerTail innerEq outerEq synced
    have widths := congrArg (fun atoms => (src atoms).length) outerEq
    simp only [src_append, src_keeps, List.length_append] at widths
    have consuming := consuming_keeps (W := W) target
    rw [outerEq] at consuming
    rcases List.cons_eq_append_iff.mp innerEq with ⟨rfl, rfl⟩ | ⟨rest, rfl, restEq⟩
    · refine .inl ⟨rfl, consuming.append_left.eq_nil_of_src ?_⟩
      exact List.eq_nil_of_length_eq_zero synced.symm
    · obtain ⟨rfl, rfl⟩ := List.append_eq_nil_iff.mp restEq.symm
      refine .inr ⟨rfl, consuming.append_right.eq_nil_of_src ?_⟩
      simp only [Synced, dst_cons, Atom.dst, dst_nil, List.append_nil] at synced
      exact List.eq_nil_of_length_eq_zero (by omega)

/-- A source-only block is a group of its own. -/
theorem delete_irreducible (source : List α) (weight : W) :
    Irreducible [Atom.block source [] weight] [] :=
  block_keeps_irreducible source [] weight

variable [AddCommMonoid W]

theorem weight_eq_zero_of_all_keep {atoms : List (Atom α W)}
    (kept : atoms.all Atom.isKeep) : weight atoms = 0 := by
  induction atoms with
  | nil => rfl
  | cons atom atoms ih =>
      simp only [List.all_cons, Bool.and_eq_true] at kept
      cases atom with
      | keep letter => simp [Atom.weight, ih kept.2]
      | block source target weight => simp [Atom.isKeep] at kept

theorem fuse_weight (inner outer : List (Atom α W)) :
    (fuse inner outer).weight = weight inner + weight outer := by
  unfold fuse
  split
  next kept =>
    rw [Bool.and_eq_true] at kept
    rw [weight_eq_zero_of_all_keep kept.1, weight_eq_zero_of_all_keep kept.2]
    split <;> simp [Atom.weight]
  next => rfl

theorem Irreducible.fuse_src (irreducible : Irreducible inner outer) :
    (fuse inner outer).src = src inner := by
  unfold fuse
  split
  next kept =>
    rw [Bool.and_eq_true] at kept
    obtain ⟨left, right, rfl, rfl⟩ := irreducible.keep_keep kept.1 kept.2
    rfl
  next => rfl

theorem Irreducible.fuse_dst (irreducible : Irreducible inner outer)
    (texts : dst inner = src outer) : (fuse inner outer).dst = dst outer := by
  unfold fuse
  split
  next kept =>
    rw [Bool.and_eq_true] at kept
    obtain ⟨left, right, rfl, rfl⟩ := irreducible.keep_keep kept.1 kept.2
    simpa [Atom.src, Atom.dst] using texts
  next => rfl

/-- The fused group produces what its outer part does, and the rest feeds the rest. -/
theorem Irreducible.split_texts {inner' outer' : List (Atom α W)}
    (irreducible : Irreducible inner outer) (texts : dst (inner ++ inner') = src (outer ++ outer')) :
    (fuse inner outer).dst = dst outer ∧ dst inner' = src outer' := by
  rw [dst_append, src_append] at texts
  exact (List.append_inj texts irreducible.synced).imp_left irreducible.fuse_dst

theorem Irreducible.fuse_isKeep (irreducible : Irreducible inner outer) :
    (fuse inner outer).isKeep =
      (inner.all Atom.isKeep && outer.all Atom.isKeep) := by
  unfold fuse
  split
  next kept =>
    rw [kept]
    rw [Bool.and_eq_true] at kept
    obtain ⟨left, right, rfl, rfl⟩ := irreducible.keep_keep kept.1 kept.2
    rfl
  next mixed => simp only [Bool.not_eq_true] at mixed; rw [mixed]; rfl

end Groups

/-! ## Composition as a partial operation -/

namespace Composes

variable [AddCommMonoid W]
variable {inner outer result inner' outer' result' : List (Atom α W)}

theorem synced (composes : Composes inner outer result) : Synced inner outer := by
  induction composes with
  | nil => rfl
  | group irreducible _ ih => exact irreducible.synced.append ih

theorem append (first : Composes inner outer result)
    (second : Composes inner' outer' result') :
    Composes (inner ++ inner') (outer ++ outer') (result ++ result') := by
  induction first with
  | nil => exact second
  | group irreducible _ ih =>
      rw [List.append_assoc, List.append_assoc, List.cons_append]
      exact .group irreducible ih

theorem single (irreducible : Irreducible inner outer) :
    Composes inner outer [fuse inner outer] := by
  have composes := Composes.group irreducible .nil
  simpa using composes

/-- Cutting the result cuts both arguments. -/
theorem split_result {left right : List (Atom α W)}
    (composes : Composes inner outer (left ++ right)) :
    ∃ innerHead innerTail outerHead outerTail,
      inner = innerHead ++ innerTail ∧ outer = outerHead ++ outerTail ∧
      Composes innerHead outerHead left ∧ Composes innerTail outerTail right := by
  induction left generalizing inner outer with
  | nil => exact ⟨[], inner, [], outer, rfl, rfl, .nil, composes⟩
  | cons atom left ih =>
      rw [List.cons_append] at composes
      cases composes with
      | group irreducible rest =>
          obtain ⟨innerHead, innerTail, outerHead, outerTail, rfl, rfl,
            first, second⟩ := ih rest
          exact ⟨_, innerTail, _, outerTail, by simp, by simp,
            .group irreducible first, second⟩

/-- Any synchronised pair of alignments composes. -/
theorem exists_of_synced (inner outer : List (Atom α W))
    (synced : Synced inner outer) (consuming : Consuming outer) :
    ∃ result, Composes inner outer result := by
  obtain ⟨size, sizeEq⟩ : ∃ size, inner.length + outer.length = size := ⟨_, rfl⟩
  induction size using Nat.strong_induction_on generalizing inner outer with
  | _ size ih =>
  by_cases empty : inner = [] ∧ outer = []
  · obtain ⟨rfl, rfl⟩ := empty
    exact ⟨[], .nil⟩
  by_cases splits : ∃ innerHead innerTail outerHead outerTail,
      inner = innerHead ++ innerTail ∧ outer = outerHead ++ outerTail ∧
      Synced innerHead outerHead ∧ ¬(innerHead = [] ∧ outerHead = []) ∧
      ¬(innerTail = [] ∧ outerTail = [])
  · obtain ⟨innerHead, innerTail, outerHead, outerTail, rfl, rfl, headSynced,
      headNonempty, tailNonempty⟩ := splits
    have headSize : innerHead.length + outerHead.length ≠ 0 := by
      simpa [Nat.add_eq_zero_iff, List.length_eq_zero_iff] using headNonempty
    have tailSize : innerTail.length + outerTail.length ≠ 0 := by
      simpa [Nat.add_eq_zero_iff, List.length_eq_zero_iff] using tailNonempty
    simp only [List.length_append] at sizeEq
    obtain ⟨left, first⟩ := ih _ (by omega) innerHead outerHead headSynced
      consuming.append_left rfl
    obtain ⟨right, second⟩ := ih _ (by omega) innerTail outerTail
      (synced.cancel headSynced) consuming.append_right rfl
    exact ⟨left ++ right, first.append second⟩
  · have irreducible : Irreducible inner outer := by
      refine ⟨by rw [← not_and_or]; exact empty, synced, ?_⟩
      intro innerHead innerTail outerHead outerTail innerEq outerEq headSynced
      by_contra neither
      rw [not_or] at neither
      exact splits ⟨innerHead, innerTail, outerHead, outerTail, innerEq, outerEq,
        headSynced, neither.1, neither.2⟩
    exact ⟨_, single irreducible⟩

theorem eq_nil (composes : Composes inner outer result)
    (innerNil : inner = []) (outerNil : outer = []) : result = [] := by
  cases composes with
  | nil => rfl
  | group irreducible _ =>
      obtain ⟨rfl, -⟩ := List.append_eq_nil_iff.mp innerNil
      obtain ⟨rfl, -⟩ := List.append_eq_nil_iff.mp outerNil
      exact absurd irreducible.nonempty (by simp)

/-- Composition is single-valued. -/
theorem unique (consuming : Consuming outer)
    (first : Composes inner outer result) (second : Composes inner outer result') :
    result = result' := by
  induction first generalizing result' with
  | nil => exact (second.eq_nil rfl rfl).symm
  | @group innerHead outerHead inner outer result irreducible _ ih =>
      generalize innerEq : innerHead ++ inner = left at second
      generalize outerEq : outerHead ++ outer = right at second
      cases second with
      | nil =>
          obtain ⟨rfl, -⟩ := List.append_eq_nil_iff.mp innerEq
          obtain ⟨rfl, -⟩ := List.append_eq_nil_iff.mp outerEq
          exact absurd irreducible.nonempty (by simp)
      | group irreducible' rest =>
          obtain ⟨rfl, rfl⟩ :=
            irreducible.unique consuming irreducible' innerEq outerEq
          obtain rfl := List.append_cancel_left innerEq
          obtain rfl := List.append_cancel_left outerEq
          rw [ih consuming.append_right rest]

/-- A synchronised cut of the arguments cuts the result. -/
theorem split_arguments (consuming : Consuming (outer ++ outer'))
    (composes : Composes (inner ++ inner') (outer ++ outer') result)
    (headSynced : Synced inner outer) :
    ∃ left right, result = left ++ right ∧ Composes inner outer left ∧
      Composes inner' outer' right := by
  obtain ⟨left, first⟩ :=
    exists_of_synced inner outer headSynced consuming.append_left
  obtain ⟨right, second⟩ := exists_of_synced inner' outer'
    (composes.synced.cancel headSynced) consuming.append_right
  exact ⟨left, right, unique consuming composes (first.append second), first, second⟩

theorem src_eq (composes : Composes inner outer result) : src result = src inner := by
  induction composes with
  | nil => rfl
  | group irreducible _ ih => simp [irreducible.fuse_src, ih]

theorem dst_eq (composes : Composes inner outer result)
    (texts : dst inner = src outer) : dst result = dst outer := by
  induction composes with
  | nil => rfl
  | group irreducible _ ih =>
      obtain ⟨produced, tailTexts⟩ := irreducible.split_texts texts
      simp [produced, ih tailTexts]

theorem weight_eq (composes : Composes inner outer result) :
    weight result = weight inner + weight outer := by
  induction composes with
  | nil => simp
  | group irreducible _ ih =>
      simp only [weight_cons, weight_append, fuse_weight, ih]
      exact add_add_add_comm _ _ _ _

theorem all_isKeep (composes : Composes inner outer result) :
    result.all Atom.isKeep = (inner.all Atom.isKeep && outer.all Atom.isKeep) := by
  induction composes with
  | nil => rfl
  | group irreducible _ ih =>
      simp only [List.all_cons, List.all_append, irreducible.fuse_isKeep, ih,
        Bool.and_assoc, Bool.and_left_comm]

theorem consuming (composes : Composes inner outer result)
    (innerConsuming : Consuming inner) (outerConsuming : Consuming outer) :
    Consuming result := by
  induction composes with
  | nil => exact innerConsuming
  | @group innerHead outerHead inner outer result irreducible _ ih =>
      intro atom member
      rcases List.mem_cons.mp member with rfl | member
      · intro empty
        rw [irreducible.fuse_src] at empty
        obtain rfl := innerConsuming.append_left.eq_nil_of_src empty
        have outerNil : src outerHead = [] :=
          List.eq_nil_of_length_eq_zero irreducible.synced.symm
        obtain rfl := outerConsuming.append_left.eq_nil_of_src outerNil
        exact absurd irreducible.nonempty (by simp)
      · exact ih innerConsuming.append_right outerConsuming.append_right atom member

/-- Composing two of three alignments that cannot be cut together leaves a pair
that cannot be cut together. -/
theorem irreducible_left {third : List (Atom α W)}
    (composes : Composes inner outer result)
    (nonempty : ¬(inner = [] ∧ outer = [] ∧ third = []))
    (synced : Synced result third) (texts : dst inner = src outer)
    (atomic : ∀ innerHead innerTail outerHead outerTail thirdHead thirdTail,
      inner = innerHead ++ innerTail → outer = outerHead ++ outerTail →
      third = thirdHead ++ thirdTail → Synced innerHead outerHead →
      Synced outerHead thirdHead →
      (innerHead = [] ∧ outerHead = [] ∧ thirdHead = []) ∨
        (innerTail = [] ∧ outerTail = [] ∧ thirdTail = [])) :
    Irreducible result third := by
  refine ⟨?_, synced, ?_⟩
  · by_contra neither
    simp only [not_or, not_not] at neither
    obtain ⟨rfl, rfl⟩ := neither
    cases composes with
    | nil => exact nonempty ⟨rfl, rfl, rfl⟩
  · rintro left right thirdHead thirdTail rfl thirdEq headSynced
    obtain ⟨innerHead, innerTail, outerHead, outerTail, rfl, rfl, first, second⟩ :=
      composes.split_result
    simp only [dst_append, src_append] at texts
    have headTexts := (List.append_inj texts first.synced).1
    have outerSynced : Synced outerHead thirdHead := by
      have sameDst := first.dst_eq headTexts
      simp only [Synced, sameDst] at headSynced
      exact headSynced
    rcases atomic innerHead innerTail outerHead outerTail thirdHead thirdTail rfl rfl
      thirdEq first.synced outerSynced with ⟨rfl, rfl, rfl⟩ | ⟨rfl, rfl, rfl⟩
    · exact .inl ⟨first.eq_nil rfl rfl, rfl⟩
    · exact .inr ⟨second.eq_nil rfl rfl, rfl⟩

theorem irreducible_right {first : List (Atom α W)}
    (composes : Composes inner outer result)
    (nonempty : ¬(first = [] ∧ inner = [] ∧ outer = []))
    (synced : Synced first result)
    (atomic : ∀ firstHead firstTail innerHead innerTail outerHead outerTail,
      first = firstHead ++ firstTail → inner = innerHead ++ innerTail →
      outer = outerHead ++ outerTail → Synced firstHead innerHead →
      Synced innerHead outerHead →
      (firstHead = [] ∧ innerHead = [] ∧ outerHead = []) ∨
        (firstTail = [] ∧ innerTail = [] ∧ outerTail = [])) :
    Irreducible first result := by
  refine ⟨?_, synced, ?_⟩
  · by_contra neither
    simp only [not_or, not_not] at neither
    obtain ⟨rfl, rfl⟩ := neither
    cases composes with
    | nil => exact nonempty ⟨rfl, rfl, rfl⟩
  · rintro firstHead firstTail left right firstEq rfl headSynced
    obtain ⟨innerHead, innerTail, outerHead, outerTail, rfl, rfl, head, tail⟩ :=
      composes.split_result
    have firstSynced : Synced firstHead innerHead := by
      simp only [Synced, head.src_eq] at headSynced
      exact headSynced
    rcases atomic firstHead firstTail innerHead innerTail outerHead outerTail firstEq
      rfl rfl firstSynced head.synced with ⟨rfl, rfl, rfl⟩ | ⟨rfl, rfl, rfl⟩
    · exact .inl ⟨rfl, head.eq_nil rfl rfl⟩
    · exact .inr ⟨rfl, tail.eq_nil rfl rfl⟩

/-- Composition of alignments is associative. -/
theorem assoc {first second third firstSecond secondThird left right : List (Atom α W)}
    (secondConsuming : Consuming second) (thirdConsuming : Consuming third)
    (firstTexts : dst first = src second) (secondTexts : dst second = src third)
    (firstPair : Composes first second firstSecond)
    (leftResult : Composes firstSecond third left)
    (secondPair : Composes second third secondThird)
    (rightResult : Composes first secondThird right) : left = right := by
  obtain ⟨size, sizeEq⟩ : ∃ size, first.length + second.length + third.length = size :=
    ⟨_, rfl⟩
  induction size using Nat.strong_induction_on generalizing
    first second third firstSecond secondThird left right with
  | _ size ih =>
  by_cases empty : first = [] ∧ second = [] ∧ third = []
  · obtain ⟨rfl, rfl, rfl⟩ := empty
    obtain rfl := firstPair.eq_nil rfl rfl
    obtain rfl := secondPair.eq_nil rfl rfl
    rw [leftResult.eq_nil rfl rfl, rightResult.eq_nil rfl rfl]
  have pairConsuming := secondPair.consuming secondConsuming thirdConsuming
  by_cases splits : ∃ firstHead firstTail secondHead secondTail thirdHead thirdTail,
      first = firstHead ++ firstTail ∧ second = secondHead ++ secondTail ∧
      third = thirdHead ++ thirdTail ∧ Synced firstHead secondHead ∧
      Synced secondHead thirdHead ∧
      ¬(firstHead = [] ∧ secondHead = [] ∧ thirdHead = []) ∧
      ¬(firstTail = [] ∧ secondTail = [] ∧ thirdTail = [])
  · obtain ⟨firstHead, firstTail, secondHead, secondTail, thirdHead, thirdTail,
      rfl, rfl, rfl, firstSynced, secondSynced, headNonempty, tailNonempty⟩ := splits
    simp only [dst_append, src_append] at firstTexts secondTexts
    obtain ⟨firstHeadTexts, firstTailTexts⟩ := List.append_inj firstTexts firstSynced
    obtain ⟨secondHeadTexts, secondTailTexts⟩ :=
      List.append_inj secondTexts secondSynced
    obtain ⟨pairHead, pairTail, rfl, pairHeadComposes, pairTailComposes⟩ :=
      firstPair.split_arguments secondConsuming firstSynced
    obtain ⟨pairHead', pairTail', rfl, pairHeadComposes', pairTailComposes'⟩ :=
      secondPair.split_arguments thirdConsuming secondSynced
    obtain ⟨leftHead, leftTail, rfl, leftHeadComposes, leftTailComposes⟩ :=
      leftResult.split_arguments thirdConsuming (by
        simp only [Synced, pairHeadComposes.dst_eq firstHeadTexts]
        exact secondSynced)
    obtain ⟨rightHead, rightTail, rfl, rightHeadComposes, rightTailComposes⟩ :=
      rightResult.split_arguments pairConsuming (by
        simp only [Synced, pairHeadComposes'.src_eq]
        exact firstSynced)
    have headSize : firstHead.length + secondHead.length + thirdHead.length ≠ 0 := by
      simpa [Nat.add_eq_zero_iff, List.length_eq_zero_iff, and_assoc] using headNonempty
    have tailSize : firstTail.length + secondTail.length + thirdTail.length ≠ 0 := by
      simpa [Nat.add_eq_zero_iff, List.length_eq_zero_iff, and_assoc] using tailNonempty
    simp only [List.length_append] at sizeEq
    rw [ih _ (by omega) secondConsuming.append_left thirdConsuming.append_left
        firstHeadTexts secondHeadTexts pairHeadComposes leftHeadComposes
        pairHeadComposes' rightHeadComposes rfl,
      ih _ (by omega) secondConsuming.append_right thirdConsuming.append_right
        firstTailTexts secondTailTexts pairTailComposes leftTailComposes
        pairTailComposes' rightTailComposes rfl]
  · have atomic : ∀ firstHead firstTail secondHead secondTail thirdHead thirdTail,
        first = firstHead ++ firstTail → second = secondHead ++ secondTail →
        third = thirdHead ++ thirdTail → Synced firstHead secondHead →
        Synced secondHead thirdHead →
        (firstHead = [] ∧ secondHead = [] ∧ thirdHead = []) ∨
          (firstTail = [] ∧ secondTail = [] ∧ thirdTail = []) := by
      intro firstHead firstTail secondHead secondTail thirdHead thirdTail
        firstEq secondEq thirdEq firstSynced secondSynced
      by_contra neither
      rw [not_or] at neither
      exact splits ⟨firstHead, firstTail, secondHead, secondTail, thirdHead, thirdTail,
        firstEq, secondEq, thirdEq, firstSynced, secondSynced, neither.1, neither.2⟩
    have leftIrreducible := firstPair.irreducible_left empty leftResult.synced
      firstTexts atomic
    have rightIrreducible :=
      secondPair.irreducible_right empty rightResult.synced atomic
    rw [leftResult.unique thirdConsuming (single leftIrreducible),
      rightResult.unique pairConsuming (single rightIrreducible)]
    simp only [fuse, firstPair.src_eq, secondPair.dst_eq secondTexts,
      firstPair.weight_eq, secondPair.weight_eq, firstPair.all_isKeep,
      secondPair.all_isKeep, Bool.and_assoc, add_assoc]

theorem keeps_left (atoms : List (Atom α W)) :
    Composes (keeps (src atoms)) atoms atoms := by
  induction atoms with
  | nil => exact .nil
  | cons atom atoms ih =>
      rw [src_cons, keeps_append]
      cases atom with
      | keep letter => exact .group (keep_keep_irreducible letter letter) ih
      | block source target weight =>
          have composes := Composes.group
            (keeps_block_irreducible source target weight) ih
          simpa [fuse, Atom.isKeep, Atom.src, Atom.dst, Atom.weight] using composes

theorem keeps_right (atoms : List (Atom α W)) :
    Composes atoms (keeps (dst atoms)) atoms := by
  induction atoms with
  | nil => exact .nil
  | cons atom atoms ih =>
      rw [dst_cons, keeps_append]
      cases atom with
      | keep letter => exact .group (keep_keep_irreducible letter letter) ih
      | block source target weight =>
          have composes := Composes.group
            (block_keeps_irreducible source target weight) ih
          simpa [fuse, Atom.isKeep, Atom.src, Atom.dst, Atom.weight] using composes

end Composes

end AiCoreStack.Foundation.Alignment
