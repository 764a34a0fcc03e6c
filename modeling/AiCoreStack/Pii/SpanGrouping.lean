import AiCoreStack.Pii.SpanLayout

/-!
# Groups closed by a composition

Composing two tables widens a group of inner and outer tiles until both sides
can be cut at one position of the middle text.  The widening invariant says that
no earlier position could have been cut on both sides, so a closed group is one
irreducible step of the alignment composition.
-/

namespace AiCoreStack.Pii

open AiCoreStack.Foundation
open AiCoreStack.Foundation.Alignment (Atom keeps Consuming Composes Irreducible)
open String (utf8Len utf8Len_nil utf8Len_cons utf8Len_append utf8Len_eq_zero)

/-! ## Cut positions -/

/-- A byte position at which an alignment can be cut, seen from one side. -/
def Cut (side : Atom Char Weight → List Char) (atoms : List (Atom Char Weight)) (n : Nat) :
    Prop :=
  ∃ head tail, atoms = head ++ tail ∧ utf8Len (head.flatMap side) = n

namespace Cut

variable {side : Atom Char Weight → List Char} {left right : List (Atom Char Weight)} {n : Nat}

theorem append_right (cut : Cut side left n) : Cut side (left ++ right) n := by
  obtain ⟨head, tail, rfl, width⟩ := cut
  exact ⟨head, tail ++ right, by simp, width⟩

theorem of_append (cut : Cut side (left ++ right) n)
    (inside : n ≤ utf8Len (left.flatMap side)) : Cut side left n := by
  obtain ⟨head, tail, split, width⟩ := cut
  rcases List.append_eq_append_iff.mp split with
    ⟨middle, headEq, -⟩ | ⟨middle, leftEq, -⟩
  · subst headEq
    simp only [List.flatMap_append, utf8Len_append] at width
    exact ⟨left, [], by simp, by omega⟩
  · exact ⟨head, middle, leftEq, width⟩

/-- A single atom has no cut in its interior. -/
theorem of_append_atom (atom : Atom Char Weight) (cut : Cut side (left ++ [atom]) n)
    (beyond : utf8Len (left.flatMap side) < n) :
    n = utf8Len (left.flatMap side) + utf8Len (side atom) := by
  obtain ⟨head, tail, split, width⟩ := cut
  rcases List.append_eq_append_iff.mp split with
    ⟨middle, headEq, restEq⟩ | ⟨middle, leftEq, -⟩
  · subst headEq
    rcases List.append_eq_singleton_iff.mp restEq.symm with ⟨rfl, -⟩ | ⟨rfl, -⟩
    · simp only [List.append_nil] at width
      omega
    · simp only [List.flatMap_append, List.flatMap_cons, List.flatMap_nil, List.append_nil,
        utf8Len_append] at width
      omega
  · subst leftEq
    simp only [List.flatMap_append, utf8Len_append] at beyond
    omega

end Cut

theorem flatMap_src_expand (tiles : List Tile) :
    (expand tiles).flatMap Atom.src = srcText tiles := src_expand tiles

theorem flatMap_dst_expand (tiles : List Tile) :
    (expand tiles).flatMap Atom.dst = dstText tiles := dst_expand tiles

/-- A trailing block has no destination cut in its interior. -/
theorem Cut.dst_block {tiles : List Tile} {tile : Tile} {n : Nat}
    (cut : Cut Atom.dst (expand (tiles ++ [tile])) n) (isBlock : tile.isRun = false)
    (beyond : utf8Len (dstText tiles) < n) :
    n = utf8Len (dstText tiles) + utf8Len tile.dst := by
  obtain ⟨source, target, weight, rfl⟩ := Tile.block_of_not_isRun isBlock
  rw [expand_append] at cut
  rw [← flatMap_dst_expand] at beyond ⊢
  exact Cut.of_append_atom (.block source target weight) (by simpa [Tile.atoms] using cut) beyond

/-- A trailing block has no source cut in its interior. -/
theorem Cut.src_block {tiles : List Tile} {tile : Tile} {n : Nat}
    (cut : Cut Atom.src (expand (tiles ++ [tile])) n) (isBlock : tile.isRun = false)
    (beyond : utf8Len (srcText tiles) < n) :
    n = utf8Len (srcText tiles) + utf8Len tile.src := by
  obtain ⟨source, target, weight, rfl⟩ := Tile.block_of_not_isRun isBlock
  rw [expand_append] at cut
  rw [← flatMap_src_expand] at beyond ⊢
  exact Cut.of_append_atom (.block source target weight) (by simpa [Tile.atoms] using cut) beyond

/-! ## The widening invariant -/

/-- Invariant of a group under construction: `inner` and `outer` are the tiles
already passed, `innerLast` and `outerLast` the current ones. -/
structure Widening (inner : List Tile) (innerLast : Tile) (outer : List Tile)
    (outerLast : Tile) : Prop where
  innerStart : utf8Len (dstText inner) < utf8Len (srcText outer ++ outerLast.src)
  outerStart : utf8Len (srcText outer) < utf8Len (dstText inner ++ innerLast.dst)
  clean : ∀ n, 0 < n → n ≤ max (utf8Len (dstText inner)) (utf8Len (srcText outer)) →
    Cut Atom.dst (expand (inner ++ [innerLast])) n →
    ¬ Cut Atom.src (expand (outer ++ [outerLast])) n
  straddle : (inner = [] ∧ outer = []) ∨ innerLast.isRun = false ∨ outerLast.isRun = false
  first : ∀ tile ∈ (inner ++ [innerLast]).head?, tile.dst ≠ []
  last : innerLast.dst = [] →
    utf8Len (dstText inner ++ innerLast.dst) < utf8Len (srcText outer ++ outerLast.src) ∧
      outerLast.isRun = false

theorem widening_start {innerLast outerLast : Tile} (produces : innerLast.dst ≠ [])
    (consumes : outerLast.src ≠ []) : Widening [] innerLast [] outerLast where
  innerStart := by simpa using utf8Len_pos consumes
  outerStart := by simpa using utf8Len_pos produces
  clean n positive bound := by simp at bound; omega
  straddle := .inl ⟨rfl, rfl⟩
  first tile member := by
    simp only [List.nil_append, List.head?_cons, Option.mem_some_iff] at member
    exact member ▸ produces
  last empty := absurd empty produces

namespace Widening

variable {inner outer : List Tile} {innerLast outerLast : Tile}

/-- Take one more inner tile while the outer block reaches further. -/
theorem inner_step (widening : Widening inner innerLast outer outerLast)
    (before : utf8Len (dstText inner ++ innerLast.dst) <
      utf8Len (srcText outer ++ outerLast.src))
    (isBlock : outerLast.isRun = false) (next : Tile) :
    Widening (inner ++ [innerLast]) next outer outerLast where
  innerStart := by simpa using before
  outerStart := by
    have start := widening.outerStart
    simp only [dstText_append, dstText_cons, dstText_nil, List.append_nil, utf8Len_append] at *
    omega
  clean n positive bound innerCut outerCut := by
    have start := widening.outerStart
    have inside : n ≤ utf8Len (dstText (inner ++ [innerLast])) := by
      simp only [dstText_append, dstText_cons, dstText_nil, List.append_nil] at bound ⊢
      omega
    have earlier : Cut Atom.dst (expand (inner ++ [innerLast])) n := by
      rw [expand_append] at innerCut
      exact innerCut.of_append (by rwa [flatMap_dst_expand])
    by_cases old : n ≤ max (utf8Len (dstText inner)) (utf8Len (srcText outer))
    · exact widening.clean n positive old earlier outerCut
    · have width := outerCut.src_block isBlock (by omega)
      simp only [dstText_append, dstText_cons, dstText_nil, List.append_nil,
        utf8Len_append] at before inside
      omega
  straddle := .inr (.inr isBlock)
  first tile member := by
    apply widening.first tile
    simpa using member
  last empty := ⟨by simpa [empty] using before, isBlock⟩

/-- Take one more outer tile while the inner block reaches further. -/
theorem outer_step (widening : Widening inner innerLast outer outerLast)
    (before : utf8Len (srcText outer ++ outerLast.src) <
      utf8Len (dstText inner ++ innerLast.dst))
    (isBlock : innerLast.isRun = false) (next : Tile) :
    Widening inner innerLast (outer ++ [outerLast]) next where
  innerStart := by
    have start := widening.innerStart
    simp only [srcText_append, srcText_cons, srcText_nil, List.append_nil, utf8Len_append] at *
    omega
  outerStart := by simpa using before
  clean n positive bound innerCut outerCut := by
    have start := widening.innerStart
    have inside : n ≤ utf8Len (srcText (outer ++ [outerLast])) := by
      simp only [srcText_append, srcText_cons, srcText_nil, List.append_nil] at bound ⊢
      omega
    have earlier : Cut Atom.src (expand (outer ++ [outerLast])) n := by
      rw [expand_append] at outerCut
      exact outerCut.of_append (by rwa [flatMap_src_expand])
    by_cases old : n ≤ max (utf8Len (dstText inner)) (utf8Len (srcText outer))
    · exact widening.clean n positive old innerCut earlier
    · have width := innerCut.dst_block isBlock (by omega)
      simp only [srcText_append, srcText_cons, srcText_nil, List.append_nil,
        utf8Len_append] at before inside
      omega
  straddle := .inr (.inl isBlock)
  first := widening.first
  last empty := by
    have late := (widening.last empty).1
    omega

theorem clean_mono (widening : Widening inner innerLast outer outerLast)
    {inner' outer' : List Tile} (innerMore outerMore : List (Atom Char Weight))
    (innerEq : expand (inner ++ [innerLast]) = expand inner' ++ innerMore)
    (outerEq : expand (outer ++ [outerLast]) = expand outer' ++ outerMore) :
    ∀ n, 0 < n → n ≤ max (utf8Len (dstText inner)) (utf8Len (srcText outer)) →
      Cut Atom.dst (expand inner') n → ¬ Cut Atom.src (expand outer') n := by
  intro n positive bound innerCut outerCut
  apply widening.clean n positive bound
  · rw [innerEq]
    exact innerCut.append_right
  · rw [outerEq]
    exact outerCut.append_right

/-- Cut the outer run where the inner group ends. -/
theorem shrink_outer {text rest : List Char}
    (widening : Widening inner innerLast outer (.run (text ++ rest)))
    (ends : dstText inner ++ innerLast.dst = srcText outer ++ text) :
    Widening inner innerLast outer (.run text) where
  innerStart := by
    have produces : innerLast.dst ≠ [] := fun empty =>
      absurd (widening.last empty).2 (by simp [Tile.isRun])
    have positive := utf8Len_pos produces
    simp only [Tile.src, ← ends, utf8Len_append]
    omega
  outerStart := widening.outerStart
  clean := widening.clean_mono [] (keeps rest) (by simp) (by simp [Tile.atoms])
  straddle := by simpa [Tile.isRun] using widening.straddle
  first := widening.first
  last empty := absurd (widening.last empty).2 (by simp [Tile.isRun])

/-- Cut the inner run where the outer group ends. -/
theorem shrink_inner {text rest : List Char}
    (widening : Widening inner (.run (text ++ rest)) outer outerLast)
    (consumes : outerLast.src ≠ [])
    (ends : dstText inner ++ text = srcText outer ++ outerLast.src) :
    Widening inner (.run text) outer outerLast where
  innerStart := widening.innerStart
  outerStart := by
    have positive := utf8Len_pos consumes
    simp only [Tile.dst, ends, utf8Len_append]
    omega
  clean := widening.clean_mono (keeps rest) [] (by simp [Tile.atoms]) (by simp)
  straddle := by simpa [Tile.isRun] using widening.straddle
  first tile member := by
    have start := widening.innerStart
    cases inner with
    | nil =>
        simp only [List.nil_append, List.head?_cons, Option.mem_some_iff] at member
        subst member
        rintro empty
        simp only [Tile.dst] at empty
        rw [← ends, empty] at start
        simp at start
    | cons head inner => exact widening.first tile (by simpa using member)
  last empty := by
    have start := widening.innerStart
    simp only [Tile.dst] at empty
    rw [← ends, empty] at start
    simp at start

/-- A head that produces nothing is empty. -/
theorem head_eq_nil (widening : Widening inner innerLast outer outerLast)
    {head tail : List (Atom Char Weight)}
    (split : expand (inner ++ [innerLast]) = head ++ tail) (empty : Alignment.dst head = []) :
    head = [] := by
  cases tiles : inner ++ [innerLast] with
  | nil => simp at tiles
  | cons tile rest =>
      have produces := widening.first tile (by simp [tiles])
      rw [tiles, expand_cons] at split
      cases head with
      | nil => rfl
      | cons atom head =>
          rw [Alignment.dst_cons, List.append_eq_nil_iff] at empty
          cases tile with
          | block source target weight =>
              simp only [Tile.atoms, List.cons_append, List.cons.injEq] at split
              rw [← split.1] at empty
              exact absurd empty.1 produces
          | run text =>
              cases text with
              | nil => exact absurd rfl produces
              | cons letter text =>
                  simp only [Tile.atoms, keeps, List.map_cons, List.cons_append,
                    List.cons.injEq] at split
                  rw [← split.1] at empty
                  exact absurd empty.1 (by simp [Atom.dst])

/-- A tail that produces nothing is empty once the last tile produces text. -/
theorem tail_eq_nil {head tail : List (Atom Char Weight)} (produces : innerLast.dst ≠ [])
    (split : expand (inner ++ [innerLast]) = head ++ tail) (empty : Alignment.dst tail = []) :
    tail = [] := by
  rcases List.eq_nil_or_concat tail with rfl | ⟨init, atom, rfl⟩
  · rfl
  · rw [List.concat_eq_append, Alignment.dst_append, Alignment.dst_cons,
      List.append_eq_nil_iff, List.append_eq_nil_iff] at empty
    rw [expand_append, expand_cons, expand_nil, List.append_nil, List.concat_eq_append,
      ← List.append_assoc] at split
    cases innerLast with
    | block source target weight =>
        obtain ⟨-, same⟩ := List.append_inj' split rfl
        rw [← List.cons.inj same |>.1] at empty
        exact absurd empty.2.1 produces
    | run text =>
        rcases List.eq_nil_or_concat text with rfl | ⟨init', letter, rfl⟩
        · exact absurd rfl produces
        · rw [Tile.atoms, List.concat_eq_append, Alignment.keeps_append,
            ← List.append_assoc] at split
          obtain ⟨-, same⟩ := List.append_inj' split rfl
          rw [← List.cons.inj same |>.1] at empty
          exact absurd empty.2.1 (by simp [Atom.dst])

/-- A closed group with a block in it has no common cut in its interior. -/
theorem no_interior_cut (widening : Widening inner innerLast outer outerLast)
    (ends : dstText inner ++ innerLast.dst = srcText outer ++ outerLast.src)
    (isBlock : innerLast.isRun = false ∨ outerLast.isRun = false) {n : Nat} (positive : 0 < n)
    (innerCut : Cut Atom.dst (expand (inner ++ [innerLast])) n)
    (outerCut : Cut Atom.src (expand (outer ++ [outerLast])) n) :
    utf8Len (dstText inner ++ innerLast.dst) ≤ n := by
  by_cases old : n ≤ max (utf8Len (dstText inner)) (utf8Len (srcText outer))
  · exact absurd outerCut (widening.clean n positive old innerCut)
  · rcases isBlock with isBlock | isBlock
    · rw [innerCut.dst_block isBlock (by omega), utf8Len_append]
    · rw [ends, outerCut.src_block isBlock (by omega), utf8Len_append]

/-- A closed group with a block in it is irreducible. -/
theorem irreducible (widening : Widening inner innerLast outer outerLast)
    (solid : Solid (outer ++ [outerLast]))
    (ends : dstText inner ++ innerLast.dst = srcText outer ++ outerLast.src)
    (isBlock : innerLast.isRun = false ∨ outerLast.isRun = false) :
    Irreducible (expand (inner ++ [innerLast])) (expand (outer ++ [outerLast])) := by
  have texts : Alignment.dst (expand (inner ++ [innerLast])) =
      Alignment.src (expand (outer ++ [outerLast])) := by
    simpa using ends
  have produces : innerLast.dst ≠ [] := fun empty => by
    have late := (widening.last empty).1
    rw [ends] at late
    omega
  constructor
  · right
    intro empty
    have none : outerLast.src = [] := by
      have whole := congrArg Alignment.src empty
      simp at whole
      exact whole.2
    exact solid outerLast (by simp) none
  · exact Alignment.Synced.of_eq texts
  · intro innerHead innerTail outerHead outerTail innerEq outerEq synced
    have consuming := solid.consuming
    rw [outerEq] at consuming
    have whole : Alignment.dst innerHead ++ Alignment.dst innerTail =
        dstText inner ++ innerLast.dst := by
      rw [← Alignment.dst_append, ← innerEq, dst_expand]
      simp
    rw [innerEq, outerEq, Alignment.dst_append, Alignment.src_append] at texts
    obtain ⟨headTexts, tailTexts⟩ := List.append_inj texts synced
    by_cases empty : Alignment.dst innerHead = []
    · left
      exact ⟨widening.head_eq_nil innerEq empty,
        consuming.append_left.eq_nil_of_src (headTexts ▸ empty)⟩
    · right
      have reached := widening.no_interior_cut ends isBlock (utf8Len_pos empty)
        ⟨innerHead, innerTail, innerEq, rfl⟩
        ⟨outerHead, outerTail, outerEq, congrArg utf8Len headTexts.symm⟩
      have none : Alignment.dst innerTail = [] := by
        apply utf8Len_eq_zero.mp
        rw [← whole, utf8Len_append] at reached
        omega
      exact ⟨tail_eq_nil produces innerEq none,
        consuming.append_right.eq_nil_of_src (tailTexts ▸ none)⟩

end Widening

/-! ## The tile of a closed group -/

/-- One tile for a group: a run when nothing was rewritten, else a block. -/
def fuseTile (inner outer : List Tile) : Tile :=
  if inner.all Tile.isRun && outer.all Tile.isRun then .run (srcText inner)
  else .block (srcText inner) (dstText outer)
    (Alignment.weight (expand inner) + Alignment.weight (expand outer))

@[simp] theorem expand_all_isKeep (tiles : List Tile) :
    (expand tiles).all Atom.isKeep = tiles.all Tile.isRun := by
  induction tiles with
  | nil => rfl
  | cons tile tiles ih =>
      cases tile <;> simp [Tile.atoms, Tile.isRun, Atom.isKeep, keeps, ih]

theorem fuse_expand {inner outer : List Tile}
    (rewritten : (inner.all Tile.isRun && outer.all Tile.isRun) = false) :
    [Alignment.fuse (expand inner) (expand outer)] = (fuseTile inner outer).atoms := by
  simp [Alignment.fuse, fuseTile, rewritten, Tile.atoms]

/-- A closed group composes to its tile. -/
theorem Widening.composes {inner outer : List Tile} {innerLast outerLast : Tile}
    (widening : Widening inner innerLast outer outerLast)
    (solid : Solid (outer ++ [outerLast]))
    (ends : dstText inner ++ innerLast.dst = srcText outer ++ outerLast.src) :
    Composes (expand (inner ++ [innerLast])) (expand (outer ++ [outerLast]))
      (fuseTile (inner ++ [innerLast]) (outer ++ [outerLast])).atoms := by
  by_cases isBlock : innerLast.isRun = false ∨ outerLast.isRun = false
  · rw [← fuse_expand]
    · exact Composes.single (widening.irreducible solid ends isBlock)
    · rcases isBlock with isBlock | isBlock <;> simp [isBlock]
  · obtain ⟨rfl, rfl⟩ := widening.straddle.resolve_right isBlock
    simp only [not_or, Bool.not_eq_false] at isBlock
    obtain ⟨text, rfl⟩ := Tile.run_of_isRun isBlock.1
    obtain ⟨text', rfl⟩ := Tile.run_of_isRun isBlock.2
    simp only [dstText_nil, srcText_nil, Tile.dst, Tile.src, List.nil_append] at ends
    subst ends
    have same := Composes.keeps_left (keeps text : List (Atom Char Weight))
    simpa [fuseTile, Tile.isRun, Tile.atoms, Tile.src] using same

end AiCoreStack.Pii
