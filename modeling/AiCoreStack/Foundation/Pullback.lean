import AiCoreStack.Foundation.Alignment

/-!
# Ranges carried back through an alignment

A range of the destination text is carried back to the atoms that hold its first and its
last letter.  Carrying it back through a composition covers carrying it back through the
two alignments one after the other, and gives the same where no block is cut.
-/

namespace AiCoreStack.Foundation.Alignment

universe u v

variable {α : Type u} {W : Type v}

/-- Source text in front of the atom that holds the letter at a position. -/
def startIn : List (Atom α W) → Nat → List α
  | [], _ => []
  | atom :: atoms, start =>
      if start < atom.dst.length then [] else atom.src ++ startIn atoms (start - atom.dst.length)

/-- Source text up to the end of the atom that holds the letter in front of a position. -/
def stopIn : List (Atom α W) → Nat → List α
  | [], _ => []
  | atom :: atoms, stop =>
      if stop ≤ atom.dst.length then atom.src else atom.src ++ stopIn atoms (stop - atom.dst.length)

/-- A position between two atoms. -/
def CutAt (atoms : List (Atom α W)) (position : Nat) : Prop :=
  ∃ left right, atoms = left ++ right ∧ (dst left).length = position

section

variable {left right : List (Atom α W)} {start stop : Nat}

theorem startIn_append_of_le (after : (dst left).length ≤ start) :
    startIn (left ++ right) start = src left ++ startIn right (start - (dst left).length) := by
  induction left generalizing start with
  | nil => simp
  | cons atom left ih =>
      rw [dst_cons, List.length_append] at after
      rw [List.cons_append, startIn, if_neg (by omega), ih (by omega), src_cons, dst_cons,
        List.length_append, List.append_assoc, Nat.sub_sub]

theorem stopIn_append_of_lt (after : (dst left).length < stop) :
    stopIn (left ++ right) stop = src left ++ stopIn right (stop - (dst left).length) := by
  induction left generalizing stop with
  | nil => simp
  | cons atom left ih =>
      rw [dst_cons, List.length_append] at after
      rw [List.cons_append, stopIn, if_neg (by omega), ih (by omega), src_cons, dst_cons,
        List.length_append, List.append_assoc, Nat.sub_sub]

/-- The atom that holds the letter at a position. -/
theorem startIn_split (inside : start < (dst left).length) :
    ∃ front atom back, left = front ++ atom :: back ∧ (dst front).length ≤ start ∧
      start < (dst front).length + atom.dst.length ∧
      ∀ right, startIn (left ++ right) start = src front := by
  induction left generalizing start with
  | nil => simp at inside
  | cons atom left ih =>
      rw [dst_cons, List.length_append] at inside
      by_cases here : start < atom.dst.length
      · refine ⟨[], atom, left, rfl, Nat.zero_le _, by simpa using here, ?_⟩
        intro right
        rw [List.cons_append, startIn, if_pos here, src_nil]
      · obtain ⟨front, other, back, rfl, below, above, carried⟩ :=
          ih (show start - atom.dst.length < (dst left).length by omega)
        refine ⟨atom :: front, other, back, rfl, ?_, ?_, ?_⟩
        · rw [dst_cons, List.length_append]
          omega
        · rw [dst_cons, List.length_append]
          omega
        · intro right
          rw [List.cons_append, startIn, if_neg here, carried right, src_cons]

/-- The atom that holds the letter in front of a position. -/
theorem stopIn_split (positive : 0 < stop) (inside : stop ≤ (dst left).length) :
    ∃ front atom back, left = front ++ atom :: back ∧ (dst front).length < stop ∧
      stop ≤ (dst front).length + atom.dst.length ∧
      ∀ right, stopIn (left ++ right) stop = src front ++ atom.src := by
  induction left generalizing stop with
  | nil =>
      rw [dst_nil, List.length_nil] at inside
      omega
  | cons atom left ih =>
      rw [dst_cons, List.length_append] at inside
      by_cases here : stop ≤ atom.dst.length
      · refine ⟨[], atom, left, rfl, positive, by simpa using here, ?_⟩
        intro right
        rw [List.cons_append, stopIn, if_pos here, src_nil, List.nil_append]
      · obtain ⟨front, other, back, rfl, below, above, carried⟩ :=
          ih (show 0 < stop - atom.dst.length by omega)
            (show stop - atom.dst.length ≤ (dst left).length by omega)
        refine ⟨atom :: front, other, back, rfl, ?_, ?_, ?_⟩
        · rw [dst_cons, List.length_append]
          omega
        · rw [dst_cons, List.length_append]
          omega
        · intro right
          rw [List.cons_append, stopIn, if_neg here, carried right, src_cons, List.append_assoc]

/-- A cut lies in front of the first atom or behind it. -/
theorem CutAt.zero_or_le {atom : Atom α W} {atoms : List (Atom α W)} {position : Nat}
    (cut : CutAt (atom :: atoms) position) : 0 = position ∨ atom.dst.length ≤ position := by
  obtain ⟨left, right, split, rfl⟩ := cut
  cases left with
  | nil => exact .inl rfl
  | cons other left =>
      obtain ⟨rfl, -⟩ := List.cons.inj split
      rw [dst_cons, List.length_append]
      exact .inr (Nat.le_add_right _ _)

theorem CutAt.tail (position : Nat) (cut : CutAt (left ++ right) ((dst left).length + position)) :
    CutAt right position := by
  obtain ⟨front, back, split, width⟩ := cut
  rcases List.append_eq_append_iff.mp split with ⟨rest, rfl, restEq⟩ | ⟨rest, rfl, -⟩
  · refine ⟨rest, back, restEq, ?_⟩
    rw [dst_append, List.length_append] at width
    omega
  · refine ⟨[], right, rfl, ?_⟩
    rw [dst_append, List.length_append] at width
    rw [dst_nil, List.length_nil]
    omega

theorem CutAt.of_cons (atom : Atom α W) {atoms : List (Atom α W)} {position : Nat}
    (cut : CutAt (atom :: atoms) (atom.dst.length + position)) : CutAt atoms position := by
  have first : CutAt ([atom] ++ atoms) ((dst [atom]).length + position) := by
    rwa [dst_cons, dst_nil, List.append_nil]
  exact first.tail

theorem CutAt.head {position : Nat} (cut : CutAt (left ++ right) position)
    (within : position ≤ (dst left).length) : CutAt left position := by
  obtain ⟨front, back, split, width⟩ := cut
  rcases List.append_eq_append_iff.mp split with ⟨rest, rfl, -⟩ | ⟨rest, rfl, -⟩
  · rw [dst_append, List.length_append] at width
    exact ⟨left, [], (List.append_nil left).symm, by omega⟩
  · exact ⟨front, rest, rfl, width⟩

theorem stopIn_pos (consuming : Consuming left) (positive : 0 < stop)
    (inside : stop ≤ (dst left).length) : 0 < (stopIn left stop).length := by
  obtain ⟨front, atom, back, rfl, -, -, carried⟩ := stopIn_split positive inside
  have width := List.length_pos_of_ne_nil (consuming atom (by simp))
  have stopped := carried []
  rw [List.append_nil] at stopped
  rw [stopped, List.length_append]
  omega

theorem stopIn_le (positive : 0 < stop) (inside : stop ≤ (dst left).length) :
    (stopIn (left ++ right) stop).length ≤ (src left).length := by
  obtain ⟨front, atom, back, rfl, -, -, carried⟩ := stopIn_split positive inside
  rw [carried, src_append, src_cons]
  simp only [List.length_append]
  omega

/-- A range that starts between two atoms comes back to what is in front of it. -/
theorem startIn_seam (produces : ∀ atom ∈ right, atom.dst ≠ []) (nonempty : right ≠ []) :
    startIn (left ++ right) (dst left).length = src left := by
  rw [startIn_append_of_le (Nat.le_refl _), Nat.sub_self]
  cases right with
  | nil => exact absurd rfl nonempty
  | cons atom right =>
      have width := List.length_pos_of_ne_nil (produces atom List.mem_cons_self)
      rw [startIn, if_pos width, List.append_nil]

/-- A range that stops between two atoms comes back to the end of what it covers. -/
theorem stopIn_seam (produces : ∀ atom ∈ left, atom.dst ≠ []) (nonempty : left ≠ []) :
    stopIn (left ++ right) (dst left).length = src left := by
  obtain ⟨front, last, rfl⟩ : ∃ front last, left = front ++ [last] :=
    ⟨left.dropLast, left.getLast nonempty, (List.dropLast_concat_getLast nonempty).symm⟩
  have width := List.length_pos_of_ne_nil (produces last (by simp))
  have whole : (dst (front ++ [last])).length = (dst front).length + last.dst.length := by
    simp
  rw [whole, List.append_assoc, stopIn_append_of_lt (by omega), Nat.add_sub_cancel_left,
    List.singleton_append, stopIn, if_pos (Nat.le_refl _), src_append, src_cons, src_nil,
    List.append_nil]

end

/-! ## Carrying a range back through a composition -/

namespace Irreducible

variable {inner outer : List (Atom α W)} {start stop : Nat}

/-- Behind a group the start of a range is carried back through what follows. -/
theorem startIn_beyond (irreducible : Irreducible inner outer) (inner' outer' : List (Atom α W))
    (after : (dst outer).length ≤ start) :
    startIn (inner ++ inner') (startIn (outer ++ outer') start).length =
      src inner ++ startIn inner' (startIn outer' (start - (dst outer).length)).length := by
  rw [startIn_append_of_le after, List.length_append, ← irreducible.synced,
    startIn_append_of_le (Nat.le_add_right _ _), Nat.add_sub_cancel_left]

theorem stopIn_beyond (irreducible : Irreducible inner outer) (inner' outer' : List (Atom α W))
    (after : (dst outer).length < stop)
    (later : 0 < (stopIn outer' (stop - (dst outer).length)).length) :
    stopIn (inner ++ inner') (stopIn (outer ++ outer') stop).length =
      src inner ++ stopIn inner' (stopIn outer' (stop - (dst outer).length)).length := by
  rw [stopIn_append_of_lt after, List.length_append, ← irreducible.synced,
    stopIn_append_of_lt (Nat.lt_add_of_pos_right later), Nat.add_sub_cancel_left]

/-- A group that both sides cut in front of the letter it starts with starts with it on
both sides. -/
theorem startIn_start (irreducible : Irreducible inner outer) (consuming : Consuming outer)
    (nonempty : 0 < (dst outer).length) (rest : List (Atom α W))
    (cut : CutAt inner (startIn outer 0).length) :
    startIn (inner ++ rest) (startIn outer 0).length = [] := by
  have synced := irreducible.synced
  obtain ⟨erased, atom, back, rfl, none, some, carried⟩ := startIn_split nonempty
  obtain ⟨front, tail, rfl, width⟩ := cut
  have started := carried []
  rw [List.append_nil] at started
  rw [started] at width ⊢
  rcases irreducible.atomic front tail erased (atom :: back) rfl rfl width with
    ⟨rfl, rfl⟩ | ⟨-, empty⟩
  · have consumes := List.length_pos_of_ne_nil (consuming atom (by simp))
    have produced : 0 < (dst tail).length := by
      rw [List.nil_append, List.nil_append, Synced, src_cons, List.length_append] at synced
      omega
    obtain ⟨removed, first, others, rfl, below, above, carried⟩ := startIn_split produced
    rw [src_nil, List.length_nil, List.nil_append, carried]
    have nothing : (dst removed).length = 0 := Nat.le_zero.mp below
    rcases irreducible.atomic removed (first :: others) [] (atom :: back) rfl rfl nothing with
      ⟨rfl, -⟩ | ⟨empty, -⟩
    · rfl
    · exact absurd empty (List.cons_ne_nil _ _)
  · exact absurd empty (List.cons_ne_nil _ _)

/-- A group that both sides cut behind the letter it stops with stops with it on both
sides. -/
theorem stopIn_stop (irreducible : Irreducible inner outer) (consuming : Consuming outer)
    (nonempty : 0 < (dst outer).length) (rest : List (Atom α W))
    (cut : CutAt inner (stopIn outer (dst outer).length).length) :
    stopIn (inner ++ rest) (stopIn outer (dst outer).length).length = src inner := by
  have synced := irreducible.synced
  have positive := stopIn_pos consuming nonempty (Nat.le_refl _)
  have within : (stopIn outer (dst outer).length).length ≤ (dst inner).length := by
    have bound : (stopIn (outer ++ []) (dst outer).length).length ≤ (src outer).length :=
      stopIn_le nonempty (Nat.le_refl _)
    rwa [List.append_nil, ← synced] at bound
  obtain ⟨front, tail, rfl, width⟩ := cut
  rw [← width] at positive within ⊢
  obtain ⟨done, atom, erased, outerEq, below, above, carried⟩ :=
    stopIn_split nonempty (Nat.le_refl (dst outer).length)
  have stopped := carried []
  rw [List.append_nil] at stopped
  rw [stopped] at width
  have through : Synced front (done ++ [atom]) := by
    rw [Synced, width, src_append, src_cons, src_nil, List.append_nil]
  rcases irreducible.atomic front tail (done ++ [atom]) erased rfl (by simpa using outerEq)
    through with ⟨rfl, -⟩ | ⟨rfl, rfl⟩
  · exact absurd positive (Nat.lt_irrefl 0)
  · rw [List.append_nil] at *
    obtain ⟨kept, last, removed, rfl, started, stops, carried'⟩ :=
      stopIn_split positive (Nat.le_refl _)
    rw [carried']
    have nothing : (dst removed).length = 0 := by
      rw [dst_append, dst_cons, List.length_append, List.length_append] at stops
      omega
    have level : Synced (kept ++ [last]) outer := by
      rw [Synced, ← synced, dst_append, dst_append, dst_cons, dst_cons]
      simp only [dst_nil, List.length_append, List.length_nil, nothing]
    rcases irreducible.atomic (kept ++ [last]) removed outer [] (by simp) (by simp) level with
      ⟨empty, -⟩ | ⟨rfl, -⟩
    · exact absurd empty (by simp)
    · rw [src_append, src_cons, src_nil, List.append_nil]

end Irreducible

namespace Composes

variable [AddCommMonoid W] {inner outer result : List (Atom α W)} {start stop : Nat}

/-- The composition carries the start of a range back at least as far. -/
theorem startIn_le (composes : Composes inner outer result) (texts : dst inner = src outer)
    (inside : start < (dst outer).length) :
    (startIn result start).length ≤ (startIn inner (startIn outer start).length).length := by
  induction composes generalizing start with
  | nil => exact Nat.zero_le _
  | @group innerHead outerHead inner outer result irreducible composes ih =>
      obtain ⟨produced, tailTexts⟩ := irreducible.split_texts texts
      rw [startIn, produced]
      by_cases here : start < (dst outerHead).length
      · rw [if_pos here]
        exact Nat.zero_le _
      · rw [dst_append, List.length_append] at inside
        have step := ih tailTexts (show start - (dst outerHead).length < (dst outer).length by omega)
        rw [if_neg here, irreducible.fuse_src, irreducible.startIn_beyond _ _ (by omega),
          List.length_append, List.length_append]
        exact Nat.add_le_add_left step _

/-- The composition carries the end of a range back at least as far. -/
theorem le_stopIn (composes : Composes inner outer result) (texts : dst inner = src outer)
    (consuming : Consuming outer) (positive : 0 < stop) (inside : stop ≤ (dst outer).length) :
    (stopIn inner (stopIn outer stop).length).length ≤ (stopIn result stop).length := by
  induction composes generalizing stop with
  | nil => exact Nat.le_refl _
  | @group innerHead outerHead inner outer result irreducible composes ih =>
      obtain ⟨produced, tailTexts⟩ := irreducible.split_texts texts
      rw [dst_append, List.length_append] at inside
      rw [stopIn, produced, irreducible.fuse_src]
      by_cases here : stop ≤ (dst outerHead).length
      · obtain ⟨done, atom, erased, shape, -, -, carried⟩ := stopIn_split positive here
        have some : 0 < (src done ++ atom.src).length := by
          have width := List.length_pos_of_ne_nil (consuming atom (by simp [shape]))
          rw [List.length_append]
          omega
        have within : (src done ++ atom.src).length ≤ (dst innerHead).length := by
          rw [irreducible.synced, shape, src_append, src_cons]
          simp only [List.length_append]
          omega
        rw [if_pos here, carried]
        exact stopIn_le some within
      · have step := ih tailTexts consuming.append_right
          (show 0 < stop - (dst outerHead).length by omega) (by omega)
        have later := stopIn_pos consuming.append_right
          (show 0 < stop - (dst outerHead).length by omega) (by omega)
        rw [if_neg here, irreducible.stopIn_beyond _ _ (by omega) later, List.length_append,
          List.length_append]
        exact Nat.add_le_add_left step _

/-- Where neither the composition nor the inner alignment is cut inside an atom, the start
comes back to the same place. -/
theorem startIn_eq (composes : Composes inner outer result) (texts : dst inner = src outer)
    (consuming : Consuming outer) (inside : start < (dst outer).length)
    (cut : CutAt result start) (innerCut : CutAt inner (startIn outer start).length) :
    startIn inner (startIn outer start).length = startIn result start := by
  induction composes generalizing start with
  | nil => rfl
  | @group innerHead outerHead inner outer result irreducible composes ih =>
      obtain ⟨produced, tailTexts⟩ := irreducible.split_texts texts
      by_cases here : start < (dst outerHead).length
      · obtain rfl : 0 = start := by
          rcases cut.zero_or_le with zero | beyond
          · exact zero
          · rw [produced] at beyond
            omega
        obtain ⟨erased, atom, back, shape, -, -, carried⟩ := startIn_split here
        have alone := carried []
        rw [List.append_nil] at alone
        have within : (src erased).length ≤ (dst innerHead).length := by
          rw [irreducible.synced, shape, src_append, List.length_append]
          exact Nat.le_add_right _ _
        rw [carried outer, ← alone] at innerCut ⊢
        rw [irreducible.startIn_start consuming.append_left here inner
          (innerCut.head (alone ▸ within)), startIn, produced, if_pos here]
      · rw [dst_append, List.length_append] at inside
        have later : (dst outerHead).length ≤ start := Nat.le_of_not_lt here
        have resultCut : CutAt result (start - (dst outerHead).length) := by
          refine CutAt.of_cons (fuse innerHead outerHead) ?_
          rwa [produced, Nat.add_sub_cancel' later]
        rw [startIn_append_of_le later, List.length_append, ← irreducible.synced] at innerCut
        have step := ih tailTexts consuming.append_right
          (show start - (dst outerHead).length < (dst outer).length by omega) resultCut
          innerCut.tail
        rw [irreducible.startIn_beyond _ _ later, step, startIn, produced, if_neg here,
          irreducible.fuse_src]

/-- So does the end. -/
theorem stopIn_eq (composes : Composes inner outer result) (texts : dst inner = src outer)
    (consuming : Consuming outer) (positive : 0 < stop) (inside : stop ≤ (dst outer).length)
    (cut : CutAt result stop) (innerCut : CutAt inner (stopIn outer stop).length) :
    stopIn inner (stopIn outer stop).length = stopIn result stop := by
  induction composes generalizing stop with
  | nil => rfl
  | @group innerHead outerHead inner outer result irreducible composes ih =>
      obtain ⟨produced, tailTexts⟩ := irreducible.split_texts texts
      by_cases here : stop ≤ (dst outerHead).length
      · obtain rfl : (dst outerHead).length = stop := by
          rw [← produced]
          rcases cut.zero_or_le with zero | beyond
          · omega
          · rw [produced] at beyond ⊢
            omega
        obtain ⟨done, atom, erased, shape, -, -, carried⟩ := stopIn_split positive here
        have alone := carried []
        rw [List.append_nil] at alone
        have within : (src done ++ atom.src).length ≤ (dst innerHead).length := by
          rw [irreducible.synced, shape, src_append, src_cons]
          simp only [List.length_append]
          omega
        rw [carried outer, ← alone] at innerCut ⊢
        rw [irreducible.stopIn_stop consuming.append_left positive inner
          (innerCut.head (alone ▸ within)), stopIn, produced, if_pos here, irreducible.fuse_src]
      · rw [dst_append, List.length_append] at inside
        have beyond : (dst outerHead).length < stop := Nat.lt_of_not_le here
        have later := stopIn_pos consuming.append_right
          (show 0 < stop - (dst outerHead).length by omega) (by omega)
        have resultCut : CutAt result (stop - (dst outerHead).length) := by
          refine CutAt.of_cons (fuse innerHead outerHead) ?_
          rwa [produced, Nat.add_sub_cancel' beyond.le]
        rw [stopIn_append_of_lt beyond, List.length_append, ← irreducible.synced] at innerCut
        have step := ih tailTexts consuming.append_right
          (show 0 < stop - (dst outerHead).length by omega) (by omega) resultCut innerCut.tail
        rw [irreducible.stopIn_beyond _ _ beyond later, step, stopIn, produced, if_neg here,
          irreducible.fuse_src]

end Composes

end AiCoreStack.Foundation.Alignment
