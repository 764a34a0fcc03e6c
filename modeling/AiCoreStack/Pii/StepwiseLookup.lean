import AiCoreStack.Foundation.Pullback
import AiCoreStack.Pii.ExactImage

/-!
# Looking a range up in two steps

A range of the final text is looked up in the composed map, or in the second map and then
in the first.  The composed lookup covers the stepwise one.  The two agree when no lookup
is widened: a group of the composition that both maps cut at an end has no deletion there
that only the composed lookup would include.
-/

namespace AiCoreStack.Pii

open AiCoreStack.Foundation
open AiCoreStack.Foundation.Alignment (Atom Consuming keeps startIn stopIn CutAt)
open String (utf8Len)

/-- Lookup in the second map, and of what it gives in the first. -/
def stepwise (first second : SpanMap) (dst : Span) : SourceSpan :=
  first.toSource (second.toSource dst).span

/-- The composed lookup covers the stepwise one, and agrees with it where no lookup is
widened. -/
def CoversStepwise (first second : List Call) : Prop :=
  ∃ map, SpanMap.compose (build first).2 (build second).2 = .ok map ∧
    ∀ (piece : Piece) (after : List Char), piece.In (build second).1 after → piece.body ≠ [] →
      (stepwise (build first).2 (build second).2 piece.span).span.Within
          (map.toSource piece.span).span ∧
        ((map.toSource piece.span).snapped = false →
          ((build second).2.toSource piece.span).snapped = false →
          (stepwise (build first).2 (build second).2 piece.span).snapped = false →
          (stepwise (build first).2 (build second).2 piece.span).span =
            (map.toSource piece.span).span)

/-! ## Lookups in terms of atoms -/

theorem startIn_keeps {text : List Char} {start : Nat} (inside : start < text.length)
    (atoms : List (Atom Char Weight)) : startIn (keeps text ++ atoms) start = text.take start := by
  induction text generalizing start with
  | nil => simp at inside
  | cons letter text ih =>
      change startIn (.keep letter :: (keeps text ++ atoms)) start = _
      cases start with
      | zero => simp [startIn, Atom.dst]
      | succ start =>
          have step := ih (Nat.lt_of_succ_lt_succ inside)
          simpa [startIn, Atom.dst, Atom.src] using step

theorem stopIn_keeps {text : List Char} {stop : Nat} (positive : 0 < stop)
    (inside : stop ≤ text.length) (atoms : List (Atom Char Weight)) :
    stopIn (keeps text ++ atoms) stop = text.take stop := by
  induction text generalizing stop with
  | nil =>
      rw [List.length_nil] at inside
      omega
  | cons letter text ih =>
      change stopIn (.keep letter :: (keeps text ++ atoms)) stop = _
      obtain ⟨stop, rfl⟩ := Nat.exists_eq_succ_of_ne_zero (Nat.pos_iff_ne_zero.mp positive)
      cases stop with
      | zero => simp [stopIn, Atom.dst, Atom.src]
      | succ stop =>
          have step := ih (Nat.succ_pos stop) (Nat.le_of_succ_le_succ inside)
          simpa [stopIn, Atom.dst, Atom.src] using step

/-- The start of a lookup is computed atom by atom. -/
theorem pullStart_eq_startIn (tiles : List Tile) (start : Nat) :
    pullStart tiles start = startIn (expand tiles) start := by
  induction tiles generalizing start with
  | nil => rfl
  | cons tile tiles ih =>
      rw [pullStart, expand_cons]
      split
      next inside =>
        cases tile with
        | run text => exact (startIn_keeps inside _).symm
        | block source target weight =>
            change [] = startIn (.block source target weight :: expand tiles) start
            rw [startIn]
            exact (if_pos inside).symm
      next beyond =>
        have after : (Alignment.dst tile.atoms).length ≤ start := by
          rw [Tile.dst_atoms]
          omega
        rw [Alignment.startIn_append_of_le after, ih, Tile.src_atoms, Tile.dst_atoms]

/-- So is its end. -/
theorem pullStop_eq_stopIn (tiles : List Tile) {stop : Nat} (positive : 0 < stop) :
    pullStop tiles stop = stopIn (expand tiles) stop := by
  induction tiles generalizing stop with
  | nil => rfl
  | cons tile tiles ih =>
      rw [pullStop, expand_cons]
      split
      next inside =>
        cases tile with
        | run text => exact (stopIn_keeps positive inside _).symm
        | block source target weight =>
            change source = stopIn (.block source target weight :: expand tiles) stop
            rw [stopIn]
            exact (if_pos inside).symm
      next beyond =>
        have after : (Alignment.dst tile.atoms).length < stop := by
          rw [Tile.dst_atoms]
          omega
        rw [Alignment.stopIn_append_of_lt after, ih (by omega), Tile.src_atoms, Tile.dst_atoms]

/-- Looking a piece up in the table of an alignment. -/
theorem toSource_pack {atoms : List (Atom Char Weight)} (consuming : Consuming atoms)
    (fits : Fits (Alignment.dst atoms)) {piece : Piece} {after : List Char}
    (inText : piece.In (Alignment.dst atoms) after) (nonempty : piece.body ≠ []) :
    ∃ (source : Piece) (rest : List Char), source.In (Alignment.src atoms) rest ∧
      source.body ≠ [] ∧ ((tableOf (pack atoms)).toSource piece.span).span = source.span ∧
      source.before = startIn atoms piece.before.length ∧
      source.through = stopIn atoms piece.through.length := by
  rw [← dstText_pack] at fits inText
  obtain ⟨source, rest, inSource, some, spanEq, beforeEq, throughEq⟩ :=
    toSource_piece (solid_pack consuming) fits inText nonempty
  have positive : 0 < piece.through.length := by
    rw [Piece.through, List.length_append]
    exact Nat.add_pos_right _ (List.length_pos_of_ne_nil nonempty)
  rw [srcText_pack] at inSource
  rw [pullStart_eq_startIn, expand_pack] at beforeEq
  rw [pullStop_eq_stopIn _ positive, expand_pack] at throughEq
  exact ⟨source, rest, inSource, some, spanEq, beforeEq, throughEq⟩

/-- A place inside a run, or next to the tile, lies between two atoms. -/
theorem cutAt_inside {left right : List Tile} {tile : Tile} {place : Nat}
    (below : (dstText left).length ≤ place) (above : place ≤ (dstText left ++ tile.dst).length)
    (clean : tile.isRun = true ∨ place = (dstText left).length ∨
      place = (dstText left ++ tile.dst).length) :
    CutAt (expand (left ++ tile :: right)) place := by
  rw [List.length_append] at above clean
  rw [expand_append, expand_cons]
  rcases clean with isRun | rfl | rfl
  · obtain ⟨text, rfl⟩ := Tile.run_of_isRun isRun
    have within : place - (dstText left).length ≤ text.length := by
      change _ ≤ _ + text.length at above
      omega
    refine ⟨expand left ++ keeps (text.take (place - (dstText left).length)),
      keeps (text.drop (place - (dstText left).length)) ++ expand right, ?_, ?_⟩
    · rw [List.append_assoc, ← List.append_assoc (keeps _), ← Alignment.keeps_append,
        List.take_append_drop]
      rfl
    · rw [Alignment.dst_append, dst_expand, Alignment.dst_keeps, List.length_append,
        List.length_take, Nat.min_eq_left within]
      omega
  · exact ⟨expand left, tile.atoms ++ expand right, rfl, by rw [dst_expand]⟩
  · refine ⟨expand left ++ tile.atoms, expand right, (List.append_assoc _ _ _).symm, ?_⟩
    rw [Alignment.dst_append, dst_expand, Tile.dst_atoms, List.length_append]

/-- A lookup that is not widened cuts no atom. -/
theorem cutAt_of_unsnapped {tiles : List Tile} (fits : Fits (dstText tiles)) {piece : Piece}
    {after : List Char} (inText : piece.In (dstText tiles) after) (nonempty : piece.body ≠ [])
    (unsnapped : ((tableOf tiles).toSource piece.span).snapped = false) :
    CutAt (expand tiles) piece.before.length ∧ CutAt (expand tiles) piece.through.length := by
  have leads : piece.through <+: dstText tiles := ⟨after, inText.symm⟩
  have leadsBefore : piece.before <+: dstText tiles := (List.prefix_append _ _).trans leads
  obtain ⟨left, first, right, left', last, right', ⟨split, below, above, -⟩,
    ⟨split', below', above', -⟩, -, snappedEq⟩ := toSource_ends fits inText nonempty
  rw [snappedEq, Bool.or_eq_false_iff, ← Bool.not_eq_true, ← Bool.not_eq_true] at unsnapped
  constructor
  · subst split
    have starts : (first.segment (srcText left) (dstText left)).dst.byte.start ≤
        piece.span.byte.start := by
      rw [Tile.segment_dst]
      exact (mark_le_iff_length fits dstText_left_leads leadsBefore).mpr below
    have clean := mt (sourceStart_snapped starts).mpr unsnapped.1
    rw [ne_eq, Tile.segment_identity, Tile.segment_dst] at clean
    apply cutAt_inside below above.le
    by_cases isRun : first.isRun = true
    · exact .inl isRun
    · right
      left
      have level := mt (And.intro isRun) clean
      have order := mt (mark_lt_iff_length fits dstText_left_leads leadsBefore).mpr level
      omega
  · subst split'
    have stops : piece.span.byte.stop ≤
        (last.segment (srcText left') (dstText left')).dst.byte.stop := by
      rw [Tile.segment_dst]
      exact (mark_le_iff_length fits leads dstText_tile_leads).mpr above'
    have clean := mt (sourceStop_snapped stops).mpr unsnapped.2
    rw [ne_eq, Tile.segment_identity, Tile.segment_dst] at clean
    apply cutAt_inside below'.le above'
    by_cases isRun : last.isRun = true
    · exact .inl isRun
    · right
      right
      have level := mt (And.intro isRun) clean
      have order := mt (mark_lt_iff_length fits leads dstText_tile_leads).mpr level
      omega

/-! ## Covering -/

/-- Pieces of a text are ordered as their spans are. -/
theorem Piece.span_within {text rest rest' : List Char} {inner outer : Piece} (fits : Fits text)
    (inText : inner.In text rest) (inText' : outer.In text rest')
    (starts : outer.before.length ≤ inner.before.length)
    (stops : inner.through.length ≤ outer.through.length) : inner.span.Within outer.span := by
  have leads : inner.through <+: text := ⟨rest, inText.symm⟩
  have leads' : outer.through <+: text := ⟨rest', inText'.symm⟩
  have leadsBefore : inner.before <+: text := (List.prefix_append _ _).trans leads
  have leadsBefore' : outer.before <+: text := (List.prefix_append _ _).trans leads'
  have fitsInner : Fits (inner.before ++ inner.body) := fits.of_leads leads
  have fitsOuter : Fits (outer.before ++ outer.body) := fits.of_leads leads'
  have along (axis : Axis) :
      (axis.range outer.span).start ≤ (axis.range inner.span).start ∧
        (axis.range inner.span).stop ≤ (axis.range outer.span).stop := by
    rw [UInt32.le_iff_toNat_le, UInt32.le_iff_toNat_le, Piece.span, Piece.span,
      axis.spanAt_start _ _ fitsInner, axis.spanAt_start _ _ fitsOuter,
      axis.spanAt_stop _ _ fitsInner, axis.spanAt_stop _ _ fitsOuter,
      axis.size_le_iff leadsBefore' leadsBefore]
    exact ⟨starts, (axis.size_le_iff leads leads').mpr stops⟩
  exact ⟨along byteAxis, along charAxis⟩

/-- Two runs that feed one another: the composed lookup covers the stepwise one. -/
theorem compose_coversStepwise (first second : List Call)
    (feeds : second.flatMap Call.source = (build first).1)
    (fits0 : Fits (first.flatMap Call.source)) (fits1 : Fits (build first).1)
    (fits2 : Fits (build second).1) : CoversStepwise first second := by
  rw [CoversStepwise, build_eq fits0 fits1, build_eq (feeds ▸ fits1) fits2]
  rw [build_text] at fits1 fits2 feeds ⊢
  rw [← src_callAtoms] at fits0 feeds
  have consuming := consuming_callAtoms first
  have consuming' := consuming_callAtoms second
  generalize callAtoms first = inner at *
  generalize callAtoms second = outer at *
  obtain ⟨result, composes, composed⟩ := compose_eq consuming consuming' feeds.symm fits0 fits1
    fits2
  refine ⟨_, composed, ?_⟩
  intro piece after inText nonempty
  have resultDst := composes.dst_eq feeds.symm
  have resultSrc := composes.src_eq
  have width : piece.before.length < piece.through.length := by
    simpa [Piece.through] using List.length_pos_of_ne_nil nonempty
  have inside : piece.through.length ≤ (Alignment.dst outer).length :=
    List.IsPrefix.length_le ⟨after, inText.symm⟩
  have inResult : piece.In (Alignment.dst result) after := by rwa [resultDst]
  have fitsResult : Fits (Alignment.dst result) := by rwa [resultDst]
  -- the piece in the middle text and the two pieces in the source
  obtain ⟨middle, rest, inMiddle, nonempty', spanEq, beforeEq, throughEq⟩ :=
    toSource_pack consuming' fits2 inText nonempty
  rw [feeds] at inMiddle
  obtain ⟨source, rest', inSource, -, spanEq', beforeEq', throughEq'⟩ :=
    toSource_pack consuming fits1 inMiddle nonempty'
  obtain ⟨whole, rest'', inWhole, -, spanEq'', beforeEq'', throughEq''⟩ :=
    toSource_pack (composes.consuming consuming consuming') fitsResult inResult nonempty
  rw [resultSrc] at inWhole
  rw [beforeEq] at beforeEq'
  rw [throughEq] at throughEq'
  rw [stepwise, spanEq, spanEq', spanEq'']
  constructor
  · apply Piece.span_within fits0 inSource inWhole
    · rw [beforeEq', beforeEq'']
      exact composes.startIn_le feeds.symm (by omega)
    · rw [throughEq', throughEq'']
      exact composes.le_stopIn feeds.symm consuming' (by omega) inside
  · intro unsnapped _ unsnapped'
    rw [← dstText_pack] at fits1 fitsResult inMiddle inResult
    obtain ⟨startCut, stopCut⟩ := cutAt_of_unsnapped fitsResult inResult nonempty unsnapped
    obtain ⟨startCut', stopCut'⟩ := cutAt_of_unsnapped fits1 inMiddle nonempty' unsnapped'
    rw [expand_pack] at startCut stopCut startCut' stopCut'
    rw [beforeEq] at startCut'
    rw [throughEq] at stopCut'
    have sameBefore : source.before = whole.before := by
      rw [beforeEq', beforeEq'']
      exact composes.startIn_eq feeds.symm consuming' (by omega) startCut startCut'
    have sameThrough : source.before ++ source.body = whole.before ++ whole.body := by
      change source.through = whole.through
      rw [throughEq', throughEq'']
      exact composes.stopIn_eq feeds.symm consuming' (by omega) inside stopCut stopCut'
    rw [Piece.span, Piece.span, spanAt, spanAt, sameThrough, sameBefore]

theorem compose_coversStepwise_absorbed :
    (build [.replace "x".toList "12".toList "fold", .keep "y".toList]).1 = "12y".toList ∧
      CoversStepwise [.replace "x".toList "12".toList "fold", .keep "y".toList]
        [.absorb "1".toList "sep" .separator, .keep "2y".toList] :=
  ⟨by decide, compose_coversStepwise _ _ (by decide) (by unfold Fits; decide)
    (by unfold Fits; decide) (by unfold Fits; decide)⟩

/-- At `2 ^ 32` bytes the two maps of a kept text do not compose into a map that tells
where its first letter comes from. -/
theorem not_coversStepwise_wrapped :
    [Call.keep (List.replicate (2 ^ 32) 'a')].flatMap Call.source =
        (build [.keep (List.replicate (2 ^ 32) 'a')]).1 ∧
      ¬ CoversStepwise [.keep (List.replicate (2 ^ 32) 'a')]
        [.keep (List.replicate (2 ^ 32) 'a')] := by
  obtain ⟨text, textEq, width, length, -, feeds⟩ := exists_wrapped
  rw [textEq]
  refine ⟨feeds, ?_⟩
  rintro ⟨map, composed, -⟩
  rw [build_keep_wraps width length] at composed
  exact compose_wrapped _ composed

end AiCoreStack.Pii
