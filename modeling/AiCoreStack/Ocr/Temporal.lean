import AiCoreStack.Foundation.CheckedBuffers
import AiCoreStack.Foundation.Scalar
import AiCoreStack.Ocr.Segment

/-!
# Temporal merging

Model of `temporal.rs`.  The similarity of two texts is a parameter: nothing that is proved here
depends on what it measures.  The text of an open segment changes as longer readings arrive, so
the readings of one segment are related to the first longest reading before each of them.
-/

namespace AiCoreStack.Ocr

open AiCoreStack.Foundation

section Model

variable {α : Type} [Scalar α]

/-- `TemporalMerger`; `current` is the field `open`. -/
structure TemporalMerger (α : Type) where
  current : Option Segment
  simThreshold : α

/-- A segment that another frame prolongs: it ends with the frame, and has the fuller text. -/
def Segment.prolong (seg : Segment) (t : Timestamp) (text : List Char) : Segment :=
  { seg with
    stop := t
    text := if seg.text.length < text.length then text else seg.text }

namespace TemporalMerger

/-- `TemporalMerger::new`. -/
def new (simThreshold : α) : TemporalMerger α := ⟨none, simThreshold⟩

variable (similarity : List Char → List Char → α)

/-- `TemporalMerger::push`: the segment returned, and the merger after the call. -/
def push (merger : TemporalMerger α) (t : Timestamp) (text : List Char) :
    Option Segment × TemporalMerger α :=
  match merger.current with
  | some seg =>
      if Scalar.le merger.simThreshold (similarity seg.text text) then
        (none, { merger with current := some (seg.prolong t text) })
      else (some seg, { merger with current := some (Segment.new t text) })
  | none => (none, { merger with current := some (Segment.new t text) })

/-- `TemporalMerger::finish`. -/
def finish (merger : TemporalMerger α) : Option Segment × TemporalMerger α :=
  (merger.current, { merger with current := none })

/-- A sequence of calls of `push`: the segments returned, and the merger after the last call. -/
def pushes (merger : TemporalMerger α) : List (Timestamp × List Char) →
    List Segment × TemporalMerger α
  | [] => ([], merger)
  | (t, text) :: frames =>
      let pushed := merger.push similarity t text
      let rest := pushed.2.pushes frames
      (pushed.1.toList ++ rest.1, rest.2)

/-- A sequence of calls of `push`, and `finish`. -/
def stream (merger : TemporalMerger α) (frames : List (Timestamp × List Char)) :
    List Segment × TemporalMerger α :=
  let pushed := merger.pushes similarity frames
  let finished := pushed.2.finish
  (pushed.1 ++ finished.1.toList, finished.2)

end TemporalMerger

end Model

/-! ## Runs of readings -/

/-- The first longest of some texts. -/
def firstLongest (texts : List (List Char)) : Option (List Char) := texts.argmax List.length

theorem firstLongest_concat (texts : List (List Char)) (text : List Char) :
    firstLongest (texts ++ [text]) = some (match firstLongest texts with
      | some best => if best.length < text.length then text else best
      | none => text) := by
  rw [firstLongest, List.argmax_concat, firstLongest]
  cases List.argmax List.length texts with
  | none => rfl
  | some best => exact (apply_ite some _ _ _).symm

section Runs

variable {α : Type} [Scalar α] (similarity : List Char → List Char → α) (simThreshold : α)

/-- What a segment says of the run of frames that it stands for. -/
structure Covers (run : List (Timestamp × List Char)) (seg : Segment) : Prop where
  first : run.head?.map Prod.fst = some seg.start
  last : run.getLast?.map Prod.fst = some seg.stop
  longest : firstLongest (run.map Prod.snd) = some seg.text
  /-- Every later frame of the run is similar to the first longest text before it. -/
  similar : ∀ before frame after text, run = before ++ frame :: after →
    firstLongest (before.map Prod.snd) = some text →
    Scalar.le simThreshold (similarity text frame.2) = true

/-- The first text of the next run is not similar to the first longest text of this one. -/
def Switches (run next : List (Timestamp × List Char)) : Prop :=
  ∀ text frame, firstLongest (run.map Prod.snd) = some text → next.head? = some frame →
    ¬ Scalar.le simThreshold (similarity text frame.2) = true

variable {similarity simThreshold}

theorem Covers.ne_nil {run : List (Timestamp × List Char)} {seg : Segment}
    (covers : Covers similarity simThreshold run seg) : run ≠ [] := by
  rintro rfl
  exact absurd covers.first (by simp)

theorem Covers.new (frame : Timestamp × List Char) :
    Covers similarity simThreshold [frame] (Segment.new frame.1 frame.2) where
  first := rfl
  last := rfl
  longest := rfl
  similar before next after text split found := by
    obtain ⟨rfl, -⟩ | ⟨_, -, none⟩ := List.cons_eq_append_iff.mp split
    · cases found
    · cases (List.append_eq_nil_iff.mp none.symm).2

/-- A similar frame extends the run of a segment. -/
theorem Covers.prolong {run : List (Timestamp × List Char)} {seg : Segment}
    (covers : Covers similarity simThreshold run seg) {frame : Timestamp × List Char}
    (similar : Scalar.le simThreshold (similarity seg.text frame.2) = true) :
    Covers similarity simThreshold (run ++ [frame]) (seg.prolong frame.1 frame.2) where
  first := by
    rw [List.head?_append_of_ne_nil _ covers.ne_nil]
    exact covers.first
  last := by
    rw [List.getLast?_concat]
    rfl
  longest := by
    rw [List.map_append, List.map_singleton, firstLongest_concat, covers.longest]
    rfl
  similar before next after text split found := by
    obtain rfl | ⟨after, last, rfl⟩ := List.eq_nil_or_concat' after
    · obtain ⟨rfl, same⟩ := List.append_inj' split rfl
      rw [covers.longest, Option.some_inj] at found
      rw [← (List.cons.inj same).1, ← found]
      exact similar
    · rw [← List.cons_append, ← List.append_assoc] at split
      exact covers.similar before next after text (List.append_inj' split rfl).1 found

end Runs

/-! ## The stream -/

section Stream

variable {α : Type} [Scalar α] {similarity : List Char → List Char → α}

namespace TemporalMerger

theorem push_of_similar {merger : TemporalMerger α} {seg : Segment}
    (current : merger.current = some seg) {frame : Timestamp × List Char}
    (similar : Scalar.le merger.simThreshold (similarity seg.text frame.2) = true) :
    merger.push similarity frame.1 frame.2 =
      (none, { merger with current := some (seg.prolong frame.1 frame.2) }) := by
  rw [push, current]
  exact if_pos similar

theorem push_of_differs {merger : TemporalMerger α} {seg : Segment}
    (current : merger.current = some seg) {frame : Timestamp × List Char}
    (differs : ¬ Scalar.le merger.simThreshold (similarity seg.text frame.2) = true) :
    merger.push similarity frame.1 frame.2 =
      (some seg, { merger with current := some (Segment.new frame.1 frame.2) }) := by
  rw [push, current]
  exact if_neg differs

theorem stream_nil (merger : TemporalMerger α) :
    merger.stream similarity [] = (merger.current.toList, { merger with current := none }) := rfl

theorem stream_cons (merger : TemporalMerger α) (frame : Timestamp × List Char)
    (frames : List (Timestamp × List Char)) :
    merger.stream similarity (frame :: frames) =
      ((merger.push similarity frame.1 frame.2).1.toList ++
        ((merger.push similarity frame.1 frame.2).2.stream similarity frames).1,
        ((merger.push similarity frame.1 frame.2).2.stream similarity frames).2) := by
  simp only [stream, pushes, List.append_assoc]

/-- What the calls that follow return, when the open segment stands for a run: it is the first to
be returned, with this run or a longer one. -/
theorem stream_of_covers (merger : TemporalMerger α) {seg : Segment}
    (current : merger.current = some seg) {run : List (Timestamp × List Char)}
    (covers : Covers similarity merger.simThreshold run seg)
    (frames : List (Timestamp × List Char)) :
    ∃ more rest, more ++ rest.flatten = frames ∧
      List.Forall₂ (Covers similarity merger.simThreshold) ((run ++ more) :: rest)
        (merger.stream similarity frames).1 ∧
      ((run ++ more) :: rest).IsChain (Switches similarity merger.simThreshold) := by
  induction frames generalizing merger seg run with
  | nil =>
      refine ⟨[], [], rfl, ?_, List.isChain_singleton _⟩
      rw [stream_nil, current, List.append_nil]
      exact .cons covers .nil
  | cons frame frames ih =>
      rw [stream_cons]
      by_cases similar : Scalar.le merger.simThreshold (similarity seg.text frame.2) = true
      · rw [push_of_similar current similar]
        obtain ⟨more, rest, split, all, chain⟩ :=
          ih { merger with current := some _ } rfl (covers.prolong similar)
        rw [List.append_assoc, List.singleton_append] at all chain
        exact ⟨frame :: more, rest, by rw [List.cons_append, split], all, chain⟩
      · rw [push_of_differs current similar]
        obtain ⟨more, rest, split, all, chain⟩ :=
          ih { merger with current := some _ } rfl (Covers.new frame)
        refine ⟨[], ([frame] ++ more) :: rest, ?_, ?_, ?_⟩
        · rw [List.nil_append, List.flatten_cons, List.append_assoc, split, List.singleton_append]
        · rw [List.append_nil]
          exact .cons covers all
        · rw [List.append_nil]
          refine List.isChain_cons_cons.mpr ⟨?_, chain⟩
          intro text next found first
          rw [covers.longest, Option.some_inj] at found
          rw [← found, ← Option.some_inj.mp first]
          exact similar

theorem snd_stream (merger : TemporalMerger α) (frames : List (Timestamp × List Char)) :
    (merger.stream similarity frames).2 = TemporalMerger.new merger.simThreshold := by
  induction frames generalizing merger with
  | nil => rfl
  | cons frame frames ih =>
      have kept : (merger.push similarity frame.1 frame.2).2.simThreshold =
          merger.simThreshold := by
        rw [push]
        split
        · split <;> rfl
        · rfl
      rw [stream_cons, ih, kept]

end TemporalMerger

/-! ## Times -/

theorem Covers.exists_first {simThreshold : α} {run : List (Timestamp × List Char)} {seg : Segment}
    (covers : Covers similarity simThreshold run seg) : ∃ frame ∈ run, frame.1 = seg.start := by
  obtain ⟨frame, found, same⟩ := Option.map_eq_some_iff.mp covers.first
  exact ⟨frame, List.mem_of_mem_head? found, same⟩

theorem Covers.exists_last {simThreshold : α} {run : List (Timestamp × List Char)} {seg : Segment}
    (covers : Covers similarity simThreshold run seg) : ∃ frame ∈ run, frame.1 = seg.stop := by
  obtain ⟨frame, found, same⟩ := Option.map_eq_some_iff.mp covers.last
  exact ⟨frame, List.mem_of_mem_getLast? found, same⟩

theorem Covers.start_le_stop {simThreshold : α} {run : List (Timestamp × List Char)}
    {seg : Segment} (covers : Covers similarity simThreshold run seg)
    (times : run.Pairwise fun left right => left.1 ≤ right.1) : seg.start ≤ seg.stop := by
  obtain ⟨frame, found, starts⟩ := Option.map_eq_some_iff.mp covers.first
  obtain ⟨rest, rfl⟩ := List.head?_eq_some_iff.mp found
  obtain ⟨final, inside, ends⟩ := covers.exists_last
  rw [← starts, ← ends]
  obtain rfl | inside := List.mem_cons.mp inside
  · exact UInt64.le_refl _
  · exact (List.pairwise_cons.mp times).1 final inside

/-- What holds of the times of any two frames in order holds between the end of a segment and the
start of a later one. -/
theorem pairwise_of_covers {simThreshold : α} {runs : List (List (Timestamp × List Char))}
    {segments : List Segment} (all : List.Forall₂ (Covers similarity simThreshold) runs segments)
    {related : Timestamp → Timestamp → Prop}
    (times : runs.flatten.Pairwise fun left right => related left.1 right.1) :
    segments.Pairwise fun left right => related left.stop right.start := by
  refine List.pairwise_iff_forall_sublist.mpr fun {left right} inOrder => ?_
  obtain ⟨run, next, sub, covers, nextCovers⟩ := exists_pair_beside (List.Forall₂.flip all) inOrder
  have across := List.pairwise_iff_forall_sublist.mp (List.pairwise_flatten.mp times).2 sub
  obtain ⟨final, inRun, ends⟩ := covers.exists_last
  obtain ⟨frame, inNext, starts⟩ := nextCovers.exists_first
  rw [← ends, ← starts]
  exact across final inRun frame inNext

/-- The segments that are returned stand for a partition of the frames into runs, in order. -/
theorem TemporalMerger.stream_partitions (similarity : List Char → List Char → α)
    (simThreshold : α) (frames : List (Timestamp × List Char)) :
    ∃ segments, (TemporalMerger.new simThreshold).stream similarity frames =
        (segments, TemporalMerger.new simThreshold) ∧
      (∃ runs, runs.flatten = frames ∧ [] ∉ runs ∧
        List.Forall₂ (Covers similarity simThreshold) runs segments ∧
        runs.IsChain (Switches similarity simThreshold)) ∧
      ((frames.Pairwise fun left right => left.1 ≤ right.1) →
        (∀ seg ∈ segments, seg.start ≤ seg.stop) ∧
        segments.Pairwise fun left right => left.stop ≤ right.start) ∧
      ((frames.Pairwise fun left right => left.1 < right.1) →
        segments.Pairwise fun left right => left.stop < right.start) := by
  have runs : ∃ runs, runs.flatten = frames ∧
      List.Forall₂ (Covers similarity simThreshold) runs
        ((TemporalMerger.new simThreshold).stream similarity frames).1 ∧
      runs.IsChain (Switches similarity simThreshold) := by
    cases frames with
    | nil => exact ⟨[], rfl, .nil, .nil⟩
    | cons frame frames =>
        have opened : (TemporalMerger.new simThreshold).push similarity frame.1 frame.2 =
            (none, ⟨some (Segment.new frame.1 frame.2), simThreshold⟩) := rfl
        obtain ⟨more, rest, split, all, chain⟩ := TemporalMerger.stream_of_covers
          ⟨some _, simThreshold⟩ rfl (Covers.new frame) frames
        refine ⟨([frame] ++ more) :: rest, ?_, ?_, chain⟩
        · rw [List.flatten_cons, List.append_assoc, split, List.singleton_append]
        · rw [TemporalMerger.stream_cons, opened]
          exact all
  obtain ⟨runs, split, all, chain⟩ := runs
  refine ⟨_, Prod.ext rfl (TemporalMerger.snd_stream _ frames),
    ⟨runs, split, fun empty => ?_, all, chain⟩, fun times => ⟨fun seg member => ?_, ?_⟩,
    fun times => ?_⟩
  · obtain ⟨seg, -, covers⟩ := exists_beside all empty
    exact covers.ne_nil rfl
  · obtain ⟨run, inside, covers⟩ := exists_beside (List.Forall₂.flip all) member
    rw [← split] at times
    exact Covers.start_le_stop covers ((List.pairwise_flatten.mp times).1 run inside)
  · exact pairwise_of_covers all (split ▸ times)
  · exact pairwise_of_covers all (split ▸ times)

/-- A fuller reading of the same subtitle replaces the text, another subtitle closes the segment. -/
example : ((TemporalMerger.new (.fin (4 / 5) : Exact)).stream
    (fun seen text => if seen.take 2 = text.take 2 then .fin 1 else .fin 0)
    [(⟨0⟩, "hi there".toList), (⟨100⟩, "hi there!".toList), (⟨200⟩, "goodbye".toList)]).1 =
    [⟨⟨0⟩, ⟨100⟩, "hi there!".toList⟩, ⟨⟨200⟩, ⟨200⟩, "goodbye".toList⟩] := by
  decide +kernel

end Stream

end AiCoreStack.Ocr
