import AiCoreStack.Foundation.Pieces
import AiCoreStack.Foundation.Words
import AiCoreStack.Ocr.Segment

/-!
# Subtitle files

Model of `to_srt` in `emit.rs`, and a reader of the format that it writes.  A cue is a number
line, a time line and the lines of a text, up to the next blank line.  The writer copies the text
as it is, so a blank line of the text ends its cue.
-/

namespace AiCoreStack.Ocr

open AiCoreStack.Foundation

/-- `to_srt`. -/
def toSrt (segments : List Segment) : List Char :=
  segments.zipIdx.foldl
    (fun out (entry : Segment × Nat) =>
      let out := if 0 < entry.2 then out ++ ['\n'] else out
      let out := out ++ (Nat.toDigits 10 (entry.2 + 1) ++ ['\n'])
      let out := out ++ (entry.1.start.toSrt ++ " --> ".toList ++ entry.1.stop.toSrt ++ ['\n'])
      let out := out ++ entry.1.text
      out ++ ['\n'])
    []

/-! ## Reading -/

/-- Which lines count as blank: the empty one, and none with a digit. -/
structure BlankRule where
  blank : List Char → Bool
  empty : blank [] = true
  digit : ∀ {line : List Char} {c : Char}, c ∈ line → c.isDigit = true → blank line = false

/-- A cue of a subtitle file, with times in milliseconds. -/
structure Cue where
  number : Nat
  start : Nat
  stop : Nat
  text : List Char
  deriving DecidableEq

/-- A number line, a time line and the lines of a text. -/
def readCue : List (List Char) → Option Cue
  | number :: times :: lines => do
      let number ← readNumber number
      let (start, stop) ← splitOnce " --> ".toList times
      return ⟨number, ← readTime start, ← readTime stop, ['\n'].intercalate lines⟩
  | _ => none

namespace BlankRule

/-- Only the empty line is blank. -/
def emptyLine : BlankRule where
  blank := List.isEmpty
  empty := rfl
  digit member _ := List.isEmpty_eq_false_iff.mpr (List.ne_nil_of_mem member)

/-- A line of white space is blank. -/
def whiteLine : BlankRule where
  blank line := line.all isWhitespace
  empty := rfl
  digit member digit := List.all_eq_false.mpr ⟨_, member, by simp [not_isWhitespace_of_isDigit digit]⟩

variable (rule : BlankRule)

/-- Lines between blank lines. -/
def paragraphs (lines : List (List Char)) : List (List (List Char)) :=
  Pieces.filled (lines.splitOnP rule.blank)

/-- A subtitle file. -/
def readSrt (file : List Char) : Option (List Cue) :=
  (rule.paragraphs (file.splitOn '\n')).mapM readCue

end BlankRule

/-- The cue that stands for a segment. -/
def Cue.of (entry : Segment × Nat) : Cue :=
  ⟨entry.2 + 1, entry.1.start.millis.toNat, entry.1.stop.millis.toNat, entry.1.text⟩

/-- The cues that stand for some segments, numbered from one. -/
def cues (segments : List Segment) : List Cue := segments.zipIdx.map Cue.of

/-! ## Lines of the file -/

/-- The line with the times of a segment. -/
def timeLine (seg : Segment) : List Char := seg.start.toSrt ++ " --> ".toList ++ seg.stop.toSrt

/-- The lines of a cue, without the blank line in front. -/
def cueLines (entry : Segment × Nat) : List (List Char) :=
  Nat.toDigits 10 (entry.2 + 1) :: timeLine entry.1 :: entry.1.text.splitOn '\n'

/-- The lines that are written for a segment. -/
def writtenLines (entry : Segment × Nat) : List (List Char) :=
  (if 0 < entry.2 then [[]] else []) ++ cueLines entry

theorem mem_toSrt {t : Timestamp} {c : Char} (member : c ∈ t.toSrt) :
    c.isDigit = true ∨ c = ':' ∨ c = ',' := by
  simp only [Timestamp.toSrt, List.mem_append, List.mem_singleton] at member
  rcases member with (digit | colon) | (digit | colon) | (digit | comma) | digit
  · exact .inl (isDigit_of_mem_padded digit)
  · exact .inr (.inl colon)
  · exact .inl (isDigit_of_mem_padded digit)
  · exact .inr (.inl colon)
  · exact .inl (isDigit_of_mem_padded digit)
  · exact .inr (.inr comma)
  · exact .inl (isDigit_of_mem_padded digit)

theorem notMem_toSrt {c : Char} (digit : c.isDigit = false) (colon : c ≠ ':') (comma : c ≠ ',')
    (t : Timestamp) : c ∉ t.toSrt := by
  intro member
  rcases mem_toSrt member with isDigit | rfl | rfl
  · rw [isDigit] at digit
    cases digit
  · exact colon rfl
  · exact comma rfl

theorem exists_digit_toSrt (t : Timestamp) : ∃ c ∈ t.toSrt, c.isDigit = true := by
  have hours := le_length_padded 2 (t.millis / 1000 / 3600).toNat
  obtain ⟨c, member⟩ := List.exists_mem_of_length_pos (Nat.zero_lt_two.trans_le hours)
  refine ⟨c, ?_, isDigit_of_mem_padded member⟩
  exact List.mem_append_left _ (List.mem_append_left _ member)

theorem newline_notMem_timeLine (seg : Segment) : '\n' ∉ timeLine seg := by
  have time (t : Timestamp) : '\n' ∉ t.toSrt :=
    notMem_toSrt (by decide) (by decide) (by decide) t
  simp [timeLine, time]

/-- The lines in front of a line make up the whole text only if it is empty. -/
theorem eq_nil_of_intercalate {text line : List Char} {before after : List (List Char)}
    (split : text.splitOn '\n' = before ++ line :: after)
    (whole : ['\n'].intercalate before = text) : text = [] := by
  cases before with
  | nil => exact whole.symm
  | cons first before =>
      have flat : ∀ row ∈ first :: before, '\n' ∉ row := fun row member =>
        notMem_of_mem_splitOn (split ▸ List.mem_append_left _ member)
      have again := List.splitOn_intercalate '\n' flat (List.cons_ne_nil _ _)
      rw [whole, split] at again
      simpa using congrArg List.length again

theorem newline_notMem_writtenLines {entry : Segment × Nat} {line : List Char}
    (member : line ∈ writtenLines entry) : '\n' ∉ line := by
  rw [writtenLines, List.mem_append, cueLines, List.mem_cons, List.mem_cons] at member
  rcases member with separator | rfl | rfl | inText
  · split at separator
    · rw [List.mem_singleton.mp separator]
      exact List.not_mem_nil
    · cases separator
  · exact notMem_toDigits (by decide) _
  · exact newline_notMem_timeLine _
  · exact notMem_of_mem_splitOn inText

theorem toSrt_eq (segments : List Segment) :
    toSrt segments =
      (segments.zipIdx.flatMap writtenLines).flatMap fun line => line ++ ['\n'] := by
  have step (out : List Char) (entry : Segment × Nat) :
      (if 0 < entry.2 then out ++ ['\n'] else out) ++ (Nat.toDigits 10 (entry.2 + 1) ++ ['\n']) ++
          (timeLine entry.1 ++ ['\n']) ++ entry.1.text ++ ['\n'] =
        out ++ (writtenLines entry).flatMap fun line => line ++ ['\n'] := by
    rw [writtenLines, List.flatMap_append, cueLines, List.flatMap_cons, List.flatMap_cons,
      flatMap_splitOn]
    split <;> simp
  have written : toSrt segments = segments.zipIdx.foldl
      (fun out entry => out ++ (writtenLines entry).flatMap fun line => line ++ ['\n']) [] :=
    congrFun (congrFun (congrArg List.foldl (funext fun out => funext fun entry =>
      step out entry)) []) segments.zipIdx
  rw [written, List.foldl_append_eq_append, List.nil_append, List.flatMap_assoc, List.flatMap_def]

theorem splitOn_toSrt (segments : List Segment) :
    (toSrt segments).splitOn '\n' = segments.zipIdx.flatMap writtenLines ++ [[]] := by
  rw [toSrt_eq, splitOn_flatMap]
  intro line member
  obtain ⟨entry, -, inside⟩ := List.mem_flatMap.mp member
  exact newline_notMem_writtenLines inside

/-! ## Paragraphs of the file -/

theorem splitOnce_timeLine (seg : Segment) :
    splitOnce " --> ".toList (timeLine seg) = some (seg.start.toSrt, seg.stop.toSrt) :=
  splitOnce_of_head_not_mem (notMem_toSrt (by decide) (by decide) (by decide) seg.start)

theorem readCue_lines (entry : Segment × Nat) (lines : List (List Char)) :
    readCue (Nat.toDigits 10 (entry.2 + 1) :: timeLine entry.1 :: lines) =
      some { Cue.of entry with text := ['\n'].intercalate lines } := by
  rw [readCue, readNumber_toDigits, splitOnce_timeLine]
  simp only [Option.bind_eq_bind, Option.bind_some, readTime_toSrt]
  rfl

namespace BlankRule

variable {rule : BlankRule}

theorem paragraphs_cons {line : List Char} (isBlank : rule.blank line = true)
    (lines : List (List Char)) : rule.paragraphs (line :: lines) = rule.paragraphs lines := by
  have split := List.splitOnP_append_cons [] lines isBlank
  rw [List.nil_append, List.splitOnP_nil] at split
  rw [paragraphs, split, Pieces.filled_append]
  rfl

theorem paragraphs_append {paragraph : List (List Char)} (nonempty : paragraph ≠ [])
    (solid : ∀ line ∈ paragraph, rule.blank line = false) {line : List Char}
    (isBlank : rule.blank line = true) (lines : List (List Char)) :
    rule.paragraphs (paragraph ++ line :: lines) = paragraph :: rule.paragraphs lines := by
  rw [paragraphs, List.splitOnP_append_cons_of_forall_mem solid _ isBlank, Pieces.filled,
    List.filter_cons_of_pos (by simpa using nonempty)]
  rfl

/-- The number line and the time line are not blank. -/
theorem solid_header (entry : Segment × Nat) {lines : List (List Char)}
    (solid : ∀ line ∈ lines, rule.blank line = false) :
    ∀ line ∈ Nat.toDigits 10 (entry.2 + 1) :: timeLine entry.1 :: lines,
      rule.blank line = false := by
  refine List.forall_mem_cons.mpr ⟨?_, List.forall_mem_cons.mpr ⟨?_, solid⟩⟩
  · obtain ⟨c, member⟩ := List.exists_mem_of_ne_nil _ (Nat.toDigits_ne_nil (n := entry.2 + 1))
    exact rule.digit member (Nat.isDigit_of_mem_toDigits (by decide) (by decide) member)
  · obtain ⟨c, member, digit⟩ := exists_digit_toSrt entry.1.start
    exact rule.digit (List.mem_append_left _ (List.mem_append_left _ member)) digit

/-- The text of a segment is read back as it is. -/
def Keeps (rule : BlankRule) (text : List Char) : Prop :=
  text = [] ∨ ∀ line ∈ text.splitOn '\n', rule.blank line = false

theorem exists_tail_writtenLines (segments : List Segment) (i : Nat) :
    ∃ tail, (segments.zipIdx (i + 1)).flatMap writtenLines ++ [[]] = [] :: tail := by
  cases segments with
  | nil => exact ⟨[], rfl⟩
  | cons seg segments =>
      refine ⟨cueLines (seg, i + 1) ++ ((segments.zipIdx (i + 2)).flatMap writtenLines ++ [[]]), ?_⟩
      rw [List.zipIdx_cons, List.flatMap_cons, writtenLines, if_pos (Nat.succ_pos i),
        List.append_assoc, List.append_assoc]
      rfl

theorem paragraphs_writtenLines (entry : Segment × Nat) (lines : List (List Char)) :
    rule.paragraphs (writtenLines entry ++ lines) = rule.paragraphs (cueLines entry ++ lines) := by
  rw [writtenLines]
  split
  · exact paragraphs_cons rule.empty _
  · rfl

/-- A cue ends with the first blank line behind its times. -/
theorem mapM_readCue (entry : Segment × Nat) {lines : List (List Char)}
    (solid : ∀ line ∈ lines, rule.blank line = false) {line : List Char}
    (isBlank : rule.blank line = true) (rest : List (List Char)) (later : List Cue) :
    (rule.paragraphs (Nat.toDigits 10 (entry.2 + 1) :: timeLine entry.1 ::
        (lines ++ line :: rest))).mapM readCue = some (Cue.of entry :: later) ↔
      ['\n'].intercalate lines = entry.1.text ∧
        (rule.paragraphs rest).mapM readCue = some later := by
  have paragraph := paragraphs_append (List.cons_ne_nil _ _) (solid_header entry solid) isBlank rest
  rw [List.cons_append, List.cons_append] at paragraph
  rw [paragraph, List.mapM_cons, readCue_lines, Option.bind_eq_bind, Option.bind_some,
    Option.bind_eq_bind, Option.bind_eq_some_iff]
  constructor
  · rintro ⟨found, read, same⟩
    obtain ⟨first, rfl⟩ := List.cons.inj (Option.some.inj same)
    exact ⟨congrArg Cue.text first, read⟩
  · rintro ⟨whole, read⟩
    refine ⟨later, read, ?_⟩
    rw [whole]
    rfl

/-- What is read of the lines that are written from one segment on. -/
theorem read_writtenLines (segments : List Segment) (i : Nat) :
    (rule.paragraphs ((segments.zipIdx i).flatMap writtenLines ++ [[]])).mapM readCue =
        some ((segments.zipIdx i).map Cue.of) ↔
      ∀ seg ∈ segments, rule.Keeps seg.text := by
  induction segments generalizing i with
  | nil =>
      rw [List.zipIdx_nil, List.flatMap_nil, List.nil_append, rule.paragraphs_cons rule.empty]
      simp [paragraphs, Pieces.filled]
  | cons seg segments ih =>
      obtain ⟨tail, behind⟩ := exists_tail_writtenLines segments i
      have later := ih (i + 1)
      rw [behind, paragraphs_cons rule.empty] at later
      rw [List.zipIdx_cons, List.flatMap_cons, List.append_assoc, behind, paragraphs_writtenLines,
        List.map_cons, List.forall_mem_cons, cueLines, List.cons_append, List.cons_append]
      cases found : (seg.text.splitOn '\n').find? rule.blank with
      | none =>
          have solid : ∀ line ∈ seg.text.splitOn '\n', rule.blank line = false := by
            simpa using found
          rw [mapM_readCue (seg, i) solid rule.empty tail, List.intercalate_splitOn, later]
          exact and_congr_left fun _ => iff_of_true rfl (.inr solid)
      | some line =>
          obtain ⟨isBlank, before, after, split, solid⟩ := List.find?_eq_some_iff_append.mp found
          have solid : ∀ line ∈ before, rule.blank line = false := by simpa using solid
          rw [split, List.append_assoc, List.cons_append, mapM_readCue (seg, i) solid isBlank]
          by_cases empty : seg.text = []
          · rw [empty, List.splitOn_nil] at split
            obtain ⟨rfl, single⟩ | ⟨_, -, none⟩ := List.cons_eq_append_iff.mp split
            · obtain ⟨rfl, rfl⟩ := List.cons.inj single
              rw [List.nil_append, paragraphs_cons rule.empty, later]
              exact and_congr_left fun _ => iff_of_true empty.symm (.inl empty)
            · cases (List.append_eq_nil_iff.mp none.symm).2
          · have shorter : ['\n'].intercalate before ≠ seg.text := fun whole =>
              empty (eq_nil_of_intercalate split whole)
            refine iff_of_false (fun both => shorter both.1) fun both => ?_
            have kept := both.1.resolve_left empty line (by simp [split])
            rw [isBlank] at kept
            cases kept

end BlankRule

/-- Times are read back, and a subtitle file is read back exactly when no line of a text is
blank; an empty text is no harm. -/
theorem readSrt_toSrt_iff (rule : BlankRule) (segments : List Segment) :
    (∀ t : Timestamp, readTime t.toSrt = some t.millis.toNat) ∧
      (rule.readSrt (toSrt segments) = some (cues segments) ↔
        ∀ seg ∈ segments, seg.text = [] ∨
          ∀ line ∈ seg.text.splitOn '\n', rule.blank line = false) := by
  refine ⟨readTime_toSrt, ?_⟩
  rw [BlankRule.readSrt, splitOn_toSrt]
  exact BlankRule.read_writtenLines segments 0

/-- A subtitle with a blank line, and what looks like a cue behind it. -/
def forged : Segment :=
  ⟨⟨1200⟩, ⟨3800⟩, "a\n\n2\n00:00:05,000 --> 00:00:06,000\nb".toList⟩

/-- One segment is read back as two cues. -/
theorem readSrt_toSrt_forged :
    forged.text ≠ [] ∧
      BlankRule.emptyLine.readSrt (toSrt [forged]) = some
        [⟨1, 1200, 3800, "a".toList⟩, ⟨2, 5000, 6000, "b".toList⟩] ∧
      BlankRule.emptyLine.readSrt (toSrt [forged]) ≠ some (cues [forged]) ∧
      BlankRule.whiteLine.readSrt (toSrt [forged]) ≠ some (cues [forged]) := by
  decide +kernel

end AiCoreStack.Ocr
