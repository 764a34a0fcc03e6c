import AiCoreStack.Foundation.Words
import AiCoreStack.Markdown.Renderer

/-!
# Fenced code

A rendered code block against a reader of fences.  Lines end at line feeds only: a carriage
return is a character of its line.  A block ends at the first line that is a fence of at least
the width of the opening one.  The renderer writes four backticks when the
code has three in a row, however many there are.
-/

namespace AiCoreStack.Markdown

open AiCoreStack.Foundation

/-! ## The reader -/

/-- Whether a line, cut at line feeds, closes a fence of a width: at most three spaces, at least
as many backticks, and only spaces behind them. -/
def closes (width : Nat) (line : List Char) : Bool :=
  let ticks := line.dropWhile (· == ' ')
  (line.takeWhile (· == ' ')).length ≤ 3 ∧ width ≤ (ticks.takeWhile (· == '\x60')).length ∧
    (ticks.dropWhile (· == '\x60')).all (· == ' ')

/-- A block as it is read, with the lines behind its closing fence. -/
structure Fenced where
  info : List Char
  code : List Char
  behind : List (List Char)
  deriving DecidableEq

/-- Read a block that starts with the first line of a text, where a line feed and nothing else
ends a line.  A block that is not closed is not read. -/
def readFence (text : List Char) : Option Fenced :=
  match feedLines text with
  | [] => none
  | opening :: rest =>
      let width := (opening.takeWhile (· == '\x60')).length
      let info := opening.dropWhile (· == '\x60')
      if width < 3 ∨ '\x60' ∈ info then none
      else
        match rest.dropWhile fun line => !closes width line with
        | [] => none
        | _ :: behind =>
            some
              { info := info
                code := ['\n'].intercalate (rest.takeWhile fun line => !closes width line)
                behind := behind }

/-- The code of a block is read without the line feeds at its end, and nothing stands behind
the block. -/
def CodeSurvives (lang : Option (List Char)) (code : List Char) : Prop :=
  readFence (renderBlock (.codeBlock lang code)) =
    some ⟨lang.getD [], code.rdropWhile (· == '\n'), []⟩

instance (lang : Option (List Char)) (code : List Char) : Decidable (CodeSurvives lang code) :=
  inferInstanceAs (Decidable (_ = _))

/-! ## Reading between fences -/

theorem closes_ticks (width : Nat) : closes width (List.replicate width '\x60') = true := by
  cases width with
  | zero => rfl
  | succ width => simp [closes, List.replicate_succ]

theorem not_closes_nil {width : Nat} (wide : 0 < width) : closes width [] = false := by
  simp only [closes, List.dropWhile_nil, List.takeWhile_nil, List.length_nil, Nat.le_zero]
  simp [wide.ne']

theorem feedLines_written {width : Nat} {lang : List Char} (plain : ∀ c ∈ lang, c ≠ '\n')
    (code : List Char) :
    feedLines (List.replicate width '\x60' ++ lang ++ '\n' :: code ++ '\n' ::
        List.replicate width '\x60' ++ ['\n']) =
      (List.replicate width '\x60' ++ lang) ::
        (code.splitOn '\n' ++ [List.replicate width '\x60']) := by
  have ticks : '\n' ∉ List.replicate width '\x60' := by simp
  have opening : '\n' ∉ List.replicate width '\x60' ++ lang := by
    rw [List.mem_append, not_or]
    exact ⟨ticks, fun member => plain _ member rfl⟩
  rw [feedLines_snoc, List.splitOn_append_cons_self, List.splitOn_append_cons_self,
    List.splitOn_eq_singleton opening, List.splitOn_eq_singleton ticks]
  rfl

/-- The lines in front of a closing fence are the code exactly when none of them closes. -/
theorem readFence_written {width : Nat} (wide : 3 ≤ width) {lang : List Char}
    (plain : ∀ c ∈ lang, c ≠ '\x60' ∧ c ≠ '\n') (code : List Char) :
    readFence (List.replicate width '\x60' ++ lang ++ '\n' :: code ++ '\n' ::
        List.replicate width '\x60' ++ ['\n']) = some ⟨lang, code, []⟩ ↔
      ∀ line ∈ code.splitOn '\n', closes width line = false := by
  have info : lang.takeWhile (· == '\x60') = [] ∧ lang.dropWhile (· == '\x60') = lang := by
    cases lang with
    | nil => exact ⟨rfl, rfl⟩
    | cons c lang => simp [(plain c List.mem_cons_self).1]
  have ticks : ∀ c ∈ List.replicate width '\x60', (c == '\x60') = true := by
    intro c member
    rw [List.eq_of_mem_replicate member]
    rfl
  have noTick : '\x60' ∉ lang := fun member => (plain _ member).1 rfl
  rw [readFence, feedLines_written fun c member => (plain c member).2]
  simp only [List.takeWhile_append_of_pos ticks, List.dropWhile_append_of_pos ticks, info,
    List.append_nil, List.length_replicate, noTick, or_false, Nat.not_lt.mpr wide, if_false]
  constructor
  · intro read
    by_contra closing
    push Not at closing
    obtain ⟨line, member, closing⟩ := closing
    -- the closing fence of the renderer is left behind the first line that closes
    have stops : (code.splitOn '\n').dropWhile (fun line => !closes width line) ≠ [] := by
      intro none
      have passed := List.dropWhile_eq_nil_iff.mp none line member
      exact closing (by simpa using passed)
    obtain ⟨first, behind, dropped⟩ := List.exists_cons_of_ne_nil stops
    rw [List.dropWhile_append, dropped] at read
    simp at read
  · intro open_
    have kept : ∀ line ∈ code.splitOn '\n', (!closes width line) = true := by
      intro line member
      rw [open_ line member]
      rfl
    rw [List.takeWhile_append_of_pos kept, List.dropWhile_append_of_pos kept]
    simp [closes_ticks, List.intercalate_splitOn]

/-! ## The rendered block -/

/-- A line that closes a fence holds the fence. -/
theorem infix_of_closes {width : Nat} {line : List Char} (closing : closes width line = true) :
    List.replicate width '\x60' <:+: line := by
  simp only [closes, Bool.decide_and, Bool.and_eq_true, decide_eq_true_eq] at closing
  have ticks : (line.dropWhile (· == ' ')).takeWhile (· == '\x60') =
      List.replicate ((line.dropWhile (· == ' ')).takeWhile (· == '\x60')).length '\x60' := by
    apply List.eq_replicate_of_mem
    intro c member
    simpa using List.mem_takeWhile_imp member
  have front : List.replicate width '\x60' <+:
      (line.dropWhile (· == ' ')).takeWhile (· == '\x60') := by
    rw [ticks, ← Nat.add_sub_cancel' closing.2.1, List.replicate_add]
    exact List.prefix_append _ _
  exact (front.trans (List.takeWhile_prefix _)).isInfix.trans (List.dropWhile_suffix _).isInfix

theorem closes_mono {narrow width : Nat} (le : narrow ≤ width) {line : List Char}
    (closing : closes width line = true) : closes narrow line = true := by
  simp only [closes, Bool.decide_and, Bool.and_eq_true, decide_eq_true_eq] at closing ⊢
  exact ⟨closing.1, le.trans closing.2.1, closing.2.2⟩

theorem pickFence_eq (code : List Char) :
    pickFence code = List.replicate (if "```".toList <:+: code then 4 else 3) '\x60' := by
  rw [pickFence]
  split <;> rfl

/-- Line feeds at the end do not close a fence. -/
theorem closes_rdropWhile {width : Nat} (wide : 0 < width) (code : List Char) :
    (∀ line ∈ (code.rdropWhile (· == '\n')).splitOn '\n', closes width line = false) ↔
      ∀ line ∈ code.splitOn '\n', closes width line = false := by
  obtain ⟨count, pieces⟩ := splitOn_rdropWhile code
  rw [pieces, List.forall_mem_append]
  refine (and_iff_left fun line member => ?_).symm
  rw [List.eq_of_mem_replicate member, not_closes_nil wide]

/-- A code block survives exactly when none of its lines closes a fence of four backticks. -/
theorem codeSurvives_iff (lang : Option (List Char))
    (plain : ∀ c ∈ lang.getD [], c ≠ '\x60' ∧ isWhitespace c = false) (code : List Char) :
    CodeSurvives lang code ↔ ∀ line ∈ code.splitOn '\n', closes 4 line = false := by
  have wordy : ∀ c ∈ lang.getD [], c ≠ '\x60' ∧ c ≠ '\n' := by
    intro c member
    refine ⟨(plain c member).1, ?_⟩
    rintro rfl
    exact absurd (plain _ member).2 (by decide)
  have narrow (absent : ¬ "```".toList <:+: code) (width : Nat) (wide : 3 ≤ width) :
      ∀ line ∈ code.splitOn '\n', closes width line = false := by
    intro line member
    by_contra closing
    have closing := closes_mono wide (by simpa using closing)
    exact absent ((infix_of_closes closing).trans (infix_of_mem_splitOn member))
  rw [CodeSurvives, renderBlock, pickFence_eq]
  split
  next present =>
    rw [readFence_written (by decide) wordy, closes_rdropWhile (by decide)]
  next absent =>
    rw [readFence_written le_rfl wordy, closes_rdropWhile (by decide)]
    exact iff_of_true (narrow absent 3 le_rfl) (narrow absent 4 (by decide))

/-- Code with three backticks on a line of its own. -/
theorem codeSurvives_nested :
    CodeSurvives (some "md".toList) "```\na\n```\n".toList :=
  (codeSurvives_iff (some "md".toList) (by simp [isWhitespace]) _).mpr (by decide)

/-- Code with four backticks on a line of its own. -/
theorem not_codeSurvives_fourTicks :
    (∀ c ∈ (none : Option (List Char)).getD [], c ≠ '\x60' ∧ isWhitespace c = false) ∧
      ¬ CodeSurvives none "````".toList :=
  ⟨by simp, by decide⟩

end AiCoreStack.Markdown
