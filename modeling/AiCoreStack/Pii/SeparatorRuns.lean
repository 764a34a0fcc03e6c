import AiCoreStack.Foundation.Groups
import AiCoreStack.Pii.SentenceEnding

/-!
# Runs of separators between digits

The separator pass deletes exactly the maximal runs of separators that have a digit or a
mask on either side.  Its walk is laid open as builder calls; each deleted run leaves
consecutive deletions whose costs count its characters, and a text without such a run
passes through unchanged.
-/

namespace AiCoreStack.Pii.Separator

open AiCoreStack.Foundation
open AiCoreStack.Foundation.Alignment (Atom keeps append_eq_append_cons)
open String (utf8Len)

/-! ## What is deleted -/

/-- A maximal run of separators with a digit in front of it and behind it. -/
structure Absorbable (left run right : List Char) : Prop where
  nonempty : run ≠ []
  separators : ∀ c ∈ run, isSeparator c = true
  front : left.getLast?.any isDigitLike = true
  back : right.head?.any isDigitLike = true

/-- The nearest character that is no separator stands for a digit. -/
def facesDigit (side : List Char) : Bool :=
  (side.find? fun c => !isSeparator c).any isDigitLike

/-- Whether a character belongs to a run of separators between digits.  The text in front
of it is given in reverse. -/
def between (before : List Char) (c : Char) (after : List Char) : Bool :=
  isSeparator c && facesDigit before && facesDigit after

/-- The text without its runs of separators between digits. -/
def kept (before : List Char) : List Char → List Char
  | [] => []
  | c :: rest =>
      if between before c rest then kept (c :: before) rest
      else c :: kept (c :: before) rest

theorem not_isSeparator_of_isDigitLike {c : Char} (digit : isDigitLike c = true) :
    isSeparator c = false := by
  simp only [isDigitLike, Bool.or_eq_true, beq_iff_eq] at digit
  rcases digit with ((number | rfl) | rfl) | rfl
  · exact Digit.notSeparator number
  · decide
  · decide
  · decide

theorem facesDigit_cons_of_separator {c : Char} (separator : isSeparator c = true)
    (side : List Char) : facesDigit (c :: side) = facesDigit side := by
  rw [facesDigit, List.find?_cons_of_neg (by simp [separator]), facesDigit]

theorem facesDigit_cons_of_other {c : Char} (other : isSeparator c = false) (side : List Char) :
    facesDigit (c :: side) = isDigitLike c := by
  rw [facesDigit, List.find?_cons_of_pos (by simp [other])]
  rfl

theorem facesDigit_append {run : List Char} (separators : ∀ c ∈ run, isSeparator c = true)
    (side : List Char) : facesDigit (run ++ side) = facesDigit side := by
  induction run with
  | nil => rfl
  | cons c run ih =>
      rw [List.forall_mem_cons] at separators
      rw [List.cons_append, facesDigit_cons_of_separator separators.1, ih separators.2]

theorem facesDigit_of_head {side : List Char} (digit : side.head?.any isDigitLike = true) :
    facesDigit side = true := by
  cases side with
  | nil => cases digit
  | cons c side => rw [facesDigit_cons_of_other (not_isSeparator_of_isDigitLike digit)]; exact digit

/-- A side that faces a digit begins with separators up to it. -/
theorem exists_of_facesDigit {side : List Char} (faces : facesDigit side = true) :
    ∃ run rest, side = run ++ rest ∧ (∀ c ∈ run, isSeparator c = true) ∧
      rest.head?.any isDigitLike = true := by
  induction side with
  | nil => cases faces
  | cons c side ih =>
      cases separator : isSeparator c with
      | true =>
          rw [facesDigit_cons_of_separator separator] at faces
          obtain ⟨run, rest, rfl, separators, digit⟩ := ih faces
          exact ⟨c :: run, rest, rfl, List.forall_mem_cons.mpr ⟨separator, separators⟩, digit⟩
      | false =>
          rw [facesDigit_cons_of_other separator] at faces
          exact ⟨[], c :: side, rfl, by simp, faces⟩

/-- A letter whose place lies in the middle one of three stretches splits that stretch. -/
theorem exists_split_inside {before after left run right : List Char} {c : Char}
    (same : before ++ c :: after = left ++ run ++ right) (low : left.length ≤ before.length)
    (high : before.length < (left ++ run).length) :
    ∃ runLeft runRight, run = runLeft ++ c :: runRight ∧ before = left ++ runLeft ∧
      after = runRight ++ right := by
  rw [List.append_assoc] at same
  rcases append_eq_append_cons same.symm with ⟨post, leftEq, -⟩ | ⟨pre, beforeEq, tailEq⟩
  · have longer := congrArg List.length leftEq
    rw [List.length_append, List.length_cons] at longer
    omega
  · rcases append_eq_append_cons tailEq with ⟨post, runEq, afterEq⟩ | ⟨rest, preEq, -⟩
    · exact ⟨pre, post, runEq, beforeEq, afterEq⟩
    · rw [beforeEq, preEq, ← List.append_assoc, List.length_append] at high
      omega

/-- A character is deleted when it lies in a run of separators between digits. -/
theorem between_iff {before after : List Char} {c : Char} :
    between before.reverse c after = true ↔
      ∃ left run right, before ++ c :: after = left ++ run ++ right ∧ Absorbable left run right ∧
        left.length ≤ before.length ∧ before.length < (left ++ run).length := by
  constructor
  · intro deleted
    simp only [between, Bool.and_eq_true] at deleted
    obtain ⟨⟨separator, facesLeft⟩, facesRight⟩ := deleted
    obtain ⟨runLeft, left, leftEq, separatorsLeft, front⟩ := exists_of_facesDigit facesLeft
    obtain ⟨runRight, right, rightEq, separatorsRight, back⟩ := exists_of_facesDigit facesRight
    have beforeEq : before = left.reverse ++ runLeft.reverse := by
      rw [← List.reverse_reverse before, leftEq, List.reverse_append]
    refine ⟨left.reverse, runLeft.reverse ++ c :: runRight, right, ?_, ⟨?_, ?_, ?_, back⟩, ?_, ?_⟩
    · rw [beforeEq, rightEq]
      simp
    · simp
    · simp only [List.mem_append, List.mem_reverse, List.mem_cons]
      rintro other (inLeft | rfl | inRight)
      · exact separatorsLeft other inLeft
      · exact separator
      · exact separatorsRight other inRight
    · rwa [List.getLast?_reverse]
    · rw [beforeEq, List.length_append]
      exact Nat.le_add_right _ _
    · rw [beforeEq]
      simp
  · rintro ⟨left, run, right, same, absorbable, low, high⟩
    obtain ⟨runLeft, runRight, rfl, beforeEq, afterEq⟩ := exists_split_inside same low high
    have separators := absorbable.separators
    simp only [List.forall_mem_append, List.forall_mem_cons] at separators
    have facesLeft : facesDigit before.reverse = true := by
      rw [beforeEq, List.reverse_append, facesDigit_append (by simpa using separators.1)]
      apply facesDigit_of_head
      rw [List.head?_reverse]
      exact absorbable.front
    have facesRight : facesDigit after = true := by
      rw [afterEq, facesDigit_append separators.2.2]
      exact facesDigit_of_head absorbable.back
    rw [between, separators.2.1, facesLeft, facesRight]
    rfl

/-! ## The walk as builder calls -/

/-- The deletions of a run, one for each group of equal rules. -/
def runCalls : List Char → List Call
  | [] => []
  | c :: rest =>
      match separatorClass c with
      | none => []
      | some (rule, kind) =>
          .absorb (c :: rest.takeWhile (hasRule rule)) rule kind ::
            runCalls (rest.dropWhile (hasRule rule))
termination_by text => text.length
decreasing_by
  have bound := (List.dropWhile_suffix (hasRule rule) (l := rest)).length_le
  simp only [List.length_cons]
  omega

/-- The builder calls of the walk. -/
def calls (before : List Char) : List Char → List Call
  | [] => []
  | c :: rest =>
      if ¬ isSeparator c ∨ ¬ before.head?.any isDigitLike then .keep [c] :: calls (c :: before) rest
      else if (rest.dropWhile isSeparator).head?.any isDigitLike then
        runCalls (c :: rest.takeWhile isSeparator) ++
          calls ((c :: rest.takeWhile isSeparator).reverse ++ before) (rest.dropWhile isSeparator)
      else
        .keep (c :: rest.takeWhile isSeparator) ::
          calls ((c :: rest.takeWhile isSeparator).reverse ++ before) (rest.dropWhile isSeparator)
termination_by text => text.length
decreasing_by
  all_goals
    have bound := (List.dropWhile_suffix isSeparator (l := rest)).length_le
    simp only [List.length_cons]
    omega

theorem absorbRun_eq (builder : SpanMapBuilder) (run : List Char) :
    absorbRun builder run = (runCalls run).foldl Call.run builder := by
  fun_induction absorbRun builder run with
  | case1 builder => rw [runCalls, List.foldl_nil]
  | case2 builder c rest none => rw [runCalls, none, List.foldl_nil]
  | case3 builder c rest rule kind found ih =>
      rw [runCalls, found, List.foldl_cons, ih]
      rfl

/-- The walk runs its calls. -/
theorem loop_eq_calls (builder : SpanMapBuilder) (before pending rest : List Char) :
    loop builder before pending rest =
      (calls before rest).foldl Call.run (builder.flush pending) := by
  fun_induction loop builder before pending rest with
  | case1 builder before pending => rw [calls, List.foldl_nil]
  | case2 builder before pending c rest passed ih =>
      rw [ih, calls, if_pos passed, List.foldl_cons]
      simp [Call.run, SpanMapBuilder.flush_eq_keep, SpanMapBuilder.keep_keep]
  | case3 builder before pending c rest opened digit ih =>
      rw [ih, calls, if_neg opened, if_pos digit, List.foldl_append, absorbRun_eq]
      simp [SpanMapBuilder.flush]
  | case4 builder before pending c rest opened other ih =>
      rw [ih, calls, if_neg opened, if_neg other, List.foldl_cons]
      simp [Call.run, SpanMapBuilder.flush_eq_keep, SpanMapBuilder.keep_keep]

theorem runCalls_source {run : List Char} (separators : ∀ c ∈ run, isSeparator c = true) :
    (runCalls run).flatMap Call.source = run := by
  fun_induction runCalls run with
  | case1 => rfl
  | case2 c rest none =>
      have separator := separators c List.mem_cons_self
      simp [isSeparator, none] at separator
  | case3 c rest rule kind found ih =>
      rw [List.flatMap_cons, ih fun d member => separators d
        (List.mem_cons_of_mem c ((List.dropWhile_suffix _).subset member))]
      simp [Call.source]

theorem separators_run {c : Char} (separator : isSeparator c = true) (rest : List Char) :
    ∀ d ∈ c :: rest.takeWhile isSeparator, isSeparator d = true := by
  rw [List.forall_mem_cons]
  exact ⟨separator, fun d member => List.mem_takeWhile_imp member⟩

@[simp] theorem calls_source (before rest : List Char) :
    (calls before rest).flatMap Call.source = rest := by
  fun_induction calls before rest with
  | case1 before => rfl
  | case2 before c rest passed ih => simp [Call.source, ih]
  | case3 before c rest opened digit ih =>
      rw [not_or, not_not, not_not] at opened
      rw [List.flatMap_append, ih, runCalls_source (separators_run opened.1 rest), List.cons_append,
        List.takeWhile_append_dropWhile]
  | case4 before c rest opened other ih =>
      rw [List.flatMap_cons, ih, Call.source, List.cons_append, List.takeWhile_append_dropWhile]

/-- The pass is a builder run. -/
theorem apply_eq_build (text : List Char) : apply text = build (calls [] text) := by
  rw [apply_eq_loop, loop_eq_calls, SpanMapBuilder.flush, if_pos rfl, build]

/-! ## The text that is left -/

theorem dst_runCalls (run : List Char) : Alignment.dst (callAtoms (runCalls run)) = [] := by
  fun_induction runCalls run with
  | case1 => rfl
  | case2 c rest none => rfl
  | case3 c rest rule kind found ih =>
      change Alignment.dst (Call.atoms _ ++ callAtoms _) = []
      rw [Alignment.dst_append, ih]
      simp [Call.atoms, Call.source, Call.tile, Tile.atoms, Atom.dst]

theorem dst_keep (text : List Char) (rest : List Call) :
    Alignment.dst (callAtoms (.keep text :: rest)) = text ++ Alignment.dst (callAtoms rest) := by
  change Alignment.dst (Call.atoms _ ++ callAtoms _) = _
  rw [Alignment.dst_append, Call.atoms]
  split
  next empty =>
    change text = [] at empty
    simp [empty]
  next => rw [Call.tile, Tile.dst_atoms, Tile.dst]

/-- A run is deleted or kept as a whole. -/
theorem kept_run {run : List Char} (separators : ∀ c ∈ run, isSeparator c = true)
    (before after : List Char) :
    kept before (run ++ after) =
      (if facesDigit before && facesDigit after then [] else run) ++
        kept (run.reverse ++ before) after := by
  induction run generalizing before with
  | nil => simp
  | cons c run ih =>
      rw [List.forall_mem_cons] at separators
      rw [List.cons_append, kept, between, separators.1, facesDigit_append separators.2,
        ih separators.2, facesDigit_cons_of_separator separators.1, Bool.true_and]
      split <;> simp

/-- At a cursor between two separators, the run it is in has no digit in front of it. -/
def Passed (before rest : List Char) : Prop :=
  before.head?.any isSeparator = true → rest.head?.any isSeparator = true →
    facesDigit before = false

theorem facesDigit_of_passed {before rest : List Char} {c : Char} (passed : Passed before (c :: rest))
    (separator : isSeparator c = true) : facesDigit before = before.head?.any isDigitLike := by
  cases before with
  | nil => rfl
  | cons d before =>
      cases separator' : isSeparator d with
      | true =>
          have digit : isDigitLike d = false := by
            by_contra digit
            rw [Bool.not_eq_false] at digit
            rw [not_isSeparator_of_isDigitLike digit] at separator'
            cases separator'
          rw [passed separator' separator]
          exact digit.symm
      | false => exact facesDigit_cons_of_other separator' before

theorem passed_dropWhile (before rest : List Char) : Passed before (rest.dropWhile isSeparator) := by
  intro _ separator
  have other := List.head?_dropWhile_not isSeparator rest
  cases first : (rest.dropWhile isSeparator).head? with
  | none =>
      rw [first] at separator
      cases separator
  | some c =>
      rw [first] at separator other
      rw [Option.any_some] at separator
      simp [separator] at other

theorem facesDigit_dropWhile (rest : List Char) :
    facesDigit (rest.dropWhile isSeparator) = (rest.dropWhile isSeparator).head?.any isDigitLike := by
  cases shape : rest.dropWhile isSeparator with
  | nil => rfl
  | cons c tail =>
      have other := List.head?_dropWhile_not isSeparator rest
      rw [shape] at other
      exact facesDigit_cons_of_other (by simpa using other) tail

/-- A character that the walk passes alone stays. -/
theorem kept_of_passed {before rest : List Char} {c : Char} (passed : Passed before (c :: rest))
    (stays : ¬ isSeparator c ∨ ¬ before.head?.any isDigitLike) :
    kept before (c :: rest) = c :: kept (c :: before) rest ∧ Passed (c :: before) rest := by
  have whole : between before c rest = false := by
    rcases stays with other | noDigit
    · simp [between, other]
    · cases separator : isSeparator c with
      | false => simp [between, separator]
      | true => simp [between, facesDigit_of_passed passed separator, noDigit]
  refine ⟨by rw [kept, whole]; rfl, ?_⟩
  intro separator _
  change isSeparator c = true at separator
  rw [facesDigit_cons_of_separator separator, facesDigit_of_passed passed separator]
  simpa [separator] using stays

/-- A run that the walk opens stays unless a digit follows. -/
theorem kept_of_opened {before rest : List Char} {c : Char} (separator : isSeparator c = true)
    (digit : before.head?.any isDigitLike = true) :
    kept before (c :: rest) =
      (if (rest.dropWhile isSeparator).head?.any isDigitLike then []
        else c :: rest.takeWhile isSeparator) ++
        kept ((c :: rest.takeWhile isSeparator).reverse ++ before) (rest.dropWhile isSeparator) := by
  have whole := kept_run (separators_run separator rest) before (rest.dropWhile isSeparator)
  rwa [facesDigit_of_head digit, facesDigit_dropWhile, List.cons_append,
    List.takeWhile_append_dropWhile, Bool.true_and] at whole

theorem dst_calls {before rest : List Char} (passed : Passed before rest) :
    Alignment.dst (callAtoms (calls before rest)) = kept before rest := by
  fun_induction calls before rest with
  | case1 before => rfl
  | case2 before c rest stays ih =>
      obtain ⟨keptEq, passed'⟩ := kept_of_passed passed stays
      rw [dst_keep, ih passed', keptEq]
      rfl
  | case3 before c rest opened digit ih =>
      rw [not_or, not_not, not_not] at opened
      rw [callAtoms_append, Alignment.dst_append, dst_runCalls, ih (passed_dropWhile _ _),
        kept_of_opened opened.1 opened.2, if_pos digit]
  | case4 before c rest opened other ih =>
      rw [not_or, not_not, not_not] at opened
      rw [dst_keep, ih (passed_dropWhile _ _), kept_of_opened opened.1 opened.2, if_neg other]

theorem apply_out (text : List Char) : (apply text).1 = kept [] text := by
  rw [apply_eq_build, build_text]
  exact dst_calls fun separator => by cases separator

/-! ## A second pass -/

theorem kept_sublist (before rest : List Char) : (kept before rest).Sublist rest := by
  induction rest generalizing before with
  | nil => exact .slnil
  | cons c rest ih =>
      rw [kept]
      split
      · exact (ih _).cons c
      · exact (ih _).cons_cons c

/-- Only separators are deleted, so the nearest other character is the same. -/
theorem facesDigit_kept (before rest : List Char) :
    facesDigit (kept before rest) = facesDigit rest := by
  induction rest generalizing before with
  | nil => rfl
  | cons c rest ih =>
      rw [kept]
      cases separator : isSeparator c with
      | true =>
          rw [facesDigit_cons_of_separator separator]
          split
          · exact ih _
          · rw [facesDigit_cons_of_separator separator, ih]
      | false =>
          have stays : between before c rest = false := by simp [between, separator]
          rw [if_neg (by simp [stays]), facesDigit_cons_of_other separator,
            facesDigit_cons_of_other separator]

theorem kept_kept {before before' : List Char} (same : facesDigit before' = facesDigit before)
    (rest : List Char) : kept before' (kept before rest) = kept before rest := by
  induction rest generalizing before before' with
  | nil => rfl
  | cons c rest ih =>
      have faces : facesDigit (c :: before') = facesDigit (c :: before) := by
        cases separator : isSeparator c with
        | true =>
            rw [facesDigit_cons_of_separator separator, facesDigit_cons_of_separator separator, same]
        | false =>
            rw [facesDigit_cons_of_other separator, facesDigit_cons_of_other separator]
      rw [kept]
      split
      next deleted =>
        have separator : isSeparator c = true := by
          simp only [between, Bool.and_eq_true] at deleted
          exact deleted.1.1
        apply ih
        rw [same, facesDigit_cons_of_separator separator]
      next stays =>
        have stays' : ¬ between before' c (kept (c :: before) rest) := by
          rwa [between, same, facesDigit_kept, ← between]
        rw [kept, if_neg stays', ih faces]

/-- A text that loses nothing is passed through. -/
theorem loop_of_kept {before rest : List Char} (passed : Passed before rest)
    (unchanged : kept before rest = rest) (builder : SpanMapBuilder) (pending : List Char) :
    loop builder before pending rest = builder.flush (pending ++ rest) := by
  fun_induction loop builder before pending rest with
  | case1 builder before pending => rw [List.append_nil]
  | case2 builder before pending c rest stays ih =>
      obtain ⟨keptEq, passed'⟩ := kept_of_passed passed stays
      rw [unchanged] at keptEq
      rw [ih passed' (List.cons.inj keptEq).2.symm]
      simp
  | case3 builder before pending c rest opened digit ih =>
      rw [not_or, not_not, not_not] at opened
      rw [kept_of_opened opened.1 opened.2, if_pos digit, List.nil_append] at unchanged
      have shorter := (kept_sublist ((c :: rest.takeWhile isSeparator).reverse ++ before)
        (rest.dropWhile isSeparator)).length_le
      have bound := (List.dropWhile_suffix isSeparator (l := rest)).length_le
      rw [unchanged, List.length_cons] at shorter
      omega
  | case4 builder before pending c rest opened other ih =>
      rw [not_or, not_not, not_not] at opened
      rw [kept_of_opened opened.1 opened.2, if_neg other] at unchanged
      have whole : c :: rest = (c :: rest.takeWhile isSeparator) ++ rest.dropWhile isSeparator := by
        rw [List.cons_append, List.takeWhile_append_dropWhile]
      rw [whole, List.append_cancel_left_eq] at unchanged
      rw [ih (passed_dropWhile _ _) unchanged, List.append_assoc, ← whole]

theorem apply_apply (text : List Char) :
    apply (apply text).1 = ((apply text).1, SpanMap.identity (apply text).1) := by
  have unchanged : kept [] (apply text).1 = (apply text).1 := by
    rw [apply_out, kept_kept rfl]
  rw [apply_eq_loop (apply text).1, loop_of_kept (fun separator => by cases separator) unchanged,
    List.nil_append, SpanMapBuilder.finish_flush]

/-! ## The record -/

theorem takeWhile_of_digit {side : List Char} (digit : side.head?.any isDigitLike = true) :
    side.takeWhile isSeparator = [] := by
  cases side with
  | nil => rfl
  | cons c side =>
      have other : isSeparator c = false := not_isSeparator_of_isDigitLike digit
      exact List.takeWhile_cons_of_neg (by simp [other])

/-- A run between digits is the run at the cursor or lies behind it. -/
theorem run_eq_or_behind {before rest left run right : List Char} {c : Char}
    (separator : isSeparator c = true) (same : c :: rest = left ++ run ++ right)
    (absorbable : Absorbable (before ++ left) run right) :
    (left = [] ∧ run = c :: rest.takeWhile isSeparator ∧ right = rest.dropWhile isSeparator) ∨
      ∃ left', left = (c :: rest.takeWhile isSeparator) ++ left' ∧
        rest.dropWhile isSeparator = left' ++ run ++ right := by
  have separators := separators_run separator rest
  have whole : (c :: rest.takeWhile isSeparator) ++ rest.dropWhile isSeparator =
      left ++ run ++ right := by
    rw [List.cons_append, List.takeWhile_append_dropWhile, same]
  rcases List.eq_nil_or_concat left with rfl | ⟨start, last, rfl⟩
  · refine .inl ⟨rfl, ?_⟩
    have runEq : run = c :: rest.takeWhile isSeparator := by
      have front := congrArg (List.takeWhile isSeparator) same
      rw [List.nil_append, List.takeWhile_append_of_pos absorbable.separators,
        takeWhile_of_digit absorbable.back, List.append_nil,
        List.takeWhile_cons_of_pos separator] at front
      exact front.symm
    rw [List.nil_append, runEq, List.append_cancel_left_eq] at whole
    exact ⟨runEq, whole.symm⟩
  · rw [List.concat_eq_append] at *
    have other : isSeparator last = false := by
      apply not_isSeparator_of_isDigitLike
      have digit := absorbable.front
      rwa [← List.append_assoc, List.getLast?_concat, Option.any_some] at digit
    rcases Nat.le_total (start ++ [last]).length (c :: rest.takeWhile isSeparator).length with
      short | long
    · have inside : last ∈ c :: rest.takeWhile isSeparator := by
        have leads : start ++ [last] <+: c :: rest.takeWhile isSeparator := by
          rw [List.append_assoc] at whole
          exact List.prefix_of_prefix_length_le ⟨run ++ right, rfl⟩ ⟨_, whole⟩ short
        exact leads.subset (by simp)
      rw [separators last inside] at other
      cases other
    · right
      rw [List.append_assoc _ run right] at whole
      obtain ⟨left', leftEq⟩ : c :: rest.takeWhile isSeparator <+: start ++ [last] :=
        List.prefix_of_prefix_length_le ⟨_, whole⟩ ⟨run ++ right, rfl⟩ long
      refine ⟨left', leftEq.symm, ?_⟩
      rw [← leftEq, List.append_assoc, List.append_cancel_left_eq] at whole
      rw [whole, List.append_assoc]

/-- Where the walk meets a run between digits, it calls for its deletion. -/
theorem exists_calls_of_absorbable {before rest left run right : List Char}
    (same : rest = left ++ run ++ right) (absorbable : Absorbable (before.reverse ++ left) run right) :
    ∃ earlier later, calls before rest = earlier ++ runCalls run ++ later ∧
      earlier.flatMap Call.source = left := by
  fun_induction calls before rest generalizing left with
  | case1 before =>
      have empty := List.append_eq_nil_iff.mp (List.append_eq_nil_iff.mp same.symm).1
      exact absurd empty.2 absorbable.nonempty
  | case2 before c rest stays ih =>
      cases left with
      | nil =>
          obtain ⟨d, run, rfl⟩ := List.exists_cons_of_ne_nil absorbable.nonempty
          obtain ⟨rfl, -⟩ := List.cons.inj same
          have digit := absorbable.front
          rw [List.append_nil, List.getLast?_reverse] at digit
          rcases stays with other | noDigit
          · exact absurd (absorbable.separators c List.mem_cons_self) other
          · exact absurd digit noDigit
      | cons d left =>
          obtain ⟨rfl, behind⟩ := List.cons.inj same
          obtain ⟨earlier, later, callsEq, sourceEq⟩ := ih behind (by simpa using absorbable)
          exact ⟨.keep [c] :: earlier, later, by rw [callsEq]; rfl, by simp [Call.source, sourceEq]⟩
  | case3 before c rest opened digit ih =>
      rw [not_or, not_not, not_not] at opened
      rcases run_eq_or_behind opened.1 same absorbable with
        ⟨rfl, rfl, -⟩ | ⟨left', rfl, behind⟩
      · exact ⟨[], _, rfl, rfl⟩
      · obtain ⟨earlier, later, callsEq, sourceEq⟩ := ih behind (by simpa using absorbable)
        refine ⟨runCalls (c :: rest.takeWhile isSeparator) ++ earlier, later, ?_, ?_⟩
        · rw [callsEq]
          simp
        · rw [List.flatMap_append, runCalls_source (separators_run opened.1 rest), sourceEq]
  | case4 before c rest opened other ih =>
      rw [not_or, not_not, not_not] at opened
      rcases run_eq_or_behind opened.1 same absorbable with
        ⟨rfl, rfl, rfl⟩ | ⟨left', rfl, behind⟩
      · exact absurd absorbable.back other
      · obtain ⟨earlier, later, callsEq, sourceEq⟩ := ih behind (by simpa using absorbable)
        refine ⟨.keep (c :: rest.takeWhile isSeparator) :: earlier, later, ?_, ?_⟩
        · rw [callsEq]
          rfl
        · rw [List.flatMap_cons, sourceEq]
          rfl

/-- Saturated numbers of blanks and of other separators. -/
def separatorCost (piece : List Char) : NormalizationCost where
  absorbedWhitespace := UInt16.ofNat (min (piece.countP (hasRule ruleWhitespace)) 65535)
  absorbedSeparators :=
    UInt16.ofNat (min (piece.countP fun c => isSeparator c && !hasRule ruleWhitespace c) 65535)

/-- The map deletes a piece of the source behind the text in front of it, with nothing in
its place, in consecutive deletions whose costs count their characters. -/
structure Recorded (text : List Char) (map : SpanMap) (front run : List Char) : Prop where
  deletions : ∃ earlier deletions later out, map.segments = earlier ++ deletions ++ later ∧
    Tiling front out deletions run [] ∧
    (∀ deletion ∈ deletions, deletion.kind = .delete ∧
      ∃ piece, deletion.src.slice text = some piece ∧ deletion.cost = separatorCost piece) ∧
    (deletions.map Segment.cost).sum = separatorCost run

theorem separatorClass_cases {c : Char} {rule : RuleId} {kind : Absorbed}
    (found : separatorClass c = some (rule, kind)) :
    (rule = ruleWhitespace ∧ kind = .whitespace) ∨ (rule ≠ ruleWhitespace ∧ kind = .separator) := by
  simp only [separatorClass] at found
  repeat' split at found
  all_goals cases found
  all_goals decide

theorem separatorCost_append (left right : List Char) :
    separatorCost (left ++ right) = separatorCost left + separatorCost right := by
  have counted (m n : Nat) : UInt16.ofNat (min (m + n) 65535) =
      saturatingAdd (UInt16.ofNat (min m 65535)) (UInt16.ofNat (min n 65535)) := by
    apply UInt16.toNat_inj.mp
    rw [saturatingAdd_toNat]
    simp only [UInt16.toNat_ofNat']
    omega
  simp only [separatorCost, NormalizationCost.add_eq, NormalizationCost.add, List.countP_append,
    counted]
  rfl

/-- A group of equal rules is booked in full. -/
theorem absorbedCost_eq {c : Char} {rule : RuleId} {kind : Absorbed}
    (found : separatorClass c = some (rule, kind)) (rest : List Char) :
    Call.absorbedCost (c :: rest.takeWhile (hasRule rule)) kind =
      separatorCost (c :: rest.takeWhile (hasRule rule)) := by
  have grouped : ∀ d ∈ c :: rest.takeWhile (hasRule rule), hasRule rule d = true := by
    rw [List.forall_mem_cons]
    exact ⟨by simp [hasRule, found], fun d member => List.mem_takeWhile_imp member⟩
  generalize c :: rest.takeWhile (hasRule rule) = group at grouped ⊢
  have ofRule (d : Char) (member : d ∈ group) :
      isSeparator d = true ∧ hasRule ruleWhitespace d = (rule == ruleWhitespace) := by
    have same := grouped d member
    rw [hasRule] at same ⊢
    rw [isSeparator]
    cases class_ : separatorClass d with
    | none => simp [class_] at same
    | some entry =>
        rw [class_, Option.any_some, beq_iff_eq] at same
        rw [← same]
        exact ⟨rfl, rfl⟩
  rcases separatorClass_cases found with ⟨rfl, rfl⟩ | ⟨other, rfl⟩
  · have blanks : group.countP (hasRule ruleWhitespace) = group.length := by
      rw [List.countP_eq_length]
      intro d member
      rw [(ofRule d member).2]
      exact beq_self_eq_true _
    have others : group.countP (fun d => isSeparator d && !hasRule ruleWhitespace d) = 0 := by
      rw [List.countP_eq_zero]
      intro d member
      rw [(ofRule d member).2]
      simp
    rw [Call.absorbedCost, Call.count, separatorCost, blanks, others]
    rfl
  · have blanks : group.countP (hasRule ruleWhitespace) = 0 := by
      rw [List.countP_eq_zero]
      intro d member
      rw [(ofRule d member).2]
      simpa using other
    have others : group.countP (fun d => isSeparator d && !hasRule ruleWhitespace d) =
        group.length := by
      rw [List.countP_eq_length]
      intro d member
      rw [(ofRule d member).1, (ofRule d member).2]
      simpa using other
    rw [Call.absorbedCost, Call.count, separatorCost, blanks, others]
    rfl

/-- The tiles of a deleted run. -/
def runTiles (run : List Char) : List Tile := (runCalls run).map Call.tile

theorem runTiles_cons {c : Char} {rule : RuleId} {kind : Absorbed} (rest : List Char)
    (found : separatorClass c = some (rule, kind)) :
    runTiles (c :: rest) =
      .block (c :: rest.takeWhile (hasRule rule)) []
          ⟨{rule}, separatorCost (c :: rest.takeWhile (hasRule rule))⟩ ::
        runTiles (rest.dropWhile (hasRule rule)) := by
  rw [← absorbedCost_eq found rest, runTiles, runCalls, found]
  rfl

theorem dropWhile_separators {c : Char} {rest : List Char} (rule : RuleId)
    (separators : ∀ d ∈ c :: rest, isSeparator d = true) :
    ∀ d ∈ rest.dropWhile (hasRule rule), isSeparator d = true := fun d member =>
  separators d (List.mem_cons_of_mem c ((List.dropWhile_suffix _).subset member))

theorem runTiles_texts {run : List Char} (separators : ∀ c ∈ run, isSeparator c = true) :
    srcText (runTiles run) = run ∧ dstText (runTiles run) = [] := by
  fun_induction runCalls run with
  | case1 => simp [runTiles, runCalls]
  | case2 c rest none =>
      have separator := separators c List.mem_cons_self
      simp [isSeparator, none] at separator
  | case3 c rest rule kind found ih =>
      obtain ⟨srcEq, dstEq⟩ := ih (dropWhile_separators rule separators)
      rw [runTiles_cons rest found, srcText_cons, dstText_cons, srcEq, dstEq]
      simp [Tile.src, Tile.dst]

/-- The deletions of a run, behind the text in front of it. -/
theorem layout_runTiles {run front out back : List Char}
    (separators : ∀ c ∈ run, isSeparator c = true) (fits : Fits (front ++ run ++ back)) :
    (∀ deletion ∈ layout front out (runTiles run), deletion.kind = .delete ∧
      ∃ piece, deletion.src.slice (front ++ run ++ back) = some piece ∧
        deletion.cost = separatorCost piece) ∧
    ((layout front out (runTiles run)).map Segment.cost).sum = separatorCost run := by
  fun_induction runCalls run generalizing front with
  | case1 =>
      rw [runTiles, runCalls]
      exact ⟨by simp, rfl⟩
  | case2 c rest none =>
      have separator := separators c List.mem_cons_self
      simp [isSeparator, none] at separator
  | case3 c rest rule kind found ih =>
      have whole : front ++ (c :: rest.takeWhile (hasRule rule)) ++ rest.dropWhile (hasRule rule) ++
          back = front ++ c :: rest ++ back := by
        rw [List.append_assoc front, List.cons_append, List.takeWhile_append_dropWhile]
      rw [← whole] at fits
      obtain ⟨booked, total⟩ := ih (dropWhile_separators rule separators) fits
      rw [whole] at booked
      rw [runTiles_cons rest found, layout_cons]
      constructor
      · rw [List.forall_mem_cons]
        refine ⟨⟨rfl, _, ?_, rfl⟩, by simpa [Tile.src, Tile.dst] using booked⟩
        rw [Tile.segment_src, Tile.src, ← whole, List.append_assoc _ _ back]
        exact (covers_spanAt fits.of_append_left.of_append_left).slice _
      · have split : separatorCost (c :: rest) =
            separatorCost (c :: rest.takeWhile (hasRule rule)) +
              separatorCost (rest.dropWhile (hasRule rule)) := by
          rw [← separatorCost_append, List.cons_append, List.takeWhile_append_dropWhile]
        rw [List.map_cons, List.sum_cons, split, ← total]
        simp [Tile.src, Tile.dst, Tile.segment]

theorem pack_runCalls {run : List Char} (atoms : List (Atom Char Weight)) :
    pack (callAtoms (runCalls run) ++ atoms) = runTiles run ++ pack atoms := by
  fun_induction runCalls run with
  | case1 => rw [runTiles, runCalls]; rfl
  | case2 c rest none => rw [runTiles, runCalls, none]; rfl
  | case3 c rest rule kind found ih =>
      rw [runTiles_cons rest found, ← absorbedCost_eq found]
      change .block _ _ _ :: pack (callAtoms _ ++ atoms) = _
      rw [ih]
      rfl

/-- A deleted run stands between the tiles of its two sides. -/
theorem pack_around_run {c : Char} (separator : isSeparator c = true) (rest : List Char)
    (front back : List (Atom Char Weight)) :
    pack (front ++ (callAtoms (runCalls (c :: rest)) ++ back)) =
      pack front ++ (runTiles (c :: rest) ++ pack back) := by
  obtain ⟨⟨rule, kind⟩, found⟩ := Option.isSome_iff_exists.mp separator
  have first : callAtoms (runCalls (c :: rest)) ++ back =
      .block (c :: rest.takeWhile (hasRule rule)) []
          ⟨{rule}, Call.absorbedCost (c :: rest.takeWhile (hasRule rule)) kind⟩ ::
        (callAtoms (runCalls (rest.dropWhile (hasRule rule))) ++ back) := by
    rw [runCalls, found]
    rfl
  rw [← pack_runCalls, first, pack_append_block]
  rfl

theorem fits_of_sublist {left right : List Char} (sub : left.Sublist right) (fits : Fits right) :
    Fits left := by
  have bound : utf8Len left ≤ utf8Len right := by
    clear fits
    induction sub with
    | slnil => exact le_rfl
    | cons c _ ih =>
        rw [String.utf8Len_cons]
        exact ih.trans (Nat.le_add_right _ _)
    | cons_cons c _ ih =>
        rw [String.utf8Len_cons, String.utf8Len_cons]
        exact Nat.add_le_add_right ih _
  exact Nat.lt_of_le_of_lt bound fits

/-- A run between digits is recorded. -/
theorem recorded_of_absorbable {left run right : List Char} (fits : Fits (left ++ run ++ right))
    (absorbable : Absorbable left run right) :
    Recorded (left ++ run ++ right) (apply (left ++ run ++ right)).2 left run := by
  obtain ⟨earlier, later, callsEq, sourceEq⟩ :=
    @exists_calls_of_absorbable [] (left ++ run ++ right) left run right rfl absorbable
  have fitsOut : Fits (build (calls [] (left ++ run ++ right))).1 := by
    rw [← apply_eq_build, apply_out]
    exact fits_of_sublist (kept_sublist _ _) fits
  have table := build_eq (by rwa [calls_source]) fitsOut
  have packed : pack (callAtoms (calls [] (left ++ run ++ right))) =
      pack (callAtoms earlier) ++ (runTiles run ++ pack (callAtoms later)) := by
    obtain ⟨c, rest, rfl⟩ := List.exists_cons_of_ne_nil absorbable.nonempty
    rw [callsEq, callAtoms_append, callAtoms_append, List.append_assoc,
      pack_around_run (absorbable.separators c List.mem_cons_self)]
  have texts := runTiles_texts absorbable.separators
  have front : srcText (pack (callAtoms earlier)) = left := by
    rw [srcText_pack, src_callAtoms, sourceEq]
  have behind : Fits (dstText (pack (callAtoms earlier)) ++ dstText (runTiles run)) := by
    rw [build_text, callsEq, callAtoms_append, callAtoms_append, Alignment.dst_append,
      Alignment.dst_append, dst_runCalls, ← dstText_pack] at fitsOut
    rw [texts.2]
    exact fitsOut.of_append_left
  have tiling := layout_tiling left _ (runTiles run) (by rw [texts.1]; exact fits.of_append_left)
    behind
  rw [texts.1, texts.2] at tiling
  obtain ⟨booked, total⟩ := @layout_runTiles run left (dstText (pack (callAtoms earlier))) right
    absorbable.separators fits
  rw [apply_eq_build, table, packed]
  refine ⟨⟨layout [] [] (pack (callAtoms earlier)), _,
    layout (left ++ run) (dstText (pack (callAtoms earlier)) ++ []) (pack (callAtoms later)),
    _, ?_, tiling, booked, total⟩⟩
  rw [tableOf, layout_append, layout_append, front, texts.1, texts.2, List.nil_append,
    List.nil_append, List.append_assoc]

/-- The pass deletes exactly the maximal runs of separators between digits, records each of
them in texts whose offsets are representable, and leaves its own output alone. -/
theorem apply_absorbs (text : List Char) :
    (apply text).1 = kept [] text ∧
    (∀ before c after, text = before ++ c :: after →
      (between before.reverse c after = true ↔
        ∃ left run right, text = left ++ run ++ right ∧ Absorbable left run right ∧
          left.length ≤ before.length ∧ before.length < (left ++ run).length)) ∧
    (Fits text → ∀ left run right, text = left ++ run ++ right → Absorbable left run right →
      '\n' ∉ run ∧ '\r' ∉ run ∧ Recorded text (apply text).2 left run) ∧
    apply (apply text).1 = ((apply text).1, SpanMap.identity (apply text).1) := by
  refine ⟨apply_out text, ?_, ?_, apply_apply text⟩
  · rintro before c after rfl
    exact between_iff
  · rintro fits left run right rfl absorbable
    have noBreak (c : Char) (other : isSeparator c = false) : c ∉ run := by
      intro member
      rw [absorbable.separators c member] at other
      cases other
    exact ⟨noBreak _ (by decide), noBreak _ (by decide), recorded_of_absorbable fits absorbable⟩

/-- A hyphen with blanks around it, between two digits. -/
theorem apply_absorbs_hyphen :
    Fits ['1', ' ', '-', ' ', '2'] ∧ Absorbable ['1'] [' ', '-', ' '] ['2'] ∧
      Recorded ['1', ' ', '-', ' ', '2'] (apply ['1', ' ', '-', ' ', '2']).2 ['1']
        [' ', '-', ' '] := by
  have fits : Fits ['1', ' ', '-', ' ', '2'] := by decide
  have absorbable : Absorbable ['1'] [' ', '-', ' '] ['2'] :=
    ⟨by simp, by simp [isSeparator, separatorClass], by decide, by decide⟩
  exact ⟨fits, absorbable,
    ((apply_absorbs _).2.2.1 fits ['1'] [' ', '-', ' '] ['2'] rfl absorbable).2.2⟩

/-! ## Offsets that wrap -/

theorem calls_blanks {blanks : List Char} (blank : ∀ c ∈ blanks, c = ' ') (some : blanks ≠ []) :
    calls [] ('1' :: (blanks ++ ['1'])) =
      [.keep ['1'], .absorb blanks ruleWhitespace .whitespace, .keep ['1']] := by
  obtain ⟨c, more, rfl⟩ := List.exists_cons_of_ne_nil some
  rw [List.forall_mem_cons] at blank
  obtain ⟨rfl, blank⟩ := blank
  have separators : ∀ c ∈ more, isSeparator c = true := by
    intro c member
    rw [blank c member]
    decide
  have ruled : ∀ c ∈ more, hasRule ruleWhitespace c = true := by
    intro c member
    rw [blank c member]
    decide
  have taken : (more ++ ['1']).takeWhile isSeparator = more := by
    rw [List.takeWhile_append_of_pos separators]
    simp [show isSeparator '1' = false by decide]
  have left : (more ++ ['1']).dropWhile isSeparator = ['1'] := by
    rw [List.dropWhile_append_of_pos separators]
    simp [show isSeparator '1' = false by decide]
  have grouped : runCalls (' ' :: more) = [.absorb (' ' :: more) ruleWhitespace .whitespace] := by
    have found : separatorClass ' ' = .some (ruleWhitespace, .whitespace) := by decide
    rw [runCalls, found]
    simp [List.takeWhile_eq_self_iff.mpr ruled, List.dropWhile_eq_nil_iff.mpr ruled, runCalls]
  rw [calls, if_pos (.inl (by decide)), List.cons_append, calls, if_neg (by decide), taken, left,
    if_pos (by decide), grouped, calls, if_pos (.inl (by decide)), calls]
  rfl

/-- Blanks whose number wraps to zero are booked as none. -/
theorem cost_of_wrapped {blanks : List Char} (blank : ∀ c ∈ blanks, c = ' ') (some : blanks ≠ [])
    (wraps : UInt32.ofNat blanks.length = 0) :
    ∀ segment ∈ (apply ('1' :: (blanks ++ ['1']))).2.segments, segment.cost = {} := by
  rw [apply_eq_build, calls_blanks blank some]
  have uncounted : clampU16 (saturatingSub 1 1) = 0 := by decide
  simp [build, Call.run, SpanMapBuilder.finish, SpanMapBuilder.keep, SpanMapBuilder.absorb,
    SpanMapBuilder.pushTransform, SpanMapBuilder.advanceSrc, SpanMapBuilder.advanceDst, pushIdentity,
    Span.charLen, some, wraps, uncounted, classify, Span.emptyAt, Span.isEmpty]

theorem not_recorded {blanks : List Char} (blank : ∀ c ∈ blanks, c = ' ') (some : blanks ≠ [])
    (wraps : UInt32.ofNat blanks.length = 0) :
    ¬ Recorded ('1' :: (blanks ++ ['1'])) (apply ('1' :: (blanks ++ ['1']))).2 ['1'] blanks := by
  rintro ⟨earlier, deletions, later, out, segmentsEq, -, -, total⟩
  have free : ∀ deletion ∈ deletions, deletion.cost = {} := by
    intro deletion member
    apply cost_of_wrapped blank some wraps
    rw [segmentsEq]
    simp [member]
  have nothing : (deletions.map Segment.cost).sum = 0 := by
    apply List.sum_eq_zero
    intro cost member
    obtain ⟨deletion, inside, rfl⟩ := List.mem_map.mp member
    exact free deletion inside
  have counted : blanks.countP (hasRule ruleWhitespace) = blanks.length := by
    rw [List.countP_eq_length]
    intro c member
    rw [blank c member]
    decide
  have many : 65535 ≤ blanks.length := by
    have positive := List.length_pos_iff.mpr some
    have modulo := congrArg UInt32.toNat wraps
    rw [UInt32.toNat_ofNat'] at modulo
    change blanks.length % 2 ^ 32 = 0 at modulo
    omega
  rw [nothing] at total
  have booked := congrArg NormalizationCost.absorbedWhitespace total
  rw [separatorCost, counted, Nat.min_eq_right many] at booked
  change (0 : UInt16) = UInt16.ofNat 65535 at booked
  exact absurd booked (by decide)

/-- As many blanks as there are offsets, between two digits, are booked as none. -/
theorem not_recorded_wrapped :
    Absorbable ['1'] (List.replicate (2 ^ 32) ' ') ['1'] ∧
      ¬ Recorded ('1' :: (List.replicate (2 ^ 32) ' ' ++ ['1']))
        (apply ('1' :: (List.replicate (2 ^ 32) ' ' ++ ['1']))).2 ['1']
        (List.replicate (2 ^ 32) ' ') := by
  generalize blanksEq : List.replicate (2 ^ 32) ' ' = blanks
  have blank : ∀ c ∈ blanks, c = ' ' := by
    intro c member
    rw [← blanksEq] at member
    exact List.eq_of_mem_replicate member
  have length : blanks.length = 2 ^ 32 := by rw [← blanksEq, List.length_replicate]
  have some : blanks ≠ [] := by
    rintro rfl
    exact absurd length (by decide)
  have wraps : UInt32.ofNat blanks.length = 0 := by
    rw [length]
    rfl
  refine ⟨⟨some, ?_, by decide, by decide⟩, not_recorded blank some wraps⟩
  intro c member
  rw [blank c member]
  decide

end AiCoreStack.Pii.Separator
