import AiCoreStack.Foundation.Text

/-!
# Words and lines

What the operations that cut a text leave of it: the words are solid, a collapsed text has
single blanks inside and none at its ends, and text written line by line has these lines.
-/

namespace AiCoreStack.Foundation

section Words

variable {α : Type} {blank : α → Bool}

/-- A text without blanks. -/
def Solid (blank : α → Bool) (text : List α) : Prop := ∀ c ∈ text, blank c = false

/-- A text without blanks at its ends. -/
structure Tight (blank : α → Bool) (text : List α) : Prop where
  head : ∀ c ∈ text.head?, blank c = false
  last : ∀ c ∈ text.getLast?, blank c = false

theorem Solid.tight {text : List α} (solid : Solid blank text) : Tight blank text where
  head c first := solid c (List.mem_of_mem_head? first)
  last c final := solid c (List.mem_of_mem_getLast? final)

/-- Induction over a text that is cut at its blanks. -/
theorem blank_induction (blank : α → Bool) {motive : List α → Prop}
    (whole : ∀ text, Solid blank text → motive text)
    (cut : ∀ front c rest, Solid blank front → blank c = true → motive rest →
      motive (front ++ c :: rest)) (text : List α) : motive text := by
  have behind (front : List α) (solid : Solid blank front) : motive (front ++ text) := by
    induction text generalizing front with
    | nil =>
        rw [List.append_nil]
        exact whole front solid
    | cons c rest ih =>
        cases isBlank : blank c with
        | true => exact cut front c rest solid isBlank (ih [] (by simp [Solid]))
        | false =>
            have longer : Solid blank (front ++ [c]) := by
              intro d member
              rcases List.mem_append.mp member with before | here
              · exact solid d before
              · rw [List.mem_singleton.mp here, isBlank]
            simpa using ih (front ++ [c]) longer
  exact behind [] (by simp [Solid])

theorem words_append_cons {c : α} (isBlank : blank c = true) (front rest : List α) :
    words blank (front ++ c :: rest) = words blank front ++ words blank rest := by
  rw [words, List.splitOnP_append_cons _ _ isBlank, List.filter_append]
  rfl

theorem words_of_solid {text : List α} (solid : Solid blank text) :
    words blank text = [text].filter fun word => !word.isEmpty := by
  rw [words, List.splitOnP_eq_singleton solid]

theorem mem_words {text word : List α} (member : word ∈ words blank text) :
    word ≠ [] ∧ Solid blank word := by
  induction text using blank_induction blank with
  | whole text solid =>
      rw [words_of_solid solid, List.mem_filter, List.mem_singleton] at member
      obtain ⟨rfl, present⟩ := member
      exact ⟨by simpa using present, solid⟩
  | cut front c rest solid isBlank ih =>
      rw [words_append_cons isBlank, List.mem_append] at member
      rcases member with before | behind
      · rw [words_of_solid solid, List.mem_filter, List.mem_singleton] at before
        obtain ⟨rfl, present⟩ := before
        exact ⟨by simpa using present, solid⟩
      · exact ih behind

/-! ## Joined words -/

theorem intercalate_ne_nil {separator : List α} {first : List α} (nonempty : first ≠ [])
    (rest : List (List α)) : separator.intercalate (first :: rest) ≠ [] := by
  cases rest with
  | nil => simpa using nonempty
  | cons next rest =>
      rw [List.intercalate_cons_cons]
      simp [nonempty]

theorem tight_intercalate {separator : List α} {parts : List (List α)}
    (solid : ∀ part ∈ parts, part ≠ [] ∧ Solid blank part) :
    Tight blank (separator.intercalate parts) := by
  induction parts with
  | nil => exact ⟨by simp, by simp⟩
  | cons part parts ih =>
      obtain ⟨⟨nonempty, here⟩, later⟩ := List.forall_mem_cons.mp solid
      cases parts with
      | nil => simpa using here.tight
      | cons next rest =>
          obtain ⟨first, others, rfl⟩ := List.exists_cons_of_ne_nil nonempty
          have present : separator.intercalate (next :: rest) ≠ [] :=
            intercalate_ne_nil (List.forall_mem_cons.mp later).1.1 rest
          rw [List.intercalate_cons_cons]
          constructor
          · intro c head
            exact here.tight.head c head
          · intro c final
            rw [List.getLast?_append_of_ne_nil _ present] at final
            exact (ih later).last c final

/-- What trimming takes away is blank. -/
theorem exists_append_trim (blank : α → Bool) (text : List α) :
    ∃ front back, text = front ++ trim blank text ++ back ∧
      (∀ c ∈ front, blank c = true) ∧ ∀ c ∈ back, blank c = true := by
  refine ⟨text.takeWhile blank, (text.dropWhile blank).rtakeWhile blank, ?_, ?_, ?_⟩
  · rw [trim, List.append_assoc, List.rdropWhile_append_rtakeWhile,
      List.takeWhile_append_dropWhile]
  · exact fun c => List.mem_takeWhile_imp
  · exact fun c => List.mem_rtakeWhile_imp

theorem tight_trim (blank : α → Bool) (text : List α) : Tight blank (trim blank text) where
  head c first := by
    obtain ⟨rest, whole⟩ := List.rdropWhile_prefix blank (text.dropWhile blank)
    have stopped := List.head?_dropWhile_not blank text
    rw [← whole, List.head?_append, ← trim, Option.mem_def.mp first] at stopped
    simpa using stopped
  last c final := by
    rw [trim] at final
    obtain ⟨present, rfl⟩ := List.mem_getLast?_eq_getLast final
    simpa using List.rdropWhile_last_not blank _ present

/-- Trimming removes the blanks around a tight text. -/
theorem trim_between {c : α} (isBlank : blank c = true) {text : List α}
    (tight : Tight blank text) : trim blank (c :: text ++ [c]) = text := by
  rw [trim, List.cons_append, List.dropWhile_cons_of_pos isBlank]
  cases text with
  | nil => simp [isBlank]
  | cons first rest =>
      have front : blank first = false := tight.head first rfl
      rw [List.cons_append, List.dropWhile_cons_of_neg (by simp [front]), ← List.cons_append,
        List.rdropWhile_concat_pos _ _ _ isBlank, List.rdropWhile_eq_self_iff]
      intro nonempty
      simpa using tight.last _ (List.getLast?_eq_some_getLast nonempty)

/-- Texts that are joined with a blank keep their words. -/
theorem words_intercalate {c : α} (isBlank : blank c = true) (parts : List (List α)) :
    words blank ([c].intercalate parts) = parts.flatMap (words blank) := by
  induction parts with
  | nil => rfl
  | cons part parts ih =>
      cases parts with
      | nil => simp
      | cons next rest =>
          rw [List.intercalate_cons_cons, List.append_assoc, List.singleton_append,
            words_append_cons isBlank, ih]
          rfl

/-- A blank at the end adds no word. -/
theorem words_snoc {c : α} (isBlank : blank c = true) (text : List α) :
    words blank (text ++ [c]) = words blank text := by
  rw [words_append_cons isBlank]
  exact List.append_nil _

end Words

/-! ## Strings -/

theorem words_collapse (text : List Char) :
    words isWhitespace (collapse text) = words isWhitespace text := by
  have single {word : List Char} (member : word ∈ words isWhitespace text) :
      words isWhitespace word = [word] := by
    obtain ⟨nonempty, solid⟩ := mem_words member
    rw [words_of_solid solid]
    simp [nonempty]
  rw [collapse, words_intercalate rfl, List.flatMap_congr fun word member => single member]
  exact List.flatMap_singleton' _

theorem collapse_eq_nil_iff (text : List Char) :
    collapse text = [] ↔ words isWhitespace text = [] := by
  constructor
  · intro empty
    rw [← words_collapse, empty]
    rfl
  · intro none
    rw [collapse, none]
    rfl

theorem tight_collapse (text : List Char) : Tight isWhitespace (collapse text) :=
  tight_intercalate fun _ member => mem_words member

/-- Spaces are the only blanks of a collapsed text. -/
theorem eq_space_of_mem_collapse {text : List Char} {c : Char} (member : c ∈ collapse text)
    (isBlank : isWhitespace c = true) : c = ' ' := by
  have parts (words : List (List Char)) (solid : ∀ word ∈ words, Solid isWhitespace word)
      (member : c ∈ [' '].intercalate words) : c = ' ' := by
    induction words with
    | nil => simp at member
    | cons word words ih =>
        obtain ⟨here, later⟩ := List.forall_mem_cons.mp solid
        cases words with
        | nil =>
            rw [List.intercalate_singleton] at member
            exact absurd isBlank (by simp [here c member])
        | cons next rest =>
            rw [List.intercalate_cons_cons, List.mem_append, List.mem_append,
              List.mem_singleton] at member
            rcases member with (before | space) | behind
            · exact absurd isBlank (by simp [here c before])
            · exact space
            · exact ih later behind
  exact parts _ (fun _ member => (mem_words member).2) member

theorem not_isWhitespace_of_isDigit {c : Char} (digit : c.isDigit = true) :
    isWhitespace c = false := by
  obtain ⟨low, high⟩ : 48 ≤ c.toNat ∧ c.toNat ≤ 57 := by
    simpa [Char.isDigit, UInt32.le_iff_toNat_le] using digit
  simp only [isWhitespace, decide_eq_false_iff_not]
  omega

/-! ## Pieces between line feeds -/

theorem infix_intercalate {α : Type} (separator : List α) {parts : List (List α)} {part : List α}
    (member : part ∈ parts) : part <:+: separator.intercalate parts := by
  induction parts with
  | nil => exact absurd member List.not_mem_nil
  | cons first rest ih =>
      cases rest with
      | nil =>
          rw [List.mem_singleton.mp member, List.intercalate_singleton]
      | cons next rest =>
          rw [List.intercalate_cons_cons, List.append_assoc]
          rcases List.mem_cons.mp member with rfl | later
          · exact (List.prefix_append _ _).isInfix
          · exact (ih later).trans ((List.suffix_append separator _).trans
              (List.suffix_append first _)).isInfix

theorem infix_of_mem_splitOn {c : Char} {text piece : List Char}
    (member : piece ∈ text.splitOn c) : piece <:+: text := by
  have inside := infix_intercalate [c] member
  rwa [List.intercalate_splitOn] at inside

theorem notMem_of_mem_splitOn {c : Char} {text piece : List Char}
    (member : piece ∈ text.splitOn c) : c ∉ piece := by
  induction text using blank_induction (· == c) with
  | whole text solid =>
      have absent : c ∉ text := fun inside => by simpa using solid _ inside
      rw [List.splitOn_eq_singleton absent, List.mem_singleton] at member
      rwa [member]
  | cut front d rest solid isBlank ih =>
      have absent : c ∉ front := fun inside => by simpa using solid _ inside
      rw [eq_of_beq isBlank, List.splitOn_append_cons_self_of_not_mem absent,
        List.mem_cons] at member
      obtain rfl | behind := member
      · exact absent
      · exact ih behind

/-- The pieces of a text, each with the separator behind it. -/
theorem flatMap_splitOn (c : Char) (text : List Char) :
    (text.splitOn c).flatMap (fun piece => piece ++ [c]) = text ++ [c] := by
  induction text using blank_induction (· == c) with
  | whole text solid =>
      have absent : c ∉ text := fun inside => by simpa using solid _ inside
      rw [List.splitOn_eq_singleton absent, List.flatMap_singleton]
  | cut front d rest solid isBlank ih =>
      have absent : c ∉ front := fun inside => by simpa using solid _ inside
      rw [eq_of_beq isBlank, List.splitOn_append_cons_self_of_not_mem absent, List.flatMap_cons, ih,
        List.append_assoc, List.append_assoc, List.singleton_append, List.cons_append]

theorem splitOn_snoc (text : List Char) (c : Char) :
    (text ++ [c]).splitOn c = text.splitOn c ++ [[]] :=
  List.splitOn_append_cons_self text []

/-- Line feeds at the end only add empty pieces. -/
theorem splitOn_rdropWhile (text : List Char) :
    ∃ count, text.splitOn '\n' =
      (text.rdropWhile (· == '\n')).splitOn '\n' ++ List.replicate count [] := by
  induction text using List.reverseRecOn with
  | nil => exact ⟨0, rfl⟩
  | append_singleton text c ih =>
      by_cases feed : c = '\n'
      · obtain ⟨count, pieces⟩ := ih
        refine ⟨count + 1, ?_⟩
        rw [feed, List.rdropWhile_concat_pos _ _ _ rfl, splitOn_snoc, pieces, List.append_assoc,
          List.replicate_succ']
      · refine ⟨0, ?_⟩
        rw [List.rdropWhile_concat_neg _ _ _ (by simpa using feed), List.replicate_zero,
          List.append_nil]

/-- The lines of a text: a line feed ends each of them, and may be missing at the end. -/
def feedLines (text : List Char) : List (List Char) :=
  let pieces := text.splitOn '\n'
  if pieces.getLast? = some [] then pieces.dropLast else pieces

theorem feedLines_snoc (text : List Char) : feedLines (text ++ ['\n']) = text.splitOn '\n' := by
  rw [feedLines, splitOn_snoc]
  simp

/-- Text that is written line by line is cut into these lines, and nothing behind the last. -/
theorem splitOn_flatMap {rows : List (List Char)} (flat : ∀ row ∈ rows, '\n' ∉ row) :
    (rows.flatMap fun row => row ++ ['\n']).splitOn '\n' = rows ++ [[]] := by
  induction rows with
  | nil => rfl
  | cons row rows ih =>
      obtain ⟨here, later⟩ := List.forall_mem_cons.mp flat
      rw [List.flatMap_cons, List.append_assoc, List.singleton_append,
        List.splitOn_append_cons_self_of_not_mem here, ih later, List.cons_append]

/-- Text that is written line by line has these lines. -/
theorem lines_flatMap {rows : List (List Char)} (flat : ∀ row ∈ rows, '\n' ∉ row)
    (ends : ∀ row ∈ rows, row.getLast? ≠ some '\r') :
    lines (rows.flatMap fun row => row ++ ['\n']) = rows := by
  have pieces := splitOn_flatMap flat
  rw [List.splitOn_eq_splitOnP] at pieces
  have kept : rows.map (fun row => if row.getLast? = some '\r' then row.dropLast else row) = rows := by
    rw [List.map_congr_left fun row member => if_neg (ends row member), List.map_id']
  simp [lines, pieces, kept]

end AiCoreStack.Foundation
