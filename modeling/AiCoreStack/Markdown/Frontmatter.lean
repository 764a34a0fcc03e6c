import AiCoreStack.Foundation.Yaml
import AiCoreStack.Foundation.Words
import AiCoreStack.Markdown.Ir

/-!
# Frontmatter

Model of the frontmatter of `renderer.rs`, and a reader for it: a block mapping of scalars between
two delimiter lines.  A field that is written on one line and read as its value leaves the fields
behind it alone; a field that is not makes the whole frontmatter wrong.
-/

namespace AiCoreStack.Markdown

open AiCoreStack.Foundation

/-! ## Writing -/

/-- `str::replace` for a single character. -/
def replaceChar (c : Char) (replacement text : List Char) : List Char :=
  text.flatMap fun d => if d = c then replacement else [d]

/-- The characters that a scalar is quoted for at its start. -/
def startIndicators : List Char := "-?*&!%@`[\x7b>|".toList

def needsQuote (s : List Char) : Bool :=
  ':' ∈ s ∨ '#' ∈ s ∨ '"' ∈ s ∨ s.head?.any isWhitespace ∨ s.getLast?.any isWhitespace ∨
    s.head?.any (· ∈ startIndicators)

/-- `yaml_scalar` -/
def yamlScalar (s : List Char) : List Char :=
  if s = [] then "\"\"".toList
  else if needsQuote s then
    '"' :: replaceChar '"' ['\\', '"'] (replaceChar '\\' ['\\', '\\'] s) ++ ['"']
  else s

/-- The name of a format in lower case. -/
def SourceFormat.name : SourceFormat → List Char
  | .docx => "docx".toList
  | .pptx => "pptx".toList
  | .xlsx => "xlsx".toList
  | .hwp => "hwp".toList
  | .hwpx => "hwpx".toList
  | .pdf => "pdf".toList
  | .html => "html".toList
  | .markdown => "markdown".toList
  | .epub => "epub".toList
  | .rtf => "rtf".toList
  | .odt => "odt".toList
  | .unknown => "unknown".toList

/-- A field as it is written. -/
def field (key value : List Char) : List Char := key ++ ": ".toList ++ value

/-- A field that may be absent. -/
def optionalField {α : Type} (key : List Char) (write : α → List Char) (value : Option α) :
    List Char :=
  match value with
  | some value => field key (write value) ++ ['\n']
  | none => []

/-- `render_frontmatter` -/
def renderFrontmatter (metadata : DocumentMetadata) : List Char :=
  "---".toList ++ ['\n'] ++
    (field "title".toList (yamlScalar (metadata.title.getD [])) ++ ['\n']) ++
    (field "author".toList (yamlScalar (metadata.author.getD [])) ++ ['\n']) ++
    (field "source_format".toList metadata.sourceFormat.name ++ ['\n']) ++
    (field "original_filename".toList (yamlScalar metadata.originalFilename) ++ ['\n']) ++
    optionalField "page_count".toList (Nat.toDigits 10) metadata.pageCount ++
    optionalField "language".toList yamlScalar metadata.language ++
    optionalField "created_at".toList id metadata.createdAt ++
    "---".toList ++ ['\n'] ++ ['\n']

/-! ## Reading -/

/-- The fields between two delimiter lines, and the lines behind. -/
def readFrontmatter (text : List Char) :
    Option (List (List Char × Yaml.Scalar) × List (List Char)) :=
  match text.splitOn '\n' with
  | [] => none
  | opening :: rest =>
      if opening = "---".toList then
        match rest.dropWhile (· != "---".toList) with
        | [] => none
        | _ :: behind =>
            ((rest.takeWhile (· != "---".toList)).mapM Yaml.readField).map
              fun fields => (fields, behind)
      else none

/-- A field with the value it stands for. -/
structure Entry where
  key : List Char
  written : List Char
  value : Yaml.Scalar

namespace Entry

def line (entry : Entry) : List Char := field entry.key entry.written

/-- The key is written as it is read. -/
def Keyed (entry : Entry) : Prop := ':' ∉ entry.key ∧ '\n' ∉ entry.key

/-- The value is read from the first line of what is written. -/
def Reads (entry : Entry) : Prop :=
  Yaml.readScalar (entry.written.takeWhile (· != '\n')) = some entry.value

/-- What is read is written on one line. -/
def Flat (entry : Entry) : Prop := entry.Reads → '\n' ∉ entry.written

theorem readField_line {key : List Char} (keyed : ':' ∉ key) (value : List Char) :
    Yaml.readField (field key value) = (Yaml.readScalar value).map fun scalar => (key, scalar) := by
  have front : ∀ c ∈ key, (c != ':') = true := by
    intro c member
    exact bne_iff_ne.mpr fun colon => keyed (by rwa [← colon])
  have split : field key value = key ++ ':' :: ' ' :: value := by
    rw [field, List.append_assoc]
    rfl
  rw [Yaml.readField, split, List.dropWhile_append_of_pos front, List.takeWhile_append_of_pos front]
  simp

/-- The first line of a field. -/
theorem takeWhile_line {entry : Entry} (keyed : entry.Keyed) :
    entry.line.takeWhile (· != '\n') =
      field entry.key (entry.written.takeWhile (· != '\n')) := by
  have front : ∀ c ∈ entry.key ++ ": ".toList, (c != '\n') = true := by
    intro c member
    rcases List.mem_append.mp member with inKey | inMark
    · exact bne_iff_ne.mpr fun feed => keyed.2 (by rwa [← feed])
    · have mark : c = ':' ∨ c = ' ' := by simpa using inMark
      rcases mark with rfl | rfl
      · rfl
      · rfl
  exact List.takeWhile_append_of_pos front

theorem line_ne_delimiter (key value : List Char) : field key value ≠ "---".toList := by
  intro same
  have colon : ':' ∈ field key value := by
    rw [field, List.mem_append, List.mem_append]
    exact .inl (.inr (by decide))
  rw [same] at colon
  exact absurd colon (by decide)

theorem notMem_line {entry : Entry} (keyed : entry.Keyed) (flat : '\n' ∉ entry.written) :
    '\n' ∉ entry.line := by
  rw [line, field, List.mem_append, List.mem_append]
  rintro ((inKey | inMark) | inValue)
  · exact keyed.2 inKey
  · exact absurd inMark (by decide)
  · exact flat inValue

/-- The entries line by line. -/
def writeAll (entries : List Entry) : List Char := entries.flatMap fun entry => entry.line ++ ['\n']

theorem splitOn_writeAll {entries : List Entry} (keyed : ∀ entry ∈ entries, entry.Keyed)
    (flat : ∀ entry ∈ entries, '\n' ∉ entry.written) (rest : List Char) :
    (writeAll entries ++ rest).splitOn '\n' = entries.map line ++ rest.splitOn '\n' := by
  induction entries with
  | nil => rfl
  | cons entry entries ih =>
      obtain ⟨here, later⟩ := List.forall_mem_cons.mp keyed
      obtain ⟨hereFlat, laterFlat⟩ := List.forall_mem_cons.mp flat
      rw [writeAll, List.flatMap_cons, List.append_assoc, List.append_assoc, List.singleton_append,
        List.splitOn_append_cons_self, List.splitOn_eq_singleton (notMem_line here hereFlat),
        ← writeAll, ih later laterFlat]
      rfl

theorem splitOn_line_cons (text rest : List Char) :
    ∃ more, (text ++ '\n' :: rest).splitOn '\n' = text.takeWhile (· != '\n') :: more := by
  induction text with
  | nil => exact ⟨_, List.splitOn_append_cons_self [] rest⟩
  | cons c text ih =>
      obtain ⟨more, split⟩ := ih
      rw [List.cons_append, List.splitOn_cons_eq_if_modifyHead, split]
      by_cases feed : c = '\n'
      · exact ⟨_, by simp [feed]; rfl⟩
      · exact ⟨more, by simp [feed]⟩

theorem mapM_cons_eq_some {α β : Type} {f : α → Option β} {first : α} {rest : List α} {value : β}
    {values : List β} :
    (first :: rest).mapM f = some (value :: values) ↔
      f first = some value ∧ rest.mapM f = some values := by
  rw [List.mapM_cons]
  cases f first <;> cases rest.mapM f <;> simp

/-- If the fields are read as the values of the entries, then every entry is read. -/
theorem reads_of_mapM {entries : List Entry} (keyed : ∀ entry ∈ entries, entry.Keyed)
    (flat : ∀ entry ∈ entries, entry.Flat) {rest : List Char}
    (read : (((writeAll entries ++ rest).splitOn '\n').takeWhile (· != "---".toList)).mapM
        Yaml.readField = some (entries.map fun entry => (entry.key, entry.value))) :
    ∀ entry ∈ entries, entry.Reads := by
  induction entries with
  | nil => simp
  | cons entry entries ih =>
      obtain ⟨here, later⟩ := List.forall_mem_cons.mp keyed
      obtain ⟨hereFlat, laterFlat⟩ := List.forall_mem_cons.mp flat
      have parts : writeAll (entry :: entries) ++ rest =
          entry.line ++ '\n' :: (writeAll entries ++ rest) := by
        rw [writeAll, List.flatMap_cons, List.append_assoc, List.append_assoc,
          List.singleton_append, ← writeAll]
      have differs : (entry.line.takeWhile (· != '\n') != "---".toList) = true := by
        rw [takeWhile_line here]
        exact bne_iff_ne.mpr (line_ne_delimiter _ _)
      obtain ⟨more, split⟩ := splitOn_line_cons entry.line (writeAll entries ++ rest)
      rw [parts] at read
      -- the first line of the entry is read in any case, and then the entry is one line
      have reads : entry.Reads := by
        rw [split, List.takeWhile_cons, if_pos differs, takeWhile_line here, List.map_cons,
          mapM_cons_eq_some, readField_line here.1] at read
        obtain ⟨scalar, found, same⟩ := Option.map_eq_some_iff.mp read.1
        rw [Reads, found, (Prod.mk.inj same).2]
      have single := notMem_line here (hereFlat reads)
      have whole : (entry.line != "---".toList) = true := bne_iff_ne.mpr (line_ne_delimiter _ _)
      rw [List.splitOn_append_cons_self, List.splitOn_eq_singleton single, List.singleton_append,
        List.takeWhile_cons, if_pos whole, List.map_cons, mapM_cons_eq_some] at read
      exact List.forall_mem_cons.mpr ⟨reads, ih later laterFlat read.2⟩

/-- Entries that are read are read together. -/
theorem mapM_lines {entries : List Entry} (keyed : ∀ entry ∈ entries, entry.Keyed)
    (flat : ∀ entry ∈ entries, entry.Flat) (reads : ∀ entry ∈ entries, entry.Reads) :
    (entries.map line).mapM Yaml.readField =
      some (entries.map fun entry => (entry.key, entry.value)) := by
  induction entries with
  | nil => rfl
  | cons entry entries ih =>
      obtain ⟨here, later⟩ := List.forall_mem_cons.mp keyed
      obtain ⟨hereFlat, laterFlat⟩ := List.forall_mem_cons.mp flat
      obtain ⟨hereReads, laterReads⟩ := List.forall_mem_cons.mp reads
      have whole : entry.written.takeWhile (· != '\n') = entry.written := by
        apply List.takeWhile_eq_self_iff.mpr
        intro c member
        exact bne_iff_ne.mpr fun feed => hereFlat hereReads (by rwa [← feed])
      rw [Reads, whole] at hereReads
      rw [List.map_cons, List.map_cons, mapM_cons_eq_some, line, readField_line here.1, hereReads]
      exact ⟨rfl, ih later laterFlat laterReads⟩

/-- Entries between delimiter lines are read exactly when each of them is. -/
theorem readFrontmatter_iff {entries : List Entry} (keyed : ∀ entry ∈ entries, entry.Keyed)
    (flat : ∀ entry ∈ entries, entry.Flat) :
    (∀ body, readFrontmatter ("---".toList ++ '\n' :: (writeAll entries ++
        ("---".toList ++ '\n' :: '\n' :: body))) =
      some (entries.map fun entry => (entry.key, entry.value), [] :: body.splitOn '\n')) ↔
      ∀ entry ∈ entries, entry.Reads := by
  have opening (rest : List Char) : ("---".toList ++ '\n' :: rest).splitOn '\n' =
      "---".toList :: rest.splitOn '\n' := by
    rw [List.splitOn_append_cons_self, List.splitOn_eq_singleton (by decide)]
    rfl
  constructor
  · intro read
    have read := read []
    rw [readFrontmatter, opening] at read
    simp only [if_true] at read
    split at read
    · exact absurd read (by simp)
    · obtain ⟨fields, found, same⟩ := Option.map_eq_some_iff.mp read
      apply reads_of_mapM keyed flat
      rw [found, (Prod.mk.inj same).1]
  · intro reads body
    have single : ∀ entry ∈ entries, '\n' ∉ entry.written :=
      fun entry member => flat entry member (reads entry member)
    have differ : ∀ text ∈ entries.map line, (text != "---".toList) = true := by
      rw [List.forall_mem_map]
      exact fun entry _ => bne_iff_ne.mpr (line_ne_delimiter _ _)
    have behind : ('\n' :: body).splitOn '\n' = [] :: body.splitOn '\n' :=
      List.splitOn_append_cons_self [] body
    rw [readFrontmatter, opening]
    simp only [if_true]
    rw [splitOn_writeAll keyed single, opening, behind, List.dropWhile_append_of_pos differ,
      List.takeWhile_append_of_pos differ, List.dropWhile_cons, if_neg (by simp),
      List.takeWhile_cons, if_neg (by simp), List.append_nil, mapM_lines keyed flat reads]
    rfl

end Entry

end AiCoreStack.Markdown
