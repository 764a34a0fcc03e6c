import AiCoreStack.Markdown.Frontmatter

/-!
# Which frontmatter is read back

A string survives its scalar when it is quoted and has no control character but tabs, or when
it is not quoted and is a plain YAML scalar of type string.  Frontmatter is well formed exactly when
its title, its author, the file name and the language all survive.
-/

namespace AiCoreStack.Markdown

open AiCoreStack.Foundation

/-! ## Strings that survive -/

/-- The characters that `yaml_scalar` overlooks at the start of a plain scalar. -/
def overlooked : List Char := "',]\x7d".toList

/-- Whether a string is read back from its scalar. -/
def survives (s : List Char) : Bool :=
  if needsQuote s then s.all Yaml.isQuotable
  else s.all Yaml.isPrintable ∧ s.head?.all (· ∉ overlooked) = true ∧ Yaml.isTyped s = false

theorem replaceChar_escape (s : List Char) :
    replaceChar '"' ['\\', '"'] (replaceChar '\\' ['\\', '\\'] s) = Yaml.escapeDouble s := by
  rw [replaceChar, replaceChar, List.flatMap_assoc, Yaml.escapeDouble]
  apply List.flatMap_congr
  intro c _
  by_cases backslash : c = '\\'
  · subst backslash
    rfl
  · by_cases quote : c = '"'
    · subst quote
      rfl
    · simp [backslash, quote]

/-- What is read from the first line of a quoted scalar. -/
theorem readScalar_quoted (s : List Char) :
    Yaml.readScalar (('"' :: Yaml.escapeDouble s ++ ['"']).takeWhile (· != '\n')) = some (.str s) ↔
      s.all Yaml.isQuotable = true := by
  have opening : ('"' :: Yaml.escapeDouble s ++ ['"']).takeWhile (· != '\n') =
      '"' :: (Yaml.escapeDouble s ++ ['"']).takeWhile (· != '\n') :=
    List.takeWhile_cons_of_pos (by decide)
  have read (text : List Char) : Yaml.readScalar ('"' :: text) =
      (Yaml.readDouble .done text).bind fun read =>
        if Yaml.endsScalar read.2 then some (.str read.1) else none := rfl
  rw [opening, read]
  cases quotable : s.all Yaml.isQuotable with
  | true =>
      have flat : ∀ c ∈ Yaml.escapeDouble s ++ ['"'], (c != '\n') = true := by
        intro c member
        rw [bne_iff_ne]
        rintro rfl
        rcases List.mem_append.mp member with inside | closing
        · rcases Yaml.mem_escapeDouble inside with backslash | written
          · exact absurd backslash (by decide)
          · exact absurd (List.all_eq_true.mp quotable _ written) (by decide)
        · exact absurd closing (by decide)
      rw [List.takeWhile_eq_self_iff.mpr flat, Yaml.readDouble_escapeDouble quotable]
      exact iff_of_true rfl rfl
  | false =>
      rw [Yaml.readDouble_unquotable quotable]
      simp

/-- What a string that is not quoted looks like. -/
structure Bare (s : List Char) : Prop where
  colon : ':' ∉ s
  comment : '#' ∉ s
  quote : '"' ∉ s
  head : ∀ c ∈ s.head?, isWhitespace c = false ∧ c ∉ startIndicators
  last : ∀ c ∈ s.getLast?, isWhitespace c = false

theorem bare_of_needsQuote {s : List Char} (unquoted : needsQuote s = false) : Bare s := by
  simp only [needsQuote, decide_eq_false_iff_not, not_or, Option.any_eq_true, not_exists, not_and,
    Bool.not_eq_true, decide_eq_true_eq] at unquoted
  obtain ⟨colon, comment, quote, head, last, start⟩ := unquoted
  exact ⟨colon, comment, quote, fun c member => ⟨head c member, start c member⟩, last⟩

theorem isWhitespace_of_isWhite {c : Char} (white : Yaml.isWhite c = true) :
    isWhitespace c = true := by
  simp only [Yaml.isWhite, decide_eq_true_eq] at white
  rcases white with rfl | rfl
  · rfl
  · rfl

theorem isWhite_of_isWhitespace {c : Char} (solid : isWhitespace c = false) :
    Yaml.isWhite c = false := by
  by_contra white
  exact absurd (isWhitespace_of_isWhite (by simpa using white)) (by simp [solid])

theorem mem_indicators (c : Char) :
    c ∈ Yaml.indicators ↔
      c ∈ startIndicators ∨ c ∈ overlooked ∨ c = ':' ∨ c = '#' ∨ c = '"' := by
  have parts : Yaml.indicators.Perm (startIndicators ++ (overlooked ++ [':', '#', '"'])) := by
    decide
  rw [parts.mem_iff, List.mem_append, List.mem_append]
  simp

/-- An unquoted string is plain exactly when its characters are printable and its start was not
overlooked. -/
theorem isPlain_iff {c : Char} {rest : List Char} (bare : Bare (c :: rest)) :
    Yaml.isPlain (c :: rest) = true ↔
      (c :: rest).all Yaml.isPrintable = true ∧ c ∉ overlooked := by
  have colon : c ≠ ':' := fun same => bare.colon (by simp [same])
  have comment : c ≠ '#' := fun same => bare.comment (by simp [same])
  have quote : c ≠ '"' := fun same => bare.quote (by simp [same])
  have start := (bare.head c rfl).2
  have mark : c ∉ "?:-".toList := by
    intro member
    have cases : c = '?' ∨ c = ':' ∨ c = '-' := by simpa using member
    rcases cases with rfl | rfl | rfl
    · exact start (by decide)
    · exact colon rfl
    · exact start (by decide)
  simp only [Yaml.isPlain, Yaml.isPlainText_iff bare.colon, mem_indicators, start, colon, comment,
    quote, mark, false_or, or_false, false_and, decide_eq_true_eq]
  exact and_comm

/-- What is read from the first line of a string that is not quoted. -/
theorem readScalar_bare {c : Char} {rest : List Char} (bare : Bare (c :: rest)) :
    Yaml.readScalar ((c :: rest).takeWhile (· != '\n')) = some (.str (c :: rest)) ↔
      (c :: rest).all Yaml.isPrintable = true ∧ c ∉ overlooked ∧
        Yaml.isTyped (c :: rest) = false := by
  have solid := (bare.head c rfl).1
  have white := isWhite_of_isWhitespace solid
  have double : c ≠ '"' := fun same => bare.quote (by simp [same])
  have start : c ≠ '\n' := by
    rintro rfl
    exact absurd solid (by decide)
  by_cases feed : '\n' ∈ c :: rest
  · -- the string is longer than its first line
    have printable : (c :: rest).all Yaml.isPrintable = false := by
      rw [List.all_eq_false]
      exact ⟨'\n', feed, by decide⟩
    rw [printable]
    refine iff_of_false (fun read => ?_) (by simp)
    rw [List.takeWhile_cons_of_pos (by simpa using start)] at read
    have short := Yaml.length_of_readScalar white double read
    rw [List.length_cons, List.length_cons, Nat.add_le_add_iff_right] at short
    have whole := (List.takeWhile_prefix _).eq_of_length_le short
    have kept := List.takeWhile_eq_self_iff.mp whole '\n'
      ((List.mem_cons.mp feed).resolve_left (Ne.symm start))
    exact absurd kept (by decide)
  · have flat : ∀ d ∈ c :: rest, (d != '\n') = true :=
      fun d member => bne_iff_ne.mpr fun same => feed (by rwa [← same])
    rw [List.takeWhile_eq_self_iff.mpr flat]
    by_cases single : c = '\''
    · subst single
      exact iff_of_false (Yaml.readScalar_single_ne rest) (fun safe => safe.2.1 (by decide))
    · rw [Yaml.readScalar_plain white double single bare.comment fun d member =>
          isWhite_of_isWhitespace (bare.last d member), ← and_assoc, ← isPlain_iff bare]
      split
      next plain =>
        rw [Option.some_inj, Yaml.resolve_eq_str_iff]
        simp [plain]
      next plain => simp [plain]

/-- A string is read from the first line of its scalar exactly when it survives. -/
theorem readScalar_yamlScalar (s : List Char) :
    Yaml.readScalar ((yamlScalar s).takeWhile (· != '\n')) = some (.str s) ↔
      survives s = true := by
  rw [yamlScalar, survives]
  cases s with
  | nil => decide
  | cons c rest =>
      rw [if_neg (List.cons_ne_nil _ _)]
      cases quoted : needsQuote (c :: rest) with
      | true =>
          rw [if_pos rfl, if_pos rfl, replaceChar_escape]
          exact readScalar_quoted (c :: rest)
      | false =>
          rw [if_neg (by decide), if_neg (by decide), readScalar_bare (bare_of_needsQuote quoted)]
          simp

/-- What survives is written on one line. -/
theorem notMem_yamlScalar {s : List Char} (safe : survives s = true) : '\n' ∉ yamlScalar s := by
  rw [survives] at safe
  rw [yamlScalar]
  split
  · decide
  · split at safe
    next quoted =>
      rw [if_pos quoted, replaceChar_escape]
      intro member
      rcases List.mem_append.mp member with front | closing
      · rcases List.mem_cons.mp front with opening | inside
        · exact absurd opening (by decide)
        · rcases Yaml.mem_escapeDouble inside with backslash | written
          · exact absurd backslash (by decide)
          · exact absurd (List.all_eq_true.mp safe _ written) (by decide)
      · exact absurd closing (by decide)
    next bare =>
      rw [if_neg bare]
      intro member
      have printable := (of_decide_eq_true safe).1
      exact absurd (List.all_eq_true.mp printable _ member) (by decide)

/-! ## The other values -/

/-- A date, a `T`, and a time with its offset: the text of `to_rfc3339`. -/
structure Timestamp (text : List Char) : Prop where
  chars : text.all (· ∈ "0123456789+-:.T".toList) = true
  head : ∃ c rest, text = c :: rest ∧ c ∈ "0123456789+-".toList ∧ 'T' ∈ rest
  last : ∀ c ∈ text.getLast?, c.isDigit = true

theorem solid_of_timestamp {text : List Char} (stamp : Timestamp text) :
    ∀ c ∈ text, Yaml.isSolid c = true := by
  have alphabet : "0123456789+-:.T".toList.all Yaml.isSolid = true := by decide
  intro c member
  have inside : c ∈ "0123456789+-:.T".toList := by
    simpa using List.all_eq_true.mp stamp.chars c member
  exact List.all_eq_true.mp alphabet c inside

theorem isTyped_of_timestamp {text : List Char} (stamp : Timestamp text) :
    Yaml.isTyped text = false := by
  obtain ⟨first, rest, rfl, start, later⟩ := stamp.head
  have mark : 'T' ∈ first :: rest := List.mem_cons_of_mem _ later
  have word (words : List (List Char))
      (foreign : words.all (fun word => word.head?.all (· ∉ "0123456789+-".toList)) = true) :
      first :: rest ∉ words := by
    intro member
    exact absurd start (by simpa using List.all_eq_true.mp foreign _ member)
  rw [Yaml.isTyped, decide_eq_false_iff_not]
  rintro (null | true | false | int | float)
  · exact word _ (by decide) null
  · exact word _ (by decide) true
  · exact word _ (by decide) false
  · exact Yaml.notMem_of_isInt int mark
  · exact Yaml.notMem_of_isFloat float mark

/-- A time stamp is a plain string. -/
theorem readScalar_timestamp {text : List Char} (stamp : Timestamp text) :
    Yaml.readScalar text = some (.str text) := by
  have solid := solid_of_timestamp stamp
  have typed := isTyped_of_timestamp stamp
  have absent (c : Char) (foreign : c ∉ "0123456789+-:.T".toList) : c ∉ text := by
    intro member
    exact foreign (by simpa using List.all_eq_true.mp stamp.chars c member)
  have last : text.getLast? ≠ some ':' := by
    intro colon
    exact absurd (stamp.last ':' colon) (by decide)
  obtain ⟨first, rest, rfl, start, later⟩ := stamp.head
  have white {c : Char} (member : c ∈ first :: rest) : Yaml.isWhite c = false :=
    (of_decide_eq_true (solid c member)).2
  have member : first ∈ first :: rest := List.mem_cons_self
  have double : first ≠ '"' := fun same => absent '"' (by decide) (by simp [same])
  have single : first ≠ '\'' := fun same => absent '\'' (by decide) (by simp [same])
  have plain : Yaml.isPlain (first :: rest) = true := by
    have signs : "0123456789+-".toList.all (fun c => c ∉ Yaml.indicators ∨ c ∈ "?:-".toList) =
        true := by decide
    have next : rest.head?.any Yaml.isSolid = true := by
      cases rest with
      | nil => exact absurd later List.not_mem_nil
      | cons d rest => exact solid d (by simp)
    rw [Yaml.isPlain, Yaml.isPlainText_of_solid solid last, next]
    simpa using List.all_eq_true.mp signs first start
  rw [Yaml.readScalar_plain (white member) double single (absent '#' (by decide))
    fun d final => white (List.mem_of_getLast? final), if_pos plain]
  exact congrArg some ((Yaml.resolve_eq_str_iff _ _).mpr ⟨typed, rfl⟩)

/-! ## Frontmatter -/

/-- The fields that should be read. -/
def fieldsOf (metadata : DocumentMetadata) : List (List Char × Yaml.Scalar) :=
  [("title".toList, .str (metadata.title.getD [])),
    ("author".toList, .str (metadata.author.getD [])),
    ("source_format".toList, .str metadata.sourceFormat.name),
    ("original_filename".toList, .str metadata.originalFilename)] ++
    metadata.pageCount.toList.map (fun count => ("page_count".toList, .int (Nat.toDigits 10 count))) ++
    metadata.language.toList.map (fun language => ("language".toList, .str language)) ++
    metadata.createdAt.toList.map fun stamp => ("created_at".toList, .str stamp)

/-- Whatever follows the frontmatter, its fields are read, one line each, and what follows stays
behind it. -/
def WellFormed (metadata : DocumentMetadata) : Prop :=
  ∀ body, readFrontmatter (renderFrontmatter metadata ++ body) =
    some (fieldsOf metadata, [] :: body.splitOn '\n')

/-- The strings that come from a document. -/
def texts (metadata : DocumentMetadata) : List (List Char) :=
  [metadata.title.getD [], metadata.author.getD [], metadata.originalFilename] ++
    metadata.language.toList

namespace Entry

/-- A field with a string. -/
def string (key text : List Char) : Entry := ⟨key, yamlScalar text, .str text⟩

/-- The fields as they are written. -/
def all (metadata : DocumentMetadata) : List Entry :=
  [string "title".toList (metadata.title.getD []), string "author".toList (metadata.author.getD []),
    ⟨"source_format".toList, metadata.sourceFormat.name, .str metadata.sourceFormat.name⟩,
    string "original_filename".toList metadata.originalFilename] ++
    metadata.pageCount.toList.map (fun count =>
      ⟨"page_count".toList, Nat.toDigits 10 count, .int (Nat.toDigits 10 count)⟩) ++
    metadata.language.toList.map (string "language".toList) ++
    metadata.createdAt.toList.map fun stamp => ⟨"created_at".toList, stamp, .str stamp⟩

theorem all_values (metadata : DocumentMetadata) :
    (all metadata).map (fun entry => (entry.key, entry.value)) = fieldsOf metadata := by
  simp only [all, fieldsOf, List.map_append, List.map_map]
  rfl

theorem forall_all {holds : Entry → Prop} (metadata : DocumentMetadata)
    (title : holds (string "title".toList (metadata.title.getD [])))
    (author : holds (string "author".toList (metadata.author.getD [])))
    (format : holds
      ⟨"source_format".toList, metadata.sourceFormat.name, .str metadata.sourceFormat.name⟩)
    (filename : holds (string "original_filename".toList metadata.originalFilename))
    (pages : ∀ count ∈ metadata.pageCount, holds
      ⟨"page_count".toList, Nat.toDigits 10 count, .int (Nat.toDigits 10 count)⟩)
    (language : ∀ text ∈ metadata.language, holds (string "language".toList text))
    (created : ∀ stamp ∈ metadata.createdAt, holds ⟨"created_at".toList, stamp, .str stamp⟩) :
    ∀ entry ∈ all metadata, holds entry := by
  simp only [all, List.forall_mem_append, List.forall_mem_cons, List.forall_mem_map,
    Option.mem_toList]
  exact ⟨⟨⟨⟨title, author, format, filename, fun _ absurd => by simp at absurd⟩, pages⟩, language⟩,
    created⟩

theorem all_keyed (metadata : DocumentMetadata) : ∀ entry ∈ all metadata, entry.Keyed := by
  have keyed {key : List Char} (written : List Char) (value : Yaml.Scalar)
      (known : ':' ∉ key ∧ '\n' ∉ key) : Keyed ⟨key, written, value⟩ := known
  apply forall_all
  · exact keyed _ _ (by decide)
  · exact keyed _ _ (by decide)
  · exact keyed _ _ (by decide)
  · exact keyed _ _ (by decide)
  · exact fun _ _ => keyed _ _ (by decide)
  · exact fun _ _ => keyed _ _ (by decide)
  · exact fun _ _ => keyed _ _ (by decide)

theorem writeAll_append (left right : List Entry) :
    writeAll (left ++ right) = writeAll left ++ writeAll right :=
  List.flatMap_append

theorem writeAll_cons (entry : Entry) (entries : List Entry) :
    writeAll (entry :: entries) = entry.line ++ ['\n'] ++ writeAll entries :=
  List.flatMap_cons

theorem writeAll_option {α : Type} (key : List Char) (write : α → List Char)
    (read : α → Yaml.Scalar) (value : Option α) :
    writeAll (value.toList.map fun value => ⟨key, write value, read value⟩) =
      optionalField key write value := by
  cases value with
  | none => rfl
  | some value => exact List.append_nil _

theorem writeAll_strings (key : List Char) (value : Option (List Char)) :
    writeAll (value.toList.map (string key)) = optionalField key yamlScalar value :=
  writeAll_option key yamlScalar .str value

theorem writeAll_stamp (key : List Char) (value : Option (List Char)) :
    writeAll (value.toList.map fun stamp => ⟨key, stamp, .str stamp⟩) =
      optionalField key id value :=
  writeAll_option key id .str value

theorem writeAll_all (metadata : DocumentMetadata) :
    writeAll (all metadata) =
      field "title".toList (yamlScalar (metadata.title.getD [])) ++ ['\n'] ++
        (field "author".toList (yamlScalar (metadata.author.getD [])) ++ ['\n'] ++
          (field "source_format".toList metadata.sourceFormat.name ++ ['\n'] ++
            (field "original_filename".toList (yamlScalar metadata.originalFilename) ++ ['\n'] ++
              []))) ++
        optionalField "page_count".toList (Nat.toDigits 10) metadata.pageCount ++
        optionalField "language".toList yamlScalar metadata.language ++
        optionalField "created_at".toList id metadata.createdAt := by
  rw [all, writeAll_append, writeAll_append, writeAll_append, writeAll_option, writeAll_strings,
    writeAll_stamp, writeAll_cons, writeAll_cons, writeAll_cons, writeAll_cons]
  rfl

/-- The lines of frontmatter, for any fields. -/
theorem lines_eq (mark title author format filename pages language created body : List Char) :
    mark ++ ['\n'] ++ (title ++ ['\n']) ++ (author ++ ['\n']) ++ (format ++ ['\n']) ++
        (filename ++ ['\n']) ++ pages ++ language ++ created ++ mark ++ ['\n'] ++ ['\n'] ++ body =
      mark ++ '\n' :: (title ++ ['\n'] ++ (author ++ ['\n'] ++ (format ++ ['\n'] ++
        (filename ++ ['\n'] ++ []))) ++ pages ++ language ++ created ++
        (mark ++ '\n' :: '\n' :: body)) := by
  simp

theorem renderFrontmatter_eq (metadata : DocumentMetadata) (body : List Char) :
    renderFrontmatter metadata ++ body =
      "---".toList ++ '\n' :: (writeAll (all metadata) ++ ("---".toList ++ '\n' :: '\n' :: body)) := by
  rw [writeAll_all]
  exact lines_eq _ _ _ _ _ _ _ _ _

/-- A string is read exactly when it survives, and then it takes one line. -/
theorem reads_string (key text : List Char) :
    (string key text).Reads ↔ survives text = true :=
  readScalar_yamlScalar text

theorem flat_string (key text : List Char) : (string key text).Flat :=
  fun reads => notMem_yamlScalar ((reads_string key text).mp reads)

/-- A value on one line that is read is read from its first line. -/
theorem reads_of_flat {entry : Entry} (flat : '\n' ∉ entry.written)
    (read : Yaml.readScalar entry.written = some entry.value) : entry.Reads := by
  have whole : entry.written.takeWhile (· != '\n') = entry.written := by
    apply List.takeWhile_eq_self_iff.mpr
    intro c member
    exact bne_iff_ne.mpr fun feed => flat (by rwa [← feed])
  rw [Reads, whole, read]

theorem notMem_of_solid {text : List Char} (solid : ∀ c ∈ text, Yaml.isSolid c = true) :
    '\n' ∉ text :=
  fun member => absurd (solid _ member) (by decide)

theorem solid_digits (n : Nat) : ∀ c ∈ Nat.toDigits 10 n, Yaml.isSolid c = true :=
  fun _ member => Yaml.isSolid_of_isDigit
    (Nat.isDigit_of_mem_toDigits (by decide) (by decide) member)

theorem isDigits_toDigits (n : Nat) : Yaml.isDigits (Nat.toDigits 10 n) = true :=
  decide_eq_true ⟨Nat.toDigits_ne_nil, List.all_eq_true.mpr fun _ member =>
    Nat.isDigit_of_mem_toDigits (by decide) (by decide) member⟩

theorem all_flat (metadata : DocumentMetadata)
    (stamped : ∀ text ∈ metadata.createdAt, Timestamp text) :
    ∀ entry ∈ all metadata, entry.Flat := by
  apply forall_all
  · exact flat_string _ _
  · exact flat_string _ _
  · intro _
    change '\n' ∉ metadata.sourceFormat.name
    cases metadata.sourceFormat <;> decide
  · exact flat_string _ _
  · exact fun count _ _ => notMem_of_solid (solid_digits count)
  · exact fun text _ => flat_string _ text
  · exact fun stamp here _ => notMem_of_solid (solid_of_timestamp (stamped stamp here))

theorem all_reads (metadata : DocumentMetadata)
    (stamped : ∀ text ∈ metadata.createdAt, Timestamp text) :
    (∀ entry ∈ all metadata, entry.Reads) ↔ ∀ s ∈ texts metadata, survives s = true := by
  simp only [texts, List.forall_mem_append, List.forall_mem_cons, Option.mem_toList]
  constructor
  · intro reads
    have string (key text : List Char) (member : string key text ∈ all metadata) :
        survives text = true := (reads_string key text).mp (reads _ member)
    refine ⟨⟨string "title".toList _ ?_, string "author".toList _ ?_,
      string "original_filename".toList _ ?_, fun _ absurd => by simp at absurd⟩,
      fun text here => string "language".toList text ?_⟩
    · simp [all]
    · simp [all]
    · simp [all]
    · simp [all, here]
  · rintro ⟨⟨title, author, filename, -⟩, language⟩
    apply forall_all
    · exact (reads_string _ _).mpr title
    · exact (reads_string _ _).mpr author
    · change Yaml.readScalar (metadata.sourceFormat.name.takeWhile (· != '\n')) =
        some (.str metadata.sourceFormat.name)
      cases metadata.sourceFormat <;> decide
    · exact (reads_string _ _).mpr filename
    · exact fun count _ => reads_of_flat (notMem_of_solid (solid_digits count))
        (Yaml.readScalar_digits (isDigits_toDigits count))
    · exact fun text here => (reads_string _ _).mpr (language text here)
    · exact fun stamp here =>
        reads_of_flat (notMem_of_solid (solid_of_timestamp (stamped stamp here)))
          (readScalar_timestamp (stamped stamp here))

end Entry

/-- Frontmatter is well formed exactly when every string that comes from the document is quoted
without control characters, or is plain and of type string. -/
theorem wellFormed_iff (metadata : DocumentMetadata)
    (stamped : ∀ text ∈ metadata.createdAt, Timestamp text) :
    WellFormed metadata ↔ ∀ s ∈ texts metadata, survives s = true := by
  rw [← Entry.all_reads metadata stamped, WellFormed, ← Entry.all_values,
    ← Entry.readFrontmatter_iff (Entry.all_keyed metadata) (Entry.all_flat metadata stamped)]
  simp only [Entry.renderFrontmatter_eq]

/-- A report with a colon in its title. -/
def report : DocumentMetadata where
  title := some "Q1: a \"draft\"".toList
  author := none
  sourceFormat := .docx
  originalFilename := "report.docx".toList
  pageCount := some 12
  language := some "ko".toList
  createdAt := some "2024-01-31T09:00:00+00:00".toList

theorem wellFormed_report :
    (∀ text ∈ report.createdAt, Timestamp text) ∧ WellFormed report := by
  have stamped : ∀ text ∈ report.createdAt, Timestamp text := by
    rintro text ⟨⟩
    have last : "2024-01-31T09:00:00+00:00".toList.getLast? = some '0' := by decide +kernel
    refine ⟨by decide, ⟨_, _, rfl, by decide, by decide⟩, fun c final => ?_⟩
    obtain rfl := Option.some.inj (last.symm.trans final)
    rfl
  have safe : (texts report).all survives = true := by decide +kernel
  exact ⟨stamped, (wellFormed_iff report stamped).mpr (List.all_eq_true.mp safe)⟩

/-- A title that is a word of the core schema is read as a boolean. -/
theorem not_wellFormed_true :
    ¬ WellFormed { report with title := some "true".toList } := by
  intro wellFormed
  exact absurd (wellFormed []) (by decide +kernel)

end AiCoreStack.Markdown
