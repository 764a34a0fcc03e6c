import AiCoreStack.Markdown.Ir
import AiCoreStack.Markdown.Xml

/-!
# Dispatch

Model of `registry.rs`.  The three entry points look at different windows of a file: the bytes that
the first read gives, the same bytes filled up with zeros, and all bytes.  A parser is given by
what it says about itself and by its `parse`.
-/

namespace AiCoreStack.Markdown

open AiCoreStack.Foundation

/-! ## Parsers -/

/-- A registered parser. -/
structure FormatParser where
  supportedExtensions : List (List Char)
  canParseBytes : List UInt8 → Bool
  name : List Char
  parse : List UInt8 → List Char → Except ParseError Document

inductive ConvertError where
  | unsupportedFormat (extension : List Char)
  | parse (error : ParseError)

/-- A path with what `Path::extension` and `to_str` give for it. -/
structure Path where
  fileName : List Char
  extension : Option (List Char)

/-- A file, with the number of bytes that a read into a buffer of 16 gives. -/
structure File where
  bytes : List UInt8
  count : Nat
  within : count ≤ min 16 bytes.length

/-- The bytes that are read into the buffer. -/
def File.header (file : File) : List UInt8 := file.bytes.take file.count

/-- The buffer behind the read. -/
def File.buffer (file : File) : List UInt8 := file.header ++ List.replicate (16 - file.count) 0

/-- `to_ascii_lowercase` -/
def asciiLowercase (text : List Char) : List Char := text.map Char.toLower

/-- `extension_of` -/
def extensionOf (path : Path) : List Char := asciiLowercase (path.extension.getD [])

/-! ## The registry -/

abbrev ParserRegistry := List FormatParser

namespace ParserRegistry

variable (registry : ParserRegistry)

/-- `find_by_ext` -/
def findByExt (ext : List Char) : Option FormatParser :=
  if ext = [] then none else registry.find? fun parser => parser.supportedExtensions.contains ext

/-- `find_by_magic` -/
def findByMagic (header : List UInt8) : Option FormatParser :=
  registry.find? fun parser => parser.canParseBytes header

/-- `is_supported` for a file that can be read. -/
def isSupported (path : Path) (file : File) : Bool :=
  (registry.findByExt (extensionOf path)).isSome || (registry.findByMagic file.buffer).isSome

/-- The parser that `parse_to_ir` selects. -/
def selectPath (path : Path) (file : File) : Except ConvertError FormatParser :=
  match (registry.findByExt (extensionOf path)).or (registry.findByMagic file.header) with
  | some parser => .ok parser
  | none => .error (.unsupportedFormat (extensionOf path))

/-- `parse_to_ir` -/
def parseToIr (path : Path) (file : File) : Except ConvertError Document := do
  let parser ← registry.selectPath path file
  (parser.parse file.bytes path.fileName).mapError .parse

/-- The parser that `parse_reader` selects. -/
def selectReader (bytes : List UInt8) (extHint : Option (List Char)) :
    Except ConvertError FormatParser :=
  match (extHint.bind fun ext => registry.findByExt (asciiLowercase ext)).or
      (registry.findByMagic bytes) with
  | some parser => .ok parser
  | none => .error (.unsupportedFormat (extHint.getD []))

/-- `parse_reader` -/
def parseReader (bytes : List UInt8) (fileName : List Char) (extHint : Option (List Char)) :
    Except ConvertError Document := do
  let parser ← registry.selectReader bytes extHint
  (parser.parse bytes fileName).mapError .parse

end ParserRegistry

/-! ## The HTML sniffer -/

/-- The bytes that a sequence still needs, and the values that the next one may have. -/
structure Pending where
  left : Nat
  low : UInt8
  high : UInt8
  value : Nat

/-- What the first byte of a sequence opens. -/
def leadByte (b : UInt8) : Option Pending :=
  if 0xC2 ≤ b ∧ b ≤ 0xDF then some ⟨0, 0x80, 0xBF, b.toNat - 0xC0⟩
  else if b = 0xE0 then some ⟨1, 0xA0, 0xBF, 0⟩
  else if b = 0xED then some ⟨1, 0x80, 0x9F, 0xD⟩
  else if 0xE1 ≤ b ∧ b ≤ 0xEF then some ⟨1, 0x80, 0xBF, b.toNat - 0xE0⟩
  else if b = 0xF0 then some ⟨2, 0x90, 0xBF, 0⟩
  else if b = 0xF4 then some ⟨2, 0x80, 0x8F, 4⟩
  else if 0xF1 ≤ b ∧ b ≤ 0xF3 then some ⟨2, 0x80, 0xBF, b.toNat - 0xF0⟩
  else none

/-- A byte outside a sequence: the characters it gives and the sequence it opens. -/
def openByte (b : UInt8) : List Char × Option Pending :=
  if b < 0x80 then ([Char.ofNat b.toNat], none)
  else
    match leadByte b with
    | some pending => ([], some pending)
    | none => (['\ufffd'], none)

/-- The text of some bytes, inside a sequence or outside. -/
def decodeFrom : Option Pending → List UInt8 → List Char
  | none, [] => []
  | some _, [] => ['\ufffd']
  | none, b :: rest => (openByte b).1 ++ decodeFrom (openByte b).2 rest
  | some pending, b :: rest =>
      if pending.low ≤ b ∧ b ≤ pending.high then
        let value := pending.value * 64 + (b.toNat - 0x80)
        if pending.left = 0 then Char.ofNat value :: decodeFrom none rest
        else decodeFrom (some ⟨pending.left - 1, 0x80, 0xBF, value⟩) rest
      else '\ufffd' :: ((openByte b).1 ++ decodeFrom (openByte b).2 rest)

/-- `String::from_utf8_lossy` -/
def fromUtf8Lossy (bytes : List UInt8) : List Char := decodeFrom none bytes

example : fromUtf8Lossy [0xED, 0x95, 0x9C, 0xE2, 0x82, 0x41] = ['한', '\ufffd', 'A'] := by decide

/-- `HtmlParser`, for any `parse`. -/
def htmlParser (parse : List UInt8 → List Char → Except ParseError Document) : FormatParser where
  supportedExtensions := ["html".toList, "htm".toList, "xhtml".toList]
  canParseBytes header :=
    let s := (asciiLowercase (fromUtf8Lossy header)).dropWhile isWhitespace
    "<!doctype html".toList.isPrefixOf s || "<html".toList.isPrefixOf s ||
      "<?xml".toList.isPrefixOf s
  name := "html".toList
  parse

/-! ## Agreement -/

section Find

variable {α : Type}

/-- Two tests agree on every item up to the first that passes. -/
def SameFirst (first second : α → Bool) : List α → Prop
  | [] => True
  | item :: rest => first item = second item ∧ (first item = false → SameFirst first second rest)

/-- Two tests find the same item exactly when they agree up to the first that passes. -/
theorem find?_eq_iff (first second : α → Bool) (items : List α) :
    items.find? first = items.find? second ↔ SameFirst first second items := by
  induction items with
  | nil => exact iff_of_true rfl trivial
  | cons item rest ih =>
      rw [SameFirst, List.find?_cons, List.find?_cons]
      cases passes : first item with
      | true =>
          cases passes' : second item with
          | true => simp
          | false =>
              simp only [Bool.true_eq_false, false_and, iff_false]
              intro same
              have found := List.find?_some same.symm
              exact absurd found (by simp [passes'])
      | false =>
          cases passes' : second item with
          | true =>
              simp only [Bool.false_eq_true, false_and, iff_false]
              intro same
              have found := List.find?_some same
              exact absurd found (by simp [passes])
          | false => simpa using ih

end Find

/-- The entry points select the same parser, and `is_supported` tells whether one is selected. -/
structure DispatchAgrees (registry : ParserRegistry) (path : Path) (file : File) : Prop where
  same : (registry.selectPath path file).toOption =
    (registry.selectReader file.bytes path.extension).toOption
  supported : registry.isSupported path file = true ↔
    ¬ ∃ ext, registry.parseToIr path file = .error (.unsupportedFormat ext)

namespace ParserRegistry

variable {registry : ParserRegistry} {path : Path} {file : File}

theorem toOption_selectPath : (registry.selectPath path file).toOption =
    (registry.findByExt (extensionOf path)).or (registry.findByMagic file.header) := by
  rw [selectPath]
  split
  next found => rw [found]; rfl
  next none => rw [none]; rfl

/-- The hint is the extension of the path. -/
theorem toOption_selectReader : (registry.selectReader file.bytes path.extension).toOption =
    (registry.findByExt (extensionOf path)).or (registry.findByMagic file.bytes) := by
  have hint : (path.extension.bind fun ext => registry.findByExt (asciiLowercase ext)) =
      registry.findByExt (extensionOf path) := by
    rw [extensionOf]
    cases path.extension with
    | none => rfl
    | some ext => rfl
  rw [selectReader, hint]
  split
  next found => rw [found]; rfl
  next none => rw [none]; rfl

/-- Only a missing parser is reported as an unsupported format. -/
theorem parseToIr_unsupported :
    (∃ ext, registry.parseToIr path file = .error (.unsupportedFormat ext)) ↔
      (registry.selectPath path file).toOption = none := by
  rw [parseToIr]
  cases selected : registry.selectPath path file with
  | error error =>
      have missing : error = .unsupportedFormat (extensionOf path) := by
        rw [selectPath] at selected
        split at selected
        · cases selected
        · exact (Except.error.inj selected).symm
      exact iff_of_true ⟨_, by rw [missing]; rfl⟩ rfl
  | ok parser =>
      refine iff_of_false ?_ (by simp [Except.toOption])
      rintro ⟨ext, failed⟩
      cases parsed : parser.parse file.bytes path.fileName with
      | error error => simp [bind, Except.bind, Except.mapError, parsed] at failed
      | ok document => simp [bind, Except.bind, Except.mapError, parsed] at failed

theorem isSome_findByExt (ext : List Char) : (registry.findByExt ext).isSome = true ↔
    ext ≠ [] ∧ ∃ parser ∈ registry, ext ∈ parser.supportedExtensions := by
  rw [findByExt]
  split
  next empty => simp [empty]
  next present => simp [present]

theorem isSome_findByMagic (header : List UInt8) : (registry.findByMagic header).isSome = true ↔
    ∃ parser ∈ registry, parser.canParseBytes header = true := by
  rw [findByMagic, List.find?_isSome]

end ParserRegistry

/-- The entry points agree exactly when the extension is registered, or every parser up to the
first that accepts one of the windows judges the header as it judges the whole file, and some parser
accepts the buffer exactly when some parser accepts the header. -/
theorem dispatchAgrees_iff (registry : ParserRegistry) (path : Path) (file : File) :
    DispatchAgrees registry path file ↔
      (extensionOf path ≠ [] ∧
        ∃ parser ∈ registry, extensionOf path ∈ parser.supportedExtensions) ∨
      SameFirst (fun parser => parser.canParseBytes file.header)
        (fun parser => parser.canParseBytes file.bytes) registry ∧
      ((∃ parser ∈ registry, parser.canParseBytes file.buffer = true) ↔
        ∃ parser ∈ registry, parser.canParseBytes file.header = true) := by
  have agrees : DispatchAgrees registry path file ↔
      (registry.findByExt (extensionOf path)).or (registry.findByMagic file.header) =
        (registry.findByExt (extensionOf path)).or (registry.findByMagic file.bytes) ∧
      (registry.isSupported path file = true ↔
        ¬ (registry.findByExt (extensionOf path)).or (registry.findByMagic file.header) = none) := by
    rw [← ParserRegistry.toOption_selectReader, ← ParserRegistry.toOption_selectPath,
      ← ParserRegistry.parseToIr_unsupported]
    exact ⟨fun both => ⟨both.same, both.supported⟩, fun both => ⟨both.1, both.2⟩⟩
  rw [agrees, ← ParserRegistry.isSome_findByExt, ← ParserRegistry.isSome_findByMagic,
    ← ParserRegistry.isSome_findByMagic, ParserRegistry.isSupported]
  cases registry.findByExt (extensionOf path) with
  | some parser => simp
  | none =>
      have windows : registry.findByMagic file.header = registry.findByMagic file.bytes ↔
          SameFirst (fun parser => parser.canParseBytes file.header)
            (fun parser => parser.canParseBytes file.bytes) registry :=
        find?_eq_iff _ _ registry
      simp only [Option.none_or, Option.isSome_none, Bool.false_or, Bool.false_eq_true, false_or,
        windows, ← ne_eq, Option.ne_none_iff_isSome]

/-- A page that starts with sixteen blanks. -/
def indentedPage : File where
  bytes := List.replicate 16 0x20 ++ [0x3C, 0x68, 0x74, 0x6D, 0x6C, 0x3E]
  count := 16
  within := by decide

/-- The sniffer of HTML drops all blanks of a file, and only sixteen bytes of a header. -/
theorem not_dispatchAgrees_indentedPage :
    ¬ DispatchAgrees [htmlParser fun _ _ => .error (.io [])] ⟨"page".toList, none⟩ indentedPage := by
  intro agrees
  have found := congrArg Option.isSome agrees.same
  exact absurd found (by decide +kernel)

end AiCoreStack.Markdown
