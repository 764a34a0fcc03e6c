import AiCoreStack.Foundation.Text

/-!
# The intermediate representation

Model of `ir.rs`, the format-neutral document that every parser builds and that the
renderer and the chunker read.  Strings are lists of characters.  A `DateTime` is its
RFC 3339 text, the only thing that is read of it.
-/

namespace AiCoreStack.Markdown

/-- Inline elements. -/
inductive Inline where
  | text (text : List Char)
  | bold (inner : Inline)
  | italic (inner : Inline)
  | strike (inner : Inline)
  | code (text : List Char)
  | link (text url : List Char)
  | lineBreak
  deriving DecidableEq, Repr

mutual

/-- An item of a list, with the list nested in it. -/
inductive ListItem where
  | mk (content : List Inline) (sublist : Option NestedList)

/-- A list inside an item. -/
inductive NestedList where
  | mk (ordered : Bool) (items : List ListItem)

end

structure Table where
  headers : List (List Char)
  rows : List (List (List Char))
  caption : Option (List Char) := none
  deriving DecidableEq, Repr

/-- Where the data of an image is. -/
inductive ImageData where
  | base64 (mime data : List Char)
  | path (path : List Char)
  | url (url : List Char)
  deriving DecidableEq, Repr

/-- Block elements. -/
inductive Block where
  | heading (level : UInt8) (text : List Char)
  | paragraph (content : List Inline)
  | table (table : Table)
  | list (ordered : Bool) (items : List ListItem)
  | codeBlock (lang : Option (List Char)) (code : List Char)
  | quote (content : List Inline)
  | horizontalRule
  | image (alt : List Char) (data : ImageData)
  | math (latex : List Char) (display : Bool)
  | pageBreak
  | footnote (id : List Char) (content : List Inline)

/-- The formats a document can come from. -/
inductive SourceFormat where
  | docx
  | pptx
  | xlsx
  | hwp
  | hwpx
  | pdf
  | html
  | markdown
  | epub
  | rtf
  | odt
  | unknown
  deriving DecidableEq, Repr

structure DocumentMetadata where
  title : Option (List Char) := none
  author : Option (List Char) := none
  createdAt : Option (List Char) := none
  sourceFormat : SourceFormat
  originalFilename : List Char
  pageCount : Option Nat := none
  language : Option (List Char) := none
  deriving DecidableEq, Repr

structure Document where
  metadata : DocumentMetadata
  blocks : List Block

end AiCoreStack.Markdown
