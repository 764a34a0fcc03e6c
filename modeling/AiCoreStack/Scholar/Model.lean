import AiCoreStack.Foundation.Scalar
import AiCoreStack.Foundation.Text

/-!
# Documents and queries

Model of `model.rs` and `error.rs`: the document that all sources answer with, the query, and
the report of a search.  Texts are lists of characters, a point in time is its distance from
the epoch, and a hash map that is only looked up and filled is its lookup.
-/

namespace AiCoreStack.Scholar

open Foundation

variable {α : Type}

/-- What the sources take from the Unicode tables of the standard library. -/
structure Unicode where
  /-- `str::to_lowercase` -/
  lowercase : List Char → List Char
  /-- `char::to_lowercase` -/
  lowercaseChar : Char → List Char
  /-- `char::is_alphanumeric` -/
  isAlphanumeric : Char → Bool

/-- The tables where they are about ASCII. -/
def Unicode.ascii : Unicode where
  lowercase text := text.map Char.toLower
  lowercaseChar c := [c.toLower]
  isAlphanumeric := Char.isAlphanum

inductive SourceKind where
  | arxiv
  | news
  | blog
  | youtube
  | web
  deriving DecidableEq, Repr

/-- The kind as `Debug` prints it. -/
def SourceKind.debug : SourceKind → List Char
  | .arxiv => "Arxiv".toList
  | .news => "News".toList
  | .blog => "Blog".toList
  | .youtube => "Youtube".toList
  | .web => "Web".toList

structure Author where
  name : List Char
  id : Option (List Char)
  deriving DecidableEq, Repr

/-- What tells documents apart. -/
@[ext] structure DocIdentity where
  doi : Option (List Char)
  arxivId : Option (List Char)
  canonicalUrl : Option (List Char)
  titleHash : UInt64
  deriving DecidableEq, Repr

/-- The scores of a document; `fused` orders first, the others after it. -/
structure Score (α : Type) where
  fused : α
  freshness : α
  authority : α
  relevance : α

/-- A point in UTC time, in nanoseconds from the epoch. -/
abbrev DateTime := Int

/-- `signed_duration_since(..).num_days()`: whole days, towards zero. -/
def daysSince (now earlier : DateTime) : Int := (now - earlier).tdiv (86400 * 10 ^ 9)

/-- Values of the metadata that a document carries along. -/
inductive Json where
  | null
  | bool (value : Bool)
  | number (text : List Char)
  | string (text : List Char)
  | array (items : List Json)
  | object (entries : List (List Char × Json))

/-- The one type of document that all sources answer with. -/
@[ext] structure Document (α : Type) where
  identity : DocIdentity
  source : SourceKind
  title : List Char
  url : List Char
  authors : List Author
  publishedAt : Option DateTime
  fetchedAt : DateTime
  summary : Option (List Char)
  content : Option (List Char)
  language : Option (List Char)
  tags : List (List Char)
  sources : List SourceKind
  score : Score α
  extra : List Char → Option Json

/-- A document with an identity, a source and a title and nothing else. -/
def Document.plain [Scalar α] (identity : DocIdentity) (source : SourceKind) (title : List Char) :
    Document α where
  identity := identity
  source := source
  title := title
  url := "http://x".toList
  authors := []
  publishedAt := none
  fetchedAt := 0
  summary := none
  content := none
  language := none
  tags := []
  sources := [source]
  score := ⟨Scalar.lit 0, Scalar.lit 0, Scalar.lit 0, Scalar.lit 0⟩
  extra := fun _ => none

inductive Recency where
  | day
  | week
  | month
  | year
  deriving DecidableEq, Repr

/-- The window as `Debug` prints it. -/
def Recency.debug : Recency → List Char
  | .day => "Day".toList
  | .week => "Week".toList
  | .month => "Month".toList
  | .year => "Year".toList

/-- A query that knows nothing of the sources. -/
structure SearchQuery where
  text : List Char
  sources : List SourceKind
  limit : Nat
  language : Option (List Char)
  recency : Option Recency
  fromDate : Option DateTime
  toDate : Option DateTime
  includeContent : Bool
  expansions : List (List Char)
  deriving DecidableEq

/-- A query with everything else left at its default. -/
def SearchQuery.fromText (text : List Char) (limit : Nat) : SearchQuery where
  text := text
  sources := []
  limit := limit
  language := none
  recency := none
  fromDate := none
  toDate := none
  includeContent := false
  expansions := []

inductive FetchError where
  | http (detail : List Char)
  | parse (detail : List Char)
  | rateLimit (detail : List Char)
  | invalidQuery (detail : List Char)
  deriving DecidableEq, Repr

/-- The error as it is displayed. -/
def FetchError.display : FetchError → List Char
  | .http detail => "http request failed: ".toList ++ detail
  | .parse detail => "parse failed: ".toList ++ detail
  | .rateLimit detail => "rate limit exceeded: ".toList ++ detail
  | .invalidQuery detail => "invalid query: ".toList ++ detail

/-- The partial failure of one source. -/
structure ConnectorWarning where
  source : SourceKind
  message : List Char
  deriving DecidableEq, Repr

namespace ConnectorWarning

def timeout (source : SourceKind) : ConnectorWarning :=
  ⟨source, "source timed out".toList⟩

def empty (source : SourceKind) : ConnectorWarning :=
  ⟨source, "source returned 0 documents".toList⟩

end ConnectorWarning

/-- Documents and partial failures. -/
structure SearchReport (α : Type) where
  docs : List (Document α)
  warnings : List ConnectorWarning

end AiCoreStack.Scholar
