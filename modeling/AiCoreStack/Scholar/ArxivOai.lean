import AiCoreStack.Foundation.Outcome
import AiCoreStack.Foundation.Search
import AiCoreStack.Scholar.CanonicalUrl
import AiCoreStack.Scholar.Dedup
import AiCoreStack.Scholar.Model
import AiCoreStack.Scholar.StripHtml

/-!
# Reading OAI records

Model of `parse_oai` of `arxiv_oai.rs`, which keeps one text buffer that every tag clears.  On the
events of a tree it finds what the tree says: the value of an element is the text behind its last
child, a record has the values of the elements in it, and the resumption token is the last one
outside the records.
-/

namespace AiCoreStack.Scholar

open Foundation

/-- The events of the reader.  A text that cannot be unescaped is `none`; empty elements, comments,
declarations and the like are `other`. -/
inductive XmlEvent where
  | start (name : List Char)
  | text (unescaped : Option (List Char))
  | cdata (text : List Char)
  | finish (name : List Char)
  | other

structure OaiRecord where
  title : List Char := []
  creators : List (List Char) := []
  description : List Char := []
  date : List Char := []
  identifier : List Char := []
  deriving DecidableEq, Repr

/-- `local_name`: what stands behind the last colon. -/
def localName (qname : List Char) : List Char := qname.rtakeWhile (· != ':')

def isHttp (value : List Char) : Bool := "http".toList.isPrefixOf value

/-- Take the value of an element into a record. -/
def OaiRecord.take (r : OaiRecord) (name value : List Char) : OaiRecord :=
  if name = "title".toList ∧ r.title = [] then { r with title := value }
  else if name = "creator".toList ∧ value ≠ [] then { r with creators := r.creators ++ [value] }
  else if name = "description".toList ∧ r.description = [] then { r with description := value }
  else if name = "date".toList ∧ r.date = [] then { r with date := value }
  else if name = "identifier".toList ∧ (isHttp value ∨ r.identifier = []) then
    { r with identifier := value }
  else r

/-- What `parse_oai` keeps between two events. -/
structure OaiScan where
  records : List OaiRecord := []
  cur : Option OaiRecord := none
  resumption : Option (List Char) := none
  text : List Char := []

namespace OaiScan

/-- The end of an element. -/
def finish (scan : OaiScan) (name : List Char) : OaiScan :=
  let val := trim isWhitespace scan.text
  let cur := scan.cur.map fun r => r.take name val
  let resumption :=
    if name = "resumptionToken".toList ∧ cur = none ∧ val ≠ [] then some val else scan.resumption
  if name = "record".toList then
    { records := scan.records ++ cur.toList, cur := none, resumption := resumption, text := [] }
  else { records := scan.records, cur := cur, resumption := resumption, text := [] }

def handle (scan : OaiScan) : XmlEvent → OaiScan
  | .start name =>
      { scan with
        cur := if localName name = "record".toList then some {} else scan.cur
        text := [] }
  | .text unescaped => { scan with text := scan.text ++ unescaped.getD [] }
  | .cdata text => { scan with text := scan.text ++ text }
  | .finish name => scan.finish (localName name)
  | .other => scan

variable {scan : OaiScan} {name : List Char}

/-- The end of an element inside a record. -/
theorem finish_inside {r : OaiRecord} (inside : scan.cur = some r)
    (other : name ≠ "record".toList) :
    scan.finish name =
      { scan with cur := some (r.take name (trim isWhitespace scan.text)), text := [] } := by
  rw [finish, inside, if_neg other, Option.map_some, if_neg fun all => Option.some_ne_none _ all.2.1]

/-- The end of an element outside the records. -/
theorem finish_outside (outside : scan.cur = none) (other : name ≠ "record".toList) :
    scan.finish name =
      { scan with
        resumption :=
          if name = "resumptionToken".toList ∧ trim isWhitespace scan.text ≠ [] then
            some (trim isWhitespace scan.text) else scan.resumption
        text := [] } := by
  rw [finish, outside, if_neg other]
  simp only [Option.map_none, true_and]

/-- The end of a record. -/
theorem finish_record {r : OaiRecord} (inside : scan.cur = some r) :
    scan.finish "record".toList =
      { scan with records := scan.records ++ [r], cur := none, text := [] } := by
  have whole (value : List Char) : r.take "record".toList value = r := by
    rw [OaiRecord.take, if_neg fun both => absurd both.1 (by decide),
      if_neg fun both => absurd both.1 (by decide), if_neg fun both => absurd both.1 (by decide),
      if_neg fun both => absurd both.1 (by decide), if_neg fun both => absurd both.1 (by decide)]
  rw [finish, inside, if_pos rfl, Option.map_some, whole, if_neg fun all => absurd all.1 (by decide)]
  rfl

end OaiScan

/-- The events of a response, up to an error of the reader. -/
abbrev XmlEvents := List (Except (List Char) XmlEvent)

/-- Go through the events. -/
def OaiScan.read (scan : OaiScan) : XmlEvents → Except FetchError OaiScan
  | [] => .ok scan
  | .ok event :: rest => (scan.handle event).read rest
  | .error detail :: _ => .error (.parse detail)

/-- `parse_oai` -/
def parseOai (xml : XmlEvents) : Except FetchError (List OaiRecord × Option (List Char)) :=
  (OaiScan.read {} xml).map fun scan => (scan.records, scan.resumption)

/-! ## Trees -/

/-- The tree of a response.  Empty elements and comments are marks. -/
inductive XmlNode where
  | text (unescaped : Option (List Char))
  | cdata (text : List Char)
  | mark
  | element (name : List Char) (children : List XmlNode)

namespace XmlNode

mutual

def events : XmlNode → List XmlEvent
  | .text unescaped => [.text unescaped]
  | .cdata content => [.cdata content]
  | .mark => [.other]
  | .element name children => .start name :: (eventsAll children ++ [.finish name])

def eventsAll : List XmlNode → List XmlEvent
  | [] => []
  | node :: rest => node.events ++ eventsAll rest

end

/-- The text behind the last element, after what was there before. -/
def textAfter (before : List Char) : XmlNode → List Char
  | .text unescaped => before ++ unescaped.getD []
  | .cdata content => before ++ content
  | .mark => before
  | .element _ _ => []

/-- The value of an element with these children. -/
def valueOf (children : List XmlNode) : List Char :=
  trim isWhitespace (children.foldl textAfter [])

mutual

/-- The local names and values of the elements, each behind the ones in it. -/
def fields : XmlNode → List (List Char × List Char)
  | .text _ | .cdata _ | .mark => []
  | .element name children => fieldsAll children ++ [(localName name, valueOf children)]

def fieldsAll : List XmlNode → List (List Char × List Char)
  | [] => []
  | node :: rest => node.fields ++ fieldsAll rest

end

mutual

/-- The records of a response: their fields, and the tokens outside of them. -/
def contents : XmlNode → List (List (List Char × List Char)) × List (List Char)
  | .text _ | .cdata _ | .mark => ([], [])
  | .element name children =>
      if localName name = "record".toList then ([fieldsAll children], [])
      else
        let (records, tokens) := contentsAll children
        (records, tokens ++
          if localName name = "resumptionToken".toList ∧ valueOf children ≠ [] then
            [valueOf children] else [])

def contentsAll : List XmlNode → List (List (List Char × List Char)) × List (List Char)
  | [] => ([], [])
  | node :: rest =>
      let (records, tokens) := contents node
      let (records', tokens') := contentsAll rest
      (records ++ records', tokens ++ tokens')

end

/-- Whether no record is among the elements in these. -/
def unnested (children : List XmlNode) : Bool :=
  (fieldsAll children).all fun field => field.1 ≠ "record".toList

mutual

/-- Whether no record is inside another one. -/
def flat : XmlNode → Bool
  | .text _ | .cdata _ | .mark => true
  | .element name children =>
      if localName name = "record".toList then unnested children else flatAll children

def flatAll : List XmlNode → Bool
  | [] => true
  | node :: rest => node.flat && flatAll rest

end

theorem unnested_iff {children : List XmlNode} :
    unnested children = true ↔ ∀ field ∈ fieldsAll children, field.1 ≠ "record".toList := by
  simp only [unnested, List.all_eq_true, decide_eq_true_eq]

/-! ## The run over a tree -/

mutual

/-- Inside a record every element is taken into it. -/
theorem foldl_inside : ∀ (node : XmlNode) (scan : OaiScan) (r : OaiRecord), scan.cur = some r →
    (∀ field ∈ node.fields, field.1 ≠ "record".toList) →
    node.events.foldl OaiScan.handle scan =
      { scan with
        cur := some (node.fields.foldl (fun r field => r.take field.1 field.2) r)
        text := textAfter scan.text node }
  | .text unescaped, scan, r, inside, _ => by
      simp [events, fields, textAfter, OaiScan.handle, ← inside]
  | .cdata content, scan, r, inside, _ => by
      simp [events, fields, textAfter, OaiScan.handle, ← inside]
  | .mark, scan, r, inside, _ => by
      simp [events, fields, textAfter, OaiScan.handle, ← inside]
  | .element name children, scan, r, inside, other => by
      rw [fields] at other
      have kept : localName name ≠ "record".toList :=
        other (localName name, valueOf children) (by simp)
      have within := foldl_insideAll children { scan with text := [] } r inside fun field member =>
        other field (List.mem_append_left _ member)
      rw [events, List.foldl_cons, List.foldl_append, OaiScan.handle, if_neg kept, within,
        List.foldl_cons, List.foldl_nil, OaiScan.handle, OaiScan.finish_inside rfl kept, fields,
        List.foldl_append]
      rfl

theorem foldl_insideAll : ∀ (nodes : List XmlNode) (scan : OaiScan) (r : OaiRecord),
    scan.cur = some r → (∀ field ∈ fieldsAll nodes, field.1 ≠ "record".toList) →
    (eventsAll nodes).foldl OaiScan.handle scan =
      { scan with
        cur := some ((fieldsAll nodes).foldl (fun r field => r.take field.1 field.2) r)
        text := nodes.foldl textAfter scan.text }
  | [], scan, r, inside, _ => by
      simp [eventsAll, fieldsAll, ← inside]
  | node :: rest, scan, r, inside, other => by
      rw [fieldsAll] at other
      rw [eventsAll, List.foldl_append, foldl_inside node scan r inside fun field member =>
        other field (List.mem_append_left _ member), foldl_insideAll rest _ _ rfl
          fun field member => other field (List.mem_append_right _ member), fieldsAll,
        List.foldl_append, List.foldl_cons]

end

end XmlNode

/-- A record from the fields of its elements. -/
def recordOf (fields : List (List Char × List Char)) : OaiRecord :=
  fields.foldl (fun r field => r.take field.1 field.2) {}

/-- A scan outside the records that has found some more. -/
def OaiScan.found (scan : OaiScan)
    (contents : List (List (List Char × List Char)) × List (List Char)) (text : List Char) :
    OaiScan :=
  { scan with
    records := scan.records ++ contents.1.map recordOf
    resumption := contents.2.getLast?.or scan.resumption
    text := text }

theorem OaiScan.found_nothing (scan : OaiScan) (text : List Char) :
    scan.found ([], []) text = { scan with text := text } := by
  simp [OaiScan.found]

namespace XmlNode

mutual

/-- Outside the records, whole records and tokens are found. -/
theorem foldl_outside : ∀ (node : XmlNode) (scan : OaiScan), scan.cur = none → node.flat = true →
    node.events.foldl OaiScan.handle scan = scan.found node.contents (textAfter scan.text node)
  | .text unescaped, scan, outside, _ => (scan.found_nothing _).symm
  | .cdata content, scan, outside, _ => (scan.found_nothing _).symm
  | .mark, scan, outside, _ => (scan.found_nothing _).symm
  | .element name children, scan, outside, flat => by
      rw [XmlNode.flat] at flat
      rw [events, List.foldl_cons, List.foldl_append, OaiScan.handle, List.foldl_cons,
        List.foldl_nil, OaiScan.handle, contents]
      by_cases record : localName name = "record".toList
      · rw [if_pos record] at flat
        rw [if_pos record, foldl_insideAll children _ {} rfl (unnested_iff.mp flat), record,
          OaiScan.finish_record rfl, if_pos rfl, ← outside]
        simp [OaiScan.found, recordOf, textAfter]
      · rw [if_neg record] at flat
        have still : (OaiScan.found { scan with text := [] } (contentsAll children)
            (children.foldl textAfter [])).cur = none := outside
        rw [if_neg record, foldl_outsideAll children { scan with text := [] } outside flat,
          OaiScan.finish_outside still record, if_neg record]
        change OaiScan.mk _ _ (if localName name = "resumptionToken".toList ∧
          valueOf children ≠ [] then some (valueOf children) else _) _ = _
        by_cases token : localName name = "resumptionToken".toList ∧ valueOf children ≠ []
        · rw [if_pos token, if_pos token]
          simp [OaiScan.found, textAfter]
        · rw [if_neg token, if_neg token]
          simp [OaiScan.found, textAfter]

theorem foldl_outsideAll : ∀ (nodes : List XmlNode) (scan : OaiScan), scan.cur = none →
    flatAll nodes = true → (eventsAll nodes).foldl OaiScan.handle scan =
      scan.found (contentsAll nodes) (nodes.foldl textAfter scan.text)
  | [], scan, outside, _ => (scan.found_nothing _).symm
  | node :: rest, scan, outside, flat => by
      rw [flatAll, Bool.and_eq_true] at flat
      rw [eventsAll, List.foldl_append, foldl_outside node scan outside flat.1,
        foldl_outsideAll rest (scan.found _ _) outside flat.2, contentsAll, List.foldl_cons]
      simp only [OaiScan.found, List.map_append, List.append_assoc, List.getLast?_append,
        Option.or_assoc]

end

end XmlNode

theorem OaiScan.read_ok (scan : OaiScan) (events : List XmlEvent) :
    scan.read (events.map .ok) = .ok (events.foldl OaiScan.handle scan) := by
  induction events generalizing scan with
  | nil => rfl
  | cons event events ih => exact ih _

/-! ## What a record says -/

/-- The values of the elements of a name. -/
def valuesOf (name : String) (fields : List (List Char × List Char)) : List (List Char) :=
  (fields.filter fun field => field.1 = name.toList).map Prod.snd

/-- The first value that is not empty. -/
def firstOf (values : List (List Char)) : List Char := (values.find? fun v => v ≠ []).getD []

/-- The last address, or the first value without one. -/
def identifierOf (values : List (List Char)) : List Char :=
  ((values.filter isHttp).getLast?).getD (firstOf values)

/-- A record as its elements say it. -/
def OaiRecord.declared (fields : List (List Char × List Char)) : OaiRecord where
  title := firstOf (valuesOf "title" fields)
  creators := (valuesOf "creator" fields).filter fun v => v ≠ []
  description := firstOf (valuesOf "description" fields)
  date := firstOf (valuesOf "date" fields)
  identifier := identifierOf (valuesOf "identifier" fields)

/-- The records and the token of a response. -/
theorem parseOai_eventsAll (response : List XmlNode) (flat : XmlNode.flatAll response = true) :
    parseOai ((XmlNode.eventsAll response).map .ok) =
      .ok ((XmlNode.contentsAll response).1.map recordOf,
        (XmlNode.contentsAll response).2.getLast?) := by
  rw [parseOai, OaiScan.read_ok, XmlNode.foldl_outsideAll response {} rfl flat, Except.map]
  simp [OaiScan.found]

/-- An element with a text. -/
def leaf (name value : String) : XmlNode := .element name.toList [.text (some value.toList)]

/-- A response of one record, with a token behind it. -/
def shortResponse : List XmlNode :=
  [.mark, .element "OAI-PMH".toList [.element "ListRecords".toList
    [.element "record".toList
      [.element "header".toList [leaf "identifier" "oai:arXiv.org:2401.00001"],
        .element "metadata".toList [.element "oai_dc:dc".toList
          [leaf "dc:title" " Agentic retrieval methods ", leaf "dc:creator" "Doe, Jane",
            leaf "dc:creator" "Roe, Richard", leaf "dc:date" "2024-01-01",
            leaf "dc:identifier" "http://arxiv.org/abs/2401.00001v1"]]],
      leaf "resumptionToken" "TOKEN-PAGE-2"]]]

structure ArxivOaiSource where
  fromDays : Int
  set : Option (List Char)
  language : Option (List Char)
  maxPages : Nat
  deriving Repr

namespace ArxivOaiSource

def new : ArxivOaiSource := ⟨7, none, some "en".toList, 1⟩

def withMaxPages (source : ArxivOaiSource) (pages : Nat) : ArxivOaiSource :=
  { source with maxPages := max pages 1 }

/-- The parameters of a request: for the first page, or for the one that a token stands for.  A
token goes with the verb only. -/
def request (source : ArxivOaiSource) (since : List Char) :
    Option (List Char) → List (String × List Char)
  | some token => [("verb", "ListRecords".toList), ("resumptionToken", token)]
  | none =>
      [("verb", "ListRecords".toList), ("metadataPrefix", "oai_dc".toList), ("from", since)] ++
        (source.set.map fun set => ("set", set)).toList

/-- The loop of `search` over the pages, with the requests that it makes.  What a request gets may
depend on how many were made before. -/
def harvest (source : ArxivOaiSource) (since : List Char)
    (fetch : Nat → List (String × List Char) → Except FetchError XmlEvents) :
    Nat → Nat → Option (List Char) → List OaiRecord →
      List (List (String × List Char)) × Except FetchError (List OaiRecord)
  | 0, _, _, records => ([], .ok records)
  | left + 1, page, token, records =>
      match (fetch page (source.request since token)).bind parseOai with
      | .error error => ([source.request since token], .error error)
      | .ok (recs, some t) =>
          if trim isWhitespace t ≠ [] ∧ left ≠ 0 then
            let (requests, outcome) :=
              source.harvest since fetch left (page + 1) (some t) (records ++ recs)
            (source.request since token :: requests, outcome)
          else ([source.request since token], .ok (records ++ recs))
      | .ok (recs, none) => ([source.request since token], .ok (records ++ recs))

end ArxivOaiSource

/-- `title_hash` -/
def titleHash (tables : Unicode) (title : List Char) : UInt64 :=
  hashText ((title.filter tables.isAlphanumeric).flatMap tables.lowercaseChar)

/-- `arxiv_id_from_url`: what stands behind `/abs/`, without a version. -/
def arxivIdFromUrl (url : List Char) : Option (List Char) :=
  (splitOnce "/abs/".toList url).map fun cut =>
    let after := ((splitOnce "/abs/".toList cut.2).map Prod.fst).getD cut.2
    let version := after.rtakeWhile (· != 'v')
    if 'v' ∈ after ∧ version ≠ [] ∧ version.all Char.isDigit then
      after.take (after.length - version.length - 1)
    else after

section Search

variable {α : Type} [Scalar α] (tables : Unicode) (crate : UrlCrate)
variable (parseDatetime : List Char → Option DateTime)

/-- The words of a query that a record has to contain: those of at least three characters. -/
def harvestTerms (text : List Char) : List (List Char) :=
  ((words isWhitespace text).map fun w =>
    tables.lowercase (trim (fun c => !tables.isAlphanumeric c) w)).filter fun w => 3 ≤ w.length

/-- Whether a record contains all terms. -/
def OaiRecord.contains (r : OaiRecord) (terms : List (List Char)) : Bool :=
  terms.all fun t => decide (t <:+: tables.lowercase (r.title ++ ' ' :: r.description))

/-- The document of a record. -/
def OaiRecord.document (source : ArxivOaiSource) (now : DateTime) (r : OaiRecord) : Document α where
  identity :=
    { doi := none
      arxivId := arxivIdFromUrl r.identifier
      canonicalUrl := canonicalizeUrl crate r.identifier
      titleHash := titleHash tables (collapse r.title) }
  source := .arxiv
  title := collapse r.title
  url := r.identifier
  authors := r.creators.map fun c => ⟨collapse c, none⟩
  publishedAt := parseDatetime r.date
  fetchedAt := now
  summary := if r.description.isEmpty then none else some (stripHtml r.description)
  content := none
  language := source.language
  tags := []
  sources := [.arxiv]
  score := ⟨Scalar.lit 0, Scalar.lit 0, Scalar.lit 0, Scalar.lit 0⟩
  extra := fun _ => none

/-- `search`, with the requests that it makes. -/
def ArxivOaiSource.search (source : ArxivOaiSource) (since : List Char) (now : DateTime)
    (fetch : Nat → List (String × List Char) → Except FetchError XmlEvents) (query : SearchQuery) :
    List (List (String × List Char)) × Except FetchError (List (Document α)) :=
  let (requests, outcome) := source.harvest since fetch source.maxPages 0 none []
  (requests, outcome.map fun records =>
    (records.filter fun r => r.contains tables (harvestTerms tables query.text)).map
      (OaiRecord.document tables crate parseDatetime source now))

end Search

/-! ## A repository that hands out pages -/

/-- The pages of an answer, some of which may fail, and the tokens under which they are asked for. -/
structure Listing where
  pages : List (Except FetchError XmlEvents)
  token : Nat → List Char

namespace Listing

variable (listing : Listing) (source : ArxivOaiSource) (since : List Char)

/-- The token with which a page is asked for. -/
def asked (page : Nat) : Option (List Char) :=
  if page = 0 then none else some (listing.token page)

/-- Tokens are not blank, and every page names that of the next one. -/
structure Linked : Prop where
  inked : ∀ page, trim isWhitespace (listing.token page) ≠ []
  next : ∀ page recs token, (listing.pages[page]?.map fun xml => xml.bind parseOai) =
    some (.ok (recs, token)) →
      token = if page + 1 < listing.pages.length then some (listing.token (page + 1)) else none

/-- Each page is what the request for it gets. -/
def Answers (fetch : Nat → List (String × List Char) → Except FetchError XmlEvents) : Prop :=
  ∀ page xml, listing.pages[page]? = some xml →
    fetch page (source.request since (listing.asked page)) = xml

/-- The records of a page. -/
def recordsOf (page : Except FetchError XmlEvents) : Except FetchError (List OaiRecord) :=
  (page.bind parseOai).map Prod.fst

/-- How many pages are read, up to one that fails. -/
def readCount : List (Except FetchError XmlEvents) → Nat
  | [] => 0
  | page :: rest =>
      match recordsOf page with
      | .ok _ => readCount rest + 1
      | .error _ => 1

variable {listing source since}
variable {fetch : Nat → List (String × List Char) → Except FetchError XmlEvents}

theorem harvest_from (linked : listing.Linked) (answers : listing.Answers source since fetch)
    (left page : Nat) (inside : page < listing.pages.length) (records : List OaiRecord) :
    source.harvest since fetch (left + 1) page (listing.asked page) records =
      ((List.range' page (readCount ((listing.pages.drop page).take (left + 1)))).map fun page =>
          source.request since (listing.asked page),
        (((listing.pages.drop page).take (left + 1)).mapM recordsOf).map fun found =>
          records ++ found.flatten) := by
  induction left generalizing page records with
  | zero =>
      have here := List.getElem?_eq_getElem inside
      rw [ArxivOaiSource.harvest, answers page _ here, List.drop_eq_getElem_cons inside,
        List.take_succ_cons, List.take_zero, readCount, List.mapM_cons, recordsOf]
      cases parsed : listing.pages[page].bind parseOai with
      | error error => rfl
      | ok found =>
          obtain ⟨recs, token⟩ := found
          cases token <;> simp [readCount, Except.map]
  | succ left ih =>
      have here := List.getElem?_eq_getElem inside
      rw [ArxivOaiSource.harvest, answers page _ here, List.drop_eq_getElem_cons inside,
        List.take_succ_cons, readCount, List.mapM_cons, recordsOf]
      cases parsed : listing.pages[page].bind parseOai with
      | error error => rfl
      | ok found =>
          obtain ⟨recs, token⟩ := found
          have follows := linked.next page recs token (by rw [here, Option.map_some, parsed])
          by_cases more : page + 1 < listing.pages.length
          · rw [if_pos more] at follows
            subst follows
            have asked : some (listing.token (page + 1)) = listing.asked (page + 1) := rfl
            dsimp only
            rw [if_pos ⟨linked.inked _, Nat.succ_ne_zero _⟩, asked, ih (page + 1) more]
            refine Prod.ext rfl ?_
            cases (((listing.pages.drop (page + 1)).take (left + 1)).mapM recordsOf) with
            | error error => rfl
            | ok found => exact congrArg Except.ok (List.append_assoc ..)
          · rw [if_neg more] at follows
            subst follows
            rw [List.drop_eq_nil_of_le (by omega)]
            simp [readCount, Except.map]

end Listing

/-- Against a repository that hands out linked pages, `search` asks for each of the first pages
once, in order, up to the limit or to the first that fails; it answers with the error of that one,
or with the documents of all records on them that contain the terms. -/
theorem search_listing {α : Type} [Scalar α] (tables : Unicode) (crate : UrlCrate)
    (parseDatetime : List Char → Option DateTime) {source : ArxivOaiSource} {since : List Char}
    (now : DateTime) {listing : Listing} (linked : listing.Linked)
    {fetch : Nat → List (String × List Char) → Except FetchError XmlEvents}
    (answers : listing.Answers source since fetch) (some_ : listing.pages ≠ [])
    (positive : source.maxPages ≠ 0) (query : SearchQuery) :
    source.search tables crate parseDatetime since now fetch query =
      ((List.range (Listing.readCount (listing.pages.take source.maxPages))).map fun page =>
          source.request since (listing.asked page),
        ((listing.pages.take source.maxPages).mapM Listing.recordsOf).map fun found =>
          (found.flatten.filter fun r => r.contains tables (harvestTerms tables query.text)).map
            (OaiRecord.document (α := α) tables crate parseDatetime source now)) := by
  obtain ⟨left, pages⟩ := Nat.exists_eq_succ_of_ne_zero positive
  have whole := Listing.harvest_from linked answers left 0 (List.length_pos_iff.mpr some_) []
  have first : listing.asked 0 = none := rfl
  rw [first, List.drop_zero] at whole
  rw [ArxivOaiSource.search, pages, whole, List.range_eq_range']
  refine Prod.ext rfl ?_
  cases (listing.pages.take (left + 1)).mapM Listing.recordsOf <;> rfl

/-- Two pages of one record each. -/
def twoPages : Listing where
  pages := [.ok ((XmlNode.eventsAll shortResponse).map .ok),
    .ok ((XmlNode.eventsAll [.element "record".toList [leaf "title" "Second"]]).map .ok)]
  token := fun _ => "TOKEN-PAGE-2".toList

theorem search_listing_twoPages :
    (((ArxivOaiSource.new.withMaxPages 5).search (α := Exact) Unicode.ascii
      ⟨fun _ => none, fun _ => [], id⟩ (fun _ => none) [] 0
      (fun page _ => twoPages.pages.getD page (.error (.http [])))
      (SearchQuery.fromText "second".toList 10)).2.toOption.map fun docs =>
        docs.map Document.title) = some ["Second".toList] := by
  have linked : twoPages.Linked := by
    have inked : trim isWhitespace "TOKEN-PAGE-2".toList ≠ [] := by decide
    have first : parseOai ((XmlNode.eventsAll shortResponse).map .ok) = .ok (_, _) :=
      parseOai_eventsAll shortResponse (by decide +kernel)
    have second : parseOai ((XmlNode.eventsAll
        [.element "record".toList [leaf "title" "Second"]]).map .ok) = .ok (_, _) :=
      parseOai_eventsAll [.element "record".toList [leaf "title" "Second"]] (by decide +kernel)
    refine ⟨fun _ => inked, fun page recs token found => ?_⟩
    match page with
    | 0 =>
        have same := (Except.ok.inj (first.symm.trans (Option.some.inj found)))
        rw [← (Prod.mk.inj same).2]
        decide +kernel
    | 1 =>
        have same := (Except.ok.inj (second.symm.trans (Option.some.inj found)))
        rw [← (Prod.mk.inj same).2]
        decide +kernel
    | page + 2 => simp [twoPages] at found
  have answers : twoPages.Answers (ArxivOaiSource.new.withMaxPages 5) []
      fun page _ => twoPages.pages.getD page (.error (.http [])) := by
    intro page xml here
    simp [List.getD, here]
  rw [search_listing Unicode.ascii _ _ 0 linked answers (by decide) (by decide)]
  decide +kernel

end AiCoreStack.Scholar
