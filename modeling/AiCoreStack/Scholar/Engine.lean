import AiCoreStack.Scholar.Fusion

/-!
# The engine

Model of `engine.rs` and `cache.rs`.  At most `maxConcurrency` of the selected sources are asked at
once, and their answers come in whatever order they are complete.  What a source answers, and
whether in time, is a function of the query; when it answers is left open.  A search relates a
query to the reports it may return.
-/

namespace AiCoreStack.Scholar

open Foundation

variable {α : Type}

/-- What comes back from a source. -/
inductive Answer (α : Type) where
  | docs (docs : List (Document α))
  | failed (error : FetchError)
  | elapsed

/-- A registered source. -/
structure Source (α : Type) where
  kind : SourceKind
  search : SearchQuery → Answer α

structure Engine (α : Type) where
  sources : List (Source α)
  maxConcurrency : Nat
  concurrent : 0 < maxConcurrency
  nearDupThreshold : α

namespace Engine

def new [Scalar α] : Engine α where
  sources := []
  maxConcurrency := 8
  concurrent := by decide
  nearDupThreshold := Scalar.lit (7 / 10)

def register (engine : Engine α) (source : Source α) : Engine α :=
  { engine with sources := engine.sources ++ [source] }

def withNearDupThreshold (engine : Engine α) (threshold : α) : Engine α :=
  { engine with nearDupThreshold := threshold }

/-- The sources of the kinds that the query names, all of them where it names none. -/
def selected (engine : Engine α) (query : SearchQuery) : List (Source α) :=
  engine.sources.filter fun r => query.sources.isEmpty || query.sources.contains r.kind

/-- What the selected sources answer, in the order in which they are registered. -/
def answers (engine : Engine α) (query : SearchQuery) : List (SourceKind × Answer α) :=
  (engine.selected query).map fun r => (r.kind, r.search query)

end Engine

/-- `buffer_unordered(width)`: while fewer than `width` items run the next one starts, and any
running item may be the next to complete. -/
inductive Completes {β : Type} (width : Nat) : List β → List β → List β → Prop where
  | done : Completes width [] [] []
  | start {item : β} {waiting running out : List β} (room : running.length < width)
      (rest : Completes width waiting (running ++ [item]) out) :
      Completes width (item :: waiting) running out
  | finish {item : β} {waiting before after out : List β}
      (rest : Completes width waiting (before ++ after) out) :
      Completes width waiting (before ++ item :: after) (item :: out)

/-- Every item completes once. -/
theorem Completes.perm {β : Type} {width : Nat} {waiting running out : List β}
    (completes : Completes width waiting running out) : out.Perm (running ++ waiting) := by
  induction completes with
  | done => exact .nil
  | start room rest ih => simpa using ih
  | finish rest ih =>
      rw [List.append_assoc, List.cons_append]
      apply (ih.cons _).trans
      rw [List.append_assoc]
      exact List.perm_middle.symm

/-- The items may complete in the order in which they start. -/
theorem completes_in_order {β : Type} {width : Nat} (concurrent : 0 < width) (items : List β) :
    Completes width items [] items := by
  induction items with
  | nil => exact .done
  | cons item rest ih =>
      apply Completes.start concurrent
      exact @Completes.finish β width item rest [] [] rest ih

/-- What is running may complete in any order. -/
theorem completes_running {β : Type} {width : Nat} {running out : List β}
    (perm : out.Perm running) : Completes width [] running out := by
  induction out generalizing running with
  | nil =>
      obtain rfl := List.nil_perm.mp perm
      exact .done
  | cons item out ih =>
      obtain ⟨before, after, rfl⟩ := List.append_of_mem (perm.subset List.mem_cons_self)
      exact .finish (ih (perm.trans List.perm_middle).cons_inv)

/-- With room for all items, they may complete in any order. -/
theorem completes_any_order {β : Type} {width : Nat} {waiting running out : List β}
    (room : running.length + waiting.length ≤ width) (perm : out.Perm (running ++ waiting)) :
    Completes width waiting running out := by
  induction waiting generalizing running with
  | nil => exact completes_running (by simpa using perm)
  | cons item waiting ih =>
      rw [List.length_cons] at room
      apply Completes.start (by omega)
      apply ih
      · simpa [Nat.add_assoc, Nat.add_comm 1] using room
      · simpa using perm

/-- Sort the outcomes of the sources into lists of documents and warnings. -/
def collect (outcomes : List (SourceKind × Answer α)) :
    List (List (Document α)) × List ConnectorWarning :=
  outcomes.foldl (fun (perSource, warnings) (kind, outcome) =>
    match outcome with
    | .docs docs =>
        (perSource ++ [docs],
          if docs.isEmpty then warnings ++ [ConnectorWarning.empty kind] else warnings)
    | .failed e => (perSource, warnings ++ [⟨kind, e.display⟩])
    | .elapsed => (perSource, warnings ++ [ConnectorWarning.timeout kind])) ([], [])

/-- The documents of an outcome that has some to show, maybe none. -/
def Answer.docs? : Answer α → Option (List (Document α))
  | .docs list => some list
  | .failed _ => none
  | .elapsed => none

/-- What an outcome is warned of. -/
def Answer.warnings (kind : SourceKind) : Answer α → List ConnectorWarning
  | .docs list => if list.isEmpty then [ConnectorWarning.empty kind] else []
  | .failed e => [⟨kind, e.display⟩]
  | .elapsed => [ConnectorWarning.timeout kind]

/-- Each outcome adds its documents and its warnings. -/
theorem collect_eq (outcomes : List (SourceKind × Answer α)) :
    collect outcomes =
      (outcomes.filterMap fun outcome => outcome.2.docs?,
        outcomes.flatMap fun outcome => outcome.2.warnings outcome.1) := by
  induction outcomes using List.reverseRecOn with
  | nil => rfl
  | append_singleton outcomes last ih =>
      rw [collect, List.foldl_append, ← collect, ih, List.filterMap_append, List.flatMap_append]
      obtain ⟨kind, outcome⟩ := last
      cases outcome with
      | docs list => cases list <;> simp [Answer.docs?, Answer.warnings]
      | failed e => simp [Answer.docs?, Answer.warnings]
      | elapsed => simp [Answer.docs?, Answer.warnings]

/-- Days that a window reaches back. -/
def Recency.maxDays : Recency → Int
  | .day => 1
  | .week => 7
  | .month => 31
  | .year => 366

/-- The filter on dates; a document without a date passes. -/
def passesDateFilter (d : Document α) (q : SearchQuery) (now : DateTime) : Bool :=
  match d.publishedAt with
  | none => true
  | some published =>
      (q.recency.all fun rec => daysSince now published ≤ rec.maxDays) &&
        (q.fromDate.all fun start => start ≤ published) &&
        (q.toDate.all fun stop => published ≤ stop)

section Search

variable [Scalar α] (tables : Unicode) (engine : Engine α) (now : DateTime)

/-- What is made of the outcomes once all sources are through. -/
def assemble (order : Iteration) (query : SearchQuery)
    (outcomes : List (SourceKind × Answer α)) : SearchReport α :=
  let (perSource, warnings) := collect outcomes
  let docs := nearDedup tables order (fuse tables now perSource defaultRrfK)
    engine.nearDupThreshold
  ⟨(docs.filter fun d => passesDateFilter d query now).take query.limit, warnings⟩

/-- The reports that a search without a cache may return. -/
def Reports (query : SearchQuery) (report : SearchReport α) : Prop :=
  ∃ outcomes, Completes engine.maxConcurrency (engine.answers query) [] outcomes ∧
    ∃ order, report = assemble tables engine now order query outcomes

/-- Some report is always returned. -/
theorem exists_report (query : SearchQuery) : ∃ report, Reports tables engine now query report :=
  ⟨_, _, completes_in_order engine.concurrent _, ⟨id, fun _ => List.Perm.refl _⟩, rfl⟩

end Search

/-! ## The cache -/

/-- How a date is printed by `Debug`: different dates differently, and without a bar. -/
structure DateFormat where
  debug : DateTime → List Char
  injective : Function.Injective debug
  noBar : ∀ date, '|' ∉ debug date

/-- `Debug` of an optional value. -/
def debugOption {β : Type} (debug : β → List Char) : Option β → List Char
  | none => "None".toList
  | some value => "Some(".toList ++ debug value ++ [')']

/-- The names of the source kinds, sorted. -/
def sortedKinds (kinds : List SourceKind) : List (List Char) :=
  (kinds.map SourceKind.debug).mergeSort fun a b => decide (a ≤ b)

/-- The key a report is cached under: normalised text, source kinds, limit and dates. -/
def cacheKey (tables : Unicode) (format : DateFormat) (q : SearchQuery) : List Char :=
  tables.lowercase (trim isWhitespace q.text) ++
    '|' :: [','].intercalate (sortedKinds q.sources) ++
    '|' :: Nat.toDigits 10 q.limit ++
    '|' :: debugOption Recency.debug q.recency ++
    '|' :: debugOption format.debug q.fromDate ++
    '|' :: debugOption format.debug q.toDate

/-- A cache as its lookup. -/
abbrev Cache (α : Type) := List Char → Option (SearchReport α)

/-- A bounded cache may forget entries at any time. -/
def Forgets (cache kept : Cache α) : Prop := ∀ key, kept key = none ∨ kept key = cache key

/-- One search through the cache. -/
inductive Serves [Scalar α] (tables : Unicode) (format : DateFormat) (engine : Engine α)
    (now : DateTime) : Cache α → SearchQuery → SearchReport α → Cache α → Prop where
  | hit {cache : Cache α} {query : SearchQuery} {report : SearchReport α}
      (found : cache (cacheKey tables format query) = some report) :
      Serves tables format engine now cache query report cache
  | miss {cache : Cache α} {query : SearchQuery} {report : SearchReport α}
      (absent : cache (cacheKey tables format query) = none)
      (searched : Reports tables engine now query report) :
      Serves tables format engine now cache query report
        (Function.update cache (cacheKey tables format query) (some report))

/-- A sequence of queries with the reports they are answered with. -/
inductive Answers [Scalar α] (tables : Unicode) (format : DateFormat) (engine : Engine α)
    (now : DateTime) : Cache α → List (SearchQuery × SearchReport α) → Prop where
  | nil {cache : Cache α} : Answers tables format engine now cache []
  | cons {cache kept after : Cache α} {query : SearchQuery} {report : SearchReport α}
      {rest : List (SearchQuery × SearchReport α)} (forgets : Forgets cache kept)
      (serves : Serves tables format engine now kept query report after)
      (later : Answers tables format engine now after rest) :
      Answers tables format engine now cache ((query, report) :: rest)

end AiCoreStack.Scholar
