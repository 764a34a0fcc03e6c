import AiCoreStack.Scholar.Engine

/-!
# What the cache key tells apart

The key of a query says exactly: its trimmed text in lower case, the bag of source kinds it
names, the limit, and the dates.  For sources that answer queries alike which agree in all
this, every report that comes out of the cache is one that a search without it may return.
-/

namespace AiCoreStack.Scholar

open Foundation

variable {α : Type} (tables : Unicode) (format : DateFormat)

/-- Queries that agree in everything the key is made of. -/
structure Agree (q q' : SearchQuery) : Prop where
  text : tables.lowercase (trim isWhitespace q.text) = tables.lowercase (trim isWhitespace q'.text)
  sources : q.sources.Perm q'.sources
  limit : q.limit = q'.limit
  recency : q.recency = q'.recency
  fromDate : q.fromDate = q'.fromDate
  toDate : q.toDate = q'.toDate

/-! ## Reading the fields back -/

/-- The last of the fields that a bar separates. -/
theorem append_bar_inj {bar : Char} {front front' last last' : List Char} (plain : bar ∉ last)
    (plain' : bar ∉ last') (same : front ++ bar :: last = front' ++ bar :: last') :
    front = front' ∧ last = last' := by
  rcases List.append_eq_append_iff.mp same with ⟨between, fronts, lasts⟩ | ⟨between, fronts, lasts⟩
  · cases between with
    | nil =>
        rw [List.nil_append, List.cons.injEq] at lasts
        exact ⟨by rw [fronts, List.append_nil], lasts.2⟩
    | cons head rest =>
        rw [List.cons_append, List.cons.injEq] at lasts
        exact absurd (by simp [lasts.2]) plain
  · cases between with
    | nil =>
        rw [List.nil_append, List.cons.injEq] at lasts
        exact ⟨by rw [fronts, List.append_nil], lasts.2.symm⟩
    | cons head rest =>
        rw [List.cons_append, List.cons.injEq] at lasts
        exact absurd (by simp [lasts.2]) plain'

theorem bar_notMem_debugOption {β : Type} {debug : β → List Char} (plain : ∀ value, '|' ∉ debug value)
    (value : Option β) : '|' ∉ debugOption debug value := by
  cases value with
  | none => simp [debugOption]
  | some value => simp [debugOption, plain value]

theorem debugOption_injective {β : Type} {debug : β → List Char}
    (injective : Function.Injective debug) : Function.Injective (debugOption debug) := by
  intro left right same
  cases left with
  | none =>
      cases right with
      | none => rfl
      | some right => simp [debugOption] at same
  | some left =>
      cases right with
      | none => simp [debugOption] at same
      | some right =>
          have inner : debug left = debug right := by simpa [debugOption] using same
          rw [injective inner]

theorem Recency.debug_injective : Function.Injective Recency.debug := by
  intro left right same
  cases left <;> cases right <;> first | rfl | exact absurd same (by decide)

theorem Recency.bar_notMem_debug (window : Recency) : '|' ∉ window.debug := by
  cases window <;> decide

theorem SourceKind.debug_injective : Function.Injective SourceKind.debug := by
  intro left right same
  cases left <;> cases right <;> first | rfl | exact absurd same (by decide)

/-- Names of kinds are not empty and hold neither a comma nor a bar. -/
theorem SourceKind.debug_plain (kind : SourceKind) :
    kind.debug ≠ [] ∧ ',' ∉ kind.debug ∧ '|' ∉ kind.debug := by
  cases kind <;> decide

theorem toDigits_injective : Function.Injective (Nat.toDigits 10) := by
  intro left right same
  have read := congrArg (fun digits => Nat.ofDigitChars 10 digits 0) same
  simpa [Nat.ofDigitChars_toDigits] using read

theorem bar_notMem_toDigits (n : Nat) : '|' ∉ Nat.toDigits 10 n := notMem_toDigits (by decide) n

/-- Dates as numbers. -/
def DateFormat.nanoseconds : DateFormat where
  debug date := (if date < 0 then ['-'] else []) ++ Nat.toDigits 10 date.natAbs
  injective := by
    intro (left : Int) (right : Int) same
    change (left : Int) = right
    have unsigned (n : Nat) (rest : List Char) : Nat.toDigits 10 n ≠ '-' :: rest := fun shape =>
      notMem_toDigits (by decide) n (shape ▸ List.mem_cons_self)
    by_cases negative : left < 0
    · by_cases negative' : right < 0
      · have sizes : left.natAbs = right.natAbs :=
          toDigits_injective (by simpa [negative, negative'] using same)
        omega
      · exact absurd (by simpa [negative, negative'] using same.symm) (unsigned _ _)
    · by_cases negative' : right < 0
      · exact absurd (by simpa [negative, negative'] using same) (unsigned _ _)
      · have sizes : left.natAbs = right.natAbs :=
          toDigits_injective (by simpa [negative, negative'] using same)
        omega
  noBar date := by
    rw [List.mem_append, not_or]
    refine ⟨?_, bar_notMem_toDigits _⟩
    split <;> decide

/-! ## Kinds -/

theorem mem_sortedKinds {kinds : List SourceKind} {name : List Char}
    (member : name ∈ sortedKinds kinds) : ∃ kind ∈ kinds, kind.debug = name := by
  rw [sortedKinds, List.mem_mergeSort] at member
  exact List.mem_map.mp member

theorem sortedKinds_eq_iff {kinds kinds' : List SourceKind} :
    sortedKinds kinds = sortedKinds kinds' ↔ kinds.Perm kinds' := by
  constructor
  · intro same
    have names : (kinds.map SourceKind.debug).Perm (kinds'.map SourceKind.debug) := by
      apply (List.mergeSort_perm (kinds.map SourceKind.debug) fun a b => decide (a ≤ b)).symm.trans
      rw [← sortedKinds, same]
      exact List.mergeSort_perm _ _
    exact (List.map_perm_map_iff SourceKind.debug_injective).mp names
  · intro perm
    have sorted (kinds : List SourceKind) : (sortedKinds kinds).Pairwise (· ≤ ·) :=
      List.pairwise_mergeSort' (· ≤ ·) _
    apply List.Perm.eq_of_pairwise _ (sorted kinds) (sorted kinds')
    · exact (List.mergeSort_perm _ _).trans
        ((perm.map SourceKind.debug).trans (List.mergeSort_perm _ _).symm)
    · intro a b _ _ below above
      exact le_antisymm below above

theorem joined_injective {kinds kinds' : List SourceKind}
    (same : [','].intercalate (sortedKinds kinds) = [','].intercalate (sortedKinds kinds')) :
    sortedKinds kinds = sortedKinds kinds' := by
  have plain (kinds : List SourceKind) : ∀ name ∈ sortedKinds kinds, name ≠ [] ∧ ',' ∉ name := by
    intro name member
    obtain ⟨kind, _, rfl⟩ := mem_sortedKinds member
    exact ⟨kind.debug_plain.1, kind.debug_plain.2.1⟩
  have read {kinds : List SourceKind} (some' : sortedKinds kinds ≠ []) :
      ([','].intercalate (sortedKinds kinds)).splitOn ',' = sortedKinds kinds :=
    List.splitOn_intercalate ',' (fun name member => (plain kinds name member).2) some'
  -- The empty text would be read as one empty name.
  have empty {kinds : List SourceKind} (nothing : [','].intercalate (sortedKinds kinds) = []) :
      sortedKinds kinds = [] := by
    by_contra some'
    have back := read some'
    rw [nothing] at back
    exact (plain kinds [] (by rw [← back]; simp)).1 rfl
  by_cases none' : sortedKinds kinds = []
  · rw [none', List.intercalate_nil] at same
    rw [none', empty same.symm]
  · by_cases none'' : sortedKinds kinds' = []
    · rw [none'', List.intercalate_nil] at same
      rw [none'', empty same]
    · rw [← read none', ← read none'', same]

theorem notMem_intercalate {c : Char} {separator : List Char} {parts : List (List Char)}
    (plain : ∀ part ∈ parts, c ∉ part) (apart : c ∉ separator) :
    c ∉ separator.intercalate parts := by
  induction parts with
  | nil => simp
  | cons part rest ih =>
      have later := ih fun other member => plain other (List.mem_cons_of_mem part member)
      cases rest with
      | nil => simpa using plain part (by simp)
      | cons next rest =>
          rw [List.intercalate_cons_cons]
          simp only [List.mem_append, not_or]
          exact ⟨⟨plain part (by simp), apart⟩, later⟩

theorem bar_notMem_joined (kinds : List SourceKind) :
    '|' ∉ [','].intercalate (sortedKinds kinds) := by
  apply notMem_intercalate _ (by decide)
  intro name member
  obtain ⟨kind, _, rfl⟩ := mem_sortedKinds member
  exact kind.debug_plain.2.2

/-- The key of a query tells exactly these things. -/
theorem cacheKey_eq_iff (q q' : SearchQuery) :
    cacheKey tables format q = cacheKey tables format q' ↔ Agree tables q q' := by
  constructor
  · intro same
    obtain ⟨same, toDate⟩ := append_bar_inj (bar_notMem_debugOption format.noBar _)
      (bar_notMem_debugOption format.noBar _) same
    obtain ⟨same, fromDate⟩ := append_bar_inj (bar_notMem_debugOption format.noBar _)
      (bar_notMem_debugOption format.noBar _) same
    obtain ⟨same, recency⟩ := append_bar_inj (bar_notMem_debugOption Recency.bar_notMem_debug _)
      (bar_notMem_debugOption Recency.bar_notMem_debug _) same
    obtain ⟨same, limit⟩ := append_bar_inj (bar_notMem_toDigits _) (bar_notMem_toDigits _) same
    obtain ⟨text, kinds⟩ := append_bar_inj (bar_notMem_joined _) (bar_notMem_joined _) same
    exact ⟨text, sortedKinds_eq_iff.mp (joined_injective kinds), toDigits_injective limit,
      debugOption_injective Recency.debug_injective recency,
      debugOption_injective format.injective fromDate,
      debugOption_injective format.injective toDate⟩
  · intro agree
    rw [cacheKey, cacheKey, agree.text, sortedKinds_eq_iff.mpr agree.sources, agree.limit,
      agree.recency, agree.fromDate, agree.toDate]

/-! ## Transparency -/

section Transparency

variable [Scalar α] (engine : Engine α) (now : DateTime)

/-- Whatever comes out of a run with a cache that is empty at first, a search without a cache
may return for the same query. -/
def Transparent : Prop :=
  ∀ answers, Answers tables format engine now (fun _ => none) answers →
    ∀ answer ∈ answers, Reports tables engine now answer.1 answer.2

/-- Sources that answer queries alike which agree. -/
def Indifferent : Prop :=
  ∀ source ∈ engine.sources, ∀ q q', Agree tables q q' → source.search q = source.search q'

variable {engine} {tables}

omit [Scalar α] in
theorem Agree.answers_eq {q q' : SearchQuery} (agree : Agree tables q q')
    (indifferent : Indifferent tables engine) : engine.answers q = engine.answers q' := by
  have named (kind : SourceKind) : (q.sources.isEmpty || q.sources.contains kind) =
      (q'.sources.isEmpty || q'.sources.contains kind) := by
    rw [agree.sources.isEmpty_eq, agree.sources.contains_eq]
  have same : engine.selected q = engine.selected q' :=
    List.filter_congr fun source _ => named source.kind
  rw [Engine.answers, Engine.answers, same]
  apply List.map_congr_left
  intro source member
  rw [indifferent source (List.mem_of_mem_filter member) q q' agree]

theorem Agree.assemble_eq {q q' : SearchQuery} (agree : Agree tables q q') (order : Iteration)
    (outcomes : List (SourceKind × Answer α)) :
    assemble tables engine now order q outcomes = assemble tables engine now order q' outcomes := by
  have passes (d : Document α) : passesDateFilter d q now = passesDateFilter d q' now := by
    rw [passesDateFilter, passesDateFilter, agree.recency, agree.fromDate, agree.toDate]
  simp only [assemble, passes, agree.limit]

/-- Queries that agree have the same reports. -/
theorem Agree.reports {q q' : SearchQuery} (agree : Agree tables q q')
    (indifferent : Indifferent tables engine) (report : SearchReport α) :
    Reports tables engine now q report ↔ Reports tables engine now q' report := by
  rw [Reports, Reports, agree.answers_eq indifferent]
  simp only [agree.assemble_eq]

variable (tables engine)

/-- Every entry of a cache is a report of every query with its key. -/
def Sound (cache : Cache α) : Prop :=
  ∀ query report, cache (cacheKey tables format query) = some report →
    Reports tables engine now query report

variable {tables engine format now}

theorem Sound.forget {cache kept : Cache α} (sound : Sound tables format engine now cache)
    (forgets : Forgets cache kept) : Sound tables format engine now kept := by
  intro query report found
  rcases forgets (cacheKey tables format query) with gone | stays
  · simp [gone] at found
  · exact sound query report (stays ▸ found)

/-- A search through a sound cache returns a report of its query and leaves the cache sound. -/
theorem Sound.serve {cache after : Cache α} {query : SearchQuery} {report : SearchReport α}
    (sound : Sound tables format engine now cache) (indifferent : Indifferent tables engine)
    (serves : Serves tables format engine now cache query report after) :
    Reports tables engine now query report ∧ Sound tables format engine now after := by
  cases serves with
  | hit found => exact ⟨sound query report found, sound⟩
  | miss absent searched =>
      refine ⟨searched, ?_⟩
      intro other found held
      by_cases same : cacheKey tables format other = cacheKey tables format query
      · rw [same, Function.update_self, Option.some.injEq] at held
        have agree := (cacheKey_eq_iff tables format other query).mp same
        exact held ▸ (agree.reports now indifferent report).mpr searched
      · rw [Function.update_of_ne same] at held
        exact sound other found held

theorem Sound.answers {cache : Cache α} {answers : List (SearchQuery × SearchReport α)}
    (sound : Sound tables format engine now cache) (indifferent : Indifferent tables engine)
    (run : Answers tables format engine now cache answers) :
    ∀ answer ∈ answers, Reports tables engine now answer.1 answer.2 := by
  induction run with
  | nil => simp
  | cons forgets serves later ih =>
      have served := (sound.forget forgets).serve indifferent serves
      intro answer member
      rcases List.mem_cons.mp member with rfl | inRest
      · exact served.1
      · exact ih served.2 answer inRest

variable (tables engine format now)

/-- Every sequence of queries gets its answers. -/
theorem exists_answers (cache : Cache α) (queries : List SearchQuery) :
    ∃ answers, answers.map Prod.fst = queries ∧
      Answers tables format engine now cache answers := by
  induction queries generalizing cache with
  | nil => exact ⟨[], rfl, .nil⟩
  | cons query rest ih =>
      obtain ⟨report, after, serves⟩ :
          ∃ report after, Serves tables format engine now cache query report after := by
        cases found : cache (cacheKey tables format query) with
        | some report => exact ⟨report, cache, .hit found⟩
        | none =>
            obtain ⟨report, searched⟩ := exists_report tables engine now query
            exact ⟨report, _, .miss found searched⟩
      obtain ⟨answers, queriesEq, later⟩ := ih after
      refine ⟨(query, report) :: answers, by rw [List.map_cons, queriesEq], ?_⟩
      exact .cons (fun _ => .inr rfl) serves later

/-- Over sources that answer alike what the key does not tell apart, the cache is transparent:
queries with one key are those that agree, they have the same reports, and every sequence of
queries is answered with reports of its queries. -/
theorem cache_transparent (indifferent : Indifferent tables engine) :
    (∀ q q', cacheKey tables format q = cacheKey tables format q' ↔ Agree tables q q') ∧
      (∀ q q', cacheKey tables format q = cacheKey tables format q' →
        ∀ report, Reports tables engine now q report ↔ Reports tables engine now q' report) ∧
      (∀ queries, ∃ answers, answers.map Prod.fst = queries ∧
        Answers tables format engine now (fun _ => none) answers) ∧
      Transparent tables format engine now := by
  refine ⟨cacheKey_eq_iff tables format, ?_, exists_answers tables format engine now _, ?_⟩
  · intro q q' same report
    exact ((cacheKey_eq_iff tables format q q').mp same).reports now indifferent report
  · intro answers run
    have empty : Sound tables format engine now fun _ => none := by
      intro query report found
      simp at found
    exact empty.answers indifferent run

end Transparency

/-- A source that finds one document and calls it by the text that the key holds. -/
def echoSource : Source Exact where
  kind := .web
  search q := .docs [.plain ⟨none, none, none, 0⟩ .web
    (Unicode.ascii.lowercase (trim isWhitespace q.text))]

theorem indifferent_echo : Indifferent Unicode.ascii (Engine.new.register echoSource) := by
  intro source member q q' agree
  obtain rfl : source = echoSource := by simpa [Engine.new, Engine.register] using member
  simp only [echoSource, agree.text]

theorem cache_transparent_echo :
    Indifferent Unicode.ascii (Engine.new.register echoSource) ∧
      Transparent Unicode.ascii .nanoseconds (Engine.new.register echoSource) 0 :=
  ⟨indifferent_echo,
    (cache_transparent Unicode.ascii .nanoseconds _ 0 indifferent_echo).2.2.2⟩

/-- A source that has nothing in other languages than English. -/
def englishSource : Source Exact where
  kind := .web
  search q :=
    if q.language = none ∨ q.language = some "en".toList then
      .docs [.plain ⟨none, none, none, 0⟩ .web "t".toList]
    else .docs []

/-- The warnings of a search of one source. -/
theorem warnings_of_reports {source : Source Exact} {query : SearchQuery}
    (open' : query.sources = []) {report : SearchReport Exact}
    (searched : Reports Unicode.ascii (Engine.new.register source) 0 query report) :
    report.warnings = (collect [(source.kind, source.search query)]).2 := by
  obtain ⟨outcomes, completes, order, rfl⟩ := searched
  have answers : (Engine.new.register source).answers query =
      [(source.kind, source.search query)] := by
    simp [Engine.answers, Engine.selected, Engine.new, Engine.register, open']
  have single := completes.perm
  rw [answers, List.nil_append, List.perm_singleton] at single
  rw [single]
  rfl

/-- The language is not in the key: a query in Korean gets the report of the one before. -/
theorem not_transparent :
    ¬ Transparent Unicode.ascii .nanoseconds (Engine.new.register englishSource) 0 := by
  intro transparent
  let english : SearchQuery := .fromText "rust".toList 10
  let korean : SearchQuery := { english with language := some "ko".toList }
  obtain ⟨report, searched⟩ :=
    exists_report Unicode.ascii (Engine.new.register englishSource) 0 english
  have run : Answers Unicode.ascii .nanoseconds (Engine.new.register englishSource) 0
      (fun _ => none) [(english, report), (korean, report)] := by
    apply Answers.cons (fun _ => .inr rfl) (.miss rfl searched)
    apply Answers.cons (fun _ => .inr rfl) (.hit _) .nil
    exact Function.update_self _ _ _
  have answered : Reports Unicode.ascii (Engine.new.register englishSource) 0 korean report :=
    transparent _ run (korean, report) (by simp)
  have silent := warnings_of_reports rfl searched
  have warned := warnings_of_reports rfl answered
  rw [silent] at warned
  exact absurd warned (by decide)

end AiCoreStack.Scholar
