import Mathlib

/-!
# Canonical URLs

Model of `canonicalize_url` of `normalize.rs`, over what it takes from the `url` crate.  The
query is filtered pair by pair, but the slash is trimmed off the serialised URL.  So tracking
parameters never show, while a slash at the end of the path does as soon as a query or a fragment
stands behind it.
-/

namespace AiCoreStack.Scholar

/-- A parsed URL: what stands ahead of the path, the path, the query and the fragment. -/
structure Url where
  front : List Char
  path : List Char
  query : Option (List Char)
  fragment : Option (List Char)
  deriving DecidableEq

/-- `to_string` -/
def Url.serialize (url : Url) : List Char :=
  url.front ++ url.path ++ url.query.elim [] ('?' :: ·) ++ url.fragment.elim [] ('#' :: ·)

abbrev Pairs := List (List Char × List Char)

/-- What is taken from the crate: reading a URL, reading the pairs of a query, and encoding a name
or value of a query. -/
structure UrlCrate where
  parse : List Char → Option Url
  queryPairs : List Char → Pairs
  encode : List Char → List Char

/-- The parameters that only track. -/
def tracking : List (List Char) :=
  ["utm_source".toList, "utm_medium".toList, "utm_campaign".toList, "utm_term".toList,
    "utm_content".toList, "fbclid".toList, "gclid".toList]

/-- `trim_end_matches('/')` -/
def trimSlashes (text : List Char) : List Char := text.rdropWhile (· == '/')

variable (crate : UrlCrate)

/-- `append_pair` -/
def UrlCrate.appendPair (query : List Char) (pair : List Char × List Char) : List Char :=
  (if query.isEmpty then [] else query ++ ['&']) ++
    (crate.encode pair.1 ++ '=' :: crate.encode pair.2)

/-- The pairs of the query. -/
def Url.pairs (url : Url) : Pairs := url.query.elim [] crate.queryPairs

/-- The pairs that do not track. -/
def Url.kept (url : Url) : Pairs :=
  (url.pairs crate).filter fun pair => !tracking.contains pair.1

/-- A query of the given pairs. -/
def UrlCrate.written (pairs : Pairs) : List Char := pairs.foldl crate.appendPair []

/-- `canonicalize_url` -/
def canonicalizeUrl (raw : List Char) : Option (List Char) := do
  let parsed ← crate.parse raw
  let parsed := { parsed with query := some (crate.written (parsed.kept crate)) }
  let parsed := if parsed.query = some [] then { parsed with query := none } else parsed
  some (trimSlashes parsed.serialize)

/-! ## What is asked of canonical URLs -/

/-- One tracking parameter more. -/
def Tracked (pairs pairs' : Pairs) : Prop :=
  ∃ before pair after, tracking.contains (Prod.fst pair) = true ∧ pairs = before ++ after ∧
    pairs' = before ++ pair :: after

/-- Tracking parameters inserted and removed, and perhaps a slash behind the path. -/
structure Variant (url url' : Url) : Prop where
  front : url'.front = url.front
  path : url'.path = url.path ∨ url'.path = url.path ++ ['/']
  pairs : Relation.EqvGen Tracked (url.pairs crate) (url'.pairs crate)
  fragment : url'.fragment = url.fragment

/-- Variants of a URL have one canonical form, which keeps the other pairs in order and is its own
canonical form. -/
structure Canonical (raw : List Char) (url : Url) : Prop where
  variants : ∀ raw' url', crate.parse raw' = some url' → Variant crate url url' →
    canonicalizeUrl crate raw' = canonicalizeUrl crate raw
  pairs : ∀ result, canonicalizeUrl crate raw = some result →
    ∃ url', crate.parse result = some url' ∧ url'.pairs crate = url.kept crate
  idempotent : ∀ result, canonicalizeUrl crate raw = some result →
    canonicalizeUrl crate result = some result

/-- The crate reads back what it writes of a URL and of the changes to it: another query, a
slash more behind the path, no slashes behind the path or the fragment.  What stands ahead of the
path is read with an empty path or with that of the root.  An encoded text has no slash. -/
structure Faithful (url : Url) : Prop where
  encodes : ∀ text, '/' ∉ crate.encode text
  pairs : crate.queryPairs (crate.written (url.kept crate)) = url.kept crate
  reads : ∀ path ∈ [url.path, url.path ++ ['/'], trimSlashes url.path],
    path ≠ [] ∨ url.path = [] →
      ∀ query ∈ [none, url.query, some (crate.written (url.kept crate))],
      ∀ fragment ∈ [url.fragment, url.fragment.map trimSlashes],
        crate.parse (Url.serialize ⟨url.front, path, query, fragment⟩) =
          some ⟨url.front, path, query, fragment⟩
  bare : trimSlashes url.path = [] → ∃ front path,
    crate.parse (trimSlashes url.front) = some ⟨front, path, none, none⟩ ∧
      trimSlashes front = trimSlashes url.front ∧ trimSlashes path = []

/-! ## Trimming -/

theorem trimSlashes_append_cons {c : Char} (other : c ≠ '/') (front text : List Char) :
    trimSlashes (front ++ c :: text) = front ++ c :: trimSlashes text := by
  induction text using List.reverseRecOn with
  | nil =>
      rw [trimSlashes, List.rdropWhile_concat_neg _ _ _ (by simpa using other)]
      rfl
  | append_singleton text last ih =>
      rw [← List.cons_append, ← List.append_assoc, trimSlashes, trimSlashes]
      by_cases slash : last = '/'
      · rw [List.rdropWhile_concat_pos _ _ _ (by simpa using slash),
          List.rdropWhile_concat_pos _ _ _ (by simpa using slash)]
        exact ih
      · rw [List.rdropWhile_concat_neg _ _ _ (by simpa using slash),
          List.rdropWhile_concat_neg _ _ _ (by simpa using slash)]
        simp

theorem trimSlashes_append_of_eq_nil {tail : List Char} (slashes : trimSlashes tail = [])
    (front : List Char) : trimSlashes (front ++ tail) = trimSlashes front := by
  induction tail using List.reverseRecOn with
  | nil => rw [List.append_nil]
  | append_singleton tail last ih =>
      by_cases slash : last = '/'
      · rw [trimSlashes, List.rdropWhile_concat_pos _ _ _ (by simpa using slash)] at slashes
        rw [← List.append_assoc, trimSlashes,
          List.rdropWhile_concat_pos _ _ _ (by simpa using slash)]
        exact ih slashes
      · rw [trimSlashes, List.rdropWhile_concat_neg _ _ _ (by simpa using slash)] at slashes
        simp at slashes

theorem trimSlashes_append {tail : List Char} (shows : trimSlashes tail ≠ []) (front : List Char) :
    trimSlashes (front ++ tail) = front ++ trimSlashes tail := by
  induction tail using List.reverseRecOn with
  | nil => exact absurd rfl shows
  | append_singleton tail last ih =>
      rw [← List.append_assoc]
      by_cases slash : last = '/'
      · rw [trimSlashes, List.rdropWhile_concat_pos _ _ _ (by simpa using slash)] at shows ⊢
        rw [trimSlashes, List.rdropWhile_concat_pos _ _ _ (by simpa using slash)]
        exact ih shows
      · rw [trimSlashes, trimSlashes, List.rdropWhile_concat_neg _ _ _ (by simpa using slash),
          List.rdropWhile_concat_neg _ _ _ (by simpa using slash), List.append_assoc]

theorem trimSlashes_of_notMem {text : List Char} (clear : '/' ∉ text) :
    trimSlashes text = text := by
  rw [trimSlashes, List.rdropWhile_eq_self_iff]
  intro nonempty slash
  have last := List.getLast_mem nonempty
  rw [beq_iff_eq.mp slash] at last
  exact clear last

theorem trimSlashes_trimSlashes (text : List Char) :
    trimSlashes (trimSlashes text) = trimSlashes text :=
  List.rdropWhile_idempotent _ text

/-! ## The canonical form -/

variable {crate}

theorem written_snoc (pairs : Pairs) (pair : List Char × List Char) :
    crate.written (pairs ++ [pair]) = crate.appendPair (crate.written pairs) pair := by
  rw [UrlCrate.written, List.foldl_append]
  rfl

theorem written_eq_nil_iff {pairs : Pairs} : crate.written pairs = [] ↔ pairs = [] := by
  constructor
  · induction pairs using List.reverseRecOn with
    | nil => exact fun _ => rfl
    | append_singleton pairs pair _ =>
        intro empty
        rw [written_snoc, UrlCrate.appendPair] at empty
        simp at empty
  · rintro rfl
    rfl

theorem notMem_written (encodes : ∀ text, '/' ∉ crate.encode text) (pairs : Pairs) :
    '/' ∉ crate.written pairs := by
  induction pairs using List.reverseRecOn with
  | nil => exact List.not_mem_nil
  | append_singleton pairs pair ih =>
      rw [written_snoc, UrlCrate.appendPair]
      split <;> simp [ih, encodes]

variable (crate) in
/-- The URL that is serialised: with the kept pairs as its query. -/
def Url.settled (url : Url) : Url :=
  { url with query := if url.kept crate = [] then none else some (crate.written (url.kept crate)) }

theorem canonicalizeUrl_eq {raw : List Char} {url : Url} (read : crate.parse raw = some url) :
    canonicalizeUrl crate raw = some (trimSlashes (url.settled crate).serialize) := by
  rw [canonicalizeUrl, read, Option.bind_eq_bind, Option.bind_some]
  dsimp only
  by_cases empty : url.kept crate = []
  · simp [Url.settled, empty, UrlCrate.written]
  · simp [Url.settled, empty, written_eq_nil_iff]

/-- Tracking parameters do not show. -/
theorem Variant.kept_eq {url url' : Url} (variant : Variant crate url url') :
    url'.kept crate = url.kept crate := by
  have same (pairs pairs' : Pairs) (related : Relation.EqvGen Tracked pairs pairs') :
      pairs.filter (fun pair => !tracking.contains pair.1) =
        pairs'.filter fun pair => !tracking.contains pair.1 := by
    induction related with
    | rel pairs pairs' tracked =>
        obtain ⟨before, pair, after, tracks, rfl, rfl⟩ := tracked
        rw [List.filter_append, List.filter_append,
          List.filter_cons_of_neg (by rw [tracks]; decide)]
    | refl => rfl
    | symm _ _ _ ih => exact ih.symm
    | trans _ _ _ _ _ ih ih' => exact ih.trans ih'
  exact (same _ _ variant.pairs).symm

section Reading

variable {url : Url}

/-- The trimmed text of a URL with a fragment. -/
theorem trimmed_of_fragment {fragment : List Char} (has : url.fragment = some fragment) :
    trimSlashes (url.settled crate).serialize =
      Url.serialize
        ⟨url.front, url.path, (url.settled crate).query, some (trimSlashes fragment)⟩ := by
  rw [Url.serialize, Url.serialize]
  change trimSlashes (_ ++ url.fragment.elim [] ('#' :: ·)) = _
  rw [has, Option.elim_some, trimSlashes_append_cons (by decide)]
  rfl

/-- The trimmed text of a URL that ends in its query. -/
theorem trimmed_of_query (encodes : ∀ text, '/' ∉ crate.encode text) (has : url.fragment = none)
    (keeps : url.kept crate ≠ []) :
    trimSlashes (url.settled crate).serialize = (url.settled crate).serialize := by
  have whole : (url.settled crate).serialize =
      url.front ++ url.path ++ '?' :: crate.written (url.kept crate) := by
    rw [Url.serialize, Url.settled, has, if_neg keeps]
    simp
  rw [whole, trimSlashes_append_cons (by decide), trimSlashes_of_notMem (notMem_written encodes _)]

/-- The text of a URL that ends in its path. -/
theorem serialize_of_path (has : url.fragment = none) (keeps : url.kept crate = []) :
    (url.settled crate).serialize = url.front ++ url.path := by
  rw [Url.serialize, Url.settled, has, if_pos keeps]
  simp

theorem kept_of_pairs {url' : Url} (same : url'.pairs crate = url.kept crate) :
    url'.kept crate = url.kept crate := by
  rw [Url.kept, same, Url.kept, List.filter_filter]
  simp

variable (crate) in
/-- A text that is read with the kept pairs is canonical when it is what trimming makes of the
URL that is read. -/
structure Rereads (url : Url) (text : List Char) (url' : Url) : Prop where
  reads : crate.parse text = some url'
  pairs : url'.pairs crate = url.kept crate
  trimmed : trimSlashes (url'.settled crate).serialize = text

theorem settled_pairs (faithful : Faithful crate url) {url' : Url}
    (query : url'.query = (url.settled crate).query) : url'.pairs crate = url.kept crate := by
  rw [Url.pairs, query, Url.settled]
  by_cases empty : url.kept crate = []
  · rw [empty, if_pos rfl]
    rfl
  · rw [if_neg empty]
    exact faithful.pairs

theorem settled_settled (faithful : Faithful crate url) {url' : Url}
    (query : url'.query = (url.settled crate).query) : url'.settled crate = url' := by
  have kept := kept_of_pairs (settled_pairs faithful query)
  rw [Url.settled, kept]
  change { url' with query := (url.settled crate).query } = url'
  rw [← query]

theorem mem_queries : (url.settled crate).query ∈
    [none, url.query, some (crate.written (url.kept crate))] := by
  rw [Url.settled]
  by_cases empty : url.kept crate = [] <;> simp [empty]

/-- The canonical text is read as a URL that has it as its canonical text. -/
theorem exists_rereads (faithful : Faithful crate url) :
    ∃ url', Rereads crate url (trimSlashes (url.settled crate).serialize) url' := by
  cases has : url.fragment with
  | some fragment =>
      rw [trimmed_of_fragment has]
      refine ⟨⟨url.front, url.path, (url.settled crate).query, some (trimSlashes fragment)⟩,
        ?_, ?_, ?_⟩
      · exact faithful.reads url.path (by simp) (by tauto) _ mem_queries _ (by simp [has])
      · exact settled_pairs faithful rfl
      · have still : Url.settled crate ⟨url.front, url.path, (url.settled crate).query,
            some (trimSlashes fragment)⟩ = _ := settled_settled faithful rfl
        rw [still, Url.serialize, Option.elim_some, trimSlashes_append_cons (by decide),
          trimSlashes_trimSlashes]
  | none =>
      by_cases keeps : url.kept crate = []
      · rw [serialize_of_path has keeps]
        have none' : (url.settled crate).query = none := if_pos keeps
        by_cases shows : trimSlashes url.path = []
        · obtain ⟨front, path, reads, sameFront, slashes⟩ := faithful.bare shows
          rw [trimSlashes_append_of_eq_nil shows]
          refine ⟨⟨front, path, none, none⟩, reads, settled_pairs faithful none'.symm, ?_⟩
          rw [settled_settled faithful none'.symm]
          simp only [Url.serialize, Option.elim_none, List.append_nil]
          rw [trimSlashes_append_of_eq_nil slashes, sameFront]
        · rw [trimSlashes_append shows]
          refine ⟨⟨url.front, trimSlashes url.path, none, none⟩, ?_,
            settled_pairs faithful none'.symm, ?_⟩
          · have reads := faithful.reads (trimSlashes url.path) (by simp) (.inl shows) none
              (by simp) url.fragment (by simp)
            rw [has] at reads
            simpa [Url.serialize] using reads
          · rw [settled_settled faithful none'.symm]
            simp only [Url.serialize, Option.elim_none, List.append_nil]
            rw [trimSlashes_append (by rwa [trimSlashes_trimSlashes]), trimSlashes_trimSlashes]
      · rw [trimmed_of_query faithful.encodes has keeps]
        refine ⟨url.settled crate, ?_, settled_pairs faithful rfl, ?_⟩
        · exact faithful.reads url.path (by simp) (by tauto) _ mem_queries url.fragment (by simp)
        · rw [settled_settled faithful rfl, trimmed_of_query faithful.encodes has keeps]

/-- What stands behind the path. -/
def Url.tail (url : Url) : List Char :=
  url.query.elim [] ('?' :: ·) ++ url.fragment.elim [] ('#' :: ·)

theorem serialize_eq : url.serialize = url.front ++ url.path ++ url.tail := by
  rw [Url.serialize, Url.tail, List.append_assoc (url.front ++ url.path)]

/-- With nothing behind the path, a slash more does not show. -/
theorem variant_bare {url' : Url} (variant : Variant crate url url') (keeps : url.kept crate = [])
    (has : url.fragment = none) : trimSlashes (url'.settled crate).serialize =
      trimSlashes (url.settled crate).serialize := by
  rw [serialize_of_path (variant.fragment.trans has) (variant.kept_eq.trans keeps),
    serialize_of_path has keeps, variant.front]
  rcases variant.path with same | slash
  · rw [same]
  · rw [slash, ← List.append_assoc, trimSlashes_append_of_eq_nil (by decide)]

/-- With something behind it, a slash more shows. -/
theorem slash_shows {c : Char} (other : c ≠ '/') (front tail : List Char) :
    trimSlashes (front ++ ['/'] ++ c :: tail) ≠ trimSlashes (front ++ c :: tail) := by
  rw [trimSlashes_append_cons other, trimSlashes_append_cons other]
  intro same
  have lengths := congrArg List.length same
  simp at lengths

/-- A URL with its canonical form is canonical when it ends in its path. -/
theorem canonical_of_bare {raw : List Char} (read : crate.parse raw = some url)
    (faithful : Faithful crate url) (keeps : url.kept crate = []) (has : url.fragment = none) :
    Canonical crate raw url := by
  obtain ⟨again, reads, pairs, trimmed⟩ := exists_rereads faithful
  have canonical := canonicalizeUrl_eq read
  constructor
  · intro raw' url' read' variant
    rw [canonical, canonicalizeUrl_eq read', variant_bare variant keeps has]
  · intro result isResult
    obtain rfl := Option.some.inj (isResult.symm.trans canonical)
    exact ⟨again, reads, pairs⟩
  · intro result isResult
    obtain rfl := Option.some.inj (isResult.symm.trans canonical)
    rw [canonicalizeUrl_eq reads, trimmed]

/-- Something behind the path keeps a slash from being trimmed. -/
theorem bare_of_canonical {raw : List Char} (read : crate.parse raw = some url)
    (faithful : Faithful crate url) (canonical : Canonical crate raw url) :
    (url.settled crate).tail = [] := by
  by_contra shows
  have slashed : crate.parse (Url.serialize
      ⟨url.front, url.path ++ ['/'], url.query, url.fragment⟩) =
        some ⟨url.front, url.path ++ ['/'], url.query, url.fragment⟩ :=
    faithful.reads _ (by simp) (.inl (by simp)) _ (by simp) _ (by simp)
  have variant : Variant crate url ⟨url.front, url.path ++ ['/'], url.query, url.fragment⟩ :=
    ⟨rfl, .inr rfl, .refl _, rfl⟩
  have same := canonical.variants _ _ slashed variant
  rw [canonicalizeUrl_eq read, canonicalizeUrl_eq slashed, Option.some.injEq, serialize_eq,
    serialize_eq] at same
  obtain ⟨c, tail, isTail, other⟩ : ∃ c tail, (url.settled crate).tail = c :: tail ∧ c ≠ '/' := by
    rw [Url.tail] at shows ⊢
    cases queries : (url.settled crate).query with
    | some query => exact ⟨'?', _, rfl, by decide⟩
    | none =>
        cases has : (url.settled crate).fragment with
        | some fragment => exact ⟨'#', _, rfl, by decide⟩
        | none => simp [queries, has] at shows
  change trimSlashes (url.front ++ (url.path ++ ['/']) ++ (url.settled crate).tail) =
    trimSlashes (url.front ++ url.path ++ (url.settled crate).tail) at same
  rw [isTail, ← List.append_assoc] at same
  exact slash_shows other _ _ same

/-- A URL with its canonical form is canonical exactly when nothing but tracking parameters
stands behind the path. -/
theorem canonical_iff {raw : List Char} (read : crate.parse raw = some url)
    (faithful : Faithful crate url) :
    Canonical crate raw url ↔ url.kept crate = [] ∧ url.fragment = none := by
  constructor
  · intro canonical
    have empty := bare_of_canonical read faithful canonical
    rw [Url.tail, Url.settled, List.append_eq_nil_iff] at empty
    constructor
    · by_contra keeps
      simp [keeps] at empty
    · cases has : url.fragment with
      | none => rfl
      | some fragment => simp [has] at empty
  · rintro ⟨keeps, has⟩
    exact canonical_of_bare read faithful keeps has

end Reading

/-! ## One site -/

/-- The crate for URLs of one site with plain names and values. -/
def site : UrlCrate where
  parse raw :=
    let front := "https://example.com".toList
    if front.isPrefixOf raw then
      let rest := raw.drop front.length
      let path := rest.takeWhile fun c => c != '?' && c != '#'
      let rest := rest.drop path.length
      let query := if rest.head? = some '?' then some (rest.tail.takeWhile (· != '#')) else none
      let rest := rest.dropWhile (· != '#')
      let fragment := if rest.head? = some '#' then some rest.tail else none
      some ⟨front, if path.isEmpty then ['/'] else path, query, fragment⟩
    else none
  queryPairs query :=
    ((query.splitOn '&').filter fun part => !part.isEmpty).map fun part =>
      (part.takeWhile (· != '='), (part.dropWhile (· != '=')).tail)
  encode text := text.filter Char.isAlphanum

/-- `https://example.com/post?id=7` -/
def post : Url := ⟨"https://example.com".toList, "/post".toList, some "id=7".toList, none⟩

/-- `https://example.com/post?gclid=abc` -/
def trackedPost : Url :=
  ⟨"https://example.com".toList, "/post".toList, some "gclid=abc".toList, none⟩

theorem encodes_site (text : List Char) : '/' ∉ site.encode text := by
  intro member
  exact absurd (List.mem_filter.mp member).2 (by decide)

theorem faithful_trackedPost : Faithful site trackedPost where
  encodes := encodes_site
  pairs := by decide +kernel
  reads := by decide +kernel
  bare := fun slashes => absurd slashes (by decide +kernel)

theorem canonical_iff_trackedPost :
    Canonical site trackedPost.serialize trackedPost ↔
      trackedPost.kept site = [] ∧ trackedPost.fragment = none :=
  canonical_iff (by decide +kernel) faithful_trackedPost

/-- A slash behind the path shows ahead of a query. -/
theorem not_canonical : ¬ Canonical site post.serialize post := by
  intro canonical
  have slashed : Variant site post { post with path := "/post/".toList } :=
    ⟨rfl, .inr (by decide +kernel), .refl _, rfl⟩
  have same := canonical.variants "https://example.com/post/?id=7".toList _ (by decide +kernel)
    slashed
  exact absurd same (by decide +kernel)

end AiCoreStack.Scholar
