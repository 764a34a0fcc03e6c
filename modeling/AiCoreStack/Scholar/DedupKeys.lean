import AiCoreStack.Scholar.BruteForce

/-!
# What merging keeps

A document made of several carries the first value there is for each of its fields, and the
sources of all of them.  Its key is recomputed from fields that merging fills in, so it can
become that of a document with an identifier of a higher priority; it is always the key of one
of the documents, which keeps the keys apart.
-/

namespace AiCoreStack.Scholar

open Foundation Foundation.Gather

variable {α : Type} (tables : Unicode)

/-- Fill the fields of `first` that merging fills with those of `d`. -/
def Document.filled (first d : Document α) : Document α :=
  { first with
    identity := { d.identity with titleHash := first.identity.titleHash }
    authors := d.authors
    publishedAt := d.publishedAt
    summary := d.summary
    content := d.content
    sources := d.sources
    extra := d.extra }

/-- A document has the first value that one of the parts has for each of its fields, the sources
and the metadata keys of all, and the rest of the first part. -/
structure Collects (parts : List (Document α)) (d : Document α) : Prop where
  doi : d.identity.doi = parts.findSome? (·.identity.doi)
  arxivId : d.identity.arxivId = parts.findSome? (·.identity.arxivId)
  canonicalUrl : d.identity.canonicalUrl = parts.findSome? (·.identity.canonicalUrl)
  authors : d.authors = ((parts.map (·.authors)).find? (!·.isEmpty)).getD []
  publishedAt : d.publishedAt = parts.findSome? (·.publishedAt)
  summary : d.summary = parts.findSome? (·.summary)
  content : d.content = parts.findSome? (·.content)
  sources : ∀ s, s ∈ d.sources ↔ ∃ part ∈ parts, s ∈ part.sources
  extra : ∀ key, d.extra key = parts.findSome? (·.extra key)
  rest : ∃ first ∈ parts.head?, d = first.filled d

theorem Collects.single (d : Document α) : Collects [d] d where
  doi := by cases found : d.identity.doi <;> simp [found]
  arxivId := by cases found : d.identity.arxivId <;> simp [found]
  canonicalUrl := by cases found : d.identity.canonicalUrl <;> simp [found]
  authors := by cases found : d.authors <;> simp [found]
  publishedAt := by cases found : d.publishedAt <;> simp [found]
  summary := by cases found : d.summary <;> simp [found]
  content := by cases found : d.content <;> simp [found]
  sources := by simp
  extra key := by cases found : d.extra key <;> simp [found]
  rest := ⟨d, rfl, rfl⟩

/-- The authors that are there when one part more has been merged. -/
theorem authors_snoc (lists : List (List Author)) (authors : List Author) :
    ((lists ++ [authors]).find? (!·.isEmpty)).getD [] =
      if ((lists.find? (!·.isEmpty)).getD []).isEmpty then authors
      else (lists.find? (!·.isEmpty)).getD [] := by
  rw [List.find?_append]
  cases found : lists.find? (!·.isEmpty) with
  | none => cases authors <;> simp
  | some held =>
      have present := List.find?_some found
      rw [Bool.not_eq_true'] at present
      simp [present]

/-- Merging in one document more. -/
theorem Collects.merge {parts : List (Document α)} {d : Document α} (collects : Collects parts d)
    (other : Document α) : Collects (parts ++ [other]) (mergeDocs d other) where
  doi := by
    rw [List.findSome?_append, ← collects.doi, List.findSome?_singleton]
    rfl
  arxivId := by
    rw [List.findSome?_append, ← collects.arxivId, List.findSome?_singleton]
    rfl
  canonicalUrl := by
    rw [List.findSome?_append, ← collects.canonicalUrl, List.findSome?_singleton]
    rfl
  authors := by
    rw [List.map_append, List.map_singleton, authors_snoc, ← collects.authors]
    rfl
  publishedAt := by
    rw [List.findSome?_append, ← collects.publishedAt, List.findSome?_singleton]
    rfl
  summary := by
    rw [List.findSome?_append, ← collects.summary, List.findSome?_singleton]
    rfl
  content := by
    rw [List.findSome?_append, ← collects.content, List.findSome?_singleton]
    rfl
  sources s := by
    change s ∈ unite d.sources other.sources ↔ _
    simp [mem_unite, collects.sources, or_and_right, exists_or]
  extra key := by
    rw [List.findSome?_append, ← collects.extra, List.findSome?_singleton]
    rfl
  rest := by
    obtain ⟨first, head, same⟩ := collects.rest
    refine ⟨first, by rw [List.head?_append, Option.mem_def.mp head]; rfl, ?_⟩
    rw [same]
    rfl

/-- Documents that are merged one after the other. -/
theorem Collects.collapse {parts : List (Document α)} {d : Document α}
    (merged : Gather.collapse id mergeDocs parts = some d) : Collects parts d := by
  induction parts using List.reverseRecOn generalizing d with
  | nil => simp [Gather.collapse] at merged
  | append_singleton parts other ih =>
      rw [collapse_snoc, Option.some.injEq] at merged
      cases before : Gather.collapse id mergeDocs parts with
      | none =>
          rw [before] at merged
          rw [(Gather.collapse_eq_none_iff id mergeDocs parts).mp before, ← merged]
          exact .single other
      | some held =>
          rw [before] at merged
          rw [← merged]
          exact (ih before).merge other

/-! ## Keys -/

/-- The place of the leading identifier among the kinds of identifiers. -/
def identityRank (d : Document α) : Nat :=
  match d.identity.doi, d.identity.arxivId, d.identity.canonicalUrl with
  | some _, _, _ => 0
  | none, some _, _ => 1
  | none, none, some _ => 2
  | none, none, none => 3

/-- Merging leaves the key of the base, unless the other document has an identifier of a higher
priority than any of the base. -/
theorem identityKey_mergeDocs (base other : Document α) :
    identityKey tables (mergeDocs base other) =
      if identityRank other < identityRank base then identityKey tables other
      else identityKey tables base := by
  cases doi : base.identity.doi <;> cases arxivId : base.identity.arxivId <;>
    cases url : base.identity.canonicalUrl <;> cases doi' : other.identity.doi <;>
    cases arxivId' : other.identity.arxivId <;> cases url' : other.identity.canonicalUrl <;>
    simp [identityKey, identityRank, mergeDocs, doi, arxivId, url, doi', arxivId', url']

/-- The key of a document made of several is that of one of them. -/
theorem identityKey_collapse {parts : List (Document α)} {d : Document α}
    (merged : Gather.collapse id mergeDocs parts = some d) :
    ∃ part ∈ parts, identityKey tables d = identityKey tables part := by
  induction parts using List.reverseRecOn generalizing d with
  | nil => simp [Gather.collapse] at merged
  | append_singleton parts other ih =>
      rw [collapse_snoc, Option.some.injEq] at merged
      cases before : Gather.collapse id mergeDocs parts with
      | none =>
          rw [before] at merged
          exact ⟨other, by simp, by rw [← merged]; rfl⟩
      | some held =>
          obtain ⟨part, member, key⟩ := ih before
          rw [before] at merged
          rw [← merged, Option.elim_some, identityKey_mergeDocs]
          split
          next => exact ⟨other, by simp, rfl⟩
          next => exact ⟨part, List.mem_append_left _ member, key⟩

/-- The keys of what is left, in the order in which they first come. -/
theorem keys_dedup (docs : List (Document α)) :
    (dedup tables docs).map (identityKey tables) = firsts (docs.map (identityKey tables)) := by
  rw [← keys_gather (identityKey tables) id mergeDocs docs, dedup, List.map_map]
  apply List.map_congr_left
  intro entry member
  rw [← Prod.mk.eta (p := entry), mem_gather_iff] at member
  obtain ⟨part, filed, key⟩ := identityKey_collapse tables member
  exact key.trans (of_decide_eq_true (List.mem_filter.mp filed).2)

/-- Each document is made of those of its key. -/
theorem collects_of_mem_dedup {docs : List (Document α)} {d : Document α}
    (member : d ∈ dedup tables docs) :
    Collects (docs.filter fun part => identityKey tables part = identityKey tables d) d := by
  obtain ⟨entry, held, rfl⟩ := List.mem_map.mp member
  rw [← Prod.mk.eta (p := entry), mem_gather_iff] at held
  obtain ⟨part, filed, key⟩ := identityKey_collapse tables held
  rw [key, of_decide_eq_true (List.mem_filter.mp filed).2]
  exact .collapse held

/-- Documents of distinct keys stay as they are. -/
theorem dedup_eq_self {docs : List (Document α)}
    (distinct : (docs.map (identityKey tables)).Nodup) : dedup tables docs = docs := by
  rw [dedup, gather_of_nodup _ _ _ distinct, List.map_map]
  exact List.map_id docs

/-! ## Near duplicates -/

/-- The document of a class has the key of a member. -/
theorem exists_member {related : Nat → Nat → Prop} [DecidableRel related]
    {docs : List (Document α)} {i : Nat} {d : Document α}
    (merged : Gather.collapse id mergeDocs
      (((List.range docs.length).filter fun j => related i j).filterMap (docs[·]?)) = some d) :
    ∃ j, related i j ∧ (docs.map (identityKey tables))[j]? = some (identityKey tables d) := by
  obtain ⟨part, member, key⟩ := identityKey_collapse tables merged
  obtain ⟨j, inClass, held⟩ := List.mem_filterMap.mp member
  refine ⟨j, of_decide_eq_true (List.mem_filter.mp inClass).2, ?_⟩
  rw [List.getElem?_map, held, Option.map_some, key]

/-- Merging by classes keeps the keys apart. -/
theorem nodup_keys_mergeRelated {related : Nat → Nat → Prop} [DecidableRel related]
    (classes : Equivalence related) {docs : List (Document α)}
    (distinct : (docs.map (identityKey tables)).Nodup) :
    ((mergeRelated related docs).map (identityKey tables)).Nodup := by
  rw [mergeRelated, List.map_filterMap]
  refine List.Nodup.filterMap ?_ List.nodup_range
  intro i i' key made made'
  rw [Option.mem_def, Option.map_eq_some_iff] at made made'
  obtain ⟨d, leads, rfl⟩ := made
  obtain ⟨d', leads', same⟩ := made'
  split at leads
  case isFalse => simp at leads
  case isTrue first =>
    split at leads'
    case isFalse => simp at leads'
    case isTrue first' =>
      obtain ⟨j, inClass, held⟩ := exists_member tables leads
      obtain ⟨j', inClass', held'⟩ := exists_member tables leads'
      have inside := (List.getElem?_eq_some_iff.mp held).1
      obtain rfl : j = j' := (List.getElem?_inj inside distinct).mp (by rw [held, held', same])
      have together : related i i' := classes.trans inClass (classes.symm inClass')
      rcases Nat.lt_trichotomy i i' with before | rfl | after
      · exact absurd (classes.symm together) (first' i before)
      · rfl
      · exact absurd together (first i' after)

/-- Merging near duplicates is merging by roots. -/
theorem exists_roots [Scalar α] (order : Iteration) (docs : List (Document α)) (threshold : α) :
    ∃ root : Nat → Nat,
      nearDedup tables order docs threshold = mergeRelated (fun i j => root i = root j) docs := by
  have length : (docs.map (minhashSig tables)).length = docs.length := List.length_map ..
  have roots := roots_eq order threshold (docs.map (minhashSig tables))
  rw [length] at roots
  refine ⟨UnionFind.root (uniteSimilar order threshold (docs.map (minhashSig tables))), ?_⟩
  rw [nearDedup]
  split
  next short => exact (mergeRelated_of_short (fun i => Eq.refl (UnionFind.root _ i)) short).symm
  next =>
    dsimp only
    rw [roots, mergeClasses_eq]

/-- Merging near duplicates keeps the keys apart. -/
theorem nodup_keys_nearDedup [Scalar α] (order : Iteration) {docs : List (Document α)}
    (distinct : (docs.map (identityKey tables)).Nodup) (threshold : α) :
    ((nearDedup tables order docs threshold).map (identityKey tables)).Nodup := by
  obtain ⟨root, merged⟩ := exists_roots tables order docs threshold
  rw [merged]
  have classes : Equivalence fun i j => root i = root j :=
    ⟨fun i => Eq.refl (root i), Eq.symm, Eq.trans⟩
  exact nodup_keys_mergeRelated tables classes distinct

/-- Merging by identity loses nothing and keeps the keys apart, and what is merged afterwards
keeps them apart as well. -/
theorem dedup_lossless [Scalar α] (docs : List (Document α)) :
    ((dedup tables docs).map (identityKey tables)).Nodup ∧
    (dedup tables docs).map (identityKey tables) = firsts (docs.map (identityKey tables)) ∧
    (∀ d ∈ dedup tables docs,
      Collects (docs.filter fun part => identityKey tables part = identityKey tables d) d) ∧
    (∀ base other : Document α,
      identityKey tables (mergeDocs base other) =
        if identityRank other < identityRank base then identityKey tables other
        else identityKey tables base) ∧
    (∀ base other : Document α, identityKey tables other = identityKey tables base →
      identityKey tables (mergeDocs base other) = identityKey tables base) ∧
    dedup tables (dedup tables docs) = dedup tables docs ∧
    ∀ (order : Iteration) (apart : List (Document α)) (threshold : α),
      (apart.map (identityKey tables)).Nodup →
        ((nearDedup tables order apart threshold).map (identityKey tables)).Nodup := by
  have distinct : ((dedup tables docs).map (identityKey tables)).Nodup := by
    rw [keys_dedup]
    exact nodup_firsts _
  refine ⟨distinct, keys_dedup tables docs, ?_, identityKey_mergeDocs tables, ?_,
    dedup_eq_self tables distinct, ?_⟩
  · intro d member
    exact collects_of_mem_dedup tables member
  · intro base other same
    exact identityKey_mul tables same
  · intro order apart threshold keys
    exact nodup_keys_nearDedup tables order keys threshold

/-- A post that only its title tells apart from others. -/
def untraced : Document Exact := .plain ⟨none, none, none, 1⟩ .blog "deep learning".toList

/-- The publication with its DOI. -/
def traced : Document Exact :=
  .plain ⟨some "10.1000/x".toList, none, none, 1⟩ .arxiv "Deep Learning".toList

theorem dedup_lossless_post :
    identityKey Unicode.ascii (mergeDocs untraced untraced) = identityKey Unicode.ascii untraced ∧
    ((nearDedup Unicode.ascii ⟨id, fun _ => .refl _⟩ [untraced, traced] (.fin (4 / 5))).map
      (identityKey Unicode.ascii)).Nodup := by
  obtain ⟨_, _, _, _, keeps, _, near⟩ := dedup_lossless Unicode.ascii [untraced, traced]
  exact ⟨keeps untraced untraced rfl, near _ _ _ (by decide)⟩

/-- The post that takes in the publication is filed under its DOI. -/
theorem not_keepsKey :
    ¬ ∀ base other : Document Exact, identityKey Unicode.ascii (mergeDocs base other) =
      identityKey Unicode.ascii base := by
  intro keeps
  exact absurd (keeps untraced traced) (by decide)

end AiCoreStack.Scholar
