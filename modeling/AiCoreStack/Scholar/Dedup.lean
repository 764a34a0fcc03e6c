import AiCoreStack.Foundation.Gather
import AiCoreStack.Foundation.UnionFind
import AiCoreStack.Scholar.Model

/-!
# Removing duplicates

Model of `dedup.rs`.  Documents with one identity key are merged as they come; documents whose
titles and summaries are nearly alike are found by their signatures and merged afterwards.  A
hash map hands out its buckets in an order that nobody controls, so that order is an argument.
-/

namespace AiCoreStack.Scholar

open Foundation Foundation.Gather

variable {α : Type} (tables : Unicode)

/-! ## Identity -/

/-- The key a document is filed under: the DOI, else the arXiv ID, else the canonical URL, else
the hash of the title. -/
def identityKey (d : Document α) : List Char :=
  match d.identity.doi, d.identity.arxivId, d.identity.canonicalUrl with
  | some doi, _, _ => "doi:".toList ++ tables.lowercase doi
  | none, some ax, _ => "arxiv:".toList ++ ax
  | none, none, some u => "url:".toList ++ tables.lowercase u
  | none, none, none => "title:".toList ++ Nat.toDigits 10 d.identity.titleHash.toNat

/-- Append the sources that are not there yet. -/
def unite (sources other : List SourceKind) : List SourceKind :=
  other.foldl (fun held s => if s ∈ held then held else held ++ [s]) sources

/-- Merge a document into `base`: fill what is empty and collect the sources. -/
def mergeDocs (base other : Document α) : Document α :=
  { base with
    summary := base.summary.or other.summary
    content := base.content.or other.content
    publishedAt := base.publishedAt.or other.publishedAt
    authors := if base.authors.isEmpty then other.authors else base.authors
    identity :=
      { base.identity with
        doi := base.identity.doi.or other.identity.doi
        arxivId := base.identity.arxivId.or other.identity.arxivId
        canonicalUrl := base.identity.canonicalUrl.or other.identity.canonicalUrl }
    sources := unite base.sources other.sources
    extra := fun key => (base.extra key).or (other.extra key) }

theorem unite_snoc (sources other : List SourceKind) (s : SourceKind) :
    unite sources (other ++ [s]) =
      if s ∈ unite sources other then unite sources other else unite sources other ++ [s] := by
  rw [unite, List.foldl_append]
  rfl

theorem mem_unite {sources other : List SourceKind} {s : SourceKind} :
    s ∈ unite sources other ↔ s ∈ sources ∨ s ∈ other := by
  induction other using List.reverseRecOn with
  | nil => simp [unite]
  | append_singleton other last ih =>
      rw [unite_snoc]
      split
      next held =>
        rw [ih, List.mem_append, List.mem_singleton]
        constructor
        · exact Or.imp_right .inl
        · rintro (inBase | inOther | rfl)
          · exact .inl inBase
          · exact .inr inOther
          · exact ih.mp held
      next => simp [ih, or_assoc]

theorem unite_assoc (first second third : List SourceKind) :
    unite (unite first second) third = unite first (unite second third) := by
  induction third using List.reverseRecOn with
  | nil => rfl
  | append_singleton third s ih =>
      rw [unite_snoc, unite_snoc second, ih]
      by_cases held : s ∈ unite second third
      · rw [if_pos held, if_pos (mem_unite.mpr (.inr held))]
      · rw [if_neg held, unite_snoc]

theorem mergeDocs_assoc (first second third : Document α) :
    mergeDocs (mergeDocs first second) third = mergeDocs first (mergeDocs second third) := by
  simp only [mergeDocs, Option.or_assoc, unite_assoc]
  congr 1
  by_cases empty : first.authors.isEmpty = true
  · simp [empty]
  · simp [empty]

/-- Documents under merging. -/
instance : Semigroup (Document α) where
  mul := mergeDocs
  mul_assoc := mergeDocs_assoc

theorem mul_def (base other : Document α) : base * other = mergeDocs base other := rfl

/-- What is appended depends only on which sources are there. -/
theorem unite_eq_append {left right : List SourceKind} (same : ∀ s, s ∈ left ↔ s ∈ right)
    (other : List SourceKind) :
    ∃ new, unite left other = left ++ new ∧ unite right other = right ++ new := by
  induction other using List.reverseRecOn with
  | nil => exact ⟨[], by simp [unite], by simp [unite]⟩
  | append_singleton other s ih =>
      obtain ⟨new, leftEq, rightEq⟩ := ih
      rw [unite_snoc, unite_snoc, leftEq, rightEq]
      simp only [List.mem_append, same]
      by_cases held : s ∈ right ∨ s ∈ new
      · exact ⟨new, by rw [if_pos held], by rw [if_pos held]⟩
      · refine ⟨new ++ [s], ?_, ?_⟩
        · rw [if_neg held, List.append_assoc]
        · rw [if_neg held, List.append_assoc]

/-- Two documents that can be swapped ahead of a third one can be swapped. -/
theorem mul_comm_of_mul_right {x y rest : Document α} (same : x * y * rest = y * x * rest) :
    x * y = y * x := by
  have fill {β : Type} (a b c : Option β) (same : (a.or b).or c = (b.or a).or c) :
      a.or b = b.or a := by
    cases a <;> cases b <;> simp_all
  have field {β : Type} (f : Document α → β) := congrArg f same
  ext1
  · ext1
    · exact fill _ _ _ (field fun d => d.identity.doi)
    · exact fill _ _ _ (field fun d => d.identity.arxivId)
    · exact fill _ _ _ (field fun d => d.identity.canonicalUrl)
    · exact field fun d => d.identity.titleHash
  · exact field Document.source
  · exact field Document.title
  · exact field Document.url
  · have authors := field Document.authors
    simp only [mul_def, mergeDocs] at authors ⊢
    by_cases empty : x.authors.isEmpty = true
    · by_cases empty' : y.authors.isEmpty = true
      · rw [List.isEmpty_iff] at empty empty'
        simp [empty, empty']
      · simp_all
    · by_cases empty' : y.authors.isEmpty = true
      · simp_all
      · simp_all
  · exact fill _ _ _ (field Document.publishedAt)
  · exact field Document.fetchedAt
  · exact fill _ _ _ (field Document.summary)
  · exact fill _ _ _ (field Document.content)
  · exact field Document.language
  · exact field Document.tags
  · have united := field Document.sources
    have members (s : SourceKind) :
        s ∈ unite x.sources y.sources ↔ s ∈ unite y.sources x.sources := by
      rw [mem_unite, mem_unite, or_comm]
    obtain ⟨new, leftEq, rightEq⟩ := unite_eq_append members rest.sources
    change unite (unite x.sources y.sources) rest.sources =
      unite (unite y.sources x.sources) rest.sources at united
    rw [leftEq, rightEq] at united
    exact List.append_cancel_right united
  · exact field Document.score
  · funext key
    exact fill _ _ _ (field fun d => d.extra key)

/-- Merging a document of the same key leaves the key as it is. -/
theorem identityKey_mul {base other : Document α}
    (same : identityKey tables other = identityKey tables base) :
    identityKey tables (base * other) = identityKey tables base := by
  rw [mul_def]
  cases doi : base.identity.doi with
  | some _ => simp [identityKey, mergeDocs, doi]
  | none =>
      cases doi' : other.identity.doi with
      | some _ =>
          cases arxivId : base.identity.arxivId <;> cases url : base.identity.canonicalUrl <;>
            simp [identityKey, doi, doi', arxivId, url] at same
      | none =>
          cases arxivId : base.identity.arxivId with
          | some _ => simp [identityKey, mergeDocs, doi, doi', arxivId]
          | none =>
              cases arxivId' : other.identity.arxivId with
              | some _ =>
                  cases url : base.identity.canonicalUrl <;>
                    simp [identityKey, doi, doi', arxivId, arxivId', url] at same
              | none =>
                  cases url : base.identity.canonicalUrl with
                  | some _ => simp [identityKey, mergeDocs, doi, doi', arxivId, arxivId', url]
                  | none =>
                      cases url' : other.identity.canonicalUrl with
                      | some _ =>
                          simp [identityKey, doi, doi', arxivId, arxivId', url, url'] at same
                      | none =>
                          simp [identityKey, mergeDocs, doi, doi', arxivId, arxivId', url, url']

/-- Merge the documents of one identity key, in the order in which the keys come. -/
def dedup (docs : List (Document α)) : List (Document α) :=
  (gather (identityKey tables) id mergeDocs docs).map Prod.snd

/-! ## Near duplicates -/

def minhashN : Nat := 64

instance : NeZero minhashN := ⟨by decide⟩

def lshBands : Nat := 16

/-- `fnv1a_64`. -/
def fnv1a64 (bytes : List UInt8) : UInt64 :=
  bytes.foldl (fun hash b => (hash ^^^ b.toUInt64) * 0x100000001b3) 0xcbf29ce484222325

/-- The hash of a text's UTF-8. -/
def hashText (text : List Char) : UInt64 := fnv1a64 (text.flatMap String.utf8EncodeChar)

/-- Pairs of neighbouring words of title and summary; the single word of a shorter text. -/
def shingles (d : Document α) : List (List Char) :=
  let text := d.title ++ (d.summary.elim [] fun s => ' ' :: s)
  let terms := ((words isWhitespace text).map fun w =>
    (w.filter tables.isAlphanumeric).flatMap tables.lowercaseChar).filter fun w => !w.isEmpty
  if terms.length < 2 then terms
  else terms.zipWith (fun left right => left ++ ' ' :: right) terms.tail

/-- The slots of a signature: the least hash of a shingle under each of the hash functions, or
a row of numbers from the URL where there is no shingle. -/
def minhashSig (d : Document α) (i : Fin minhashN) : UInt64 :=
  let sh := shingles tables d
  if sh.isEmpty then hashText d.url + i.val.toUInt64
  else
    sh.foldl (fun slot s =>
      let a := i.val.toUInt64 * 0x9E3779B97F4A7C15 ||| 1
      let b := i.val.toUInt64 * 0xBF58476D1CE4E5B9 + 0x2B
      let h := hashText s * a + b
      if h < slot then h else slot) 0xFFFFFFFFFFFFFFFF

/-- The share of slots in which two signatures agree. -/
def sigSimilarity [Scalar α] (a b : Fin minhashN → UInt64) : α :=
  Scalar.div (Scalar.ofNat ((List.finRange minhashN).countP fun i => a i == b i))
    (Scalar.ofNat minhashN)

/-- `to_le_bytes` of the slots of a band. -/
def bandBytes (sig : Fin minhashN → UInt64) (band : Nat) : List UInt8 :=
  let rows := minhashN / lshBands
  (List.range rows).flatMap fun row =>
    let v := sig (Fin.ofNat minhashN (band * rows + row))
    (List.range 8).map fun byte => (v >>> (8 * byte).toUInt64).toUInt8

/-- The indices of the documents that agree in a band, for each band and value. -/
def buckets (sigs : List (Fin minhashN → UInt64)) : List (List Nat) :=
  let entries := sigs.zipIdx.flatMap fun (sig, i) =>
    (List.range lshBands).map fun b => ((b, fnv1a64 (bandBytes sig b)), i)
  (gather Prod.fst (fun entry => [entry.2]) (fun idxs entry => idxs ++ [entry.2]) entries).map
    Prod.snd

/-- An order in which a hash map may hand out its values. -/
structure Iteration where
  visit : List (List Nat) → List (List Nat)
  perm : ∀ values, (visit values).Perm values

/-- The pairs of a bucket, in the order of the two loops over it. -/
def bucketPairs : List Nat → List (Nat × Nat)
  | [] => []
  | x :: rest => rest.map (fun y => (x, y)) ++ bucketPairs rest

/-- `sig_similarity(&sigs[x], &sigs[y]) >= threshold` -/
def similar [Scalar α] (threshold : α) (sigs : List (Fin minhashN → UInt64)) (x y : Nat) : Bool :=
  match sigs[x]?, sigs[y]? with
  | some a, some b => Scalar.le threshold (sigSimilarity a b : α)
  | _, _ => false

/-- The parents after every pair of every bucket has been looked at. -/
def uniteSimilar [Scalar α] (order : Iteration) (threshold : α)
    (sigs : List (Fin minhashN → UInt64)) : List Nat :=
  UnionFind.joinAll (similar threshold sigs) (UnionFind.separate sigs.length)
    ((order.visit (buckets sigs)).flatMap bucketPairs)

/-- `base_of`: the smallest index of each root. -/
def baseOf (roots : List Nat) (r : Nat) : Option Nat :=
  (gather Prod.fst Prod.snd (fun b entry => if entry.2 < b then entry.2 else b)
    roots.zipIdx).lookup r

/-- Take the document of a slot out and merge it into that of its base. -/
def absorb (slots : List (Option (Document α))) (i base : Nat) : List (Option (Document α)) :=
  match slots[i]?.join with
  | none => slots
  | some other =>
      let slots := slots.set i none
      match slots[base]?.join with
      | none => slots
      | some b => slots.set base (some (mergeDocs b other))

/-- Merge each document into the one with the smallest index of its class. -/
def mergeClasses (docs : List (Document α)) (roots : List Nat) : List (Document α) :=
  let slots := (List.range docs.length).foldl (fun slots i =>
    match roots[i]?.bind (baseOf roots) with
    | some base => if i ≠ base then absorb slots i base else slots
    | none => slots) (docs.map some)
  slots.reduceOption

/-- Merge near duplicates. -/
def nearDedup [Scalar α] (order : Iteration) (docs : List (Document α)) (threshold : α) :
    List (Document α) :=
  if docs.length < 2 then docs
  else
    let parent := uniteSimilar order threshold (docs.map (minhashSig tables))
    mergeClasses docs (UnionFind.findAll parent (List.range docs.length)).1

/-! ## The order of the buckets -/

theorem mem_bucketPairs {idxs : List Nat} {pair : Nat × Nat} (member : pair ∈ bucketPairs idxs) :
    pair.1 ∈ idxs ∧ pair.2 ∈ idxs := by
  induction idxs with
  | nil => simp [bucketPairs] at member
  | cons x rest ih =>
      rcases List.mem_append.mp member with first | later
      · obtain ⟨y, inRest, rfl⟩ := List.mem_map.mp first
        exact ⟨by simp, List.mem_cons_of_mem x inRest⟩
      · exact (ih later).imp (List.mem_cons_of_mem x) (List.mem_cons_of_mem x)

/-- Buckets hold indices of the documents. -/
theorem lt_of_mem_buckets {sigs : List (Fin minhashN → UInt64)} {idxs : List Nat}
    (member : idxs ∈ buckets sigs) {i : Nat} (inBucket : i ∈ idxs) : i < sigs.length := by
  obtain ⟨entry, held, rfl⟩ := List.mem_map.mp member
  rw [← Prod.mk.eta (p := entry), mem_gather_iff] at held
  rw [collapse_snoc_image _ held, List.mem_map] at inBucket
  obtain ⟨filed, inEntries, rfl⟩ := inBucket
  obtain ⟨⟨sig, i⟩, inSigs, banded⟩ := List.mem_flatMap.mp (List.mem_of_mem_filter inEntries)
  obtain ⟨b, _, rfl⟩ := List.mem_map.mp banded
  exact (List.mem_zipIdx' inSigs).1

/-- Bases are told by which roots are equal. -/
theorem baseOf_range (root : Nat → Nat) (n r : Nat) :
    baseOf ((List.range n).map root) r =
      Gather.collapse id (fun b i => if i < b then i else b)
        ((List.range n).filter fun j => root j = r) := by
  have indexed : ((List.range n).map root).zipIdx = (List.range n).map fun j => (root j, j) := by
    apply List.ext_getElem
    · simp
    · intro i _ _
      simp
  rw [baseOf, lookup_gather, indexed, List.filter_map, collapse_map]
  rfl

/-- The pairs that decide which documents are near duplicates. -/
def similarPairs [Scalar α] (threshold : α) (sigs : List (Fin minhashN → UInt64)) (x y : Nat) :
    Prop :=
  (∃ idxs ∈ buckets sigs, (x, y) ∈ bucketPairs idxs) ∧ similar threshold sigs x y = true

/-- Every pair that is looked at is a pair of documents. -/
theorem lt_of_mem_pairs (order : Iteration) (sigs : List (Fin minhashN → UInt64))
    (pair : Nat × Nat) (member : pair ∈ (order.visit (buckets sigs)).flatMap bucketPairs) :
    pair.1 < sigs.length ∧ pair.2 < sigs.length := by
  obtain ⟨idxs, visited, inBucket⟩ := List.mem_flatMap.mp member
  have bucket := (order.perm (buckets sigs)).mem_iff.mp visited
  exact (mem_bucketPairs inBucket).imp (lt_of_mem_buckets bucket) (lt_of_mem_buckets bucket)

/-- Whatever the order of the buckets, two documents end in one class exactly when similar
pairs connect them. -/
theorem root_uniteSimilar_iff [Scalar α] (order : Iteration) (threshold : α)
    (sigs : List (Fin minhashN → UInt64)) {a b : Nat} (insideA : a < sigs.length)
    (insideB : b < sigs.length) :
    UnionFind.root (uniteSimilar order threshold sigs) a =
        UnionFind.root (uniteSimilar order threshold sigs) b ↔
      Relation.EqvGen (similarPairs threshold sigs) a b := by
  rw [uniteSimilar, UnionFind.root_joinAll_iff _ (lt_of_mem_pairs order sigs) insideA insideB]
  have same : UnionFind.Passing (similar threshold sigs)
      ((order.visit (buckets sigs)).flatMap bucketPairs) = similarPairs threshold sigs := by
    funext x y
    simp only [UnionFind.Passing, similarPairs, List.mem_flatMap,
      (order.perm (buckets sigs)).mem_iff]
  rw [same]

/-- The roots of all documents. -/
theorem roots_eq [Scalar α] (order : Iteration) (threshold : α)
    (sigs : List (Fin minhashN → UInt64)) :
    (UnionFind.findAll (uniteSimilar order threshold sigs) (List.range sigs.length)).1 =
      (List.range sigs.length).map (UnionFind.root (uniteSimilar order threshold sigs)) := by
  obtain ⟨_, moves, _⟩ :=
    UnionFind.moves_joinAll (similar threshold sigs) _ (lt_of_mem_pairs order sigs)
  apply UnionFind.findAll_roots moves.forest
  intro x member
  rw [moves.length, UnionFind.separate, List.length_range]
  exact List.mem_range.mp member

/-- Merging the classes only asks which roots are equal. -/
theorem mergeClasses_congr (docs : List (Document α)) {root root' : Nat → Nat}
    (same : ∀ i < docs.length, ∀ j < docs.length, root i = root j ↔ root' i = root' j) :
    mergeClasses docs ((List.range docs.length).map root) =
      mergeClasses docs ((List.range docs.length).map root') := by
  rw [mergeClasses, mergeClasses]
  congr 1
  apply List.foldl_ext
  intro slots i member
  have inside := List.mem_range.mp member
  have base : baseOf ((List.range docs.length).map root) (root i) =
      baseOf ((List.range docs.length).map root') (root' i) := by
    rw [baseOf_range, baseOf_range]
    congr 1
    apply List.filter_congr
    intro j inRange
    rw [decide_eq_decide]
    exact same j (List.mem_range.mp inRange) i inside
  simp [inside, base]

/-- What near-duplicate merging returns does not depend on the order in which the buckets are
handed out. -/
theorem nearDedup_order [Scalar α] (order order' : Iteration) (docs : List (Document α))
    (threshold : α) :
    nearDedup tables order docs threshold = nearDedup tables order' docs threshold := by
  rw [nearDedup, nearDedup]
  split
  next => rfl
  next =>
    have length : (docs.map (minhashSig tables)).length = docs.length := List.length_map ..
    have roots := roots_eq order threshold (docs.map (minhashSig tables))
    have roots' := roots_eq order' threshold (docs.map (minhashSig tables))
    rw [length] at roots roots'
    dsimp only
    rw [roots, roots']
    apply mergeClasses_congr
    intro i insideI j insideJ
    rw [← length] at insideI insideJ
    rw [root_uniteSimilar_iff order threshold _ insideI insideJ,
      root_uniteSimilar_iff order' threshold _ insideI insideJ]

/-- With a root for each document nothing is merged. -/
theorem mergeClasses_id (docs : List (Document α)) :
    mergeClasses docs ((List.range docs.length).map id) = docs := by
  have base {i : Nat} (inside : i < docs.length) :
      baseOf ((List.range docs.length).map id) i = some i := by
    have alone : (List.range docs.length).filter (fun j => id j = i) = [i] := by
      have once := List.count_eq_one_of_mem List.nodup_range (List.mem_range.mpr inside)
      rw [← List.replicate_one, ← once]
      exact List.filter_eq i
    rw [baseOf_range, alone]
    rfl
  have still : (List.range docs.length).foldl (fun slots i =>
      match ((List.range docs.length).map id)[i]?.bind
        (baseOf ((List.range docs.length).map id)) with
      | some base => if i ≠ base then absorb slots i base else slots
      | none => slots) (docs.map some) =
      (List.range docs.length).foldl (fun slots _ => slots) (docs.map some) := by
    apply List.foldl_ext
    intro slots i member
    have inside := List.mem_range.mp member
    have bound : ((List.range docs.length).map id)[i]?.bind
        (baseOf ((List.range docs.length).map id)) = some i := by
      simpa [inside] using base inside
    rw [bound]
    simp
  rw [mergeClasses, still, List.foldl_fixed]
  simp [List.reduceOption]

/-- Where no two documents are similar, nothing is merged. -/
theorem nearDedup_eq_self [Scalar α] (order : Iteration) (docs : List (Document α)) (threshold : α)
    (apart : ∀ x y, x ≠ y → similar threshold (docs.map (minhashSig tables)) x y = false) :
    nearDedup tables order docs threshold = docs := by
  rw [nearDedup]
  split
  next => rfl
  next =>
    have length : (docs.map (minhashSig tables)).length = docs.length := List.length_map ..
    have roots := roots_eq order threshold (docs.map (minhashSig tables))
    rw [length] at roots
    have alone (i j : Nat) (insideI : i < docs.length) (insideJ : j < docs.length) :
        UnionFind.root (uniteSimilar order threshold (docs.map (minhashSig tables))) i =
          UnionFind.root (uniteSimilar order threshold (docs.map (minhashSig tables))) j ↔
        id i = id j := by
      rw [← length] at insideI insideJ
      rw [root_uniteSimilar_iff order threshold _ insideI insideJ]
      constructor
      · apply UnionFind.eq_of_eqvGen
        rintro x y ⟨_, passes⟩
        by_contra distinct
        rw [apart x y distinct] at passes
        exact absurd passes (by simp)
      · rintro rfl
        exact .refl i
    dsimp only
    rw [roots, mergeClasses_congr docs fun i insideI j insideJ => alone i j insideI insideJ]
    exact mergeClasses_id docs

end AiCoreStack.Scholar
