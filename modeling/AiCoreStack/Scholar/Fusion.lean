import AiCoreStack.Foundation.StableSort
import AiCoreStack.Scholar.Dedup

/-!
# Rank fusion

Model of `fusion.rs`.  Each document brings the reciprocal of its rank in its list; documents
of one identity key are merged and their contributions add up.  The outcome is sorted by the
sum, then by freshness and date.
-/

namespace AiCoreStack.Scholar

open Foundation Foundation.Gather

variable {α : Type} [Scalar α] (tables : Unicode)

/-- The constant that rank fusion is used with. -/
def defaultRrfK : α := Scalar.lit 60

/-- `1.0 / (k + rank as f64 + 1.0)` -/
def contribution (k : α) (rank : Nat) : α :=
  Scalar.div (Scalar.lit 1) (Scalar.add (Scalar.add k (Scalar.ofNat rank)) (Scalar.lit 1))

/-- How fresh a document is: today, within three days, a week, a month, older. -/
def freshnessScore (published : Option DateTime) (now : DateTime) : α :=
  match published with
  | none => Scalar.lit 0
  | some dt =>
      let days := daysSince now dt
      if days ≤ 0 then Scalar.lit 1
      else if days ≤ 3 then Scalar.lit (8 / 10)
      else if days ≤ 7 then Scalar.lit (6 / 10)
      else if days ≤ 30 then Scalar.lit (3 / 10)
      else Scalar.lit (1 / 10)

/-- How far a kind of source is trusted. -/
def authorityScore : SourceKind → α
  | .arxiv => Scalar.lit (90 / 100)
  | .blog => Scalar.lit (85 / 100)
  | .news => Scalar.lit (80 / 100)
  | .web => Scalar.lit (55 / 100)
  | .youtube => Scalar.lit (45 / 100)

/-- `value == 0.0` -/
def isZero (value : α) : Bool :=
  Scalar.le value (Scalar.lit 0) && Scalar.le (Scalar.lit 0) value

/-- `cmp_desc`. -/
def cmpDesc (a b : α) : Ordering := Scalar.cmpOrEq b a

/-- The order of the output: higher sums first, then fresher ones, then later ones. -/
def compareDocs (a b : Document α) : Ordering :=
  ((cmpDesc a.score.fused b.score.fused).then
    (cmpDesc a.score.freshness b.score.freshness)).then
    (compare b.publishedAt a.publishedAt)

/-- File the document that has the given rank in its list. -/
def fuseDoc (k : α) (held : List (List Char × Document α)) (ranked : Document α × Nat) :
    List (List Char × Document α) :=
  let doc := ranked.1
  let contrib := contribution k ranked.2
  upsert (identityKey tables doc) { doc with score := { doc.score with fused := contrib } }
    (fun existing =>
      mergeDocs
        { existing with
          score := { existing.score with fused := Scalar.add existing.score.fused contrib } }
        doc)
    held

/-- The scores that are set once all documents are merged. -/
def rescore (now : DateTime) (d : Document α) : Document α :=
  { d with
    score :=
      { d.score with
        freshness := freshnessScore d.publishedAt now
        authority := if isZero d.score.authority then authorityScore d.source
          else d.score.authority } }

/-- Fuse the lists of the sources. -/
def fuse (now : DateTime) (perSource : List (List (Document α))) (k : α) : List (Document α) :=
  let held := perSource.foldl (fun held list => list.zipIdx.foldl (fuseDoc tables k) held) []
  let docs := held.map fun entry => rescore now entry.2
  docs.mergeSort fun a b => (compareDocs a b).isLE

/-! ## What a key collects -/

/-- The documents of all lists in the order in which they are filed, with their ranks. -/
def ranked (perSource : List (List (Document α))) : List (Document α × Nat) :=
  perSource.flatMap List.zipIdx

/-- A document that enters with the contribution of its rank. -/
def entering (k : α) (item : Document α × Nat) : Document α :=
  { item.1 with score := { item.1.score with fused := contribution k item.2 } }

/-- Merge in a document, adding the contribution of its rank. -/
def joining (k : α) (held : Document α) (item : Document α × Nat) : Document α :=
  mergeDocs
    { held with
      score := { held.score with fused := Scalar.add held.score.fused (contribution k item.2) } }
    item.1

/-- What the documents of one key become. -/
def fusedOf (k : α) (items : List (Document α × Nat)) : Option (Document α) :=
  Gather.collapse (entering k) (joining k) items

/-- The key of a ranked document. -/
def rankedKey (item : Document α × Nat) : List Char := identityKey tables item.1

/-- The entries that are rescored and sorted. -/
def fusedEntries (perSource : List (List (Document α))) (k : α) :
    List (List Char × Document α) :=
  gather (rankedKey tables) (entering k) (joining k) (ranked perSource)

theorem fuse_eq (now : DateTime) (perSource : List (List (Document α))) (k : α) :
    fuse tables now perSource k =
      ((fusedEntries tables perSource k).map fun entry => rescore now entry.2).mergeSort
        fun a b => (compareDocs a b).isLE := by
  rw [fuse, fusedEntries, gather, ranked, List.foldl_flatMap]
  rfl

/-- The documents with one key. -/
def keyed (perSource : List (List (Document α))) (wanted : List Char) :
    List (Document α × Nat) :=
  (ranked perSource).filter fun item => rankedKey tables item = wanted

omit [Scalar α] in
theorem rankedKey_of_mem_keyed {perSource : List (List (Document α))} {wanted : List Char}
    {item : Document α × Nat} (member : item ∈ keyed tables perSource wanted) :
    rankedKey tables item = wanted := by
  simpa using (List.mem_filter.mp member).2

theorem mem_fusedEntries_iff (perSource : List (List (Document α))) (k : α) (wanted : List Char)
    (value : Document α) :
    (wanted, value) ∈ fusedEntries tables perSource k ↔
      fusedOf k (keyed tables perSource wanted) = some value :=
  mem_gather_iff _ _ _ _ _ _

theorem keys_fusedEntries (perSource : List (List (Document α))) (k : α) :
    (fusedEntries tables perSource k).map Prod.fst =
      firsts ((ranked perSource).map (rankedKey tables)) :=
  keys_gather _ _ _ _

/-- Merging documents of one key makes a document of that key. -/
theorem identityKey_fusedOf (k : α) {items : List (Document α × Nat)} {wanted : List Char}
    (same : ∀ item ∈ items, rankedKey tables item = wanted) {value : Document α}
    (made : fusedOf k items = some value) : identityKey tables value = wanted := by
  induction items using List.reverseRecOn generalizing value with
  | nil => simp [fusedOf, Gather.collapse] at made
  | append_singleton items item ih =>
      rw [fusedOf, collapse_snoc, Option.some.injEq] at made
      have last : rankedKey tables item = wanted := same item (by simp)
      cases before : Gather.collapse (entering k) (joining k) items with
      | none =>
          rw [before] at made
          exact made ▸ last
      | some held =>
          have heldKey : identityKey tables held = wanted :=
            ih (fun other member => same other (List.mem_append_left _ member)) before
          rw [before] at made
          rw [← made, ← heldKey]
          exact identityKey_mul tables (last.trans heldKey.symm)

/-- Additions from the first value on. -/
def addUp (values : List α) : Option α := Gather.collapse id Scalar.add values

/-- The rank contributions of what is merged add up. -/
theorem fused_fusedOf (k : α) (items : List (Document α × Nat)) :
    (fusedOf k items).map (fun value => value.score.fused) =
      addUp (items.map fun item => contribution k item.2) := by
  rw [addUp, collapse_map]
  induction items using List.reverseRecOn with
  | nil => rfl
  | append_singleton items item ih =>
      rw [fusedOf] at ih ⊢
      rw [collapse_snoc, collapse_snoc, ← ih]
      cases Gather.collapse (entering k) (joining k) items <;> rfl

/-- Each key of the input has its one document in the output. -/
theorem fuse_perm (now : DateTime) (perSource : List (List (Document α))) (k : α) :
    (fuse tables now perSource k).Perm
      ((fusedEntries tables perSource k).map fun entry => rescore now entry.2) := by
  rw [fuse_eq]
  exact List.mergeSort_perm _ _

theorem identityKey_entry {perSource : List (List (Document α))} {k : α}
    {entry : List Char × Document α} (member : entry ∈ fusedEntries tables perSource k) :
    identityKey tables entry.2 = entry.1 := by
  rw [← Prod.mk.eta (p := entry), mem_fusedEntries_iff] at member
  exact identityKey_fusedOf tables k (fun _ => rankedKey_of_mem_keyed tables) member

end AiCoreStack.Scholar
