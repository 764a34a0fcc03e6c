import AiCoreStack.Scholar.Fusion

/-!
# Documents that share an identifier

Fusing puts the input into groups and makes one document of each.  A document is filed under
its leading identifier only: the DOI, where there is none the arXiv ID, and where there is
neither the canonical URL.  Two documents that share their leading identifier are in one
group; two that share another one need not be.
-/

namespace AiCoreStack.Scholar

open Foundation Foundation.Gather

variable {α : Type} (tables : Unicode)

/-- The same DOI, ignoring case. -/
def SameDoi (left right : Document α) : Prop :=
  ∃ doi ∈ left.identity.doi, ∃ doi' ∈ right.identity.doi,
    tables.lowercase doi = tables.lowercase doi'

/-- The same arXiv ID. -/
def SameArxivId (left right : Document α) : Prop :=
  ∃ ax ∈ left.identity.arxivId, ax ∈ right.identity.arxivId

/-- The same canonical URL. -/
def SameCanonicalUrl (left right : Document α) : Prop :=
  ∃ u ∈ left.identity.canonicalUrl, u ∈ right.identity.canonicalUrl

/-- A common identifier of whatever kind. -/
def SharesIdentifier (left right : Document α) : Prop :=
  SameDoi tables left right ∨ SameArxivId left right ∨ SameCanonicalUrl left right

def NoDoi (d : Document α) : Prop := d.identity.doi = none

def NoArxivId (d : Document α) : Prop := d.identity.arxivId = none

/-- A common identifier that no identifier of a higher priority hides. -/
def SharesLeading (left right : Document α) : Prop :=
  SameDoi tables left right ∨
    (SameArxivId left right ∧ NoDoi left ∧ NoDoi right) ∨
    (SameCanonicalUrl left right ∧ (NoDoi left ∧ NoArxivId left) ∧ NoDoi right ∧ NoArxivId right)

/-- A shared leading identifier gives one key. -/
theorem SharesLeading.identityKey_eq {left right : Document α}
    (shares : SharesLeading tables left right) :
    identityKey tables left = identityKey tables right := by
  rcases shares with ⟨doi, hasDoi, doi', hasDoi', same⟩ | ⟨⟨ax, hasAx, hasAx'⟩, noDoi, noDoi'⟩ |
    ⟨⟨u, hasUrl, hasUrl'⟩, ⟨noDoi, noAx⟩, noDoi', noAx'⟩
  · rw [Option.mem_def] at hasDoi hasDoi'
    simp [identityKey, hasDoi, hasDoi', same]
  · rw [Option.mem_def] at hasAx hasAx'
    rw [NoDoi] at noDoi noDoi'
    simp [identityKey, noDoi, noDoi', hasAx, hasAx']
  · rw [Option.mem_def] at hasUrl hasUrl'
    rw [NoDoi] at noDoi noDoi'
    rw [NoArxivId] at noAx noAx'
    simp [identityKey, noDoi, noDoi', noAx, noAx', hasUrl, hasUrl']

variable [Scalar α]

/-- An output document that was made of a group of the input: its fields are those of the
merged documents, and their rank contributions add up to its score. -/
structure MergedFrom (now : DateTime) (k : α) (group : List (Document α × Nat))
    (out : Document α) : Prop where
  made : (fusedOf k group).map (rescore now) = some out
  total : addUp (group.map fun item => contribution k item.2) = some out.score.fused

/-- Fusing makes each output document of a group of the input, and documents that are related
are in one group. -/
def Joins (sharing : Document α → Document α → Prop) (now : DateTime)
    (perSource : List (List (Document α))) (k : α) : Prop :=
  ∃ groups : List (List (Document α × Nat)),
    groups.flatten.Perm (ranked perSource) ∧
    List.Forall₂ (MergedFrom now k) groups (fuse tables now perSource k) ∧
    ∀ left ∈ ranked perSource, ∀ right ∈ ranked perSource, sharing left.1 right.1 →
      ∃ group ∈ groups, left ∈ group ∧ right ∈ group

/-- Each output document is made of the documents that are filed under its key. -/
theorem mergedFrom_keyed (now : DateTime) (perSource : List (List (Document α))) (k : α)
    {out : Document α} (member : out ∈ fuse tables now perSource k) :
    MergedFrom now k (keyed tables perSource (identityKey tables out)) out := by
  obtain ⟨entry, held, rfl⟩ :=
    List.mem_map.mp ((fuse_perm tables now perSource k).mem_iff.mp member)
  have key : identityKey tables (rescore now entry.2) = entry.1 := identityKey_entry tables held
  have made : fusedOf k (keyed tables perSource entry.1) = some entry.2 :=
    (mem_fusedEntries_iff tables perSource k entry.1 entry.2).mp held
  rw [key]
  constructor
  · rw [made, Option.map_some]
  · rw [← fused_fusedOf, made, Option.map_some]
    rfl

/-- The keys of the output documents are those of the input. -/
theorem identityKey_fuse_perm (now : DateTime) (perSource : List (List (Document α))) (k : α) :
    ((fuse tables now perSource k).map (identityKey tables)).Perm
      (firsts ((ranked perSource).map (rankedKey tables))) := by
  rw [← keys_fusedEntries tables perSource k]
  apply ((fuse_perm tables now perSource k).map (identityKey tables)).trans
  apply List.Perm.of_eq
  rw [List.map_map]
  apply List.map_congr_left
  intro entry member
  exact identityKey_entry tables member

/-- Documents of one key become one document. -/
theorem joins_identityKey (now : DateTime) (perSource : List (List (Document α))) (k : α) :
    Joins tables (fun left right => identityKey tables left = identityKey tables right) now
      perSource k := by
  have keys := identityKey_fuse_perm tables now perSource k
  refine ⟨(fuse tables now perSource k).map fun out =>
    keyed tables perSource (identityKey tables out), ?_, ?_, ?_⟩
  · have grouped := keys.flatMap_right (keyed tables perSource)
    rw [List.flatMap_map] at grouped
    exact grouped.trans (flatMap_filter_perm (rankedKey tables) (ranked perSource))
  · apply List.forall₂_map_left_iff.mpr
    apply List.forall₂_same.mpr
    intro out member
    exact mergedFrom_keyed tables now perSource k member
  · intro left inLeft right inRight same
    have present : identityKey tables left.1 ∈
        (fuse tables now perSource k).map (identityKey tables) := by
      rw [keys.mem_iff, mem_firsts]
      exact List.mem_map_of_mem inLeft
    obtain ⟨out, member, key⟩ := List.mem_map.mp present
    refine ⟨keyed tables perSource (identityKey tables out), List.mem_map_of_mem member, ?_, ?_⟩
    · exact List.mem_filter.mpr ⟨inLeft, decide_eq_true key.symm⟩
    · exact List.mem_filter.mpr ⟨inRight, decide_eq_true (same.symm.trans key.symm)⟩

/-- Documents that share their leading identifier become one document, and their rank
contributions add up. -/
theorem fuse_joinsLeading (now : DateTime) (perSource : List (List (Document α))) (k : α) :
    Joins tables (SharesLeading tables) now perSource k := by
  obtain ⟨groups, perm, made, together⟩ := joins_identityKey tables now perSource k
  refine ⟨groups, perm, made, ?_⟩
  intro left inLeft right inRight shares
  exact together left inLeft right inRight (shares.identityKey_eq tables)

/-- A preprint that has been published, as the source that knows its DOI sees it. -/
def published : Document Exact :=
  .plain ⟨some "10.1000/x".toList, some "2301.00001".toList, none, 1⟩ .arxiv "t".toList

/-- The same preprint, as a source without DOIs sees it. -/
def preprint : Document Exact :=
  .plain ⟨none, some "2301.00001".toList, none, 1⟩ .blog "t".toList

/-- The two share their arXiv ID, but the first is filed under its DOI: they stay apart. -/
theorem not_joinsShared :
    ¬ Joins Unicode.ascii (SharesIdentifier Unicode.ascii) 0 [[published], [preprint]]
      defaultRrfK := by
  rintro ⟨groups, perm, made, together⟩
  have two : (fuse Unicode.ascii 0 [[published], [preprint]] defaultRrfK).length = 2 := by
    have keys := (identityKey_fuse_perm Unicode.ascii 0 [[published], [preprint]]
      defaultRrfK).length_eq
    rw [List.length_map] at keys
    rw [keys]
    decide
  have nonempty {group : List (Document Exact × Nat)} {out : Document Exact}
      (merged : MergedFrom 0 defaultRrfK group out) : 0 < group.length := by
    apply List.length_pos_of_ne_nil
    rintro rfl
    exact absurd merged.total (by simp [addUp, Gather.collapse])
  have sizes := perm.length_eq
  generalize fuse Unicode.ascii 0 [[published], [preprint]] defaultRrfK = outs at made two
  obtain ⟨one, other, rfl⟩ := List.length_eq_two.mp two
  cases made with
  | @cons first _ groups _ merged rest =>
      cases rest with
      | @cons second _ groups _ merged' rest =>
          cases rest
          have small : first.length + second.length = 2 := by simpa [ranked] using sizes
          have alone {group : List (Document Exact × Nat)} (single : group.length = 1)
              {left right : Document Exact × Nat} (inLeft : left ∈ group)
              (inRight : right ∈ group) : left = right := by
            obtain ⟨only, rfl⟩ := List.length_eq_one_iff.mp single
            rw [List.mem_singleton.mp inLeft, List.mem_singleton.mp inRight]
          have shares : SharesIdentifier Unicode.ascii published preprint :=
            .inr (.inl ⟨_, rfl, rfl⟩)
          obtain ⟨group, member, inLeft, inRight⟩ :=
            together (published, 0) (by simp [ranked]) (preprint, 0) (by simp [ranked]) shares
          have positive := nonempty merged
          have positive' := nonempty merged'
          have single : group.length = 1 := by
            rcases List.mem_pair.mp member with rfl | rfl <;> omega
          have same := congrArg (fun item => item.1.identity.doi) (alone single inLeft inRight)
          exact absurd same (by decide)

end AiCoreStack.Scholar
