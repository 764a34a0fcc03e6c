import AiCoreStack.Foundation.TopList
import AiCoreStack.Scholar.Fusion

/-!
# The fused documents before and after sorting

What fusing makes of each key, as a function of the lists, and the order that the outcome is
sorted by.  On documents whose scores are neither negative nor NaN that order is a total
preorder; two documents are tied in it when their sums compare equal and they have one date.
-/

namespace AiCoreStack.Scholar

open Foundation Foundation.Gather

variable {α : Type} [Scalar α] (tables : Unicode)

/-! ## The order of the output -/

section Order

/-- Scores that sort. -/
structure Graded (d : Document α) : Prop where
  fused : Scalar.le (Scalar.lit 0) d.score.fused = true
  freshness : Scalar.le (Scalar.lit 0) d.score.freshness = true

variable [LawfulNonneg α]

omit [LawfulNonneg α] in
theorem cmpDesc_self [LawfulCompare α] (a : α) : cmpDesc a a = .eq := by
  rw [cmpDesc, Scalar.cmpOrEq, LawfulCompare.lt_irrefl]
  rfl

/-- Numbers that are not negative compare one way or the other. -/
theorem le_total {a b : α} (nonneg : Scalar.le (Scalar.lit 0) a = true)
    (nonneg' : Scalar.le (Scalar.lit 0) b = true) (above : Scalar.le b a = false) :
    Scalar.le a b = true := by
  apply LawfulCompare.le_of_lt
  rw [LawfulNonneg.lt_eq nonneg nonneg', above]
  rfl

theorem cmpDesc_eq {a b : α} (nonneg : Scalar.le (Scalar.lit 0) a = true)
    (nonneg' : Scalar.le (Scalar.lit 0) b = true) :
    cmpDesc a b =
      if Scalar.le a b = false then .lt else if Scalar.le b a = false then .gt else .eq := by
  rw [cmpDesc, Scalar.cmpOrEq, LawfulNonneg.lt_eq nonneg' nonneg,
    LawfulNonneg.lt_eq nonneg nonneg']
  simp

theorem isLE_cmpDesc {a b : α} (nonneg : Scalar.le (Scalar.lit 0) a = true)
    (nonneg' : Scalar.le (Scalar.lit 0) b = true) :
    (cmpDesc a b).isLE = Scalar.le b a := by
  rw [cmpDesc_eq nonneg nonneg']
  cases below : Scalar.le b a with
  | true => cases Scalar.le a b <;> rfl
  | false =>
      rw [le_total nonneg nonneg' below]
      rfl

/-- Numbers that sort. -/
abbrev Gradable (α : Type) [Scalar α] := { value : α // Scalar.le (Scalar.lit 0) value = true }

instance transCmp_cmpDesc : Std.TransCmp fun a b : Gradable α => cmpDesc a.1 b.1 where
  eq_swap {a b} := by
    rw [cmpDesc_eq a.2 b.2, cmpDesc_eq b.2 a.2]
    cases below : Scalar.le b.1 a.1 with
    | true => cases Scalar.le a.1 b.1 <;> rfl
    | false =>
        rw [le_total a.2 b.2 below]
        rfl
  isLE_trans {a b c} first second := by
    rw [isLE_cmpDesc a.2 b.2] at first
    rw [isLE_cmpDesc b.2 c.2] at second
    rw [isLE_cmpDesc a.2 c.2]
    exact LawfulNonneg.le_trans second first

/-- Documents that sort. -/
abbrev GradedDocument (α : Type) [Scalar α] := { d : Document α // Graded d }

instance transCmp_compareDocs :
    Std.TransCmp fun a b : GradedDocument α => compareDocs a.1 b.1 := by
  have byFused := TopList.transCmp_on (fun a b : Gradable α => cmpDesc a.1 b.1)
    fun d : GradedDocument α => ⟨d.1.score.fused, d.2.fused⟩
  have byFreshness := TopList.transCmp_on (fun a b : Gradable α => cmpDesc a.1 b.1)
    fun d : GradedDocument α => ⟨d.1.score.freshness, d.2.freshness⟩
  have byDate := TopList.transCmp_on (fun a b : Option Int => compare b a)
    fun d : GradedDocument α => d.1.publishedAt
  exact inferInstanceAs (Std.TransCmp (compareLex
    (compareLex (fun a b : GradedDocument α => cmpDesc a.1.score.fused b.1.score.fused)
      fun a b => cmpDesc a.1.score.freshness b.1.score.freshness)
    fun a b => compare b.1.publishedAt a.1.publishedAt))

theorem preordersOn_compareDocs {docs : List (Document α)} (graded : ∀ d ∈ docs, Graded d) :
    StableSort.PreordersOn (fun a b => (compareDocs a b).isLE) docs where
  trans a inA b inB c inC first second := by
    have whole := @Std.TransCmp.isLE_trans _ (fun a b : GradedDocument α => compareDocs a.1 b.1) _
      ⟨a, graded a inA⟩ ⟨b, graded b inB⟩ ⟨c, graded c inC⟩
    exact whole first second
  total a inA b inB := by
    have swapped := @Std.OrientedCmp.eq_swap _
      (fun a b : GradedDocument α => compareDocs a.1 b.1) _ ⟨a, graded a inA⟩ ⟨b, graded b inB⟩
    dsimp only at swapped
    rw [swapped]
    cases compareDocs b a <;> rfl

omit [LawfulNonneg α] in
theorem compareDocs_eq_iff {a b : Document α} :
    compareDocs a b = .eq ↔ cmpDesc a.score.fused b.score.fused = .eq ∧
      cmpDesc a.score.freshness b.score.freshness = .eq ∧ a.publishedAt = b.publishedAt := by
  rw [compareDocs, Ordering.then_eq_eq, Ordering.then_eq_eq, and_assoc, Std.compare_eq_iff_eq,
    eq_comm (a := b.publishedAt)]

/-- Two documents are tied when each may come before the other. -/
theorem tied_iff {a b : Document α} (graded : Graded a) (graded' : Graded b) :
    ((compareDocs a b).isLE = true ∧ (compareDocs b a).isLE = true) ↔ compareDocs a b = .eq := by
  have swapped := @Std.OrientedCmp.eq_swap _
    (fun a b : GradedDocument α => compareDocs a.1 b.1) _ ⟨a, graded⟩ ⟨b, graded'⟩
  dsimp only at swapped
  rw [swapped]
  cases compareDocs b a <;> decide

end Order

/-! ## What becomes of each key -/

/-- The document that the lists make under a key. -/
def outcome (now : DateTime) (perSource : List (List (Document α))) (k : α)
    (wanted : List Char) : Option (Document α) :=
  (fusedOf k (keyed tables perSource wanted)).map (rescore now)

/-- The keys in the order in which they first appear. -/
def keys (perSource : List (List (Document α))) : List (List Char) :=
  firsts ((ranked perSource).map (rankedKey tables))

/-- The documents before they are sorted. -/
def documents (now : DateTime) (perSource : List (List (Document α))) (k : α) :
    List (Document α) :=
  (keys tables perSource).filterMap (outcome tables now perSource k)

theorem fuse_eq_documents (now : DateTime) (perSource : List (List (Document α))) (k : α) :
    fuse tables now perSource k =
      (documents tables now perSource k).mergeSort fun a b => (compareDocs a b).isLE := by
  have entries : (fusedEntries tables perSource k).map (fun entry => rescore now entry.2) =
      documents tables now perSource k := by
    rw [documents, keys, ← keys_fusedEntries tables perSource k, List.filterMap_map,
      ← List.filterMap_eq_map]
    apply List.filterMap_congr
    intro entry member
    rw [← Prod.mk.eta (p := entry), mem_fusedEntries_iff] at member
    rw [Function.comp, Function.comp, outcome, member, Option.map_some]
  rw [fuse_eq, entries]

theorem fuse_perm_documents (now : DateTime) (perSource : List (List (Document α))) (k : α) :
    (fuse tables now perSource k).Perm (documents tables now perSource k) := by
  rw [fuse_eq_documents]
  exact List.mergeSort_perm _ _

theorem identityKey_outcome {now : DateTime} {perSource : List (List (Document α))} {k : α}
    {wanted : List Char} {d : Document α} (made : outcome tables now perSource k wanted = some d) :
    identityKey tables d = wanted := by
  obtain ⟨value, collected, rfl⟩ := Option.map_eq_some_iff.mp made
  change identityKey tables value = wanted
  exact identityKey_fusedOf tables k (fun _ => rankedKey_of_mem_keyed tables) collected

theorem outcome_isSome (now : DateTime) {perSource : List (List (Document α))} (k : α)
    {wanted : List Char} (member : wanted ∈ keys tables perSource) :
    (outcome tables now perSource k wanted).isSome := by
  rw [outcome, Option.isSome_map, Option.isSome_iff_ne_none, fusedOf, ne_eq,
    collapse_eq_none_iff, keyed, List.filter_eq_nil_iff]
  intro none'
  obtain ⟨item, inRanked, rfl⟩ := List.mem_map.mp (mem_firsts.mp member)
  exact none' item inRanked (by simp)

theorem mem_documents_iff {now : DateTime} {perSource : List (List (Document α))} {k : α}
    {d : Document α} :
    d ∈ documents tables now perSource k ↔
      outcome tables now perSource k (identityKey tables d) = some d := by
  rw [documents, List.mem_filterMap]
  constructor
  · rintro ⟨wanted, _, made⟩
    rwa [identityKey_outcome tables made]
  · intro made
    refine ⟨identityKey tables d, ?_, made⟩
    obtain ⟨value, collected, _⟩ := Option.map_eq_some_iff.mp made
    rw [keys, mem_firsts]
    cases items : keyed tables perSource (identityKey tables d) with
    | nil => simp [items, fusedOf, Gather.collapse] at collected
    | cons item rest =>
        have inKeyed : item ∈ keyed tables perSource (identityKey tables d) := by simp [items]
        rw [← rankedKey_of_mem_keyed tables inKeyed]
        exact List.mem_map_of_mem (List.mem_of_mem_filter inKeyed)

theorem identityKey_documents (now : DateTime) (perSource : List (List (Document α))) (k : α) :
    (documents tables now perSource k).map (identityKey tables) = keys tables perSource := by
  have present (wanted : List Char) (member : wanted ∈ keys tables perSource) :
      (outcome tables now perSource k wanted).map (identityKey tables) = some wanted := by
    obtain ⟨d, made⟩ := Option.isSome_iff_exists.mp (outcome_isSome tables now k member)
    rw [made, Option.map_some, identityKey_outcome tables made]
  rw [documents, List.map_filterMap]
  calc (keys tables perSource).filterMap
        (fun wanted => (outcome tables now perSource k wanted).map (identityKey tables))
      = (keys tables perSource).filterMap some := List.filterMap_congr present
    _ = keys tables perSource := List.filterMap_some

theorem nodup_identityKey_documents (now : DateTime) (perSource : List (List (Document α)))
    (k : α) : ((documents tables now perSource k).map (identityKey tables)).Nodup := by
  rw [identityKey_documents]
  exact nodup_firsts _

/-! ## Scores of the outcome -/

section Scores

variable [LawfulNonneg α]

omit tables in
theorem contribution_nonneg (rank : Nat) :
    Scalar.le (Scalar.lit 0) (contribution (defaultRrfK : α) rank) = true := by
  apply LawfulNonneg.recip_nonneg
  apply LawfulNonneg.add_pos _ LawfulNonneg.one_pos
  exact LawfulNonneg.add_nonneg (LawfulNonneg.lit_nonneg (by norm_num))
    (LawfulNonneg.ofNat_nonneg rank)

theorem freshnessScore_nonneg (published : Option DateTime) (now : DateTime) :
    Scalar.le (Scalar.lit 0) (freshnessScore published now : α) = true := by
  cases published with
  | none => exact LawfulNonneg.lit_nonneg (by norm_num)
  | some dt =>
      rw [freshnessScore]
      split_ifs <;> exact LawfulNonneg.lit_nonneg (by norm_num)

theorem addUp_nonneg {values : List α}
    (nonneg : ∀ value ∈ values, Scalar.le (Scalar.lit 0) value = true) {sum : α}
    (added : addUp values = some sum) : Scalar.le (Scalar.lit 0) sum = true := by
  induction values using List.reverseRecOn generalizing sum with
  | nil => simp [addUp, Gather.collapse] at added
  | append_singleton values value ih =>
      have last := nonneg value (by simp)
      rw [addUp, collapse_snoc, Option.some.injEq] at added
      cases before : Gather.collapse id Scalar.add values with
      | none =>
          rw [before] at added
          exact added ▸ last
      | some held =>
          have heldNonneg := ih (fun other member => nonneg other (List.mem_append_left _ member))
            before
          rw [before] at added
          exact added ▸ LawfulNonneg.add_nonneg heldNonneg last

theorem graded_outcome {now : DateTime} {perSource : List (List (Document α))}
    {wanted : List Char} {d : Document α}
    (made : outcome tables now perSource defaultRrfK wanted = some d) : Graded d := by
  obtain ⟨value, collected, rfl⟩ := Option.map_eq_some_iff.mp made
  constructor
  · have total := fused_fusedOf (defaultRrfK : α) (keyed tables perSource wanted)
    rw [collected, Option.map_some] at total
    apply addUp_nonneg _ total.symm
    intro share member
    obtain ⟨item, _, rfl⟩ := List.mem_map.mp member
    exact contribution_nonneg item.2
  · exact freshnessScore_nonneg _ _

theorem graded_documents {now : DateTime} {perSource : List (List (Document α))}
    {d : Document α} (member : d ∈ documents tables now perSource defaultRrfK) : Graded d :=
  graded_outcome tables ((mem_documents_iff tables).mp member)

end Scores

end AiCoreStack.Scholar
