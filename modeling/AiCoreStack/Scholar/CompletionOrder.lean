import AiCoreStack.Scholar.Engine
import AiCoreStack.Scholar.FusedDocuments

/-!
# The order in which sources complete

The lists of the sources are fused in the order in which the sources complete.  That order makes
no difference exactly when the lists are settled: what two lists make of a key merges alike both
ways, the additions of a document give one sum in every order, and of two tied keys one comes
first in every list that has either.
-/

namespace AiCoreStack.Scholar

open Foundation Foundation.Gather
open scoped List

variable {α : Type} [Scalar α] (tables : Unicode)

/-! ## Merging without scores -/

/-- A document as merging leaves it: with the authority that it ends up with, and without the
scores that fusing sets. -/
def bare (d : Document α) : Document α :=
  { d with
    score :=
      { fused := Scalar.lit 0
        freshness := Scalar.lit 0
        authority := if isZero d.score.authority then authorityScore d.source
          else d.score.authority
        relevance := d.score.relevance } }

/-- A bare document with the sum and the freshness of the output. -/
def dress (now : DateTime) (fused : α) (d : Document α) : Document α :=
  { d with
    score := { d.score with fused := fused, freshness := freshnessScore d.publishedAt now } }

/-- Output documents are equal when merging and adding up agree. -/
theorem rescore_eq_iff {now : DateTime} {d d' : Document α} :
    rescore now d = rescore now d' ↔ bare d = bare d' ∧ d.score.fused = d'.score.fused := by
  constructor
  · intro same
    constructor
    · exact congrArg (fun d : Document α => { d with
        score := { d.score with fused := Scalar.lit 0, freshness := Scalar.lit 0 } }) same
    · have sums := congrArg (fun d : Document α => d.score.fused) same
      exact sums
  · rintro ⟨same, sums⟩
    change dress now d.score.fused (bare d) = dress now d'.score.fused (bare d')
    rw [same, sums]

theorem prod_of_fusedOf (k : α) {items : List (Document α × Nat)} {value : Document α}
    (made : fusedOf k items = some value) :
    (items.map fun item => (bare item.1 : WithOne (Document α))).prod = (bare value : Document α) := by
  induction items using List.reverseRecOn generalizing value with
  | nil => simp [fusedOf, Gather.collapse] at made
  | append_singleton items item ih =>
      rw [fusedOf, collapse_snoc, Option.some.injEq] at made
      rw [List.map_append, List.prod_append, List.map_singleton, List.prod_singleton, ← made]
      cases before : Gather.collapse (entering k) (joining k) items with
      | none =>
          rw [(collapse_eq_none_iff _ _ _).mp before, List.map_nil, List.prod_nil, one_mul]
          rfl
      | some held =>
          rw [ih before, ← WithOne.coe_mul]
          rfl

/-! ## What one list brings -/

/-- What the documents of one key in a list merge to. -/
def madeOf (wanted : List Char) (list : List (Document α)) : WithOne (Document α) :=
  ((list.filter fun d => identityKey tables d = wanted).map fun d =>
    (bare d : WithOne (Document α))).prod

/-- The contributions of the documents of one key in a list. -/
def shares (wanted : List Char) (list : List (Document α)) : List α :=
  (list.zipIdx.filter fun item => rankedKey tables item = wanted).map fun item =>
    contribution defaultRrfK item.2

/-- The sum that a key ends up with. -/
def total (perSource : List (List (Document α))) (wanted : List Char) : Option α :=
  addUp (perSource.flatMap (shares tables wanted))

/-- The date that a key ends up with: the first one among its documents. -/
def dated (perSource : List (List (Document α))) (wanted : List Char) : Option DateTime :=
  (keyed tables perSource wanted).findSome? fun item => item.1.publishedAt

omit [Scalar α] in
theorem keyed_eq (perSource : List (List (Document α))) (wanted : List Char) :
    keyed tables perSource wanted =
      perSource.flatMap fun list => list.zipIdx.filter fun item => rankedKey tables item = wanted :=
  List.filter_flatMap

theorem prod_keyed (perSource : List (List (Document α))) (wanted : List Char) :
    ((keyed tables perSource wanted).map fun item => (bare item.1 : WithOne (Document α))).prod =
      (perSource.map (madeOf tables wanted)).prod := by
  have one (list : List (Document α)) :
      ((list.zipIdx.filter fun item => rankedKey tables item = wanted).map fun item =>
        (bare item.1 : WithOne (Document α))).prod = madeOf tables wanted list := by
    have unranked : (list.zipIdx.filter fun item => rankedKey tables item = wanted).map Prod.fst =
        list.filter fun d => identityKey tables d = wanted := by
      conv_rhs => rw [← List.zipIdx_map_fst 0 list, List.filter_map]
      rfl
    rw [madeOf, ← unranked, List.map_map]
    rfl
  rw [keyed_eq, List.map_flatMap, List.flatMap_def, List.prod_flatten, List.map_map]
  congr 1
  exact List.map_congr_left fun list _ => one list

theorem total_eq (perSource : List (List (Document α))) (wanted : List Char) :
    total tables perSource wanted =
      (fusedOf defaultRrfK (keyed tables perSource wanted)).map fun value => value.score.fused := by
  rw [fused_fusedOf, total, keyed_eq, List.map_flatMap]
  rfl

/-- Two arrangements make the same of a key exactly when merging and adding up agree. -/
theorem outcome_eq_iff {now : DateTime} {perSource other : List (List (Document α))}
    {wanted : List Char} :
    outcome tables now perSource defaultRrfK wanted = outcome tables now other defaultRrfK wanted ↔
      (perSource.map (madeOf tables wanted)).prod = (other.map (madeOf tables wanted)).prod ∧
        total tables perSource wanted = total tables other wanted := by
  rw [outcome, outcome, total_eq, total_eq, ← prod_keyed, ← prod_keyed]
  cases made : fusedOf defaultRrfK (keyed tables perSource wanted) with
  | none =>
      cases made' : fusedOf defaultRrfK (keyed tables other wanted) with
      | none =>
          rw [(collapse_eq_none_iff _ _ _).mp made, (collapse_eq_none_iff _ _ _).mp made']
          simp
      | some value' => simp
  | some value =>
      cases made' : fusedOf defaultRrfK (keyed tables other wanted) with
      | none => simp
      | some value' =>
          rw [prod_of_fusedOf _ made, prod_of_fusedOf _ made', WithOne.coe_inj, Option.map_some,
            Option.map_some, Option.some.injEq, rescore_eq_iff, Option.map_some, Option.map_some,
            Option.some.injEq]

/-! ## Settled lists -/

/-- Two keys whose documents are sorted by nothing but their first appearance. -/
structure Tied (perSource : List (List (Document α))) (first second : List Char) : Prop where
  sums : ∃ sum sum', total tables perSource first = some sum ∧
    total tables perSource second = some sum' ∧ cmpDesc sum sum' = .eq
  dates : dated tables perSource first = dated tables perSource second

/-- Lists whose order makes no difference. -/
structure Settled (perSource : List (List (Document α))) : Prop where
  merges : ∀ wanted, perSource.Pairwise fun left right =>
    Commute (madeOf tables wanted left) (madeOf tables wanted right)
  sums : ∀ wanted other, other.Perm perSource →
    total tables other wanted = total tables perSource wanted
  ties : ∀ first second, first ≠ second → Tied tables perSource first second →
    ∀ list ∈ perSource, ∀ other ∈ perSource,
      lead first second (list.map (identityKey tables)) = some first →
        lead first second (other.map (identityKey tables)) ≠ some second

theorem Settled.outcome_eq {perSource other : List (List (Document α))}
    (settled : Settled tables perSource) (perm : other.Perm perSource) (now : DateTime)
    (wanted : List Char) :
    outcome tables now other defaultRrfK wanted =
      outcome tables now perSource defaultRrfK wanted := by
  rw [outcome_eq_iff]
  constructor
  · have commute : (perSource.map (madeOf tables wanted)).Pairwise Commute :=
      List.pairwise_map.mpr (settled.merges wanted)
    exact ((perm.map (madeOf tables wanted)).symm.prod_eq' commute).symm
  · exact settled.sums wanted other perm

omit [Scalar α] in
/-- The keys, list by list. -/
theorem keys_eq (perSource : List (List (Document α))) :
    keys tables perSource =
      firsts (perSource.map fun list => list.map (identityKey tables)).flatten := by
  rw [keys, ranked, List.map_flatMap, List.flatMap_def]
  congr 3
  funext list
  conv_rhs => rw [← List.zipIdx_map_fst 0 list, List.map_map]
  rfl

omit [Scalar α] in
theorem keys_perm {perSource other : List (List (Document α))} (perm : other.Perm perSource) :
    (keys tables other).Perm (keys tables perSource) := by
  rw [keys_eq, keys_eq]
  exact firsts_perm (perm.map _).flatten

/-- The documents of an arrangement, where every key makes the same of it. -/
theorem documents_perm {now : DateTime} {perSource other : List (List (Document α))}
    (perm : other.Perm perSource)
    (same : ∀ wanted, outcome tables now other defaultRrfK wanted =
      outcome tables now perSource defaultRrfK wanted) :
    (documents tables now other defaultRrfK).Perm (documents tables now perSource defaultRrfK) := by
  rw [documents, documents, funext same]
  exact (keys_perm tables perm).filterMap _

/-- Two documents come in the order of their keys. -/
theorem pair_sublist_documents {now : DateTime} {perSource : List (List (Document α))}
    {a b : Document α} (inA : a ∈ documents tables now perSource defaultRrfK)
    (inB : b ∈ documents tables now perSource defaultRrfK) (distinct : a ≠ b) :
    [a, b] <+ documents tables now perSource defaultRrfK ↔
      (perSource.map fun list => list.map (identityKey tables)).findSome?
          (lead (identityKey tables a) (identityKey tables b)) =
        some (identityKey tables a) := by
  have nodup := nodup_identityKey_documents tables now perSource defaultRrfK
  have apart : identityKey tables a ≠ identityKey tables b := fun same =>
    distinct (List.inj_on_of_nodup_map nodup inA inB same)
  have inKeys : identityKey tables b ∈
      (perSource.map fun list => list.map (identityKey tables)).flatten := by
    have member := List.mem_map_of_mem (f := identityKey tables) inB
    rwa [identityKey_documents, keys_eq, mem_firsts] at member
  rw [← lead_flatten, ← pair_sublist_firsts_iff apart inKeys, ← keys_eq,
    ← identityKey_documents tables now perSource defaultRrfK]
  exact (StableSort.pair_sublist_map_iff nodup inA inB).symm

theorem publishedAt_of_fusedOf (k : α) {items : List (Document α × Nat)} {value : Document α}
    (made : fusedOf k items = some value) :
    value.publishedAt = items.findSome? fun item => item.1.publishedAt := by
  induction items using List.reverseRecOn generalizing value with
  | nil => simp [fusedOf, Gather.collapse] at made
  | append_singleton items item ih =>
      rw [fusedOf, collapse_snoc, Option.some.injEq] at made
      rw [List.findSome?_append, ← made]
      cases before : Gather.collapse (entering k) (joining k) items with
      | none =>
          rw [(collapse_eq_none_iff _ _ _).mp before]
          simp [entering]
      | some held =>
          rw [← ih before]
          simp [joining, mergeDocs]

/-- What the output document of a key is sorted by. -/
theorem sorted_by_of_outcome {now : DateTime} {perSource : List (List (Document α))}
    {wanted : List Char} {d : Document α}
    (made : outcome tables now perSource defaultRrfK wanted = some d) :
    total tables perSource wanted = some d.score.fused ∧
      dated tables perSource wanted = d.publishedAt ∧
      d.score.freshness = freshnessScore d.publishedAt now := by
  obtain ⟨value, collected, rfl⟩ := Option.map_eq_some_iff.mp made
  refine ⟨?_, ?_, rfl⟩
  · rw [total_eq, collected, Option.map_some]
    rfl
  · rw [dated, ← publishedAt_of_fusedOf _ collected]
    rfl

/-- Documents that compare equal are those whose keys are tied. -/
theorem compareDocs_eq_iff_tied [LawfulCompare α] {now : DateTime}
    {perSource : List (List (Document α))} {first second : List Char} {a b : Document α}
    (made : outcome tables now perSource defaultRrfK first = some a)
    (made' : outcome tables now perSource defaultRrfK second = some b) :
    compareDocs a b = .eq ↔ Tied tables perSource first second := by
  obtain ⟨sum, date, fresh⟩ := sorted_by_of_outcome tables made
  obtain ⟨sum', date', fresh'⟩ := sorted_by_of_outcome tables made'
  rw [compareDocs_eq_iff]
  constructor
  · rintro ⟨sums, _, dates⟩
    exact ⟨⟨_, _, sum, sum', sums⟩, by rw [date, date', dates]⟩
  · rintro ⟨⟨_, _, isSum, isSum', sums⟩, dates⟩
    rw [sum, Option.some.injEq] at isSum
    rw [sum', Option.some.injEq] at isSum'
    rw [date, date'] at dates
    rw [isSum, isSum', fresh, fresh', dates]
    exact ⟨sums, cmpDesc_self _, rfl⟩

/-! ## The order of the lists -/

section Orders

variable [LawfulNonneg α] {tables} {now : DateTime} {perSource other : List (List (Document α))}

/-- Settled lists fuse alike in every order. -/
theorem Settled.fuse_eq (settled : Settled tables perSource) (perm : other.Perm perSource) :
    fuse tables now other defaultRrfK = fuse tables now perSource defaultRrfK := by
  have docs := documents_perm tables perm fun wanted => settled.outcome_eq tables perm now wanted
  have nodup := List.Nodup.of_map _ (nodup_identityKey_documents tables now perSource defaultRrfK)
  rw [fuse_eq_documents, fuse_eq_documents]
  symm
  apply (StableSort.mergeSort_eq_iff
    (preordersOn_compareDocs fun d member => graded_documents tables member) nodup docs.symm).mpr
  intro a b below above sub
  have inA : a ∈ documents tables now perSource defaultRrfK := sub.subset (by simp)
  have inB : b ∈ documents tables now perSource defaultRrfK := sub.subset (by simp)
  have distinct : a ≠ b := by
    rintro rfl
    exact StableSort.not_both_orders nodup sub sub
  have made := (mem_documents_iff tables).mp inA
  have made' := (mem_documents_iff tables).mp inB
  have apart : identityKey tables a ≠ identityKey tables b := fun same =>
    distinct (Option.some.inj (made.symm.trans (same ▸ made')))
  have tied := (compareDocs_eq_iff_tied tables made made').mp
    ((tied_iff (graded_outcome tables made) (graded_outcome tables made')).mp ⟨below, above⟩)
  rw [pair_sublist_documents tables inA inB distinct] at sub
  rw [pair_sublist_documents tables (docs.mem_iff.mpr inA) (docs.mem_iff.mpr inB) distinct]
  obtain ⟨_, inLists, leads⟩ := List.exists_of_findSome?_eq_some sub
  obtain ⟨list, inSource, rfl⟩ := List.mem_map.mp inLists
  have decided : ((other.map fun list => list.map (identityKey tables)).findSome?
      (lead (identityKey tables a) (identityKey tables b))).isSome := by
    rw [List.findSome?_isSome_iff]
    exact ⟨_, List.mem_map_of_mem (perm.mem_iff.mpr inSource), by rw [leads]; rfl⟩
  obtain ⟨found, foundEq⟩ := Option.isSome_iff_exists.mp decided
  obtain ⟨_, inLists', leads'⟩ := List.exists_of_findSome?_eq_some foundEq
  obtain ⟨list', inOther, rfl⟩ := List.mem_map.mp inLists'
  rcases lead_eq leads' with isFirst | isSecond
  · rw [foundEq, isFirst]
  · exact absurd (isSecond ▸ leads')
      (settled.ties _ _ apart tied list inSource list' (perm.mem_iff.mp inOther) leads)

omit [LawfulNonneg α] in
/-- Equal outputs have equal documents for every key. -/
theorem outcome_eq_of_fuse_eq
    (same : fuse tables now other defaultRrfK = fuse tables now perSource defaultRrfK)
    (wanted : List Char) :
    outcome tables now other defaultRrfK wanted =
      outcome tables now perSource defaultRrfK wanted := by
  have docs : (documents tables now other defaultRrfK).Perm
      (documents tables now perSource defaultRrfK) := by
    apply (fuse_perm_documents tables now other defaultRrfK).symm.trans
    rw [same]
    exact fuse_perm_documents tables now perSource defaultRrfK
  apply Option.ext
  intro d
  constructor
  · intro made
    obtain rfl := identityKey_outcome tables made
    exact (mem_documents_iff tables).mp (docs.mem_iff.mp ((mem_documents_iff tables).mpr made))
  · intro made
    obtain rfl := identityKey_outcome tables made
    exact (mem_documents_iff tables).mp (docs.mem_iff.mpr ((mem_documents_iff tables).mpr made))

omit [Scalar α] in
/-- What can be swapped ahead of something can be swapped. -/
theorem commute_of_mul_right {x y rest : WithOne (Document α)}
    (same : x * (y * rest) = y * (x * rest)) : Commute x y := by
  rw [← mul_assoc, ← mul_assoc] at same
  induction x with
  | one => exact Commute.one_left y
  | coe x =>
      induction y with
      | one => exact Commute.one_right _
      | coe y =>
          induction rest with
          | one =>
              rw [mul_one, mul_one] at same
              exact same
          | coe rest =>
              rw [← WithOne.coe_mul, ← WithOne.coe_mul, ← WithOne.coe_mul, ← WithOne.coe_mul,
                WithOne.coe_inj] at same
              rw [Commute, SemiconjBy, ← WithOne.coe_mul, ← WithOne.coe_mul, WithOne.coe_inj]
              exact mul_comm_of_mul_right same

theorem exists_perm_cons {β : Type} {item : β} {items : List β} (member : item ∈ items) :
    ∃ rest, (item :: rest).Perm items := by
  obtain ⟨before, after, rfl⟩ := List.append_of_mem member
  exact ⟨before ++ after, List.perm_middle.symm⟩

/-- Lists that fuse alike in every order are settled. -/
theorem settled_of_fuse_eq
    (same : ∀ other : List (List (Document α)), other.Perm perSource →
      fuse tables now other defaultRrfK = fuse tables now perSource defaultRrfK) :
    Settled tables perSource := by
  have outcomes (other : List (List (Document α))) (perm : other.Perm perSource)
      (wanted : List Char) := outcome_eq_of_fuse_eq (same other perm) wanted
  constructor
  · intro wanted
    rw [List.pairwise_iff_forall_sublist]
    intro left right sub
    obtain ⟨rest, perm⟩ := sub.exists_perm_append
    have order := outcomes (left :: right :: rest) perm.symm wanted
    have swapped := outcomes (right :: left :: rest)
      ((List.Perm.swap left right rest).trans perm.symm) wanted
    have prods := ((outcome_eq_iff tables).mp (order.trans swapped.symm)).1
    rw [List.map_cons, List.map_cons, List.map_cons, List.map_cons, List.prod_cons,
      List.prod_cons, List.prod_cons, List.prod_cons] at prods
    exact commute_of_mul_right prods
  · intro wanted other perm
    exact ((outcome_eq_iff tables).mp (outcomes other perm wanted)).2
  · intro first second distinct tied list inSource list' inSource' leads leads'
    obtain ⟨rest, front⟩ := exists_perm_cons inSource
    obtain ⟨rest', front'⟩ := exists_perm_cons inSource'
    obtain ⟨_, _, sum, sum', _⟩ := tied.sums
    have made : (outcome tables now perSource defaultRrfK first).isSome := by
      rw [total_eq] at sum
      rw [outcome, Option.isSome_map, ← Option.isSome_map (f := fun d => d.score.fused), sum]
      rfl
    have made' : (outcome tables now perSource defaultRrfK second).isSome := by
      rw [total_eq] at sum'
      rw [outcome, Option.isSome_map, ← Option.isSome_map (f := fun d => d.score.fused), sum']
      rfl
    obtain ⟨a, made⟩ := Option.isSome_iff_exists.mp made
    obtain ⟨b, made'⟩ := Option.isSome_iff_exists.mp made'
    obtain rfl := identityKey_outcome tables made
    obtain rfl := identityKey_outcome tables made'
    have apart : a ≠ b := fun same => distinct (congrArg (identityKey tables) same)
    have inDocs {order : List (List (Document α))} (perm : order.Perm perSource) {d : Document α}
        (present : outcome tables now perSource defaultRrfK (identityKey tables d) = some d) :
        d ∈ documents tables now order defaultRrfK := by
      rwa [mem_documents_iff, outcomes order perm]
    have before : [a, b] <+ documents tables now (list :: rest) defaultRrfK := by
      rw [pair_sublist_documents tables (inDocs front made) (inDocs front made') apart,
        List.map_cons, List.findSome?_cons, leads]
    have after : [b, a] <+ documents tables now (list' :: rest') defaultRrfK := by
      rw [pair_sublist_documents tables (inDocs front' made') (inDocs front' made) apart.symm,
        List.map_cons, List.findSome?_cons, lead_comm, leads']
    have nodup {order : List (List (Document α))} :
        (documents tables now order defaultRrfK).Nodup :=
      List.Nodup.of_map _ (nodup_identityKey_documents tables now order defaultRrfK)
    have docs : (documents tables now (list :: rest) defaultRrfK).Perm
        (documents tables now (list' :: rest') defaultRrfK) :=
      documents_perm tables (front.trans front'.symm) fun wanted =>
        (outcomes _ front wanted).trans (outcomes _ front' wanted).symm
    have sorted := (same _ front).trans (same _ front').symm
    rw [fuse_eq_documents, fuse_eq_documents] at sorted
    have tie := (tied_iff (graded_outcome tables made) (graded_outcome tables made')).mpr
      ((compareDocs_eq_iff_tied tables made made').mpr tied)
    have kept := (StableSort.mergeSort_eq_iff
      (preordersOn_compareDocs fun d member => graded_documents tables member) nodup docs).mp
      sorted a b tie.1 tie.2 before
    exact StableSort.not_both_orders nodup kept after

end Orders

/-! ## Searches -/

/-- An arrangement of what a list maps to comes from an arrangement of the list. -/
theorem exists_perm_filterMap {β γ : Type} (f : β → Option γ) {items : List β} {images : List γ}
    (perm : (items.filterMap f).Perm images) :
    ∃ items' : List β, items'.Perm items ∧ items'.filterMap f = images := by
  generalize mapped : items.filterMap f = start at perm
  induction perm generalizing items with
  | nil => exact ⟨items, .refl items, mapped⟩
  | cons image _ ih =>
      obtain ⟨before, item, after, rfl, skipped, isImage, rest⟩ :=
        List.filterMap_eq_cons_iff.mp mapped
      obtain ⟨after', perm', mapped'⟩ := ih rest
      refine ⟨before ++ item :: after', (perm'.cons item).append_left before, ?_⟩
      rw [List.filterMap_append, List.filterMap_cons, isImage, mapped',
        List.filterMap_eq_nil_iff.mpr skipped, List.nil_append]
  | swap first second _ =>
      obtain ⟨before, item, after, rfl, skipped, isImage, rest⟩ :=
        List.filterMap_eq_cons_iff.mp mapped
      obtain ⟨before', item', after', rfl, skipped', isImage', rest'⟩ :=
        List.filterMap_eq_cons_iff.mp rest
      refine ⟨before ++ (before' ++ item' :: item :: after'), ?_, ?_⟩
      · apply List.Perm.append_left
        exact (List.Perm.append_left before' (.swap item item' after')).trans List.perm_middle
      · simp [List.filterMap_eq_nil_iff.mpr skipped,
          List.filterMap_eq_nil_iff.mpr skipped', isImage, isImage', rest']
  | trans _ _ ih ih' =>
      obtain ⟨middle, perm, mapped⟩ := ih mapped
      obtain ⟨items', perm', mapped'⟩ := ih' mapped
      exact ⟨items', perm'.trans perm, mapped'⟩

/-- The lists of documents that the selected sources have, in the order of registration. -/
def Engine.resultLists (engine : Engine α) (query : SearchQuery) : List (List (Document α)) :=
  (collect (engine.answers query)).1

/-- All reports that a search may return have the same documents in the same order, and the
same warnings. -/
def OrderFree (engine : Engine α) (now : DateTime) (query : SearchQuery) : Prop :=
  ∀ report report', Reports tables engine now query report →
    Reports tables engine now query report' →
    report.docs = report'.docs ∧ report.warnings.Perm report'.warnings

/-- Searches in which nothing behind the fusing hides a difference: all sources run at the same
time, no two documents are near duplicates, and neither the dates nor the limit drop any. -/
structure Unhidden (engine : Engine α) (now : DateTime) (query : SearchQuery) : Prop where
  room : (engine.answers query).length ≤ engine.maxConcurrency
  apart : ∀ lists : List (List (Document α)), lists.Perm (engine.resultLists query) →
    ∀ x y, x ≠ y → similar engine.nearDupThreshold
      ((fuse tables now lists defaultRrfK).map (minhashSig tables)) x y = false
  dates : query.recency = none ∧ query.fromDate = none ∧ query.toDate = none
  limit : ∀ lists : List (List (Document α)), lists.Perm (engine.resultLists query) →
    (fuse tables now lists defaultRrfK).length ≤ query.limit

section Searches

variable {tables} {engine : Engine α} {now : DateTime} {query : SearchQuery}

/-- A report is made of the lists in some order. -/
theorem docs_of_reports {report : SearchReport α} (reports : Reports tables engine now query report)
    (order : Iteration) :
    ∃ lists : List (List (Document α)), lists.Perm (engine.resultLists query) ∧
      report.docs = ((nearDedup tables order (fuse tables now lists defaultRrfK)
        engine.nearDupThreshold).filter fun d => passesDateFilter d query now).take query.limit ∧
      report.warnings.Perm (collect (engine.answers query)).2 := by
  obtain ⟨outcomes, completes, order', rfl⟩ := reports
  have perm : outcomes.Perm (engine.answers query) := by simpa using completes.perm
  refine ⟨(collect outcomes).1, ?_, ?_, ?_⟩
  · rw [Engine.resultLists, collect_eq, collect_eq]
    exact perm.filterMap _
  · rw [nearDedup_order tables order order']
    rfl
  · change (collect outcomes).2.Perm _
    rw [collect_eq, collect_eq]
    exact perm.flatMap_right _

/-- Over settled lists the order of completion makes no difference. -/
theorem Settled.orderFree [LawfulNonneg α]
    (settled : Settled tables (engine.resultLists query)) :
    OrderFree tables engine now query := by
  intro report report' reports reports'
  let order : Iteration := ⟨id, fun _ => .refl _⟩
  obtain ⟨lists, perm, docs, warnings⟩ := docs_of_reports reports order
  obtain ⟨lists', perm', docs', warnings'⟩ := docs_of_reports reports' order
  constructor
  · rw [docs, docs', settled.fuse_eq perm, settled.fuse_eq perm']
  · exact warnings.trans warnings'.symm

/-- Where nothing is hidden, a search returns the fused documents of any order of the lists. -/
theorem Unhidden.reports (unhidden : Unhidden tables engine now query)
    {lists : List (List (Document α))} (perm : lists.Perm (engine.resultLists query)) :
    ∃ report, Reports tables engine now query report ∧
      report.docs = fuse tables now lists defaultRrfK := by
  have mapped : ((engine.answers query).filterMap fun outcome => outcome.2.docs?).Perm lists := by
    have all := perm.symm
    rwa [Engine.resultLists, collect_eq] at all
  obtain ⟨outcomes, arranged, listsEq⟩ := exists_perm_filterMap _ mapped
  have completes : Completes engine.maxConcurrency (engine.answers query) [] outcomes :=
    completes_any_order (by simpa using unhidden.room) (by simpa using arranged)
  refine ⟨_, ⟨outcomes, completes, ⟨id, fun _ => .refl _⟩, rfl⟩, ?_⟩
  have passes (d : Document α) : passesDateFilter d query now = true := by
    rw [passesDateFilter, unhidden.dates.1, unhidden.dates.2.1, unhidden.dates.2.2]
    cases d.publishedAt <;> rfl
  have collected : (collect outcomes).1 = lists := by rw [collect_eq, ← listsEq]
  rw [assemble]
  simp only [collected, nearDedup_eq_self tables _ _ _ (unhidden.apart lists perm), passes,
    List.filter_true]
  exact List.take_of_length_le (unhidden.limit lists perm)

theorem Unhidden.settled [LawfulNonneg α] (unhidden : Unhidden tables engine now query)
    (orderFree : OrderFree tables engine now query) :
    Settled tables (engine.resultLists query) := by
  have same (lists : List (List (Document α))) (perm : lists.Perm (engine.resultLists query)) :
      fuse tables now lists defaultRrfK =
        fuse tables now (engine.resultLists query) defaultRrfK := by
    obtain ⟨report, reports, docs⟩ := unhidden.reports perm
    obtain ⟨report', reports', docs'⟩ := unhidden.reports (.refl (engine.resultLists query))
    rw [← docs, ← docs']
    exact (orderFree report report' reports reports').1
  exact settled_of_fuse_eq same

variable (tables) (engine) (now) (query)

/-- Over settled lists a search does not depend on the order of completion.  Fusing depends on
it over all other lists, and so does a search that does not hide the difference. -/
theorem settled_iff_orderFree [LawfulNonneg α] :
    (Settled tables (engine.resultLists query) → OrderFree tables engine now query) ∧
      (Unhidden tables engine now query →
        (OrderFree tables engine now query ↔ Settled tables (engine.resultLists query))) ∧
      ((∀ lists : List (List (Document α)), lists.Perm (engine.resultLists query) →
          fuse tables now lists defaultRrfK =
            fuse tables now (engine.resultLists query) defaultRrfK) ↔
        Settled tables (engine.resultLists query)) := by
  refine ⟨Settled.orderFree, ?_, ?_⟩
  · intro unhidden
    exact ⟨unhidden.settled, Settled.orderFree⟩
  · exact ⟨settled_of_fuse_eq, fun settled lists perm => settled.fuse_eq perm⟩

end Searches

/-- One source has a document, the other one is too late. -/
def oneAnswer : Engine Exact :=
  (Engine.new.register
    ⟨.arxiv, fun _ => .docs [.plain ⟨none, some "1".toList, none, 0⟩ .arxiv "t".toList]⟩).register
    ⟨.news, fun _ => .elapsed⟩

theorem settled_iff_orderFree_oneAnswer :
    OrderFree Unicode.ascii oneAnswer 0 (.fromText "rust".toList 10) := by
  apply (settled_iff_orderFree Unicode.ascii oneAnswer 0 (.fromText "rust".toList 10)).1
  constructor
  · intro wanted
    exact List.pairwise_singleton _ _
  · intro wanted other perm
    rw [List.perm_singleton.mp perm]
    rfl
  · intro first second distinct _ list member list' member' leads leads'
    rw [List.mem_singleton.mp member] at leads
    rw [List.mem_singleton.mp member', leads, Option.some.injEq] at leads'
    exact distinct leads'

/-- A paper that one source has. -/
def paper : Document Exact :=
  .plain ⟨none, some "2301.00001".toList, none, 1⟩ .arxiv "alpha beta gamma".toList

/-- An article that another source has. -/
def article : Document Exact :=
  .plain ⟨none, none, some "https://e.com/a".toList, 2⟩ .news "something else".toList

def twoSources : Engine Exact :=
  (Engine.new.register ⟨.arxiv, fun _ => .docs [paper]⟩).register ⟨.news, fun _ => .docs [article]⟩

/-- Either order of the two lists makes the two documents. -/
theorem fuse_twoSources {lists : List (List (Document Exact))}
    (perm : lists.Perm [[paper], [article]]) :
    (fuse Unicode.ascii 0 lists defaultRrfK).Perm
      [rescore 0 (entering defaultRrfK (paper, 0)), rescore 0 (entering defaultRrfK (article, 0))] := by
  apply (fuse_perm_documents Unicode.ascii 0 lists defaultRrfK).trans
  rcases List.perm_pair.mp perm with rfl | rfl
  · exact .refl _
  · exact .swap _ _ _

theorem not_similar_twoSources :
    Scalar.le (Scalar.lit (7 / 10) : Exact) (sigSimilarity (minhashSig Unicode.ascii paper)
      (minhashSig Unicode.ascii article)) = false ∧
    Scalar.le (Scalar.lit (7 / 10) : Exact) (sigSimilarity (minhashSig Unicode.ascii article)
      (minhashSig Unicode.ascii paper)) = false := by
  decide +kernel

theorem similar_pair {threshold : α} {a b : Fin minhashN → UInt64}
    (apart : Scalar.le threshold (sigSimilarity a b) = false)
    (apart' : Scalar.le threshold (sigSimilarity b a) = false) {x y : Nat} (distinct : x ≠ y) :
    similar threshold [a, b] x y = false := by
  match x, y with
  | 0, 0 => exact absurd rfl distinct
  | 0, 1 => exact apart
  | 1, 0 => exact apart'
  | 1, 1 => exact absurd rfl distinct
  | x + 2, _ => rfl
  | 0, y + 2 => rfl
  | 1, y + 2 => rfl

theorem unhidden_twoSources :
    Unhidden Unicode.ascii twoSources 0 (.fromText "rust".toList 10) where
  room := by decide
  apart lists perm x y distinct := by
    have signatures := (fuse_twoSources perm).map (minhashSig Unicode.ascii)
    rcases List.perm_pair.mp signatures with ordered | swapped
    · rw [ordered]
      exact similar_pair not_similar_twoSources.1 not_similar_twoSources.2 distinct
    · rw [swapped]
      exact similar_pair not_similar_twoSources.2 not_similar_twoSources.1 distinct
  dates := ⟨rfl, rfl, rfl⟩
  limit lists perm := by
    rw [(fuse_twoSources perm).length_eq]
    decide

/-- Two documents of the same rank in two lists come in the order in which their sources
complete. -/
theorem not_orderFree :
    ¬ OrderFree Unicode.ascii twoSources 0 (.fromText "rust".toList 10) := by
  intro orderFree
  have settled := unhidden_twoSources.settled orderFree
  have tied : Tied Unicode.ascii (twoSources.resultLists (.fromText "rust".toList 10))
      (identityKey Unicode.ascii paper) (identityKey Unicode.ascii article) :=
    ⟨⟨contribution defaultRrfK 0, contribution defaultRrfK 0, rfl, rfl, cmpDesc_self _⟩, rfl⟩
  have inFirst : [paper] ∈ [[paper], [article]] := by simp
  have inSecond : [article] ∈ [[paper], [article]] := by simp
  exact settled.ties _ _ (by decide) tied [paper] inFirst [article] inSecond (by decide)
    (by decide)

end AiCoreStack.Scholar
