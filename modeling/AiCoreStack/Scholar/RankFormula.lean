import AiCoreStack.Scholar.CompletionOrder

/-!
# The reciprocal rank formula

As documented, a document scores the sum over the sources that list it of one over `k` and its
rank there, and ties are broken by freshness, then by authority.  The code adds up every
occurrence in a list and breaks ties by date.  The two agree exactly where no list repeats a
document and, among tied documents, those that the date puts first are no less trusted.
-/

namespace AiCoreStack.Scholar

open Foundation Foundation.Gather

open scoped List

variable (tables : Unicode)

/-! ## The documented outcome -/

/-- The ranks of a key in the list of a source, counted from one. -/
def ranksIn (wanted : List Char) (list : List (Document Exact)) : List Nat :=
  (list.zipIdx.filter fun item => rankedKey tables item = wanted).map fun item => item.2 + 1

/-- `1 / (k + rank)` -/
def reciprocal (k : ℚ) (rank : Nat) : ℚ := 1 / (k + rank)

/-- What a source brings with the best of the ranks. -/
def bestShare (k : ℚ) (ranks : List Nat) : ℚ := ranks.min?.elim 0 (reciprocal k)

/-- `Σ_sources 1 / (k + rank_source(d))` -/
def rankSum (k : ℚ) (perSource : List (List (Document Exact))) (wanted : List Char) : ℚ :=
  (perSource.map fun list => bestShare k (ranksIn tables wanted list)).sum

/-- The order that the documentation gives: by score, then freshness, then authority. -/
def documentedOrder (a b : Document Exact) : Ordering :=
  ((cmpDesc a.score.fused b.score.fused).then
    (cmpDesc a.score.freshness b.score.freshness)).then
    (cmpDesc a.score.authority b.score.authority)

/-- An outcome that is as documented. -/
structure Documented (k : ℚ) (perSource : List (List (Document Exact)))
    (out : List (Document Exact)) : Prop where
  score : ∀ d ∈ out, d.score.fused = .fin (rankSum tables k perSource (identityKey tables d))
  order : out.Pairwise fun a b => (documentedOrder a b).isLE = true

/-! ## When the code agrees -/

/-- No source lists a document twice. -/
def Unrepeated (perSource : List (List (Document Exact))) : Prop :=
  ∀ list ∈ perSource, (list.map (identityKey tables)).Nodup

/-- How far the documents of a key are trusted: as the first of them is. -/
def trusted (perSource : List (List (Document Exact))) (wanted : List Char) : Exact :=
  (keyed tables perSource wanted).head?.elim (.fin 0) fun item =>
    if isZero item.1.score.authority then authorityScore item.1.source
    else item.1.score.authority

/-- The later date, or of equal dates the one that comes first. -/
def Prefers (perSource : List (List (Document Exact))) (first second : List Char) : Prop :=
  compare (dated tables perSource second) (dated tables perSource first) = .lt ∨
    (dated tables perSource first = dated tables perSource second ∧
      [first, second] <+ keys tables perSource)

/-- Where sum and freshness tie, what is preferred is no less trusted. -/
def AuthorityFollows (now : DateTime) (k : ℚ) (perSource : List (List (Document Exact))) : Prop :=
  ∀ first ∈ keys tables perSource, ∀ second ∈ keys tables perSource,
    rankSum tables k perSource first = rankSum tables k perSource second →
    (freshnessScore (dated tables perSource first) now : Exact) =
      freshnessScore (dated tables perSource second) now →
    Prefers tables perSource first second →
    (cmpDesc (trusted tables perSource first) (trusted tables perSource second)).isLE = true

/-! ## Scores -/

/-- What the code adds up: a share for each occurrence. -/
def occurrenceSum (k : ℚ) (perSource : List (List (Document Exact))) (wanted : List Char) : ℚ :=
  (perSource.map fun list => ((ranksIn tables wanted list).map (reciprocal k)).sum).sum

theorem reciprocal_pos {k : ℚ} (above : -1 < k) {wanted : List Char}
    {list : List (Document Exact)} {rank : Nat} (member : rank ∈ ranksIn tables wanted list) :
    0 < reciprocal k rank := by
  obtain ⟨item, _, rfl⟩ := List.mem_map.mp member
  have nonneg : (0 : ℚ) ≤ item.2 := Nat.cast_nonneg _
  rw [reciprocal, Nat.cast_add_one]
  apply one_div_pos.mpr
  linarith

theorem contribution_fin {k : ℚ} (above : -1 < k) (rank : Nat) :
    contribution (.fin k : Exact) rank = .fin (reciprocal k (rank + 1)) := by
  have nonneg : (0 : ℚ) ≤ rank := Nat.cast_nonneg _
  have nonzero : k + rank + 1 ≠ 0 := by linarith
  rw [contribution, reciprocal, Exact.ofNat_eq, Exact.lit_eq, Exact.add_fin, Exact.add_fin,
    Exact.div_fin _ nonzero, Nat.cast_add_one, add_assoc]

theorem addUp_fin {values : List ℚ} {sum : Exact} (added : addUp (values.map .fin) = some sum) :
    sum = .fin values.sum := by
  cases values with
  | nil => simp [addUp, Gather.collapse] at added
  | cons value rest =>
      rw [addUp, List.map_cons, Gather.collapse, Option.some.injEq, id, Exact.foldl_add_fin]
        at added
      rw [← added, List.sum_cons]

theorem shares_keyed (k : ℚ) (perSource : List (List (Document Exact))) (wanted : List Char) :
    ((keyed tables perSource wanted).map fun item => reciprocal k (item.2 + 1)).sum =
      occurrenceSum tables k perSource wanted := by
  rw [keyed_eq, List.map_flatMap, List.flatMap_def, List.sum_flatten, List.map_map, occurrenceSum]
  congr 1
  apply List.map_congr_left
  intro list _
  rw [ranksIn, List.map_map]
  rfl

/-- The first document of a key brings its authority and its kind of source. -/
theorem head_fusedOf (k : Exact) {items : List (Document Exact × Nat)} {value : Document Exact}
    (made : fusedOf k items = some value) :
    ∃ item ∈ items.head?, item.1.score.authority = value.score.authority ∧
      item.1.source = value.source := by
  induction items using List.reverseRecOn generalizing value with
  | nil => simp [fusedOf, Gather.collapse] at made
  | append_singleton items item ih =>
      rw [fusedOf, collapse_snoc, Option.some.injEq] at made
      cases before : Gather.collapse (entering k) (joining k) items with
      | none =>
          rw [before] at made
          rw [(collapse_eq_none_iff _ _ _).mp before, ← made]
          exact ⟨item, rfl, rfl, rfl⟩
      | some held =>
          obtain ⟨first, isFirst, same⟩ := ih before
          rw [before] at made
          rw [← made]
          exact ⟨first, by rw [List.head?_append, Option.mem_def.mp isFirst]; rfl, same⟩

/-- What the output document of a key is compared by. -/
structure Summed (now : DateTime) (k : ℚ) (perSource : List (List (Document Exact)))
    (wanted : List Char) (d : Document Exact) : Prop where
  fused : d.score.fused = .fin (occurrenceSum tables k perSource wanted)
  date : d.publishedAt = dated tables perSource wanted
  freshness : d.score.freshness = freshnessScore (dated tables perSource wanted) now
  authority : d.score.authority = trusted tables perSource wanted

theorem summed_outcome {now : DateTime} {k : ℚ} (above : -1 < k)
    {perSource : List (List (Document Exact))} {wanted : List Char} {d : Document Exact}
    (made : outcome tables now perSource (.fin k) wanted = some d) :
    Summed tables now k perSource wanted d := by
  obtain ⟨value, collected, rfl⟩ := Option.map_eq_some_iff.mp made
  have date := publishedAt_of_fusedOf _ collected
  obtain ⟨first, isFirst, authority, source⟩ := head_fusedOf _ collected
  constructor
  · have total := fused_fusedOf (.fin k : Exact) (keyed tables perSource wanted)
    rw [collected, Option.map_some] at total
    have shares : (keyed tables perSource wanted).map
        (fun item => contribution (.fin k : Exact) item.2) =
        ((keyed tables perSource wanted).map fun item => reciprocal k (item.2 + 1)).map .fin := by
      rw [List.map_map]
      exact List.map_congr_left fun item _ => contribution_fin above item.2
    rw [shares] at total
    change value.score.fused = _
    rw [addUp_fin total.symm, shares_keyed]
  · exact date
  · change freshnessScore value.publishedAt now = _
    rw [date]
    rfl
  · change (if isZero value.score.authority then authorityScore value.source
      else value.score.authority) = _
    rw [trusted, Option.mem_def.mp isFirst, Option.elim_some, authority, source]

theorem bestShare_of_single {k : ℚ} {ranks : List Nat} (single : ranks.length ≤ 1) :
    bestShare k ranks = (ranks.map (reciprocal k)).sum := by
  cases ranks with
  | nil => rfl
  | cons rank rest =>
      obtain rfl : rest = [] := by
        rw [List.length_cons] at single
        exact List.eq_nil_of_length_eq_zero (by omega)
      simp [bestShare]

theorem bestShare_lt {k : ℚ} {ranks : List Nat} (positive : ∀ rank ∈ ranks, 0 < reciprocal k rank)
    (repeated : 1 < ranks.length) : bestShare k ranks < (ranks.map (reciprocal k)).sum := by
  cases best : ranks.min? with
  | none =>
      rw [List.min?_eq_none_iff.mp best] at repeated
      simp at repeated
  | some rank =>
      have member := (List.min?_eq_some_iff.mp best).1
      have others : (ranks.erase rank).map (reciprocal k) ≠ [] := by
        intro empty
        have size := List.length_erase_of_mem member
        rw [List.map_eq_nil_iff.mp empty, List.length_nil] at size
        omega
      have rest : 0 < ((ranks.erase rank).map (reciprocal k)).sum := by
        apply List.sum_pos _ _ others
        intro share inShares
        obtain ⟨other, inErased, rfl⟩ := List.mem_map.mp inShares
        exact positive other (List.mem_of_mem_erase inErased)
      rw [bestShare, best, Option.elim_some, ← List.sum_map_erase _ member]
      exact lt_add_of_pos_right _ rest

theorem length_ranksIn (wanted : List Char) (list : List (Document Exact)) :
    (ranksIn tables wanted list).length = (list.map (identityKey tables)).count wanted := by
  have unranked : (list.map (identityKey tables)).count wanted =
      (list.zipIdx.map (rankedKey tables)).count wanted := by
    congr 1
    conv_lhs => rw [← List.zipIdx_map_fst 0 list, List.map_map]
    rfl
  rw [unranked, ranksIn, List.length_map, ← List.countP_eq_length_filter, List.count,
    List.countP_map]
  congr 1
  funext item
  rw [Bool.eq_iff_iff, decide_eq_true_iff]
  exact beq_iff_eq.symm

theorem unrepeated_iff {perSource : List (List (Document Exact))} :
    Unrepeated tables perSource ↔
      ∀ list ∈ perSource, ∀ wanted, (ranksIn tables wanted list).length ≤ 1 := by
  simp only [length_ranksIn]
  exact forall₂_congr fun list _ => List.nodup_iff_count_le_one

theorem Unrepeated.occurrenceSum_eq {perSource : List (List (Document Exact))}
    (once : Unrepeated tables perSource) (k : ℚ) (wanted : List Char) :
    occurrenceSum tables k perSource wanted = rankSum tables k perSource wanted := by
  rw [occurrenceSum, rankSum]
  congr 1
  apply List.map_congr_left
  intro list member
  exact (bestShare_of_single ((unrepeated_iff tables).mp once list member wanted)).symm

/-- A list that repeats a document raises its score. -/
theorem rankSum_lt {k : ℚ} (above : -1 < k) {perSource : List (List (Document Exact))}
    {list : List (Document Exact)} (member : list ∈ perSource) {wanted : List Char}
    (repeated : 1 < (ranksIn tables wanted list).length) :
    rankSum tables k perSource wanted < occurrenceSum tables k perSource wanted := by
  have positive (list : List (Document Exact)) (rank : Nat)
      (inList : rank ∈ ranksIn tables wanted list) : 0 < reciprocal k rank :=
    reciprocal_pos tables above inList
  apply List.sum_lt_sum
  · intro other _
    by_cases single : (ranksIn tables wanted other).length ≤ 1
    · exact (bestShare_of_single single).le
    · exact (bestShare_lt (positive other) (not_le.mp single)).le
  · exact ⟨list, member, bestShare_lt (positive list) repeated⟩

section Outcome

variable {now : DateTime} {k : ℚ} {perSource : List (List (Document Exact))}

theorem mem_fuse_iff {d : Document Exact} :
    d ∈ fuse tables now perSource (.fin k) ↔
      outcome tables now perSource (.fin k) (identityKey tables d) = some d := by
  rw [(fuse_perm_documents tables now perSource (.fin k)).mem_iff, mem_documents_iff]

/-- The scores are the documented ones where no source lists a document twice. -/
theorem scores_iff (above : -1 < k) :
    (∀ d ∈ fuse tables now perSource (.fin k),
        d.score.fused = .fin (rankSum tables k perSource (identityKey tables d))) ↔
      Unrepeated tables perSource := by
  constructor
  · intro scores
    rw [unrepeated_iff]
    intro list member wanted
    by_contra repeated
    have lower := rankSum_lt tables above member (not_le.mp repeated)
    have present : wanted ∈ keys tables perSource := by
      obtain ⟨rank, inRanks⟩ := List.exists_mem_of_length_pos
        (Nat.zero_lt_of_lt (not_le.mp repeated))
      obtain ⟨item, filed, _⟩ := List.mem_map.mp inRanks
      obtain ⟨inList, key⟩ := List.mem_filter.mp filed
      rw [keys, mem_firsts, ← of_decide_eq_true key]
      exact List.mem_map_of_mem (List.mem_flatMap.mpr ⟨list, member, inList⟩)
    obtain ⟨d, made⟩ := Option.isSome_iff_exists.mp (outcome_isSome tables now (.fin k) present)
    have key := identityKey_outcome tables made
    have score := scores d ((mem_fuse_iff tables).mpr (key.symm ▸ made))
    rw [(summed_outcome tables above made).fused, key, Exact.fin.injEq] at score
    exact lower.ne score.symm
  · intro once d member
    rw [(summed_outcome tables above ((mem_fuse_iff tables).mp member)).fused,
      once.occurrenceSum_eq]

/-! ## Ties -/

theorem cmpDesc_fin (x y : ℚ) : cmpDesc (.fin x : Exact) (.fin y) = compare y x := by
  rw [cmpDesc, Scalar.cmpOrEq, Exact.lt_fin, Exact.lt_fin]
  simp only [decide_eq_true_eq]
  rcases lt_trichotomy y x with below | rfl | above
  · rw [if_pos below, compare_lt_iff_lt.mpr below]
  · rw [if_neg (lt_irrefl y), if_neg (lt_irrefl y), compare_eq_iff_eq.mpr rfl]
  · rw [if_neg (not_lt.mpr above.le), if_pos above, compare_gt_iff_gt.mpr above]

variable (now) in
theorem freshnessScore_fin (published : Option DateTime) :
    ∃ q, (freshnessScore published now : Exact) = .fin q ∧ 0 ≤ q := by
  have nonneg := freshnessScore_nonneg (α := Exact) published now
  have finite : ∃ q, (freshnessScore published now : Exact) = .fin q := by
    cases published with
    | none => exact ⟨_, rfl⟩
    | some dt =>
        rw [freshnessScore]
        split_ifs <;> exact ⟨_, rfl⟩
  obtain ⟨q, fresh⟩ := finite
  rw [fresh, Exact.lit_eq, Exact.le_fin, decide_eq_true_eq] at nonneg
  exact ⟨q, fresh, nonneg⟩

theorem Summed.graded {wanted : List Char} {d : Document Exact} (above : -1 < k)
    (summed : Summed tables now k perSource wanted d) : Graded d where
  fused := by
    rw [summed.fused, Exact.lit_eq, Exact.le_fin, decide_eq_true_eq]
    apply List.sum_nonneg
    intro total inTotals
    obtain ⟨list, _, rfl⟩ := List.mem_map.mp inTotals
    apply List.sum_nonneg
    intro share inShares
    obtain ⟨rank, inRanks, rfl⟩ := List.mem_map.mp inShares
    exact (reciprocal_pos tables above inRanks).le
  freshness := by
    rw [summed.freshness]
    exact freshnessScore_nonneg _ now

/-- What both orders look at first. -/
theorem leading_eq_iff {first second : List Char} {a b : Document Exact}
    (summedA : Summed tables now k perSource first a)
    (summedB : Summed tables now k perSource second b) :
    (cmpDesc a.score.fused b.score.fused).then (cmpDesc a.score.freshness b.score.freshness) = .eq ↔
      occurrenceSum tables k perSource first = occurrenceSum tables k perSource second ∧
        (freshnessScore (dated tables perSource first) now : Exact) =
          freshnessScore (dated tables perSource second) now := by
  obtain ⟨x, freshA, _⟩ := freshnessScore_fin now (dated tables perSource first)
  obtain ⟨y, freshB, _⟩ := freshnessScore_fin now (dated tables perSource second)
  rw [Ordering.then_eq_eq, summedA.fused, summedB.fused, summedA.freshness, summedB.freshness,
    freshA, freshB, cmpDesc_fin, cmpDesc_fin, compare_eq_iff_eq, compare_eq_iff_eq,
    Exact.fin.injEq]
  exact and_congr eq_comm eq_comm

/-- Documents come in the order of their scores, freshness and dates, else in that of their
keys. -/
theorem pair_sublist_fuse_iff (above : -1 < k) {a b : Document Exact}
    (inA : a ∈ fuse tables now perSource (.fin k)) (inB : b ∈ fuse tables now perSource (.fin k))
    (distinct : a ≠ b) :
    [a, b] <+ fuse tables now perSource (.fin k) ↔
      (compareDocs a b).isLE = true ∧ ((compareDocs b a).isLE = true →
        [identityKey tables a, identityKey tables b] <+ keys tables perSource) := by
  have perm := fuse_perm_documents tables now perSource (.fin k)
  have byKey := nodup_identityKey_documents tables now perSource (.fin k)
  have graded (d : Document Exact) (member : d ∈ documents tables now perSource (.fin k)) :
      Graded d :=
    (summed_outcome tables above ((mem_documents_iff tables).mp member)).graded tables above
  rw [perm.mem_iff] at inA inB
  rw [fuse_eq_documents, (preordersOn_compareDocs graded).pair_sublist_mergeSort_iff
    (List.Nodup.of_map _ byKey) distinct inA inB, ← identityKey_documents tables now _ (.fin k),
    StableSort.pair_sublist_map_iff byKey inA inB]

/-- The order of dates, the later first, and of what comes first among equal ones. -/
theorem later_or_comes_iff {first second : Option DateTime} {comes : Prop} :
    ((compare second first).isLE = true ∧ ((compare first second).isLE = true → comes)) ↔
      compare second first = .lt ∨ (first = second ∧ comes) := by
  rw [Std.OrientedOrd.eq_swap (a := first) (b := second)]
  cases order : compare second first with
  | lt => simp
  | eq => simp [Std.compare_eq_iff_eq.mp order]
  | gt =>
      have distinct : first ≠ second := by
        rintro rfl
        rw [Std.ReflOrd.compare_self] at order
        exact absurd order (by decide)
      simp [distinct]

/-- Documents that tie in score and freshness come as the code prefers. -/
theorem pair_sublist_fuse_of_tied (above : -1 < k) {first second : List Char}
    {a b : Document Exact} (madeA : outcome tables now perSource (.fin k) first = some a)
    (madeB : outcome tables now perSource (.fin k) second = some b) (distinct : a ≠ b)
    (sums : occurrenceSum tables k perSource first = occurrenceSum tables k perSource second)
    (fresh : (freshnessScore (dated tables perSource first) now : Exact) =
      freshnessScore (dated tables perSource second) now) :
    [a, b] <+ fuse tables now perSource (.fin k) ↔ Prefers tables perSource first second := by
  have summedA := summed_outcome tables above madeA
  have summedB := summed_outcome tables above madeB
  have keyA := identityKey_outcome tables madeA
  have keyB := identityKey_outcome tables madeB
  have tied := (leading_eq_iff tables summedA summedB).mpr ⟨sums, fresh⟩
  have tied' := (leading_eq_iff tables summedB summedA).mpr ⟨sums.symm, fresh.symm⟩
  rw [pair_sublist_fuse_iff tables above ((mem_fuse_iff tables).mpr (keyA.symm ▸ madeA))
    ((mem_fuse_iff tables).mpr (keyB.symm ▸ madeB)) distinct, compareDocs, compareDocs, tied, tied',
    Ordering.eq_then, Ordering.eq_then, summedA.date, summedB.date, keyA, keyB]
  exact later_or_comes_iff

/-- An outcome in the documented order has authority following the dates. -/
theorem authorityFollows_of_ordered (above : -1 < k) (once : Unrepeated tables perSource)
    (ordered : (fuse tables now perSource (.fin k)).Pairwise fun a b =>
      (documentedOrder a b).isLE = true) : AuthorityFollows tables now k perSource := by
  intro first inFirst second inSecond sums fresh prefers
  obtain ⟨a, madeA⟩ := Option.isSome_iff_exists.mp (outcome_isSome tables now (.fin k) inFirst)
  obtain ⟨b, madeB⟩ := Option.isSome_iff_exists.mp (outcome_isSome tables now (.fin k) inSecond)
  have summedA := summed_outcome tables above madeA
  have summedB := summed_outcome tables above madeB
  rw [← summedA.authority, ← summedB.authority]
  by_cases same : a = b
  · rw [same, cmpDesc_self]
    rfl
  · rw [← once.occurrenceSum_eq tables, ← once.occurrenceSum_eq tables] at sums
    have tied := (leading_eq_iff tables summedA summedB).mpr ⟨sums, fresh⟩
    have pair := (pair_sublist_fuse_of_tied tables above madeA madeB same sums fresh).mpr prefers
    have both := List.pairwise_iff_forall_sublist.mp ordered pair
    rwa [documentedOrder, tied, Ordering.eq_then] at both

/-- Authority that follows the dates puts the outcome in the documented order. -/
theorem AuthorityFollows.ordered (follows : AuthorityFollows tables now k perSource)
    (above : -1 < k) (once : Unrepeated tables perSource) :
    (fuse tables now perSource (.fin k)).Pairwise fun a b => (documentedOrder a b).isLE = true := by
  have perm := fuse_perm_documents tables now perSource (.fin k)
  have nodup : (fuse tables now perSource (.fin k)).Nodup :=
    perm.nodup_iff.mpr
      (List.Nodup.of_map _ (nodup_identityKey_documents tables now perSource (.fin k)))
  have present {d : Document Exact} (member : d ∈ fuse tables now perSource (.fin k)) :
      identityKey tables d ∈ keys tables perSource := by
    rw [← identityKey_documents tables now perSource (.fin k)]
    exact List.mem_map_of_mem (perm.mem_iff.mp member)
  apply List.pairwise_iff_forall_sublist.mpr
  intro a b pair
  have inA : a ∈ fuse tables now perSource (.fin k) := pair.subset (by simp)
  have inB : b ∈ fuse tables now perSource (.fin k) := pair.subset (by simp)
  have distinct : a ≠ b := by
    rintro rfl
    exact StableSort.not_both_orders nodup pair pair
  have madeA := (mem_fuse_iff tables).mp inA
  have madeB := (mem_fuse_iff tables).mp inB
  have summedA := summed_outcome tables above madeA
  have summedB := summed_outcome tables above madeB
  have below := ((pair_sublist_fuse_iff tables above inA inB distinct).mp pair).1
  rw [compareDocs] at below
  rw [documentedOrder]
  cases leading : (cmpDesc a.score.fused b.score.fused).then
    (cmpDesc a.score.freshness b.score.freshness) with
  | lt => rfl
  | gt =>
      rw [leading] at below
      exact absurd below Bool.false_ne_true
  | eq =>
      obtain ⟨sums, fresh⟩ := (leading_eq_iff tables summedA summedB).mp leading
      have prefers :=
        (pair_sublist_fuse_of_tied tables above madeA madeB distinct sums fresh).mp pair
      rw [once.occurrenceSum_eq, once.occurrenceSum_eq] at sums
      rw [Ordering.eq_then, summedA.authority, summedB.authority]
      exact follows _ (present inA) _ (present inB) sums fresh prefers

/-- Fusing is as documented exactly where no list repeats a document and authority follows the
dates. -/
theorem fuse_documented_iff (above : -1 < k) :
    Documented tables k perSource (fuse tables now perSource (.fin k)) ↔
      Unrepeated tables perSource ∧ AuthorityFollows tables now k perSource := by
  constructor
  · intro documented
    have once := (scores_iff tables above).mp documented.score
    exact ⟨once, authorityFollows_of_ordered tables above once documented.order⟩
  · rintro ⟨once, follows⟩
    exact ⟨(scores_iff tables above).mpr once, follows.ordered tables above once⟩

end Outcome

/-- A document that a source lists, with a date. -/
def listed (source : SourceKind) (ax : List Char) (date : DateTime) : Document Exact :=
  { Document.plain ⟨none, some ax, none, 0⟩ source "t".toList with publishedAt := some date }

theorem fuse_documented_iff_listed :
    Documented Unicode.ascii 60 [[listed .blog "1".toList 0]]
        (fuse Unicode.ascii 0 [[listed .blog "1".toList 0]] (.fin 60)) ↔
      Unrepeated Unicode.ascii [[listed .blog "1".toList 0]] ∧
        AuthorityFollows Unicode.ascii 0 60 [[listed .blog "1".toList 0]] :=
  fuse_documented_iff Unicode.ascii (by norm_num)

/-- One list that repeats a document; and two lists whose first documents tie, where the later
one is from a source that is trusted less. -/
theorem not_documented :
    ¬ Documented Unicode.ascii 60 [[listed .blog "1".toList 0, listed .blog "1".toList 0]]
      (fuse Unicode.ascii 0 [[listed .blog "1".toList 0, listed .blog "1".toList 0]] (.fin 60)) ∧
    ¬ Documented Unicode.ascii 60 [[listed .arxiv "1".toList 0], [listed .youtube "2".toList 1]]
      (fuse Unicode.ascii 0 [[listed .arxiv "1".toList 0], [listed .youtube "2".toList 1]]
        (.fin 60)) := by
  have above : (-1 : ℚ) < 60 := by norm_num
  constructor
  · intro documented
    have once := (scores_iff Unicode.ascii above).mp documented.score
    have twice : ¬ ([listed .blog "1".toList 0, listed .blog "1".toList 0].map
        (identityKey Unicode.ascii)).Nodup := by decide
    exact twice (once _ (List.mem_singleton_self _))
  · intro documented
    have once := (scores_iff Unicode.ascii above).mp documented.score
    have follows := authorityFollows_of_ordered Unicode.ascii above once documented.order
    have trusts := follows "arxiv:2".toList (by decide) "arxiv:1".toList (by decide)
      (by decide +kernel) (by decide +kernel) (.inl (by decide))
    exact absurd trusts (by decide +kernel)

end AiCoreStack.Scholar
