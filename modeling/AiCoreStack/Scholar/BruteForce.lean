import AiCoreStack.Foundation.Banding
import AiCoreStack.Foundation.CheckedUnionFind
import AiCoreStack.Scholar.Dedup

/-!
# Near duplicates among all pairs

What merging near duplicates is for: the documents that chains of similar ones connect become
one document.  The code looks only at pairs that agree in a band.  Above three quarters it misses
nothing by that, since similar documents then differ in fewer slots than there are bands.
-/

namespace AiCoreStack.Scholar

open Foundation

variable {α : Type} (tables : Unicode)

/-- Merge the documents that a relation of their indices puts together, in the order of the
indices, where the first of them is. -/
def mergeRelated (related : Nat → Nat → Prop) [DecidableRel related] (docs : List (Document α)) :
    List (Document α) :=
  (List.range docs.length).filterMap fun i =>
    if ∀ j < i, ¬related i j then
      Gather.collapse id mergeDocs
        (((List.range docs.length).filter fun j => related i j).filterMap (docs[·]?))
    else none

/-- Documents that a chain of similar documents connects. -/
def Connected [Scalar α] (threshold : α) (sigs : List (Fin minhashN → UInt64)) : Nat → Nat → Prop :=
  Relation.EqvGen fun x y => similar threshold sigs x y = true

open Classical in
/-- The result of comparing all pairs. -/
noncomputable def bruteForce [Scalar α] (docs : List (Document α)) (threshold : α) :
    List (Document α) :=
  mergeRelated (Connected threshold (docs.map (minhashSig tables))) docs

/-- Merge near duplicates, with the indices and the loops of the union-find checked. -/
def nearDedupWithin [Scalar α] (turns : Nat) (order : Iteration) (docs : List (Document α))
    (threshold : α) : Option (List (Document α)) :=
  if docs.length < 2 then some docs
  else do
    let sigs := docs.map (minhashSig tables)
    let parent ← UnionFind.joinAllWithin (similar threshold sigs) turns
      (UnionFind.separate docs.length) ((order.visit (buckets sigs)).flatMap bucketPairs)
    let (roots, _) ← UnionFind.findAllWithin turns parent (List.range docs.length)
    some (mergeClasses docs roots)

/-! ## Merging where the first of a class is -/

section Merging

variable {docs : List (Document α)} {root : Nat → Nat}

theorem mergeRelated_congr {related related' : Nat → Nat → Prop} [DecidableRel related]
    [DecidableRel related']
    (same : ∀ i < docs.length, ∀ j < docs.length, related i j ↔ related' i j) :
    mergeRelated related docs = mergeRelated related' docs := by
  apply List.filterMap_congr
  intro i inside
  rw [List.mem_range] at inside
  have members : ((List.range docs.length).filter fun j => related i j) =
      (List.range docs.length).filter fun j => related' i j :=
    List.filter_congr fun j inRange =>
      decide_eq_decide.mpr (same i inside j (List.mem_range.mp inRange))
  have leads : (∀ j < i, ¬related i j) ↔ ∀ j < i, ¬related' i j :=
    forall₂_congr fun j before => not_congr (same i inside j (before.trans inside))
  simp only [members, leads]

/-- One document alone has nothing to be merged with. -/
theorem mergeRelated_of_short {related : Nat → Nat → Prop} [DecidableRel related]
    (reflexive : ∀ i, related i i) (short : docs.length < 2) :
    mergeRelated related docs = docs := by
  cases docs with
  | nil => rfl
  | cons d rest =>
      obtain rfl : rest = [] := by
        cases rest with
        | nil => rfl
        | cons _ _ => simp at short
      simp [mergeRelated, List.filterMap_cons, reflexive, Gather.collapse]

/-- What is in a slot when the first documents have been looked at. -/
def slotAfter (docs : List (Document α)) (root : Nat → Nat) (k j : Nat) : Option (Document α) :=
  if k ≤ j then docs[j]?
  else if ∀ i < j, ¬root j = root i then
    Gather.collapse id mergeDocs
      (((List.range k).filter fun i => root j = root i).filterMap (docs[·]?))
  else none

/-- The smallest index of the class of an index. -/
structure Leads (root : Nat → Nat) (base k : Nat) : Prop where
  within : base ≤ k
  same : root base = root k
  first : ∀ i < base, root i ≠ root k

theorem Leads.eq_of_first {base k j : Nat} (leads : Leads root base k) (same : root j = root k)
    (first : ∀ i < j, ¬root j = root i) : j = base := by
  rcases Nat.lt_trichotomy j base with before | rfl | after
  · exact absurd same (leads.first j before)
  · rfl
  · exact absurd (same.trans leads.same.symm) (first base after)

/-- `base_of[&roots[k]]` -/
theorem exists_leads {n k : Nat} (inside : k < n) :
    ∃ base, ((List.range n).map root)[k]?.bind (baseOf ((List.range n).map root)) = some base ∧
      Leads root base k := by
  have smallest (items : List Nat) :
      Gather.collapse id (fun b i => if i < b then i else b) items = items.min? := by
    cases items with
    | nil => rfl
    | cons item items =>
        rw [Gather.collapse, List.min?_cons', id]
        congr 2
        funext b i
        rw [min_def]
        split <;> split <;> omega
  have looked : ((List.range n).map root)[k]?.bind (baseOf ((List.range n).map root)) =
      ((List.range n).filter fun j => root j = root k).min? := by
    rw [← smallest, ← baseOf_range]
    simp [inside]
  have own : k ∈ (List.range n).filter fun j => root j = root k := by simp [inside]
  rw [looked]
  cases least : ((List.range n).filter fun j => root j = root k).min? with
  | none => exact absurd own (by rw [List.min?_eq_none_iff.mp least]; exact List.not_mem_nil)
  | some base =>
      obtain ⟨member, lower⟩ := List.min?_eq_some_iff.mp least
      obtain ⟨inRange, same⟩ := List.mem_filter.mp member
      refine ⟨base, rfl, lower k own, of_decide_eq_true same, ?_⟩
      intro i before alike
      have earlier := lower i (List.mem_filter.mpr
        ⟨List.mem_range.mpr (before.trans (List.mem_range.mp inRange)), decide_eq_true alike⟩)
      omega

/-- A document leaves alone the slots that are not the first of its class. -/
theorem slotAfter_succ {k j : Nat} (other : j ≠ k)
    (apart : root j = root k → ¬∀ i < j, ¬root j = root i) :
    slotAfter docs root (k + 1) j = slotAfter docs root k j := by
  rw [slotAfter, slotAfter]
  by_cases later : k ≤ j
  · rw [if_pos later, if_pos (by omega)]
  · rw [if_neg later, if_neg (by omega)]
    split
    next first =>
      have distinct : ¬root j = root k := fun same => apart same first
      rw [List.range_succ, List.filter_append, List.filter_singleton]
      simp [distinct]
    next => rfl

/-- The documents of a class up to a new one, with the new one. -/
theorem collapse_class {k j : Nat} {d : Document α} (held : docs[k]? = some d)
    (same : root j = root k) :
    Gather.collapse id mergeDocs
        (((List.range (k + 1)).filter fun i => root j = root i).filterMap (docs[·]?)) =
      some ((Gather.collapse id mergeDocs
        (((List.range k).filter fun i => root j = root i).filterMap (docs[·]?))).elim d
          fun merged => mergeDocs merged d) := by
  have last : (((List.range (k + 1)).filter fun i => root j = root i).filterMap (docs[·]?)) =
      ((List.range k).filter fun i => root j = root i).filterMap (docs[·]?) ++ [d] := by
    rw [List.range_succ, List.filter_append, List.filter_singleton, List.filterMap_append]
    simp [same, held]
  rw [last, Gather.collapse_snoc]
  rfl

theorem set_map_range {β : Type} (f : Nat → β) (n i : Nat) (value : β) :
    ((List.range n).map f).set i value = (List.range n).map (Function.update f i value) := by
  apply List.ext_getElem
  · simp
  · intro j _ _
    simp [List.getElem_set, Function.update_apply, eq_comm]

theorem absorb_map {f : Nat → Option (Document α)} {n i base : Nat} {d b : Document α}
    (other : i ≠ base) (insideI : i < n) (insideB : base < n) (atI : f i = some d)
    (atBase : f base = some b) :
    absorb ((List.range n).map f) i base =
      (List.range n).map
        (Function.update (Function.update f i none) base (some (mergeDocs b d))) := by
  have taken : ((List.range n).map f)[i]?.join = some d := by simp [insideI, atI]
  have found : ((List.range n).map (Function.update f i none))[base]?.join = some b := by
    simp [insideB, other.symm, atBase]
  rw [absorb, taken]
  dsimp only
  rw [set_map_range, found]
  exact set_map_range _ n base _

/-- The body of the loop over the documents. -/
def mergeStep (roots : List Nat) (slots : List (Option (Document α))) (i : Nat) :
    List (Option (Document α)) :=
  match roots[i]?.bind (baseOf roots) with
  | some base => if i ≠ base then absorb slots i base else slots
  | none => slots

theorem slotAfter_self {k : Nat} (inside : k < docs.length) :
    slotAfter docs root k k = some docs[k] := by
  rw [slotAfter, if_pos le_rfl, List.getElem?_eq_getElem inside]

/-- The first of a class stays where it is. -/
theorem slotAfter_lead {k : Nat} (inside : k < docs.length) (leads : Leads root k k) :
    slotAfter docs root (k + 1) k = some docs[k] := by
  have alone : (List.range k).filter (fun i => root k = root i) = [] := by
    rw [List.filter_eq_nil_iff]
    intro i before
    simpa [eq_comm] using leads.first i (List.mem_range.mp before)
  have first (i : Nat) (before : i < k) : ¬root k = root i := (leads.first i before).symm
  rw [slotAfter, if_neg (by omega), if_pos first,
    collapse_class (List.getElem?_eq_getElem inside) rfl, alone]
  rfl

/-- Any other leaves its slot. -/
theorem slotAfter_follower {base k : Nat} (leads : Leads root base k) (before : base < k) :
    slotAfter docs root (k + 1) k = none := by
  rw [slotAfter, if_neg (by omega), if_neg fun apart => apart base before leads.same.symm]

/-- The first of its class takes it over. -/
theorem slotAfter_base {base k : Nat} (inside : k < docs.length) (leads : Leads root base k)
    (before : base < k) :
    ∃ merged, slotAfter docs root k base = some merged ∧
      slotAfter docs root (k + 1) base = some (mergeDocs merged docs[k]) := by
  have first (i : Nat) (earlier : i < base) : ¬root base = root i := fun same =>
    leads.first i earlier (same.symm.trans leads.same)
  have present : docs[base] ∈
      ((List.range k).filter fun i => root base = root i).filterMap (docs[·]?) :=
    List.mem_filterMap.mpr ⟨base, by simp [before], List.getElem?_eq_getElem _⟩
  obtain ⟨merged, collapsed⟩ := Option.ne_none_iff_exists'.mp
    (mt (Gather.collapse_eq_none_iff id mergeDocs _).mp (List.ne_nil_of_mem present))
  refine ⟨merged, ?_, ?_⟩
  · rw [slotAfter, if_neg (by omega), if_pos first, collapsed]
  · rw [slotAfter, if_neg (by omega), if_pos first,
      collapse_class (List.getElem?_eq_getElem inside) leads.same, collapsed]
    rfl

/-- One document more is looked at. -/
theorem mergeStep_slots {k : Nat} (inside : k < docs.length) :
    mergeStep ((List.range docs.length).map root)
        ((List.range docs.length).map (slotAfter docs root k)) k =
      (List.range docs.length).map (slotAfter docs root (k + 1)) := by
  obtain ⟨base, looked, leads⟩ := @exists_leads root _ k inside
  have others {j : Nat} (notK : j ≠ k) (notBase : j ≠ base) :
      slotAfter docs root (k + 1) j = slotAfter docs root k j :=
    slotAfter_succ notK fun same first => notBase (leads.eq_of_first same first)
  rw [mergeStep, looked]
  dsimp only
  by_cases own : k = base
  · subst own
    rw [if_neg (not_not.mpr rfl)]
    apply List.map_congr_left
    intro j _
    by_cases here : j = k
    · rw [here, slotAfter_self inside, slotAfter_lead inside leads]
    · exact (others here here).symm
  · have before : base < k := leads.within.lt_of_ne (Ne.symm own)
    obtain ⟨merged, atBase, thenBase⟩ := slotAfter_base inside leads before
    rw [if_pos own, absorb_map own inside (before.trans inside) (slotAfter_self inside) atBase]
    apply List.map_congr_left
    intro j _
    by_cases isBase : j = base
    · rw [isBase, Function.update_self, thenBase]
    · rw [Function.update_of_ne isBase]
      by_cases here : j = k
      · rw [here, Function.update_self, slotAfter_follower leads before]
      · rw [Function.update_of_ne here, others here isBase]

theorem foldl_mergeStep {k : Nat} (within : k ≤ docs.length) :
    (List.range k).foldl (mergeStep ((List.range docs.length).map root)) (docs.map some) =
      (List.range docs.length).map (slotAfter docs root k) := by
  induction k with
  | zero =>
      apply List.ext_getElem
      · simp
      · intro j _ _
        simp [slotAfter]
  | succ k ih =>
      rw [List.range_succ, List.foldl_append, ih (by omega)]
      exact mergeStep_slots within

/-- Merging by roots puts together the documents of equal roots. -/
theorem mergeClasses_eq :
    mergeClasses docs ((List.range docs.length).map root) =
      mergeRelated (fun i j => root i = root j) docs := by
  change ((List.range docs.length).foldl (mergeStep ((List.range docs.length).map root))
    (docs.map some)).reduceOption = _
  rw [foldl_mergeStep le_rfl, List.reduceOption, List.filterMap_map, mergeRelated]
  apply List.filterMap_congr
  intro i member
  have inside := List.mem_range.mp member
  exact if_neg (by omega)

end Merging

/-! ## Documents that share a bucket -/

theorem mem_bucketPairs_of_ne {idxs : List Nat} {x y : Nat} (distinct : x ≠ y) (memberX : x ∈ idxs)
    (memberY : y ∈ idxs) : (x, y) ∈ bucketPairs idxs ∨ (y, x) ∈ bucketPairs idxs := by
  induction idxs with
  | nil => exact absurd memberX List.not_mem_nil
  | cons first rest ih =>
      rw [bucketPairs, List.mem_append, List.mem_append]
      rcases List.mem_cons.mp memberX with rfl | restX
      · have restY := (List.mem_cons.mp memberY).resolve_left distinct.symm
        exact .inl (.inl (List.mem_map_of_mem restY))
      · rcases List.mem_cons.mp memberY with rfl | restY
        · exact .inr (.inl (List.mem_map_of_mem restX))
        · exact (ih restX restY).imp .inr .inr

/-- What is filed in the buckets: for each document the value of each band. -/
def bandEntries (sigs : List (Fin minhashN → UInt64)) : List ((Nat × UInt64) × Nat) :=
  sigs.zipIdx.flatMap fun filed =>
    (List.range lshBands).map fun b => ((b, fnv1a64 (bandBytes filed.1 b)), filed.2)

theorem buckets_eq (sigs : List (Fin minhashN → UInt64)) :
    buckets sigs = (Gather.gather Prod.fst (fun entry => [entry.2])
      (fun idxs entry => idxs ++ [entry.2]) (bandEntries sigs)).map Prod.snd := rfl

theorem mem_bandEntries {sigs : List (Fin minhashN → UInt64)} {i band : Nat}
    {sig : Fin minhashN → UInt64} (held : sigs[i]? = some sig) (inside : band < lshBands) :
    ((band, fnv1a64 (bandBytes sig band)), i) ∈ bandEntries sigs :=
  List.mem_flatMap.mpr ⟨(sig, i), List.mem_zipIdx_iff_getElem?.mpr held,
    List.mem_map.mpr ⟨band, List.mem_range.mpr inside, rfl⟩⟩

/-- Documents with one value in a band are in one bucket. -/
theorem exists_bucket {sigs : List (Fin minhashN → UInt64)} {x y : Nat}
    {a b : Fin minhashN → UInt64} (atX : sigs[x]? = some a) (atY : sigs[y]? = some b) {band : Nat}
    (inside : band < lshBands) (same : bandBytes a band = bandBytes b band) :
    ∃ idxs ∈ buckets sigs, x ∈ idxs ∧ y ∈ idxs := by
  have underKey {i : Nat}
      (held : ((band, fnv1a64 (bandBytes a band)), i) ∈ bandEntries sigs) :
      ((band, fnv1a64 (bandBytes a band)), i) ∈
        (bandEntries sigs).filter fun entry => entry.1 = (band, fnv1a64 (bandBytes a band)) :=
    List.mem_filter.mpr ⟨held, by simp⟩
  have hereX := underKey (mem_bandEntries atX inside)
  have hereY := underKey (same ▸ mem_bandEntries atY inside)
  obtain ⟨idxs, collapsed⟩ := Option.ne_none_iff_exists'.mp
    (mt (Gather.collapse_eq_none_iff (fun entry : (Nat × UInt64) × Nat => [entry.2])
      (fun idxs entry => idxs ++ [entry.2]) _).mp (List.ne_nil_of_mem hereX))
  rw [buckets_eq]
  refine ⟨idxs, List.mem_map.mpr ⟨(_, idxs), (Gather.mem_gather_iff ..).mpr collapsed, rfl⟩, ?_⟩
  rw [Gather.collapse_snoc_image _ collapsed]
  exact ⟨List.mem_map_of_mem hereX, List.mem_map_of_mem hereY⟩

/-- The slots of a signature as a sequence. -/
def slots (sig : Fin minhashN → UInt64) (slot : Nat) : UInt64 := sig (Fin.ofNat minhashN slot)

theorem bandBytes_of_agreeIn {a b : Fin minhashN → UInt64} {band : Nat}
    (agree : Banding.AgreeIn (minhashN / lshBands) (slots a) (slots b) band) :
    bandBytes a band = bandBytes b band := by
  rw [bandBytes, bandBytes]
  apply List.flatMap_congr
  intro row member
  have same := agree row (List.mem_range.mp member)
  rw [slots, slots] at same
  simp only [same]

/-- The slots in which two signatures differ and those in which they do not are all slots. -/
theorem differences_add (a b : Fin minhashN → UInt64) :
    Banding.differences minhashN (slots a) (slots b) +
      (List.finRange minhashN).countP (fun i => a i == b i) = minhashN := by
  have indexed : List.range minhashN = (List.finRange minhashN).map Fin.val :=
    List.map_coe_finRange_eq_range.symm
  have slotsVal (sig : Fin minhashN → UInt64) (i : Fin minhashN) : slots sig i.val = sig i := by
    rw [slots, Fin.ofNat_val_eq_self]
  have size : (List.finRange minhashN).length = minhashN := List.length_finRange
  rw [Banding.differences, indexed, List.countP_map]
  conv_rhs => rw [← size, List.length_eq_countP_add_countP (fun i => a i == b i), Nat.add_comm]
  congr 1
  apply List.countP_congr
  intro i _
  simp [slotsVal]

/-! ## All pairs -/

section Scalars

variable [Scalar α]

theorem similar_comm (threshold : α) (sigs : List (Fin minhashN → UInt64)) (x y : Nat) :
    similar threshold sigs x y = similar threshold sigs y x := by
  rw [similar, similar]
  cases sigs[x]? with
  | none => cases sigs[y]? <;> rfl
  | some a =>
      cases sigs[y]? with
      | none => rfl
      | some b =>
          have symmetric : (fun i => a i == b i) = fun i => b i == a i := by
            funext i
            exact BEq.comm
          dsimp only
          rw [sigSimilarity, sigSimilarity, symmetric]

/-- Above three quarters, similar signatures agree in more than 48 slots. -/
theorem lt_countP_of_le [LawfulQuotient α] {threshold : α}
    (above : Scalar.lt (Scalar.lit (3 / 4)) threshold = true) {a b : Fin minhashN → UInt64}
    (alike : Scalar.le threshold (sigSimilarity a b) = true) :
    48 < (List.finRange minhashN).countP fun i => a i == b i := by
  by_contra few
  have share : (((List.finRange minhashN).countP fun i => a i == b i : Nat) : ℚ) / minhashN ≤
      3 / 4 := by
    have bound : (((List.finRange minhashN).countP fun i => a i == b i : Nat) : ℚ) ≤ 48 := by
      exact_mod_cast Nat.not_lt.mp few
    have size : ((minhashN : Nat) : ℚ) = 64 := by norm_num [minhashN]
    rw [size, div_le_iff₀ (by norm_num)]
    linarith
  have below : Scalar.le (sigSimilarity a b : α) (Scalar.lit (3 / 4)) = true :=
    LawfulQuotient.div_le_lit ((Nat.not_lt.mp few).trans (by norm_num)) (by decide) (by decide)
      share
  have circle := LawfulCompare.lt_of_lt_of_le
    (LawfulCompare.lt_of_lt_of_le above alike) below
  rw [LawfulCompare.lt_irrefl] at circle
  exact absurd circle (by decide)

/-- Above three quarters every similar pair comes up in a bucket. -/
theorem exists_pair_of_similar [LawfulQuotient α] {threshold : α}
    (above : Scalar.lt (Scalar.lit (3 / 4)) threshold = true)
    {sigs : List (Fin minhashN → UInt64)} {x y : Nat} (distinct : x ≠ y)
    (alike : similar threshold sigs x y = true) :
    ∃ idxs ∈ buckets sigs, (x, y) ∈ bucketPairs idxs ∨ (y, x) ∈ bucketPairs idxs := by
  have unfolded := alike
  rw [similar] at unfolded
  split at unfolded
  next a b atX atY =>
    have many := lt_countP_of_le above unfolded
    have few : Banding.differences (lshBands * (minhashN / lshBands)) (slots a) (slots b) <
        lshBands := by
      have total := differences_add a b
      have whole : lshBands * (minhashN / lshBands) = minhashN := rfl
      have sizes : minhashN = 48 + lshBands := rfl
      rw [whole]
      omega
    obtain ⟨band, inside, agree⟩ := Banding.exists_agreeIn few
    obtain ⟨idxs, bucket, memberX, memberY⟩ :=
      exists_bucket atX atY inside (bandBytes_of_agreeIn agree)
    exact ⟨idxs, bucket, mem_bucketPairs_of_ne distinct memberX memberY⟩
  next => exact absurd unfolded (by decide)

/-- The pairs of the buckets connect what all pairs connect. -/
theorem eqvGen_similarPairs_iff [LawfulQuotient α] {threshold : α}
    (above : Scalar.lt (Scalar.lit (3 / 4)) threshold = true)
    (sigs : List (Fin minhashN → UInt64)) (x y : Nat) :
    Relation.EqvGen (similarPairs threshold sigs) x y ↔ Connected threshold sigs x y := by
  constructor
  · exact fun connected => connected.mono fun _ _ paired => paired.2
  · intro connected
    induction connected with
    | rel x y alike =>
        by_cases same : x = y
        · exact same ▸ .refl x
        · obtain ⟨idxs, bucket, paired | paired⟩ := exists_pair_of_similar above same alike
          · exact .rel x y ⟨⟨idxs, bucket, paired⟩, alike⟩
          · exact .symm y x (.rel y x ⟨⟨idxs, bucket, paired⟩, similar_comm threshold .. ▸ alike⟩)
    | refl x => exact .refl x
    | symm x y _ ih => exact .symm x y ih
    | trans x y z _ _ first second => exact .trans x y z first second

/-- No run panics in the union-find, and its loops end. -/
theorem nearDedupWithin_eq (order : Iteration) (docs : List (Document α)) (threshold : α)
    {turns : Nat} (enough : docs.length < turns) :
    nearDedupWithin tables turns order docs threshold =
      some (nearDedup tables order docs threshold) := by
  have length : (docs.map (minhashSig tables)).length = docs.length := List.length_map ..
  have separated : (UnionFind.separate docs.length).length = docs.length := List.length_range
  have inside := lt_of_mem_pairs order (docs.map (minhashSig tables))
  rw [length] at inside
  obtain ⟨_, moves, _⟩ :=
    UnionFind.moves_joinAll (similar threshold (docs.map (minhashSig tables))) _ inside
  have joined := (UnionFind.forest_separate docs.length).joinAllWithin_eq
    (similar threshold (docs.map (minhashSig tables))) (separated.symm ▸ inside)
    (separated.symm ▸ enough)
  rw [nearDedupWithin, nearDedup]
  split
  next => rfl
  next =>
    dsimp only
    rw [joined, Option.bind_eq_bind, Option.bind_some, moves.forest.findAllWithin_eq,
      uniteSimilar, length]
    · rfl
    · intro x member
      rw [moves.length, separated]
      exact List.mem_range.mp member
    · rwa [moves.length, separated]

/-- Above three quarters the result is that of comparing all pairs. -/
theorem nearDedup_eq_bruteForce [LawfulQuotient α] (order : Iteration)
    (docs : List (Document α)) {threshold : α}
    (above : Scalar.lt (Scalar.lit (3 / 4)) threshold = true) :
    nearDedup tables order docs threshold = bruteForce tables docs threshold := by
  classical
  rw [nearDedup, bruteForce]
  split
  next short => exact (mergeRelated_of_short (fun i => .refl i) short).symm
  next =>
    have length : (docs.map (minhashSig tables)).length = docs.length := List.length_map ..
    have roots := roots_eq order threshold (docs.map (minhashSig tables))
    rw [length] at roots
    dsimp only
    rw [roots, mergeClasses_eq]
    apply mergeRelated_congr
    intro i insideI j insideJ
    rw [← length] at insideI insideJ
    rw [root_uniteSimilar_iff order threshold _ insideI insideJ, eqvGen_similarPairs_iff above]

/-- Merging near duplicates ends, with a result in which the order of the buckets does not show;
above three quarters it is that of comparing all pairs. -/
theorem nearDedup_bruteForce [LawfulQuotient α] (docs : List (Document α)) (threshold : α) :
    ∃ result,
      (∀ order turns, docs.length < turns →
        nearDedupWithin tables turns order docs threshold = some result) ∧
      (Scalar.lt (Scalar.lit (3 / 4)) threshold = true →
        result = bruteForce tables docs threshold) := by
  let asFiled : Iteration := ⟨id, fun _ => .refl _⟩
  refine ⟨nearDedup tables asFiled docs threshold, ?_, nearDedup_eq_bruteForce tables asFiled docs⟩
  intro order turns enough
  rw [nearDedupWithin_eq tables order docs threshold enough, nearDedup_order tables order asFiled]

end Scalars

/-- A preprint and its published version. -/
def twoVersions : List (Document Exact) :=
  [.plain ⟨none, none, none, 1⟩ .arxiv "deep learning".toList,
    .plain ⟨none, none, none, 2⟩ .blog "Deep Learning".toList]

theorem nearDedup_bruteForce_twoVersions :
    nearDedupWithin Unicode.ascii 3 ⟨List.reverse, List.reverse_perm⟩ twoVersions (.fin (4 / 5)) =
      some (bruteForce Unicode.ascii twoVersions (.fin (4 / 5))) := by
  obtain ⟨result, ran, all⟩ := nearDedup_bruteForce Unicode.ascii twoVersions (.fin (4 / 5))
  rw [ran _ 3 (by decide), all (by norm_num)]

end AiCoreStack.Scholar
