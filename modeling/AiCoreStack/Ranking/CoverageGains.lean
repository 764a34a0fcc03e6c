import AiCoreStack.Ranking.Gains

/-!
# Coverage as a set function

The gain of a candidate is the weight of the keys that it adds to those of the selected ones, so
it depends on sets only, shrinks as the selection grows, and adds up to the weight of all keys
that are covered.  Weights may be infinite.
-/

namespace AiCoreStack.Ranking.Coverage

open Foundation

variable {C K : Type} [DecidableEq K]

/-- The gains along an insertion order, after some selected candidates. -/
def gainsAlong {F : Type} [Scalar F] (objective : Coverage F C K) : List C → List C → List F
  | _, [] => []
  | selected, candidate :: rest =>
      objective.marginalGain selected candidate ::
        gainsAlong objective (selected ++ [candidate]) rest

/-! ## Gains as sums over sets -/

/-- Keys have these weights, which are not negative. -/
def Weighs (objective : Coverage Exact C K) (weight : K → WithTop ℚ≥0) : Prop :=
  ∀ key, objective.weightOf key = .ofExtended (weight key)

omit [DecidableEq K] in
theorem exists_weighs {objective : Coverage Exact C K}
    (nonneg : ∀ key, Scalar.le (Scalar.lit 0) (objective.weightOf key) = true) :
    ∃ weight, objective.Weighs weight := by
  choose weight same using fun key => Exact.exists_extended (nonneg key)
  exact ⟨weight, same⟩

variable {objective : Coverage Exact C K} {weight : K → WithTop ℚ≥0}

theorem Weighs.sum_eq (weighs : objective.Weighs weight) {keys : List K} (nodup : keys.Nodup) :
    Scalar.sum (keys.map objective.weightOf) = .ofExtended (∑ k ∈ keys.toFinset, weight k) := by
  have extended : keys.map objective.weightOf = (keys.map weight).map Exact.ofExtended := by
    rw [List.map_map]
    exact List.map_congr_left fun k _ => weighs k
  rw [extended, Exact.sum_ofExtended, List.sum_toFinset _ nodup]

theorem Weighs.marginalGain_eq (weighs : objective.Weighs weight) (selected : List C)
    (candidate : C) :
    objective.marginalGain selected candidate =
      .ofExtended (∑ k ∈ objective.keysOf [candidate] \ objective.keysOf selected, weight k) := by
  have counted := weighs.sum_eq
    (nodup_newKeys (selected.flatMap objective.cover) [] (objective.cover candidate))
  rw [toFinset_newKeys, List.toFinset_nil, Finset.union_empty] at counted
  rw [marginalGain, gainLoop_eq_foldl, keysOf, List.flatMap_singleton, keysOf]
  exact counted

theorem keysOf_append (left right : List C) :
    objective.keysOf (left ++ right) = objective.keysOf left ∪ objective.keysOf right := by
  rw [keysOf, List.flatMap_append, List.toFinset_append]
  rfl

theorem keysOf_mono {left right : List C} (sub : left ⊆ right) :
    objective.keysOf left ⊆ objective.keysOf right := by
  intro k
  simp only [keysOf, List.mem_toFinset, List.mem_flatMap]
  rintro ⟨c, member, covers⟩
  exact ⟨c, sub member, covers⟩

/-- The keys that an order adds are those that its first candidate adds, and those that the others
add to them. -/
theorem sum_keysOf_cons (candidate : C) (rest selected : List C) :
    ∑ k ∈ objective.keysOf (candidate :: rest) \ objective.keysOf selected, weight k =
      ∑ k ∈ objective.keysOf [candidate] \ objective.keysOf selected, weight k +
        ∑ k ∈ objective.keysOf rest \ objective.keysOf (selected ++ [candidate]), weight k := by
  have apart : Disjoint (objective.keysOf [candidate] \ objective.keysOf selected)
      (objective.keysOf rest \ objective.keysOf (selected ++ [candidate])) := by
    rw [keysOf_append]
    exact Finset.disjoint_of_subset_left Finset.sdiff_subset
      (Finset.disjoint_of_subset_left Finset.subset_union_right Finset.disjoint_sdiff)
  rw [← Finset.sum_union apart]
  refine Finset.sum_congr ?_ fun _ _ => rfl
  rw [← List.singleton_append, keysOf_append, keysOf_append]
  ext k
  simp only [Finset.mem_sdiff, Finset.mem_union]
  tauto

theorem Weighs.foldl_gainsAlong (weighs : objective.Weighs weight) (order selected : List C)
    (start : WithTop ℚ≥0) :
    (objective.gainsAlong selected order).foldl Scalar.add (.ofExtended start) =
      .ofExtended (start +
        ∑ k ∈ objective.keysOf order \ objective.keysOf selected, weight k) := by
  induction order generalizing selected start with
  | nil =>
      have none : objective.keysOf [] = ∅ := rfl
      rw [none, Finset.empty_sdiff, Finset.sum_empty, add_zero]
      rfl
  | cons candidate rest ih =>
      rw [gainsAlong, List.foldl_cons, weighs.marginalGain_eq, ← Exact.ofExtended_add, ih,
        sum_keysOf_cons candidate rest, add_assoc]

/-- Gains are not negative and shrink as the selection grows.  They depend on the set of selected
candidates and on the sets of keys only, and along every order they add up to the weight of the
keys that are covered. -/
theorem marginalGain_submodular (objective : Coverage Exact C K)
    (nonneg : ∀ key, Scalar.le (Scalar.lit 0) (objective.weightOf key) = true) :
    (∀ (S T : List C) (c : C), S ⊆ T →
      Scalar.le (objective.marginalGain T c) (objective.marginalGain S c) = true ∧
      Scalar.le (Scalar.lit 0) (objective.marginalGain T c) = true) ∧
    (∀ (S S' : List C) (c : C), S ⊆ S' → S' ⊆ S →
      objective.marginalGain S c = objective.marginalGain S' c) ∧
    (∀ cover : C → List K, (∀ c k, k ∈ cover c ↔ k ∈ objective.cover c) →
      ∀ (S : List C) (c : C), marginalGain { objective with cover := cover } S c =
        objective.marginalGain S c) ∧
    ∀ (order : List C) (keys : List K), keys.Nodup →
      (∀ k, k ∈ keys ↔ ∃ c ∈ order, k ∈ objective.cover c) →
      Scalar.sum (objective.gainsAlong [] order) = Scalar.sum (keys.map objective.weightOf) := by
  obtain ⟨weight, weighs⟩ := exists_weighs nonneg
  refine ⟨fun S T c sub => ⟨?_, ?_⟩, fun S S' c sub sub' => ?_, fun cover same S c => ?_,
    fun order keys nodup covered => ?_⟩
  · rw [weighs.marginalGain_eq, weighs.marginalGain_eq]
    exact Exact.le_ofExtended (Finset.sum_le_sum_of_subset
      (Finset.sdiff_subset_sdiff (Finset.Subset.refl _) (keysOf_mono sub)))
  · rw [weighs.marginalGain_eq]
    exact Exact.le_ofExtended zero_le
  · rw [weighs.marginalGain_eq, weighs.marginalGain_eq,
      (keysOf_mono sub).antisymm (keysOf_mono sub')]
  · have keys (members : List C) :
        keysOf { objective with cover := cover } members = objective.keysOf members := by
      ext k
      simp [keysOf, same]
    have weighs' : Weighs { objective with cover := cover } weight := weighs
    rw [weighs'.marginalGain_eq, weighs.marginalGain_eq, keys, keys]
  · have start := weighs.foldl_gainsAlong order [] 0
    have union : objective.keysOf order \ objective.keysOf [] = keys.toFinset := by
      ext k
      simp [keysOf, covered]
    rw [zero_add, union, ← weighs.sum_eq nodup] at start
    exact start

/-- Two sources with overlapping keys, one of which repeats a key. -/
def overlapping : Coverage Exact Nat Nat :=
  ⟨fun c => [c, c + 1, c], some fun k => if k = 2 then .posInf else .fin k⟩

theorem marginalGain_submodular_overlapping :
    Scalar.le (overlapping.marginalGain [3, 0] 1) (overlapping.marginalGain [3] 1) = true ∧
      overlapping.marginalGain [3, 0, 3] 4 = overlapping.marginalGain [0, 3] 4 ∧
      Scalar.sum (overlapping.gainsAlong [] [3, 4]) =
        Scalar.sum ([4, 3, 5].map overlapping.weightOf) := by
  have nonneg : ∀ key, Scalar.le (Scalar.lit 0) (overlapping.weightOf key) = true := by
    intro key
    simp only [overlapping, weightOf]
    split
    · rfl
    · simp
  obtain ⟨shrinks, set, -, sums⟩ := marginalGain_submodular overlapping nonneg
  refine ⟨(shrinks [3] [3, 0] 1 (by simp)).1, set _ _ 4 (by simp) (by simp),
    sums [3, 4] [4, 3, 5] (by decide) fun k => ?_⟩
  simp [overlapping]
  omega

end AiCoreStack.Ranking.Coverage
