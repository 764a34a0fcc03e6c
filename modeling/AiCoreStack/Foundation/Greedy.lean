import Mathlib

/-!
# Greedy maximisation of set functions

The run of a greedy procedure is a list of picks, each of which was best among
the items that were open when it was made.  The bounds here compare its value with
that of an arbitrary set of items: a charging argument for independence
constraints, and a contraction of the gap for cardinality bounds.
-/

namespace AiCoreStack.Foundation.Greedy

variable {ι R : Type*} [DecidableEq ι]

/-- A list of picks, each related by `Step` to the picks before it. -/
inductive Run (Step : List ι → ι → Prop) : List ι → Prop
  | nil : Run Step []
  | snoc {before : List ι} {x : ι} : Run Step before → Step before x → Run Step (before ++ [x])

omit [DecidableEq ι] in
theorem Run.mono {Step Step' : List ι → ι → Prop}
    (weaker : ∀ before x, Step before x → Step' before x) {picks : List ι}
    (run : Run Step picks) : Run Step' picks := by
  induction run with
  | nil => exact .nil
  | snoc _ step ih => exact ih.snoc (weaker _ _ step)

omit [DecidableEq ι] in
/-- Picks that were not picked before are all different. -/
theorem Run.nodup {Step : List ι → ι → Prop} (fresh : ∀ before x, Step before x → x ∉ before)
    {picks : List ι} (run : Run Step picks) : picks.Nodup := by
  induction run with
  | nil => exact List.nodup_nil
  | snoc _ step ih => exact List.Nodup.concat (fresh _ _ step) ih |> (by simpa using ·)

omit [DecidableEq ι] in
/-- The picks before a pick are fewer than all of them. -/
theorem Run.bounded {Step : List ι → ι → Prop} {picks : List ι} (run : Run Step picks) {m : Nat}
    (size : picks.length ≤ m) : Run (fun before x => before.length < m ∧ Step before x) picks := by
  induction run with
  | nil => exact .nil
  | @snoc before x _ step ih =>
      rw [List.length_append, List.length_singleton] at size
      exact (ih (Nat.le_of_succ_le size)).snoc ⟨size, step⟩

/-- A monotone set function with diminishing gains. -/
structure Utility (ι R : Type*) [DecidableEq ι] [AddCommGroup R] [PartialOrder R] where
  value : Finset ι → R
  value_empty : value ∅ = 0
  monotone : Monotone value
  diminishing {S T : Finset ι} (x : ι) : S ⊆ T →
    value (insert x T) - value T ≤ value (insert x S) - value S

variable [Field R] [LinearOrder R]

namespace Utility

variable (u : Utility ι R)

/-- What an item adds to a set. -/
def gain (S : Finset ι) (x : ι) : R := u.value (insert x S) - u.value S

theorem value_insert (S : Finset ι) (x : ι) : u.value (insert x S) = u.value S + u.gain S x := by
  simp [gain]

theorem gain_eq_zero {S : Finset ι} {x : ι} (inside : x ∈ S) : u.gain S x = 0 := by
  rw [gain, Finset.insert_eq_of_mem inside, sub_self]

theorem gain_antitone {S T : Finset ι} (x : ι) (sub : S ⊆ T) : u.gain T x ≤ u.gain S x :=
  u.diminishing x sub

theorem value_nonneg (S : Finset ι) : 0 ≤ u.value S := by
  rw [← u.value_empty]
  exact u.monotone (Finset.empty_subset S)

/-- The value of the items picked so far. -/
def total (picks : List ι) : R := u.value picks.toFinset

@[simp] theorem total_nil : u.total [] = 0 := u.value_empty

theorem total_snoc (before : List ι) (x : ι) :
    u.total (before ++ [x]) = u.total before + u.gain before.toFinset x := by
  have same : (before ++ [x]).toFinset = insert x before.toFinset := by
    ext y
    simp
  rw [total, same, u.value_insert, total]

variable [IsStrictOrderedRing R]

theorem gain_nonneg (S : Finset ι) (x : ι) : 0 ≤ u.gain S x :=
  sub_nonneg.mpr (u.monotone (Finset.subset_insert x S))

/-- The gains of single items bound what a set adds. -/
theorem value_union_le (S O : Finset ι) :
    u.value (S ∪ O) ≤ u.value S + ∑ o ∈ O, u.gain S o := by
  induction O using Finset.induction_on with
  | empty => simp
  | insert o O fresh ih =>
      have added : u.value (S ∪ insert o O) = u.value (S ∪ O) + u.gain (S ∪ O) o := by
        rw [Finset.union_insert, u.value_insert]
      have smaller : u.gain (S ∪ O) o ≤ u.gain S o :=
        u.gain_antitone o Finset.subset_union_left
      rw [added, Finset.sum_insert fresh]
      linarith

theorem value_le (S O : Finset ι) : u.value O ≤ u.value S + ∑ o ∈ O, u.gain S o :=
  (u.monotone Finset.subset_union_right).trans (u.value_union_le S O)

/-- The value that sums the weights of the items. -/
def modular (weight : ι → R) (nonneg : ∀ x, 0 ≤ weight x) : Utility ι R where
  value S := ∑ x ∈ S, weight x
  value_empty := Finset.sum_empty
  monotone S T sub := Finset.sum_le_sum_of_subset_of_nonneg sub fun x _ _ => nonneg x
  diminishing {S T} x sub := by
    by_cases inT : x ∈ T
    · rw [Finset.insert_eq_of_mem inT, sub_self, sub_nonneg]
      exact Finset.sum_le_sum_of_subset_of_nonneg (Finset.subset_insert x S)
        fun y _ _ => nonneg y
    · have outS : x ∉ S := fun inS => inT (sub inS)
      rw [Finset.sum_insert inT, Finset.sum_insert outS]
      simp

theorem modular_gain {weight : ι → R} (nonneg : ∀ x, 0 ≤ weight x) {S : Finset ι} {x : ι}
    (fresh : x ∉ S) : (modular weight nonneg).gain S x = weight x := by
  change ∑ y ∈ insert x S, weight y - ∑ y ∈ S, weight y = weight x
  rw [Finset.sum_insert fresh]
  simp

/-- The sum of two utilities. -/
def add (u v : Utility ι R) : Utility ι R where
  value S := u.value S + v.value S
  value_empty := by rw [u.value_empty, v.value_empty, add_zero]
  monotone S T sub := add_le_add (u.monotone sub) (v.monotone sub)
  diminishing {S T} x sub := by
    have left := u.diminishing x sub
    have right := v.diminishing x sub
    linarith

theorem add_gain (u v : Utility ι R) (S : Finset ι) (x : ι) :
    (u.add v).gain S x = u.gain S x + v.gain S x := by
  change u.value (insert x S) + v.value (insert x S) - (u.value S + v.value S) = _
  rw [gain, gain]
  ring

section Coverage

variable {K : Type*} [DecidableEq K] (cover : ι → Finset K) (weight : K → R)

omit [LinearOrder R] [IsStrictOrderedRing R] in
theorem sum_biUnion_insert (S : Finset ι) (x : ι) :
    ∑ k ∈ (insert x S).biUnion cover, weight k - ∑ k ∈ S.biUnion cover, weight k =
      ∑ k ∈ cover x \ S.biUnion cover, weight k := by
  rw [Finset.biUnion_insert, ← Finset.sdiff_union_self_eq_union,
    Finset.sum_union Finset.sdiff_disjoint, add_sub_cancel_right]

/-- The weight of the keys that a set covers. -/
def coverage (nonneg : ∀ k, 0 ≤ weight k) : Utility ι R where
  value S := ∑ k ∈ S.biUnion cover, weight k
  value_empty := by simp
  monotone S T sub :=
    Finset.sum_le_sum_of_subset_of_nonneg (Finset.biUnion_subset_biUnion_of_subset_left cover sub)
      fun k _ _ => nonneg k
  diminishing {S T} x sub := by
    rw [sum_biUnion_insert, sum_biUnion_insert]
    apply Finset.sum_le_sum_of_subset_of_nonneg _ fun k _ _ => nonneg k
    exact Finset.sdiff_subset_sdiff subset_rfl
      (Finset.biUnion_subset_biUnion_of_subset_left cover sub)

theorem coverage_gain (nonneg : ∀ k, 0 ≤ weight k) (S : Finset ι) (x : ι) :
    (coverage cover weight nonneg).gain S x = ∑ k ∈ cover x \ S.biUnion cover, weight k :=
  sum_biUnion_insert cover weight S x

end Coverage

end Utility

/-! ## Charging picks -/

section Charging

variable [IsStrictOrderedRing R] (u : Utility ι R) (Open : List ι → ι → Prop)

/-- The pick is open, and no open item gains more. -/
def Best (before : List ι) (x : ι) : Prop :=
  Open before x ∧ ∀ y, Open before y → u.gain before.toFinset y ≤ u.gain before.toFinset x

open Classical in
/-- The items of `O` that can no longer be picked. -/
noncomputable def closed (O : Finset ι) (before : List ι) : Finset ι :=
  O.filter fun o => ¬ Open before o

variable {u Open}

omit [DecidableEq ι] in
theorem mem_closed {O : Finset ι} {before : List ι} {o : ι} :
    o ∈ closed Open O before ↔ o ∈ O ∧ ¬ Open before o := by
  simp [closed]

omit [DecidableEq ι] in
theorem closed_subset (O : Finset ι) (before : List ι) : closed Open O before ⊆ O :=
  fun _ member => (mem_closed.mp member).1

omit [DecidableEq ι] in
theorem closed_subset_snoc (O : Finset ι) {before : List ι} {x : ι}
    (shrinks : ∀ y, Open (before ++ [x]) y → Open before y) :
    closed Open O before ⊆ closed Open O (before ++ [x]) := by
  intro o
  simp only [mem_closed]
  exact fun ⟨inO, shut⟩ => ⟨inO, fun still => shut (shrinks o still)⟩

/-- One more pick closes at most as much worth as it gains, for every item it
closes. -/
theorem closed_snoc_le {O : Finset ι} {worth : ι → R} {before : List ι} {x : ι}
    (step : Best u Open before x)
    (shrinks : ∀ y, Open (before ++ [x]) y → Open before y)
    (below : ∀ o ∈ O, Open before o → worth o ≤ u.gain before.toFinset o) :
    ∑ o ∈ closed Open O (before ++ [x]), worth o ≤
      ∑ o ∈ closed Open O before, worth o +
        ((closed Open O (before ++ [x])).card - (closed Open O before).card : R) *
          u.gain before.toFinset x := by
  classical
  have sub := closed_subset_snoc O shrinks
  have newly : ∀ o ∈ closed Open O (before ++ [x]) \ closed Open O before,
      worth o ≤ u.gain before.toFinset x := by
    intro o member
    simp only [Finset.mem_sdiff, mem_closed, not_and, not_not] at member
    have wasOpen : Open before o := member.2 member.1.1
    exact (below o member.1.1 wasOpen).trans (step.2 o wasOpen)
  have bound := Finset.sum_le_card_nsmul _ _ _ newly
  rw [Finset.card_sdiff_of_subset sub, nsmul_eq_mul,
    Nat.cast_sub (Finset.card_le_card sub)] at bound
  rw [← Finset.sum_sdiff sub]
  linarith

/-- When `n` picks close at most `p * n` items, the run is worth a `p`-th of what
it closed.  The first part is the invariant: places not used yet may be charged
at the gain of any item that is still open. -/
theorem charge {p : Nat} {O : Finset ι} {worth : ι → R} {picks : List ι}
    (run : Run (Best u Open) picks)
    (shrinks : ∀ before x y, Open (before ++ [x]) y → Open before y)
    (few : ∀ before, before <+: picks → (closed Open O before).card ≤ p * before.length)
    (below : ∀ before, before <+: picks → ∀ o ∈ O, Open before o →
      worth o ≤ u.gain before.toFinset o) :
    (∀ x, Open picks x →
      ∑ o ∈ closed Open O picks, worth o +
        (p * picks.length - (closed Open O picks).card : R) * u.gain picks.toFinset x ≤
          p * u.total picks) ∧
      ∑ o ∈ closed Open O picks, worth o ≤ p * u.total picks := by
  induction run with
  | nil =>
      have none : closed Open O [] = ∅ := by
        have := few [] List.prefix_rfl
        simpa using this
      simp [none]
  | @snoc before x run step ih =>
      have shorter : before <+: before ++ [x] := List.prefix_append _ _
      have previous := (ih (fun b is => few b (is.trans shorter))
        (fun b is => below b (is.trans shorter))).1 x step.1
      have grown := closed_snoc_le step (shrinks before x) (below before shorter)
      have room : ((closed Open O (before ++ [x])).card : R) ≤ p * (before.length + 1) := by
        have := few (before ++ [x]) List.prefix_rfl
        rw [List.length_append, List.length_singleton] at this
        exact_mod_cast this
      -- free places may be charged at any rate up to the gain of this pick
      have charged : ∀ rate, 0 ≤ rate → rate ≤ u.gain before.toFinset x →
          ∑ o ∈ closed Open O (before ++ [x]), worth o +
            (p * (before.length + 1) - (closed Open O (before ++ [x])).card : R) * rate ≤
              p * u.total (before ++ [x]) := by
        intro rate _ atMost
        have free : (p * (before.length + 1) - (closed Open O (before ++ [x])).card : R) * rate ≤
            (p * (before.length + 1) - (closed Open O (before ++ [x])).card : R) *
              u.gain before.toFinset x :=
          mul_le_mul_of_nonneg_left atMost (by linarith)
        rw [u.total_snoc]
        linarith
      constructor
      · intro y stillOpen
        have wasOpen := shrinks before x y stillOpen
        have less : u.gain (before ++ [x]).toFinset y ≤ u.gain before.toFinset y := by
          apply u.gain_antitone
          simp
        have := charged _ (u.gain_nonneg _ y) (less.trans (step.2 y wasOpen))
        simpa using this
      · have := charged 0 le_rfl (u.gain_nonneg _ x)
        simpa using this

/-- A run that closed every item of `O` is worth a `(p + 1)`-th of `O`. -/
theorem value_le_of_closed {p : Nat} {O : Finset ι} {picks : List ι}
    (run : Run (Best u Open) picks)
    (shrinks : ∀ before x y, Open (before ++ [x]) y → Open before y)
    (few : ∀ before, before <+: picks → (closed Open O before).card ≤ p * before.length)
    (shut : ∀ o ∈ O, ¬ Open picks o) : u.value O ≤ (p + 1) * u.total picks := by
  have everything : closed Open O picks = O := by
    simpa [closed, Finset.filter_eq_self] using shut
  have below : ∀ before, before <+: picks → ∀ o ∈ O, Open before o →
      u.gain picks.toFinset o ≤ u.gain before.toFinset o := by
    intro before is o _ _
    apply u.gain_antitone
    intro y
    simpa using fun member => is.subset member
  have charged := (charge run shrinks few below).2
  rw [everything] at charged
  have reach := u.value_le picks.toFinset O
  change u.value O ≤ u.total picks + _ at reach
  linarith

/-- With weights, such a run is worth a `p`-th of `O`. -/
theorem weight_le_of_closed {weight : ι → R} (nonneg : ∀ x, 0 ≤ weight x) {p : Nat}
    {O : Finset ι} {picks : List ι} (run : Run (Best (Utility.modular weight nonneg) Open) picks)
    (fresh : ∀ before x, Open before x → x ∉ before)
    (shrinks : ∀ before x y, Open (before ++ [x]) y → Open before y)
    (few : ∀ before, before <+: picks → (closed Open O before).card ≤ p * before.length)
    (shut : ∀ o ∈ O, ¬ Open picks o) :
    ∑ o ∈ O, weight o ≤ p * (Utility.modular weight nonneg).total picks := by
  have everything : closed Open O picks = O := by
    simpa [closed, Finset.filter_eq_self] using shut
  have below : ∀ before, before <+: picks → ∀ o ∈ O, Open before o →
      weight o ≤ (Utility.modular weight nonneg).gain before.toFinset o := by
    intro before _ o _ isOpen
    have unpicked : o ∉ before.toFinset := by simpa using fresh before o isOpen
    rw [Utility.modular_gain nonneg unpicked]
  have charged := (charge run shrinks few below).2
  rwa [everything] at charged

end Charging

/-! ## Caps

A cap bounds the size of every group of items, and the number of all items.
-/

section Caps

variable {K : Type*} [DecidableEq K]

/-- Groups of one set that are no larger than those of another. -/
theorem card_le_of_groups (key : ι → K) {A B : Finset ι}
    (groups : ∀ g, (A.filter (key · = g)).card ≤ (B.filter (key · = g)).card) :
    A.card ≤ B.card := by
  have keysOf : ∀ S ⊆ A ∪ B, ∀ x ∈ S, key x ∈ (A ∪ B).image key :=
    fun S sub x member => Finset.mem_image_of_mem key (sub member)
  rw [Finset.card_eq_sum_card_fiberwise (keysOf A Finset.subset_union_left),
    Finset.card_eq_sum_card_fiberwise (keysOf B Finset.subset_union_right)]
  exact Finset.sum_le_sum fun g _ => groups g

/-- The item is new, and neither its group nor the whole is full. -/
def Capped (key : ι → K) (max k : Nat) (before : List ι) (x : ι) : Prop :=
  before.length < k ∧ x ∉ before ∧ before.countP (key · = key x) < max

theorem countP_eq_card (key : ι → K) {picks : List ι} (nodup : picks.Nodup) (g : K) :
    picks.countP (key · = g) = (picks.toFinset.filter (key · = g)).card := by
  rw [List.countP_eq_length_filter, ← List.toFinset_card_of_nodup (nodup.filter _),
    List.toFinset_filter]
  simp

/-- Picks close no more items of a set within the cap than there are picks. -/
theorem card_closed_capped_le (key : ι → K) {max k : Nat} {O : Finset ι} {before : List ι}
    (nodup : before.Nodup) (size : O.card ≤ k)
    (groups : ∀ g, (O.filter (key · = g)).card ≤ max) :
    (closed (Capped key max k) O before).card ≤ before.length := by
  by_cases room : before.length < k
  · rw [← List.toFinset_card_of_nodup nodup]
    apply card_le_of_groups key
    intro g
    by_cases full : max ≤ before.countP (key · = g)
    · -- the group is full, so it is as large as the group of any set within the cap
      rw [countP_eq_card key nodup] at full
      refine (Finset.card_le_card ?_).trans ((groups g).trans full)
      exact Finset.filter_subset_filter _ (closed_subset O before)
    · apply Finset.card_le_card
      intro o
      simp only [mem_closed, Finset.mem_filter, List.mem_toFinset]
      rintro ⟨⟨_, shut⟩, rfl⟩
      refine ⟨?_, rfl⟩
      by_contra out
      exact shut ⟨room, out, Nat.lt_of_not_le full⟩
  · exact (Finset.card_le_card (closed_subset O before)).trans
      (size.trans (Nat.le_of_not_lt room))

end Caps

/-- What is open under each of `p` conditions is closed at most `p` times. -/
theorem card_closed_le_mul {Open : List ι → ι → Prop} {p n : Nat}
    (Part : Fin p → List ι → ι → Prop) {O : Finset ι} {before : List ι}
    (all : ∀ o, (∀ j, Part j before o) → Open before o)
    (each : ∀ j, (closed (Part j) O before).card ≤ n) :
    (closed Open O before).card ≤ p * n := by
  have split : closed Open O before ⊆
      Finset.univ.biUnion fun j => closed (Part j) O before := by
    intro o
    simp only [mem_closed, Finset.mem_biUnion, Finset.mem_univ, true_and]
    rintro ⟨inO, shut⟩
    by_contra none
    push Not at none
    exact shut (all o fun j => none j inO)
  refine (Finset.card_le_card split).trans ?_
  simpa using Finset.card_biUnion_le_card_mul Finset.univ _ n fun j _ => each j

/-! ## Cardinality bounds -/

variable [IsStrictOrderedRing R]

/-- A pick that gains at least as much as every item of `O` closes a `k`-th of the
gap to `O`. -/
theorem gap_snoc {u : Utility ι R} {k : Nat} {O : Finset ι} {before : List ι} {x : ι}
    (positive : 0 < k) (size : O.card ≤ k)
    (best : ∀ o ∈ O, u.gain before.toFinset o ≤ u.gain before.toFinset x) :
    u.value O - u.total (before ++ [x]) ≤ (1 - 1 / (k : R)) * (u.value O - u.total before) := by
  have gains : ∑ o ∈ O, u.gain before.toFinset o ≤ k * u.gain before.toFinset x := by
    calc ∑ o ∈ O, u.gain before.toFinset o
        ≤ O.card • u.gain before.toFinset x := Finset.sum_le_card_nsmul _ _ _ best
      _ = O.card * u.gain before.toFinset x := nsmul_eq_mul _ _
      _ ≤ k * u.gain before.toFinset x := by
          apply mul_le_mul_of_nonneg_right _ (u.gain_nonneg _ _)
          exact_mod_cast size
  have reach := u.value_le before.toFinset O
  change u.value O ≤ u.total before + _ at reach
  have positiveR : (0 : R) < k := by exact_mod_cast positive
  have share : (u.value O - u.total before) / k ≤ u.gain before.toFinset x := by
    rw [div_le_iff₀ positiveR]
    linarith
  rw [u.total_snoc]
  have split : (1 - 1 / (k : R)) * (u.value O - u.total before) =
      u.value O - u.total before - (u.value O - u.total before) / k := by ring
  linarith

/-- After `n` picks the gap has shrunk by the `n`-th power of `1 - 1 / k`. -/
theorem gap_le {u : Utility ι R} {k : Nat} {O : Finset ι} {picks : List ι}
    (positive : 0 < k) (size : O.card ≤ k)
    (run : Run (fun before x => ∀ o ∈ O, u.gain before.toFinset o ≤ u.gain before.toFinset x)
      picks) :
    u.value O - u.total picks ≤ (1 - 1 / (k : R)) ^ picks.length * u.value O := by
  have positiveR : (1 : R) ≤ k := by exact_mod_cast positive
  have factor : 0 ≤ 1 - 1 / (k : R) := by
    rw [sub_nonneg, div_le_one (by linarith)]
    exact positiveR
  induction run with
  | nil => simp
  | @snoc before x _ step ih =>
      calc u.value O - u.total (before ++ [x])
          ≤ (1 - 1 / (k : R)) * (u.value O - u.total before) := gap_snoc positive size step
        _ ≤ (1 - 1 / (k : R)) * ((1 - 1 / (k : R)) ^ before.length * u.value O) :=
            mul_le_mul_of_nonneg_left ih factor
        _ = (1 - 1 / (k : R)) ^ (before ++ [x]).length * u.value O := by
            rw [List.length_append, List.length_singleton, pow_succ]
            ring

end AiCoreStack.Foundation.Greedy
