import Mathlib

/-!
# Choosing by weight

A walk along weights subtracts each of them from a threshold until it is used up.  If the threshold
is a uniform draw times the sum of the weights, then an item is chosen with the probability that is
its share of the sum.
-/

namespace AiCoreStack.Foundation

open MeasureTheory

variable {ι : Type}

/-- The item at which the threshold is used up, or the last one. -/
noncomputable def walk (last : ι) : ℝ → List (ι × ℝ) → ι
  | _, [] => last
  | threshold, (item, weight) :: rest =>
      if threshold ≤ weight then item else walk last (threshold - weight) rest

/-- The sum of the weights. -/
def weightSum (items : List (ι × ℝ)) : ℝ := (items.map Prod.snd).sum

@[simp] theorem weightSum_nil : weightSum ([] : List (ι × ℝ)) = 0 := rfl

@[simp] theorem weightSum_cons (item : ι × ℝ) (rest : List (ι × ℝ)) :
    weightSum (item :: rest) = item.2 + weightSum rest := by
  simp [weightSum]

@[simp] theorem weightSum_append (front back : List (ι × ℝ)) :
    weightSum (front ++ back) = weightSum front + weightSum back := by
  simp [weightSum]

theorem weightSum_nonneg {items : List (ι × ℝ)} (weights : ∀ item ∈ items, 0 ≤ item.2) :
    0 ≤ weightSum items := by
  apply List.sum_nonneg
  intro weight member
  obtain ⟨item, inside, rfl⟩ := List.mem_map.mp member
  exact weights item inside

/-- A threshold above the first weights passes them. -/
theorem walk_append_of_lt {last : ι} {front : List (ι × ℝ)}
    (weights : ∀ item ∈ front, 0 ≤ item.2) (back : List (ι × ℝ)) {threshold : ℝ}
    (above : weightSum front < threshold) :
    walk last threshold (front ++ back) = walk last (threshold - weightSum front) back := by
  induction front generalizing threshold with
  | nil => rw [List.nil_append, weightSum_nil, sub_zero]
  | cons item rest ih =>
      obtain ⟨-, later⟩ := List.forall_mem_cons.mp weights
      have positive := weightSum_nonneg later
      rw [weightSum_cons] at above ⊢
      rw [List.cons_append, walk, if_neg (by linarith), ih later (by linarith), sub_sub]

/-- A threshold within the first weights chooses one of their items. -/
theorem walk_append_mem (last : ι) {front : List (ι × ℝ)} (nonempty : front ≠ [])
    (back : List (ι × ℝ)) {threshold : ℝ} (within : threshold ≤ weightSum front) :
    walk last threshold (front ++ back) ∈ front.map Prod.fst := by
  induction front generalizing threshold with
  | nil => exact absurd rfl nonempty
  | cons item rest ih =>
      rw [weightSum_cons] at within
      rw [List.cons_append, walk]
      split_ifs with used
      · exact List.mem_cons_self
      · cases rest with
        | nil =>
            rw [weightSum_nil] at within
            exact absurd (by linarith) used
        | cons next rest =>
            exact List.mem_cons_of_mem _ (ih (List.cons_ne_nil _ _) (by linarith))

theorem walk_mem (last : ι) {items : List (ι × ℝ)} (nonempty : items ≠ []) {threshold : ℝ}
    (within : threshold ≤ weightSum items) : walk last threshold items ∈ items.map Prod.fst := by
  have chosen := walk_append_mem last nonempty [] within
  rwa [List.append_nil] at chosen

section Item

variable {last item : ι} {weight : ℝ} {front back : List (ι × ℝ)}
  (weights : ∀ entry ∈ front ++ (item, weight) :: back, 0 ≤ entry.2)

include weights

theorem weights_front : ∀ entry ∈ front, 0 ≤ entry.2 :=
  fun entry member => weights entry (List.mem_append_left _ member)

/-- A threshold in the part of an item chooses the item. -/
theorem walk_eq {threshold : ℝ} (above : weightSum front < threshold)
    (within : threshold ≤ weightSum front + weight) :
    walk last threshold (front ++ (item, weight) :: back) = item := by
  rw [walk_append_of_lt (weights_front weights) _ above, walk, if_pos (by linarith)]

/-- Only a threshold in the part of an item chooses it, if no other entry is of the item. -/
theorem walk_within (distinct : ((front ++ (item, weight) :: back).map Prod.fst).Nodup)
    {threshold : ℝ} (positive : 0 ≤ threshold)
    (total : threshold ≤ weightSum (front ++ (item, weight) :: back))
    (chosen : walk last threshold (front ++ (item, weight) :: back) = item) :
    weightSum front ≤ threshold ∧ threshold ≤ weightSum front + weight := by
  rw [List.map_append, List.map_cons, List.nodup_append, List.nodup_cons] at distinct
  obtain ⟨-, ⟨fresh, -⟩, apart⟩ := distinct
  constructor
  · by_contra below
    push Not at below
    have nonempty : front ≠ [] := by
      rintro rfl
      rw [weightSum_nil] at below
      linarith
    have member := walk_append_mem last nonempty ((item, weight) :: back) below.le
    rw [chosen] at member
    exact apart item member item List.mem_cons_self rfl
  · by_contra above
    push Not at above
    have sum : weightSum (front ++ [(item, weight)]) = weightSum front + weight := by simp
    have earlier : ∀ entry ∈ front ++ [(item, weight)], 0 ≤ entry.2 := by
      intro entry member
      apply weights
      rw [List.append_cons]
      exact List.mem_append_left _ member
    rw [List.append_cons, walk_append_of_lt earlier back (sum ▸ above), sum] at chosen
    rw [weightSum_append, weightSum_cons] at total
    have nonempty : back ≠ [] := by
      rintro rfl
      rw [weightSum_nil] at total
      linarith
    have rest : threshold - (weightSum front + weight) ≤ weightSum back := by linarith
    have member := walk_mem last nonempty rest
    rw [chosen] at member
    exact fresh member

/-- The draws that choose an item have the measure that is its share. -/
theorem volume_walk (distinct : ((front ++ (item, weight) :: back).map Prod.fst).Nodup)
    (positive : 0 < weightSum (front ++ (item, weight) :: back)) :
    volume {draw : ℝ | draw ∈ Set.Ico 0 1 ∧
        walk last (draw * weightSum (front ++ (item, weight) :: back))
          (front ++ (item, weight) :: back) = item} =
      ENNReal.ofReal (weight / weightSum (front ++ (item, weight) :: back)) := by
  obtain ⟨total, whole⟩ : ∃ total, total = weightSum (front ++ (item, weight) :: back) := ⟨_, rfl⟩
  rw [← whole] at positive ⊢
  have split : total = weightSum front + weight + weightSum back := by
    rw [whole, weightSum_append, weightSum_cons, add_assoc]
  have before := weightSum_nonneg (weights_front weights)
  have after : 0 ≤ weightSum back := weightSum_nonneg fun entry member =>
    weights entry (List.mem_append_right _ (List.mem_cons_of_mem _ member))
  have width : (weightSum front + weight) / total - weightSum front / total = weight / total := by
    rw [← sub_div, add_sub_cancel_left]
  apply le_antisymm
  · rw [← width, ← Real.volume_Icc]
    apply measure_mono
    rintro draw ⟨⟨low, high⟩, chosen⟩
    have scaled := walk_within weights distinct (mul_nonneg low positive.le)
      (by rw [← whole]; nlinarith) chosen
    exact ⟨(div_le_iff₀ positive).mpr scaled.1, (le_div_iff₀ positive).mpr scaled.2⟩
  · rw [← width, ← Real.volume_Ioo]
    apply measure_mono
    rintro draw ⟨low, high⟩
    rw [div_lt_iff₀ positive] at low
    rw [lt_div_iff₀ positive] at high
    refine ⟨⟨?_, ?_⟩, walk_eq weights low high.le⟩
    · nlinarith
    · nlinarith

end Item

end AiCoreStack.Foundation
