import AiCoreStack.Foundation.Greedy

/-!
# Greedy packing by gain per cost

Items are packed under a cost limit, the one with the largest gain per cost among
those that fit first, until the densest item left of a set `O` within the limit
does not fit.  With that one item added, the packing is worth all of `O` for
weights, and a `1 - exp (-1)` share of it for diminishing gains.
-/

namespace AiCoreStack.Foundation.Greedy

variable {ι R : Type*} [Field R] [LinearOrder R]

/-- Gain per cost; a free item has the largest density. -/
def density (gain : R) (cost : ℕ) : WithTop R :=
  if cost = 0 then ⊤ else ((gain / cost : R) : WithTop R)

theorem gain_mul_le [IsStrictOrderedRing R] {g g' : R} {c c' : ℕ} (nonneg : 0 ≤ g')
    (le : density g c ≤ density g' c') : g * c' ≤ g' * c := by
  by_cases free' : c' = 0
  · rw [free', Nat.cast_zero, mul_zero]
    exact mul_nonneg nonneg (Nat.cast_nonneg c)
  · by_cases free : c = 0
    · simp [density, free, free'] at le
    · have quotients : g / c ≤ g' / c' := by
        simpa [density, free, free'] using le
      have positive : (0 : R) < c := by exact_mod_cast Nat.pos_of_ne_zero free
      have positive' : (0 : R) < c' := by exact_mod_cast Nat.pos_of_ne_zero free'
      rwa [div_le_div_iff₀ positive positive'] at quotients

variable [DecidableEq ι]

/-- Total cost of the picks. -/
def spent (cost : ι → ℕ) (picks : List ι) : ℕ := (picks.map cost).sum

omit [DecidableEq ι] in
@[simp] theorem spent_nil (cost : ι → ℕ) : spent cost [] = 0 := rfl

omit [DecidableEq ι] in
@[simp] theorem spent_snoc (cost : ι → ℕ) (before : List ι) (x : ι) :
    spent cost (before ++ [x]) = spent cost before + cost x := by
  simp [spent]

theorem spent_toFinset (cost : ι → ℕ) {picks : List ι} (nodup : picks.Nodup) :
    spent cost picks = ∑ x ∈ picks.toFinset, cost x := by
  rw [spent, List.sum_toFinset cost nodup]

section

variable (u : Utility ι R) (cost : ι → ℕ) (limit : ℕ)

/-- The item is new and fits beside the picks. -/
def Fits (before : List ι) (x : ι) : Prop := x ∉ before ∧ spent cost before + cost x ≤ limit

/-- The item fits, and no item that fits is denser. -/
def Densest (before : List ι) (x : ι) : Prop :=
  Fits cost limit before x ∧ ∀ y, Fits cost limit before y →
    density (u.gain before.toFinset y) (cost y) ≤ density (u.gain before.toFinset x) (cost x)

/-- No item left of `O` is denser. -/
def Leads (O : Finset ι) (before : List ι) (x : ι) : Prop :=
  ∀ o ∈ O, o ∉ before →
    density (u.gain before.toFinset o) (cost o) ≤ density (u.gain before.toFinset x) (cost x)

/-- The picks led `O` up to here, and its densest item does not fit any more. -/
def BreaksAt (O : Finset ι) (before : List ι) (r : ι) : Prop :=
  (r ∈ O ∧ r ∉ before ∧ limit < spent cost before + cost r) ∧ Leads u cost O before r

/-- Some item left of a set leads it. -/
theorem exists_leads {O : Finset ι} {before : List ι} (left : ∃ o ∈ O, o ∉ before) :
    ∃ r ∈ O, r ∉ before ∧ Leads u cost O before r := by
  obtain ⟨o, inO, out⟩ := left
  have nonempty : (O \ before.toFinset).Nonempty := ⟨o, by simp [inO, out]⟩
  obtain ⟨r, inside, most⟩ := Finset.exists_max_image (O \ before.toFinset)
    (fun x => density (u.gain before.toFinset x) (cost x)) nonempty
  rw [Finset.mem_sdiff, List.mem_toFinset] at inside
  refine ⟨r, inside.1, inside.2, ?_⟩
  intro y inO' out'
  exact most y (by simp [inO', out'])

variable {u cost limit}

theorem spent_le_of_run {picks : List ι} (run : Run (Densest u cost limit) picks) :
    spent cost picks ≤ limit := by
  cases run with
  | nil => exact Nat.zero_le limit
  | snoc _ step =>
      rw [spent_snoc]
      exact step.1.2

/-- Either every pick led `O`, or the run passed a breaking point. -/
theorem leads_or_breaks (O : Finset ι) {picks : List ι} (run : Run (Densest u cost limit) picks) :
    Run (fun before x => Densest u cost limit before x ∧ Leads u cost O before x) picks ∨
      ∃ before r, before <+: picks ∧
        Run (fun before x => Densest u cost limit before x ∧ Leads u cost O before x) before ∧
        BreaksAt u cost limit O before r := by
  induction run with
  | nil => exact .inl .nil
  | @snoc before x _ step ih =>
      rcases ih with led | ⟨earlier, r, shorter, led, breaks⟩
      · by_cases left : ∃ o ∈ O, o ∉ before
        · obtain ⟨r, inO, out, leads⟩ := exists_leads u cost left
          by_cases fits : spent cost before + cost r ≤ limit
          · have denser := step.2 r ⟨out, fits⟩
            exact .inl (led.snoc ⟨step, fun o oIn oOut => (leads o oIn oOut).trans denser⟩)
          · exact .inr ⟨before, r, List.prefix_append _ _, led,
              ⟨inO, out, Nat.lt_of_not_le fits⟩, leads⟩
        · refine .inl (led.snoc ⟨step, fun o inO out => ?_⟩)
          exact absurd ⟨o, inO, out⟩ left
      · exact .inr ⟨earlier, r, shorter.trans (List.prefix_append _ _), led, breaks⟩

/-- A run that ended because nothing fits contains `O` or passed a breaking
point. -/
theorem covers_or_breaks (O : Finset ι) {picks : List ι}
    (run : Run (Densest u cost limit) picks) (full : ∀ x, ¬ Fits cost limit picks x) :
    O ⊆ picks.toFinset ∨ ∃ before r, before <+: picks ∧
      Run (fun before x => Densest u cost limit before x ∧ Leads u cost O before x) before ∧
      BreaksAt u cost limit O before r := by
  rcases leads_or_breaks O run with led | breaks
  · by_cases left : ∃ o ∈ O, o ∉ picks
    · obtain ⟨r, inO, out, leads⟩ := exists_leads u cost left
      have exceeds : limit < spent cost picks + cost r :=
        Nat.lt_of_not_le fun fits => full r ⟨out, fits⟩
      exact .inr ⟨picks, r, List.prefix_rfl, led, ⟨inO, out, exceeds⟩, leads⟩
    · refine .inl fun o inO => ?_
      by_contra out
      exact left ⟨o, inO, by simpa using out⟩
  · exact .inr breaks

end

/-! ## Weights -/

section Weights

variable [IsStrictOrderedRing R] {weight : ι → R} {nonneg : ∀ x, 0 ≤ weight x} {cost : ι → ℕ}
  {limit : ℕ}

/-- Every pick that led `O` is denser than an item of `O` that is still left. -/
theorem weight_mul_le {O : Finset ι} {picks : List ι} {r : ι}
    (run : Run (fun before x => Densest (.modular weight nonneg) cost limit before x ∧
      Leads (.modular weight nonneg) cost O before x) picks)
    (inO : r ∈ O) (out : r ∉ picks) : ∀ x ∈ picks, weight r * cost x ≤ weight x * cost r := by
  induction run with
  | nil => simp
  | @snoc before x _ step ih =>
      rw [List.mem_append, not_or, List.mem_singleton] at out
      intro y member
      rcases List.mem_append.mp member with earlier | last
      · exact ih out.1 y earlier
      · rw [List.mem_singleton] at last
        have denser := step.2 r inO out.1
        rw [Utility.modular_gain nonneg (by simpa using out.1),
          Utility.modular_gain nonneg (by simpa using step.1.1.1)] at denser
        rw [last]
        exact gain_mul_le (nonneg x) denser

/-- At a breaking point the packing and the item that did not fit weigh as much
as `O`. -/
theorem weight_le_of_breaks {O : Finset ι} {before : List ι} {r : ι}
    (within : ∑ o ∈ O, cost o ≤ limit)
    (run : Run (fun before x => Densest (.modular weight nonneg) cost limit before x ∧
      Leads (.modular weight nonneg) cost O before x) before)
    (breaks : BreaksAt (.modular weight nonneg) cost limit O before r) :
    ∑ o ∈ O, weight o ≤ ∑ x ∈ before.toFinset, weight x + weight r := by
  obtain ⟨⟨inO, out, exceeds⟩, leads⟩ := breaks
  have nodup : before.Nodup := run.nodup fun _ _ step => step.1.1.1
  have atMost : spent cost before ≤ limit := spent_le_of_run (run.mono fun _ _ step => step.1)
  have positive : (0 : R) < cost r := by
    exact_mod_cast (by omega : 0 < cost r)
  rw [spent_toFinset cost nodup] at exceeds
  -- what is left of `O` costs less than what was packed beside it and `r` together
  have costs : ((∑ o ∈ O \ before.toFinset, cost o : ℕ) : R) ≤
      (∑ x ∈ before.toFinset \ O, cost x : ℕ) + cost r := by
    have ofO := Finset.sum_inter_add_sum_sdiff O before.toFinset cost
    have ofBefore := Finset.sum_inter_add_sum_sdiff before.toFinset O cost
    rw [Finset.inter_comm] at ofBefore
    exact_mod_cast (by omega)
  have left : (∑ o ∈ O \ before.toFinset, weight o) * cost r ≤
      weight r * (∑ o ∈ O \ before.toFinset, cost o : ℕ) := by
    rw [Finset.sum_mul, Nat.cast_sum, Finset.mul_sum]
    apply Finset.sum_le_sum
    intro o member
    rw [Finset.mem_sdiff] at member
    have denser := leads o member.1 (by simpa using member.2)
    rw [Utility.modular_gain nonneg member.2, Utility.modular_gain nonneg (by simpa using out)]
      at denser
    exact gain_mul_le (nonneg r) denser
  have packed : weight r * (∑ x ∈ before.toFinset \ O, cost x : ℕ) ≤
      (∑ x ∈ before.toFinset \ O, weight x) * cost r := by
    rw [Finset.sum_mul, Nat.cast_sum, Finset.mul_sum]
    apply Finset.sum_le_sum
    intro x member
    rw [Finset.mem_sdiff, List.mem_toFinset] at member
    exact weight_mul_le run inO out x member.1
  have scaled : (∑ o ∈ O \ before.toFinset, weight o) * cost r ≤
      (∑ x ∈ before.toFinset \ O, weight x + weight r) * cost r := by
    have := mul_le_mul_of_nonneg_left costs (nonneg r)
    rw [mul_add] at this
    rw [add_mul]
    linarith
  have beyond := le_of_mul_le_mul_right scaled positive
  have ofO := Finset.sum_inter_add_sum_sdiff O before.toFinset weight
  have ofBefore := Finset.sum_inter_add_sum_sdiff before.toFinset O weight
  rw [Finset.inter_comm] at ofBefore
  linarith

/-- A full packing and one item that fits alone weigh as much as every set within
the limit. -/
theorem weight_le_of_full {O : Finset ι} {picks : List ι} {best : R}
    (within : ∑ o ∈ O, cost o ≤ limit)
    (run : Run (Densest (.modular weight nonneg) cost limit) picks)
    (full : ∀ x, ¬ Fits cost limit picks x)
    (single : ∀ x, cost x ≤ limit → weight x ≤ best) (bestNonneg : 0 ≤ best) :
    ∑ o ∈ O, weight o ≤ ∑ x ∈ picks.toFinset, weight x + best := by
  rcases covers_or_breaks O run full with inside | ⟨before, r, shorter, led, breaks⟩
  · have := Finset.sum_le_sum_of_subset_of_nonneg inside fun x _ _ => nonneg x
    linarith
  · have alone : cost r ≤ limit :=
      (Finset.single_le_sum (fun x _ => Nat.zero_le (cost x)) breaks.1.1).trans within
    have prefixed : ∑ x ∈ before.toFinset, weight x ≤ ∑ x ∈ picks.toFinset, weight x := by
      apply Finset.sum_le_sum_of_subset_of_nonneg _ fun x _ _ => nonneg x
      intro x
      simpa using fun member => shorter.subset member
    have := weight_le_of_breaks within led breaks
    have := single r alone
    linarith

end Weights

/-! ## Diminishing gains -/

section Diminishing

variable {u : Utility ι ℝ} {cost : ι → ℕ} {limit : ℕ}

/-- A pick that leads `O` closes a share of the gap to it, in proportion to its
cost. -/
theorem gap_mul_cost_le {O : Finset ι} {before : List ι} {x : ι}
    (within : ∑ o ∈ O, cost o ≤ limit) (leads : Leads u cost O before x) :
    (u.value O - u.total before) * cost x ≤ u.gain before.toFinset x * limit := by
  have each : ∀ o ∈ O, u.gain before.toFinset o * cost x ≤
      u.gain before.toFinset x * cost o := by
    intro o inO
    by_cases picked : o ∈ before
    · rw [u.gain_eq_zero (by simpa using picked), zero_mul]
      exact mul_nonneg (u.gain_nonneg _ x) (Nat.cast_nonneg _)
    · exact gain_mul_le (u.gain_nonneg _ x) (leads o inO picked)
  have reach : u.value O - u.total before ≤ ∑ o ∈ O, u.gain before.toFinset o := by
    have := u.value_le before.toFinset O
    change u.value O ≤ u.total before + _ at this
    linarith
  calc (u.value O - u.total before) * cost x
      ≤ (∑ o ∈ O, u.gain before.toFinset o) * cost x :=
        mul_le_mul_of_nonneg_right reach (Nat.cast_nonneg _)
    _ ≤ ∑ o ∈ O, u.gain before.toFinset x * cost o := by
        rw [Finset.sum_mul]
        exact Finset.sum_le_sum each
    _ = u.gain before.toFinset x * (∑ o ∈ O, cost o : ℕ) := by
        rw [Nat.cast_sum, Finset.mul_sum]
    _ ≤ u.gain before.toFinset x * limit := by
        apply mul_le_mul_of_nonneg_left _ (u.gain_nonneg _ x)
        exact_mod_cast within

/-- One led pick shrinks the gap exponentially in its cost. -/
theorem gap_snoc_le_exp {O : Finset ι} {before : List ι} {x : ι} {bound : ℝ}
    (within : ∑ o ∈ O, cost o ≤ limit) (leads : Leads u cost O before x)
    (alone : cost x ≤ limit) (nonneg : 0 ≤ bound) (gap : u.value O - u.total before ≤ bound) :
    u.value O - u.total (before ++ [x]) ≤ Real.exp (-(cost x / limit)) * bound := by
  rw [u.total_snoc]
  by_cases free : cost x = 0
  · have := u.gain_nonneg before.toFinset x
    simp only [free, Nat.cast_zero, zero_div, neg_zero, Real.exp_zero, one_mul]
    linarith
  · have positive : (0 : ℝ) < limit := by
      exact_mod_cast (Nat.pos_of_ne_zero free).trans_le alone
    have share : (u.value O - u.total before) * (cost x / limit) ≤ u.gain before.toFinset x := by
      rw [← mul_div_assoc, div_le_iff₀ positive]
      exact gap_mul_cost_le within leads
    have factor : 0 ≤ 1 - (cost x : ℝ) / limit := by
      rw [sub_nonneg, div_le_one positive]
      exact_mod_cast alone
    have shrink : 1 - (cost x : ℝ) / limit ≤ Real.exp (-(cost x / limit)) := by
      have := Real.add_one_le_exp (-((cost x : ℝ) / limit))
      linarith
    calc u.value O - (u.total before + u.gain before.toFinset x)
        ≤ (1 - (cost x : ℝ) / limit) * (u.value O - u.total before) := by linarith
      _ ≤ (1 - (cost x : ℝ) / limit) * bound := mul_le_mul_of_nonneg_left gap factor
      _ ≤ Real.exp (-(cost x / limit)) * bound := mul_le_mul_of_nonneg_right shrink nonneg

theorem gap_le_exp {O : Finset ι} {picks : List ι} (within : ∑ o ∈ O, cost o ≤ limit)
    (run : Run (fun before x => Densest u cost limit before x ∧ Leads u cost O before x) picks) :
    u.value O - u.total picks ≤ Real.exp (-(spent cost picks / limit)) * u.value O := by
  induction run with
  | nil => simp
  | @snoc before x _ step ih =>
      have alone : cost x ≤ limit := (Nat.le_add_left _ _).trans step.1.1.2
      have nonneg : 0 ≤ Real.exp (-(spent cost before / limit)) * u.value O :=
        mul_nonneg (Real.exp_nonneg _) (u.value_nonneg O)
      calc u.value O - u.total (before ++ [x])
          ≤ Real.exp (-(cost x / limit)) *
              (Real.exp (-(spent cost before / limit)) * u.value O) :=
            gap_snoc_le_exp within step.2 alone nonneg ih
        _ = Real.exp (-(spent cost (before ++ [x]) / limit)) * u.value O := by
            rw [← mul_assoc, ← Real.exp_add, spent_snoc, Nat.cast_add]
            ring_nf

/-- A rational utility with real values. -/
def Utility.toReal (u : Utility ι ℚ) : Utility ι ℝ where
  value S := (u.value S : ℝ)
  value_empty := by rw [u.value_empty, Rat.cast_zero]
  monotone S T sub := Rat.cast_le.mpr (u.monotone sub)
  diminishing {S T} x sub := by exact_mod_cast u.diminishing x sub

theorem Utility.toReal_gain (u : Utility ι ℚ) (S : Finset ι) (x : ι) :
    u.toReal.gain S x = (u.gain S x : ℝ) := by
  rw [Utility.gain, Utility.gain, Rat.cast_sub]
  rfl

omit [DecidableEq ι] in
theorem density_cast_le {g g' : ℚ} {c c' : ℕ} (le : density g c ≤ density g' c') :
    density (g : ℝ) c ≤ density (g' : ℝ) c' := by
  by_cases free' : c' = 0
  · simp [density, free']
  · by_cases free : c = 0
    · simp [density, free, free'] at le
    · have quotients : g / c ≤ g' / c' := by
        simpa [density, free, free'] using le
      simp only [density, free, free', if_false, WithTop.coe_le_coe]
      exact_mod_cast quotients

theorem Densest.toReal {u : Utility ι ℚ} {before : List ι} {x : ι}
    (densest : Densest u cost limit before x) : Densest u.toReal cost limit before x := by
  refine ⟨densest.1, fun y fits => ?_⟩
  rw [u.toReal_gain, u.toReal_gain]
  exact density_cast_le (densest.2 y fits)

/-- A full packing and one item that fits alone are worth a `1 - exp (-1)` share of
every set within the limit. -/
theorem value_le_of_full {O : Finset ι} {picks : List ι} {best : ℝ}
    (within : ∑ o ∈ O, cost o ≤ limit) (run : Run (Densest u cost limit) picks)
    (full : ∀ x, ¬ Fits cost limit picks x)
    (single : ∀ x, cost x ≤ limit → u.value {x} ≤ best) (bestNonneg : 0 ≤ best) :
    (1 - Real.exp (-1)) * u.value O ≤ u.total picks + best := by
  have share : (1 - Real.exp (-1)) * u.value O ≤ u.value O := by
    have := mul_nonneg (Real.exp_nonneg (-1)) (u.value_nonneg O)
    linarith
  rcases covers_or_breaks O run full with inside | ⟨before, r, shorter, led, breaks⟩
  · have : u.value O ≤ u.total picks := u.monotone inside
    linarith
  · obtain ⟨⟨inO, out, exceeds⟩, leads⟩ := breaks
    have alone : cost r ≤ limit :=
      (Finset.single_le_sum (fun x _ => Nat.zero_le (cost x)) inO).trans within
    have nonneg : 0 ≤ Real.exp (-(spent cost before / limit)) * u.value O :=
      mul_nonneg (Real.exp_nonneg _) (u.value_nonneg O)
    have gap := gap_snoc_le_exp within leads alone nonneg (gap_le_exp within led)
    have positive : (0 : ℝ) < limit := by
      have atMost : spent cost before ≤ limit :=
        spent_le_of_run (led.mono fun _ _ step => step.1)
      exact_mod_cast (by omega : 0 < limit)
    have beyond : Real.exp (-(cost r / limit)) * Real.exp (-(spent cost before / limit)) ≤
        Real.exp (-1) := by
      rw [← Real.exp_add, Real.exp_le_exp, ← neg_add, neg_le_neg_iff, ← add_div,
        one_le_div positive]
      exact_mod_cast (by omega)
    have closed : u.value O - u.total (before ++ [r]) ≤ Real.exp (-1) * u.value O := by
      refine gap.trans ?_
      rw [← mul_assoc]
      exact mul_le_mul_of_nonneg_right beyond (u.value_nonneg O)
    have added : u.gain before.toFinset r ≤ u.value {r} := by
      have := u.gain_antitone r (Finset.empty_subset before.toFinset)
      rwa [Utility.gain, Utility.gain, u.value_empty, sub_zero, insert_empty_eq] at this
    have prefixed : u.total before ≤ u.total picks := by
      apply u.monotone
      intro x
      simpa using fun member => shorter.subset member
    have := single r alone
    rw [u.total_snoc] at closed
    linarith

end Diminishing

end AiCoreStack.Foundation.Greedy
