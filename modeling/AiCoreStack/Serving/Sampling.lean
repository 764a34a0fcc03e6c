import AiCoreStack.Foundation.InverseCdf
import AiCoreStack.Foundation.Runs
import AiCoreStack.Serving.Generation

/-!
# What the sampler draws

The sampler in exact arithmetic, for a uniform draw.  A token of the largest logits is drawn with
its softmax weight among them.  With one candidate the sampler takes the first of the largest
logits, where the greedy choice takes the last of them.
-/

namespace AiCoreStack.Serving

open Foundation MeasureTheory

/-- Exact arithmetic.  The sampler takes no value that is not a number: those are zero here. -/
noncomputable instance : Scalar ℝ where
  lit value := value
  ofNat value := value
  nan := 0
  infinity := 0
  negInfinity := 0
  add := (· + ·)
  sub := (· - ·)
  mul := (· * ·)
  div := (· / ·)
  lt left right := decide (left < right)
  le left right := decide (left ≤ right)
  max := max
  min := min
  totalCmp left right := if left < right then .lt else if right < left then .gt else .eq
  isNan _ := false
  isFinite _ := true

/-- The generator of one draw. -/
noncomputable def drawing (draw : ℝ) : Entropy ℝ Unit := ⟨fun _ => (), fun _ => (draw, ()), Real.exp⟩

theorem byLogit_iff (left right : ℝ × Nat) : byLogit left right ↔ right.1 ≤ left.1 := by
  change (if right.1 < left.1 then Ordering.lt else if left.1 < right.1 then .gt else .eq) ≠ .gt ↔ _
  split_ifs with below above
  · exact iff_of_true (by decide) below.le
  · exact iff_of_false (by decide) (not_le.mpr above)
  · exact iff_of_true (by decide) (not_lt.mp above)

theorem sum_eq_sum (values : List ℝ) : Scalar.sum values = values.sum := by
  have sums (values : List ℝ) (start : ℝ) :
      values.foldl Scalar.add start = start + values.sum := by
    induction values generalizing start with
    | nil => simp
    | cons value rest ih =>
        rw [List.foldl_cons, ih, List.sum_cons, ← add_assoc]
        rfl
  have zero : (Scalar.lit 0 : ℝ) = 0 := Rat.cast_zero
  rw [Scalar.sum, sums, zero, zero_add]

/-! ## First and last of the largest -/

/-- The first of the largest entries. -/
def Earliest (entries : List (ℝ × Nat)) (first : ℝ × Nat) : Prop :=
  first ∈ entries ∧ ∀ other ∈ entries, other.1 < first.1 ∨ (other.1 = first.1 ∧ first.2 ≤ other.2)

/-- The last of the largest entries. -/
def Latest (entries : List (ℝ × Nat)) (last : ℝ × Nat) : Prop :=
  last ∈ entries ∧ ∀ other ∈ entries, other.1 < last.1 ∨ (other.1 = last.1 ∧ other.2 ≤ last.2)

/-- A stable sort puts the first of the largest entries in front. -/
theorem head_insertionSort {entries : List (ℝ × Nat)}
    (order : entries.Pairwise fun left right => left.2 < right.2) {first : ℝ × Nat}
    (front : (entries.insertionSort byLogit).head? = some first) : Earliest entries first := by
  induction entries generalizing first with
  | nil => contradiction
  | cons entry rest ih =>
      rw [List.pairwise_cons] at order
      obtain ⟨before, order⟩ := order
      rw [List.insertionSort_cons] at front
      cases sorted : rest.insertionSort byLogit with
      | nil =>
          have none_ : rest = [] := by
            rw [← List.length_eq_zero_iff, ← List.length_insertionSort byLogit, sorted,
              List.length_nil]
          rw [sorted] at front
          cases front
          rw [none_]
          constructor
          · exact List.mem_singleton_self _
          · intro other member
            rw [List.mem_singleton.mp member]
            exact .inr ⟨rfl, le_refl _⟩
      | cons best others =>
          obtain ⟨member, largest⟩ : Earliest rest best := ih order (by rw [sorted]; rfl)
          rw [sorted, List.orderedInsert] at front
          split_ifs at front with wins <;> cases front <;> rw [byLogit_iff] at wins
          · constructor
            · exact List.mem_cons_self
            · intro other inside
              rcases List.mem_cons.mp inside with rfl | inside
              · exact .inr ⟨rfl, le_refl _⟩
              · have later := before other inside
                rcases largest other inside with less | ⟨same, -⟩
                · exact .inl (less.trans_le wins)
                · rcases wins.lt_or_eq with less | equal
                  · exact .inl (same ▸ less)
                  · exact .inr ⟨same.trans equal, later.le⟩
          · constructor
            · exact List.mem_cons_of_mem _ member
            · intro other inside
              rcases List.mem_cons.mp inside with rfl | inside
              · exact .inl (not_le.mp wins)
              · exact largest other inside

theorem Earliest.le {entries : List (ℝ × Nat)} {first : ℝ × Nat} (earliest : Earliest entries first)
    {other : ℝ × Nat} (member : other ∈ entries) : other.1 ≤ first.1 := by
  rcases earliest.2 other member with less | ⟨same, -⟩
  · exact less.le
  · exact same.le

/-- The scan of `argmax` ends at the last of the largest entries. -/
theorem foldl_latest {entries : List (ℝ × Nat)}
    (order : entries.Pairwise fun left right => left.2 < right.2) (best : Nat × ℝ)
    (before : ∀ entry ∈ entries, best.1 ≤ entry.2) :
    let found := entries.foldl (fun best entry =>
      if Scalar.totalCmp entry.1 best.2 = .lt then best else (entry.2 + 1, entry.1)) best
    Latest ((best.2, best.1) :: entries.map fun entry => (entry.1, entry.2 + 1))
      (found.2, found.1) := by
  induction entries generalizing best with
  | nil =>
      constructor
      · exact List.mem_cons_self
      · intro other member
        rw [List.mem_singleton.mp member]
        exact .inr ⟨rfl, le_refl _⟩
  | cons entry rest ih =>
      rw [List.pairwise_cons] at order
      obtain ⟨first, order⟩ := order
      obtain ⟨here, later⟩ := List.forall_mem_cons.mp before
      have less : Scalar.totalCmp entry.1 best.2 = .lt ↔ entry.1 < best.2 := by
        change (if entry.1 < best.2 then Ordering.lt else if best.2 < entry.1 then .gt else .eq) =
          .lt ↔ _
        split_ifs with below above
        · exact iff_of_true rfl below
        · exact iff_of_false (by decide) below
        · exact iff_of_false (by decide) below
      dsimp only [List.foldl_cons]
      by_cases below : entry.1 < best.2
      · rw [if_pos (less.mpr below)]
        obtain ⟨member, largest⟩ := ih order best later
        constructor
        · rcases List.mem_cons.mp member with same | inside
          · rw [same]
            exact List.mem_cons_self
          · exact List.mem_cons_of_mem _ (List.mem_cons_of_mem _ inside)
        · intro other inside
          rcases List.mem_cons.mp inside with rfl | inside
          · exact largest _ List.mem_cons_self
          rcases List.mem_cons.mp inside with rfl | inside
          · rcases largest _ List.mem_cons_self with more | ⟨same, -⟩
            · exact .inl (below.trans more)
            · exact .inl (below.trans_eq same)
          · exact largest _ (List.mem_cons_of_mem _ inside)
      · rw [if_neg (fun cmp => below (less.mp cmp))]
        obtain ⟨member, largest⟩ := ih order (entry.2 + 1, entry.1)
          fun other inside => first other inside
        constructor
        · exact List.mem_cons_of_mem _ member
        · intro other inside
          rcases List.mem_cons.mp inside with rfl | inside
          · dsimp only at largest ⊢
            rcases largest _ List.mem_cons_self with more | ⟨same, after⟩
            · exact .inl ((not_lt.mp below).trans_lt more)
            · rcases (not_lt.mp below).lt_or_eq with more | equal
              · exact .inl (more.trans_eq same)
              · exact .inr ⟨equal.trans same, (here.trans (Nat.le_succ _)).trans after⟩
          · exact largest _ inside

theorem argmax_latest {logits : List ℝ} {i : Nat} (found : argmax logits = some i) :
    ∃ logit, Latest logits.zipIdx (logit, i) := by
  cases logits with
  | nil => contradiction
  | cons logit rest =>
      have latest := foldl_latest (pairwise_zipIdx rest) (0, logit) fun _ _ => Nat.zero_le _
      have shifted : (logit :: rest).zipIdx =
          (logit, 0) :: rest.zipIdx.map fun entry => (entry.1, entry.2 + 1) := by
        rw [List.zipIdx_cons, List.zipIdx_succ]
      rw [argmax] at found
      cases found
      rw [shifted]
      exact ⟨_, latest⟩

/-! ## The candidates -/

section Candidates

variable {logits : List ℝ} {config : GenerationConfig ℝ}

/-- How many of the logits take part in the draw. -/
def drawnCount (config : GenerationConfig ℝ) (logits : List ℝ) : Nat :=
  match config.topK with
  | some topK => min topK logits.length
  | none => logits.length

theorem drawn_eq_take (logits : List ℝ) (config : GenerationConfig ℝ) :
    drawn logits config =
      (logits.zipIdx.insertionSort byLogit).take (drawnCount config logits) := by
  have length : (logits.zipIdx.insertionSort byLogit).length = logits.length := by
    rw [List.length_insertionSort, List.length_zipIdx]
  rw [drawn, drawnCount]
  cases config.topK with
  | none => exact (List.take_of_length_le length.le).symm
  | some topK =>
      dsimp only
      rw [length]

theorem length_drawn (logits : List ℝ) (config : GenerationConfig ℝ) :
    (drawn logits config).length = drawnCount config logits := by
  rw [drawn_eq_take, List.length_take, List.length_insertionSort, List.length_zipIdx,
    Nat.min_eq_left]
  rw [drawnCount]
  split
  · exact Nat.min_le_right _ _
  · exact le_refl _

theorem getElem?_of_mem_drawn {entry : ℝ × Nat} (member : entry ∈ drawn logits config) :
    logits[entry.2]? = some entry.1 := by
  rw [drawn_eq_take] at member
  exact List.mem_zipIdx_iff_getElem?.mp
    ((List.perm_insertionSort _ _).mem_iff.mp (List.mem_of_mem_take member))

theorem nodup_drawn (logits : List ℝ) (config : GenerationConfig ℝ) :
    ((drawn logits config).map Prod.snd).Nodup := by
  rw [drawn_eq_take]
  have all : ((logits.zipIdx.insertionSort byLogit).map Prod.snd).Nodup := by
    rw [((List.perm_insertionSort byLogit logits.zipIdx).map Prod.snd).nodup_iff,
      List.zipIdx_map_snd]
    exact List.nodup_range'
  exact ((List.take_sublist _ _).map Prod.snd).nodup all

/-- A logit that takes no part is not larger than one that does. -/
theorem le_of_drawn {entry : ℝ × Nat} (member : entry ∈ drawn logits config) {i : Nat} {logit : ℝ}
    (found : logits[i]? = some logit) (outside : i ∉ (drawn logits config).map Prod.snd) :
    logit ≤ entry.1 := by
  have sorted : (logits.zipIdx.insertionSort byLogit).Pairwise byLogit := by
    have total : Std.Total (byLogit : ℝ × Nat → ℝ × Nat → Prop) :=
      ⟨fun left right => by rw [byLogit_iff, byLogit_iff]; exact le_total _ _⟩
    have trans : IsTrans (ℝ × Nat) byLogit :=
      ⟨fun a b c first second => by rw [byLogit_iff] at *; exact second.trans first⟩
    exact List.pairwise_insertionSort _ _
  have inside : (logit, i) ∈ logits.zipIdx.insertionSort byLogit :=
    (List.perm_insertionSort _ _).mem_iff.mpr (List.mem_zipIdx_iff_getElem?.mpr found)
  rw [← List.take_append_drop (drawnCount config logits) (logits.zipIdx.insertionSort byLogit),
    ← drawn_eq_take] at sorted inside
  rcases List.mem_append.mp inside with front | back
  · exact absurd (List.mem_map_of_mem (f := Prod.snd) front) outside
  · exact (byLogit_iff _ _).mp ((List.pairwise_append.mp sorted).2.2 entry member _ back)

/-! ## The draw -/

/-- The tokens of the candidates and their weights. -/
noncomputable def weighted (logits : List ℝ) (config : GenerationConfig ℝ) (peak : ℝ) :
    List (Nat × ℝ) :=
  (drawn logits config).map fun entry => (entry.2, Real.exp (entry.1 / config.temperature - peak))

theorem pick_eq_walk (last : Nat) (threshold : ℝ) (entries : List (ℝ × Nat)) (weight : ℝ × Nat → ℝ) :
    pick last threshold (entries.zip (entries.map weight)) =
      walk last threshold (entries.map fun entry => (entry.2, weight entry)) := by
  induction entries generalizing threshold with
  | nil => rfl
  | cons entry rest ih =>
      have le : Scalar.le threshold (weight entry) = true ↔ threshold ≤ weight entry :=
        decide_eq_true_iff
      rw [List.map_cons, List.zip_cons_cons, List.map_cons, pick, walk, ih]
      by_cases within : threshold ≤ weight entry
      · rw [if_pos (le.mpr within), if_pos within]
      · rw [if_neg (fun used => within (le.mp used)), if_neg within]
        rfl

theorem weights_pos {peak : ℝ} : ∀ entry ∈ weighted logits config peak, 0 ≤ entry.2 := by
  intro entry member
  obtain ⟨candidate, -, rfl⟩ := List.mem_map.mp member
  exact (Real.exp_pos _).le

theorem weighted_fst (peak : ℝ) :
    (weighted logits config peak).map Prod.fst = (drawn logits config).map Prod.snd := by
  rw [weighted, List.map_map]
  rfl

theorem weightSum_pos (nonempty : drawn logits config ≠ []) (peak : ℝ) :
    0 < weightSum (weighted logits config peak) := by
  rw [weighted]
  cases shape : drawn logits config with
  | nil => exact absurd shape nonempty
  | cons first rest =>
      rw [List.map_cons, weightSum_cons]
      refine add_pos_of_pos_of_nonneg (Real.exp_pos _) (weightSum_nonneg fun entry member => ?_)
      obtain ⟨candidate, -, rfl⟩ := List.mem_map.mp member
      exact (Real.exp_pos _).le

theorem usable_of_ne_nil (nonempty : logits ≠ []) :
    (logits.isEmpty || logits.any fun logit => !Scalar.isFinite logit) = false := by
  have finite : (logits.any fun logit => !Scalar.isFinite logit) = false :=
    List.any_eq_false.mpr fun logit _ => by
      change ¬ (!true) = true
      decide
  rw [finite, List.isEmpty_eq_false_iff.mpr nonempty]
  rfl

/-- With a positive temperature the sampler walks along the weights. -/
theorem sample_eq_walk (nonempty : logits ≠ []) (warm : 0 < config.temperature)
    (valid : config.topK ≠ some 0) : ∃ peak last, ∀ draw : ℝ,
      sample (drawing draw) () logits config =
        .ok (UInt32.ofNat (walk last (draw * weightSum (weighted logits config peak))
          (weighted logits config peak)), ()) := by
  have drawing_ := drawn_ne_nil nonempty valid
  have zero : (Scalar.lit 0 : ℝ) = 0 := Rat.cast_zero
  have hot : (Scalar.le config.temperature (Scalar.lit 0) &&
      Scalar.le (Scalar.lit 0) config.temperature) = false := by
    rw [zero, Bool.and_eq_false_iff]
    exact .inl (decide_eq_false (not_le.mpr warm))
  refine ⟨((drawn logits config).head drawing_).1 / config.temperature,
    ((drawn logits config).getLast drawing_).2, fun draw => ?_⟩
  have total : Scalar.sum ((drawn logits config).map fun entry =>
      (drawing draw).exp (Scalar.sub (Scalar.div entry.1 config.temperature)
        (Scalar.div ((drawn logits config).head drawing_).1 config.temperature))) =
      weightSum (weighted logits config
        (((drawn logits config).head drawing_).1 / config.temperature)) := by
    rw [sum_eq_sum, weightSum, weighted, List.map_map]
    rfl
  have positive := weightSum_pos drawing_
    (((drawn logits config).head drawing_).1 / config.temperature)
  rw [sample, usable_of_ne_nil nonempty, hot]
  dsimp only
  rw [List.head?_eq_some_head drawing_, List.getLast?_eq_some_getLast drawing_]
  simp only [Bool.false_eq_true, if_false, expect, Except.bind, Except.map]
  rw [total, if_neg ?_, pick_eq_walk]
  · rfl
  · rw [zero, Bool.or_eq_true_iff, not_or]
    constructor
    · change ¬ (!true) = true
      decide
    · intro small
      exact absurd (of_decide_eq_true small) (not_le.mpr positive)

/-- A draw returns the token of a logit. -/
def Returns (logits : List ℝ) (config : GenerationConfig ℝ) (draw : ℝ) (i : Nat) : Prop :=
  ∃ token, sample (drawing draw) () logits config = .ok (token, ()) ∧ token.toNat = i

/-- The draws are from some of the largest logits, with the softmax weights among them. -/
structure DrawsSoftmax (logits : List ℝ) (config : GenerationConfig ℝ) (top : Finset Nat) :
    Prop where
  inside : ∀ i ∈ top, i < logits.length
  size : top.card = drawnCount config logits
  largest : ∀ i ∈ top, ∀ j < logits.length, j ∉ top → logits.getD j 0 ≤ logits.getD i 0
  returned : ∀ draw ∈ Set.Ico (0 : ℝ) 1, ∃ i ∈ top, Returns logits config draw i
  share : ∀ i ∈ top, volume {draw : ℝ | draw ∈ Set.Ico 0 1 ∧ Returns logits config draw i} =
    ENNReal.ofReal (Real.exp (logits.getD i 0 / config.temperature) /
      ∑ j ∈ top, Real.exp (logits.getD j 0 / config.temperature))

theorem getD_of_mem_drawn {entry : ℝ × Nat} (member : entry ∈ drawn logits config) :
    logits.getD entry.2 0 = entry.1 := by
  rw [List.getD_eq_getElem?_getD, getElem?_of_mem_drawn member]
  rfl

theorem lt_of_mem_drawn {entry : ℝ × Nat} (member : entry ∈ drawn logits config) :
    entry.2 < logits.length :=
  (List.getElem?_eq_some_iff.mp (getElem?_of_mem_drawn member)).1

/-- The share of a candidate does not depend on the peak that is taken off. -/
theorem share_eq (peak : ℝ) {entry : ℝ × Nat} (member : entry ∈ drawn logits config) :
    Real.exp (entry.1 / config.temperature - peak) / weightSum (weighted logits config peak) =
      Real.exp (logits.getD entry.2 0 / config.temperature) /
        ∑ j ∈ ((drawn logits config).map Prod.snd).toFinset,
          Real.exp (logits.getD j 0 / config.temperature) := by
  have sum : weightSum (weighted logits config peak) =
      (∑ j ∈ ((drawn logits config).map Prod.snd).toFinset,
        Real.exp (logits.getD j 0 / config.temperature)) * (Real.exp peak)⁻¹ := by
    rw [List.sum_toFinset _ (nodup_drawn logits config), ← List.sum_map_mul_right, weightSum,
      weighted, List.map_map, List.map_map]
    refine congrArg List.sum (List.map_congr_left fun other inside => ?_)
    simp only [Function.comp_apply]
    rw [Real.exp_sub, getD_of_mem_drawn inside, div_eq_mul_inv]
  rw [sum, getD_of_mem_drawn member, Real.exp_sub, div_eq_mul_inv _ (Real.exp peak),
    mul_div_mul_right _ _ (inv_ne_zero (Real.exp_pos peak).ne')]

/-- As long as every index is a token, the draws are those of the softmax. -/
theorem drawsSoftmax_top (nonempty : logits ≠ []) (warm : 0 < config.temperature)
    (valid : config.topK ≠ some 0) (tokens : logits.length ≤ 2 ^ 32) :
    DrawsSoftmax logits config ((drawn logits config).map Prod.snd).toFinset := by
  obtain ⟨peak, last, ran⟩ := sample_eq_walk nonempty warm valid
  have drawing_ := drawn_ne_nil nonempty valid
  have positive := weightSum_pos drawing_ peak
  have someWeight : weighted logits config peak ≠ [] := by
    rw [weighted, Ne, List.map_eq_nil_iff]
    exact drawing_
  have chosen {draw : ℝ} (range : draw ∈ Set.Ico (0 : ℝ) 1) :
      walk last (draw * weightSum (weighted logits config peak)) (weighted logits config peak) ∈
        (drawn logits config).map Prod.snd := by
    rw [← weighted_fst peak]
    exact walk_mem last someWeight (by nlinarith [range.2])
  have token {i : Nat} (member : i ∈ (drawn logits config).map Prod.snd) :
      (UInt32.ofNat i).toNat = i := by
    obtain ⟨entry, inside, rfl⟩ := List.mem_map.mp member
    exact UInt32.toNat_ofNat_of_lt' ((lt_of_mem_drawn inside).trans_le tokens)
  have returns {draw : ℝ} (range : draw ∈ Set.Ico (0 : ℝ) 1) (i : Nat) :
      Returns logits config draw i ↔ walk last
        (draw * weightSum (weighted logits config peak)) (weighted logits config peak) = i := by
    constructor
    · rintro ⟨found, sampled, rfl⟩
      rw [ran] at sampled
      cases sampled
      exact (token (chosen range)).symm
    · intro same
      exact ⟨_, ran draw, (token (chosen range)).trans same⟩
  constructor
  · intro i member
    obtain ⟨entry, inside, rfl⟩ := List.mem_map.mp (List.mem_toFinset.mp member)
    exact lt_of_mem_drawn inside
  · rw [List.toFinset_card_of_nodup (nodup_drawn logits config), List.length_map, length_drawn]
  · intro i member j below outside
    obtain ⟨entry, inside, rfl⟩ := List.mem_map.mp (List.mem_toFinset.mp member)
    rw [getD_of_mem_drawn inside, List.getD_eq_getElem?_getD, List.getElem?_eq_getElem below]
    exact le_of_drawn inside (List.getElem?_eq_getElem below)
      fun taken => outside (List.mem_toFinset.mpr taken)
  · intro draw range
    exact ⟨_, List.mem_toFinset.mpr (chosen range), (returns range _).mpr rfl⟩
  · intro i member
    obtain ⟨entry, inside, rfl⟩ := List.mem_map.mp (List.mem_toFinset.mp member)
    have weight : (entry.2, Real.exp (entry.1 / config.temperature - peak)) ∈
        weighted logits config peak := List.mem_map_of_mem inside
    obtain ⟨front, back, shape⟩ := List.mem_iff_append.mp weight
    have distinct : ((weighted logits config peak).map Prod.fst).Nodup := by
      rw [weighted_fst]
      exact nodup_drawn logits config
    have same : {draw : ℝ | draw ∈ Set.Ico 0 1 ∧ Returns logits config draw entry.2} =
        {draw : ℝ | draw ∈ Set.Ico 0 1 ∧ walk last
          (draw * weightSum (weighted logits config peak)) (weighted logits config peak) =
            entry.2} :=
      Set.ext fun draw => and_congr_right fun range => returns range entry.2
    have weights : ∀ entry ∈ weighted logits config peak, 0 ≤ entry.2 := weights_pos
    rw [same, ← share_eq peak inside]
    rw [shape] at distinct positive weights ⊢
    exact volume_walk weights distinct positive

/-! ## One candidate -/

/-- The largest logit occurs once. -/
def MaximumOnce (logits : List ℝ) : Prop :=
  ∃ i < logits.length, ∀ j < logits.length, j ≠ i → logits.getD j 0 < logits.getD i 0

/-- The first and the last of the largest logits are the same exactly if there is only one. -/
theorem first_eq_last {first last : ℝ × Nat} (earliest : Earliest logits.zipIdx first)
    (latest : Latest logits.zipIdx last) : first.2 = last.2 ↔ MaximumOnce logits := by
  have entry {i : Nat} (below : i < logits.length) : (logits.getD i 0, i) ∈ logits.zipIdx := by
    rw [List.mem_zipIdx_iff_getElem?, List.getD_eq_getElem?_getD, List.getElem?_eq_getElem below]
    rfl
  have at_ {found : ℝ × Nat} (member : found ∈ logits.zipIdx) :
      found.2 < logits.length ∧ logits.getD found.2 0 = found.1 := by
    have found_ := List.mem_zipIdx_iff_getElem?.mp member
    rw [List.getD_eq_getElem?_getD, found_]
    exact ⟨(List.getElem?_eq_some_iff.mp found_).1, rfl⟩
  obtain ⟨firstBelow, firstValue⟩ := at_ earliest.1
  obtain ⟨lastBelow, lastValue⟩ := at_ latest.1
  constructor
  · intro same
    refine ⟨first.2, firstBelow, fun j below other => ?_⟩
    rw [firstValue]
    rcases earliest.2 _ (entry below) with less | ⟨equal, after⟩
    · exact less
    rcases latest.2 _ (entry below) with less | ⟨-, before⟩
    · rwa [← lastValue, ← same, firstValue] at less
    · dsimp only at after before
      omega
  · rintro ⟨i, below, once⟩
    have pinned {found : ℝ × Nat} (member : found ∈ logits.zipIdx)
        (largest : logits.getD i 0 ≤ found.1) : found.2 = i := by
      obtain ⟨inside, value⟩ := at_ member
      by_contra other
      have less := once found.2 inside other
      rw [value] at less
      exact absurd less (not_lt.mpr largest)
    have lastLargest : logits.getD i 0 ≤ last.1 := by
      rcases latest.2 _ (entry below) with less | ⟨same, -⟩
      · exact less.le
      · exact same.le
    rw [pinned earliest.1 (earliest.le (entry below)), pinned latest.1 lastLargest]

/-- With one candidate every draw returns the first of the largest logits. -/
theorem sample_topOne (nonempty : logits ≠ []) (warm : 0 < config.temperature)
    (one : config.topK = some 1) :
    ∃ first, Earliest logits.zipIdx first ∧ ∀ draw ∈ Set.Ico (0 : ℝ) 1,
      sample (drawing draw) () logits config = .ok (UInt32.ofNat first.2, ()) := by
  obtain ⟨peak, last, ran⟩ := sample_eq_walk nonempty warm (by rw [one]; decide)
  have drawing_ : drawn logits config ≠ [] := drawn_ne_nil nonempty (by rw [one]; decide)
  have count : drawnCount config logits = 1 := by
    rw [drawnCount, one]
    exact Nat.min_eq_left (List.length_pos_of_ne_nil nonempty)
  obtain ⟨first, single⟩ := List.length_eq_one_iff.mp ((length_drawn logits config).trans count)
  have front : (logits.zipIdx.insertionSort byLogit).head? = some first := by
    have taken := congrArg List.head? (drawn_eq_take logits config)
    rw [single, count, List.head?_take, if_neg (by decide)] at taken
    exact taken.symm
  have positive := weightSum_pos drawing_ peak
  refine ⟨first, head_insertionSort (pairwise_zipIdx logits) front, fun draw range => ?_⟩
  have chosen : walk last (draw * weightSum (weighted logits config peak))
      (weighted logits config peak) ∈ (weighted logits config peak).map Prod.fst :=
    walk_mem last (by simp [weighted, single]) (by nlinarith [range.2])
  rw [weighted_fst, single, List.map_singleton, List.mem_singleton] at chosen
  rw [ran, chosen]

/-- Without temperature the sampler returns the last of the largest logits. -/
theorem sample_greedy (nonempty : logits ≠ []) (cold : config.temperature = 0) :
    ∃ last, Latest logits.zipIdx last ∧ ∀ draw,
      sample (drawing draw) () logits config = .ok (UInt32.ofNat last.2, ()) := by
  have found : ∃ i, argmax logits = some i := by
    cases logits with
    | nil => exact absurd rfl nonempty
    | cons logit rest => exact ⟨_, rfl⟩
  obtain ⟨i, found⟩ := found
  obtain ⟨logit, latest⟩ := argmax_latest found
  refine ⟨(logit, i), latest, fun draw => ?_⟩
  rw [sample, usable_of_ne_nil nonempty]
  have zero : (Scalar.lit 0 : ℝ) = 0 := Rat.cast_zero
  have same : (Scalar.le config.temperature (Scalar.lit 0) &&
      Scalar.le (Scalar.lit 0) config.temperature) = true := by
    rw [zero, cold, Bool.and_eq_true_iff]
    exact ⟨decide_eq_true le_rfl, decide_eq_true le_rfl⟩
  rw [same, found]
  rfl

/-! ## Exact sampling -/

/-- The sampler draws from the softmax of the largest logits, and with one candidate it is greedy. -/
structure SamplesExactly (logits : List ℝ) (config : GenerationConfig ℝ) : Prop where
  draws : ∃ top, DrawsSoftmax logits config top
  greedy : config.topK = some 1 → ∀ draw ∈ Set.Ico (0 : ℝ) 1,
    sample (drawing draw) () logits config =
      sample (drawing draw) () logits { config with temperature := 0 }

/-- As long as every index is a token, sampling is exact if the largest logit occurs once, or if
more than one candidate is asked for. -/
theorem samplesExactly_of_tokens (nonempty : logits ≠ []) (warm : 0 < config.temperature)
    (valid : config.topK ≠ some 0) (tokens : logits.length ≤ 2 ^ 32) :
    SamplesExactly logits config ↔ (config.topK = some 1 → MaximumOnce logits) := by
  have frozen : ({ config with temperature := 0 } : GenerationConfig ℝ).temperature = 0 := rfl
  obtain ⟨last, latest, cold⟩ := sample_greedy nonempty frozen
  have greedy (one : config.topK = some 1) :
      (∀ draw ∈ Set.Ico (0 : ℝ) 1, sample (drawing draw) () logits config =
        sample (drawing draw) () logits { config with temperature := 0 }) ↔
        MaximumOnce logits := by
    obtain ⟨first, earliest, drew⟩ := sample_topOne nonempty warm one
    have bound {found : ℝ × Nat} (member : found ∈ logits.zipIdx) : found.2 < 2 ^ 32 :=
      (List.getElem?_eq_some_iff.mp (List.mem_zipIdx_iff_getElem?.mp member)).1.trans_le tokens
    rw [← first_eq_last earliest latest]
    constructor
    · intro same
      have equal := same 0 ⟨le_refl _, one_pos⟩
      rw [drew 0 ⟨le_refl _, one_pos⟩, cold] at equal
      have numbers := congrArg UInt32.toNat (Prod.mk.inj (Except.ok.inj equal)).1
      rwa [UInt32.toNat_ofNat_of_lt' (bound earliest.1),
        UInt32.toNat_ofNat_of_lt' (bound latest.1)] at numbers
    · intro same draw range
      rw [drew draw range, cold, same]
  constructor
  · intro exact_ one
    exact (greedy one).mp (exact_.greedy one)
  · intro once
    exact ⟨⟨_, drawsSoftmax_top nonempty warm valid tokens⟩, fun one => (greedy one).mpr (once one)⟩

end Candidates

/-- A logit whose index is not a token has its share, and no draw returns it. -/
theorem length_le_of_samplesExactly {logits : List ℝ} {config : GenerationConfig ℝ}
    (all : config.topK = none) (exact_ : SamplesExactly logits config) :
    logits.length ≤ 2 ^ 32 := by
  obtain ⟨top, draws⟩ := exact_.draws
  by_contra long
  have whole : top = Finset.range logits.length := by
    apply Finset.eq_of_subset_of_card_le
    · intro i member
      exact Finset.mem_range.mpr (draws.inside i member)
    · rw [Finset.card_range, draws.size, drawnCount, all]
  have member : 2 ^ 32 ∈ top := by
    rw [whole, Finset.mem_range]
    omega
  have none_ : {draw : ℝ | draw ∈ Set.Ico 0 1 ∧ Returns logits config draw (2 ^ 32)} = ∅ := by
    rw [Set.eq_empty_iff_forall_notMem]
    rintro draw ⟨-, token, -, same⟩
    have small := UInt32.toNat_lt token
    omega
  have share := draws.share _ member
  rw [none_, measure_empty, eq_comm, ENNReal.ofReal_eq_zero] at share
  have positive : 0 < ∑ j ∈ top, Real.exp (logits.getD j 0 / config.temperature) :=
    Finset.sum_pos (fun j _ => Real.exp_pos _) ⟨_, member⟩
  exact absurd share (not_le.mpr (div_pos (Real.exp_pos _) positive))

/-- Sampling is exact for every configuration if every index is a token and the largest logit
occurs once.  For a configuration that asks for more than one candidate, tokens are enough. -/
theorem samplesExactly_iff {logits : List ℝ} (nonempty : logits ≠ []) :
    ((∀ config : GenerationConfig ℝ, 0 < config.temperature → config.topK ≠ some 0 →
        SamplesExactly logits config) ↔
      logits.length ≤ 2 ^ 32 ∧ MaximumOnce logits) ∧
    (logits.length ≤ 2 ^ 32 → ∀ config : GenerationConfig ℝ, 0 < config.temperature →
      config.topK ≠ some 0 →
        (SamplesExactly logits config ↔ (config.topK = some 1 → MaximumOnce logits))) := by
  constructor
  · constructor
    · intro exact_
      have tokens := length_le_of_samplesExactly rfl
        (exact_ ⟨1, 1, none, 0, []⟩ one_pos (by decide))
      have one := exact_ ⟨1, 1, some 1, 0, []⟩ one_pos (by decide)
      exact ⟨tokens, (samplesExactly_of_tokens nonempty one_pos (by decide) tokens).mp one rfl⟩
    · rintro ⟨tokens, once⟩ config warm valid
      exact (samplesExactly_of_tokens nonempty warm valid tokens).mpr fun _ => once
  · intro tokens config warm valid
    exact samplesExactly_of_tokens nonempty warm valid tokens

/-- Two logits, the second the larger one. -/
theorem samplesExactly_iff_two :
    ((∀ config : GenerationConfig ℝ, 0 < config.temperature → config.topK ≠ some 0 →
        SamplesExactly [1, 2] config) ↔
      ([1, 2] : List ℝ).length ≤ 2 ^ 32 ∧ MaximumOnce [1, 2]) :=
  (samplesExactly_iff (List.cons_ne_nil _ _)).1

/-- A configuration with one candidate. -/
def oneCandidate (temperature : ℝ) : GenerationConfig ℝ := ⟨1, temperature, some 1, 0, []⟩

/-- Of two equal logits the draw takes the first and the greedy choice the second. -/
theorem not_samplesExactly_tie :
    sample (drawing 0) () [1, 1] (oneCandidate 1) = .ok (0, ()) ∧
      sample (drawing 0) () [1, 1] (oneCandidate 0) = .ok (1, ()) ∧
      ¬ SamplesExactly [1, 1] (oneCandidate 1) := by
  have nonempty : ([1, 1] : List ℝ) ≠ [] := List.cons_ne_nil _ _
  have range : (0 : ℝ) ∈ Set.Ico (0 : ℝ) 1 := ⟨le_refl _, one_pos⟩
  have warm : 0 < (oneCandidate 1).temperature := one_pos
  have frozen : (oneCandidate 0).temperature = 0 := rfl
  obtain ⟨first, earliest, drew⟩ := sample_topOne nonempty warm rfl
  obtain ⟨last, latest, cold⟩ := sample_greedy nonempty frozen
  have firstZero : first.2 = 0 := by
    rcases earliest.2 (1, 0) (by simp) with less | ⟨-, before⟩
    · have member := earliest.1
      simp only [List.zipIdx_cons, List.zipIdx_nil, List.mem_cons, List.not_mem_nil, or_false]
        at member
      rcases member with rfl | rfl
      · rfl
      · exact absurd less (lt_irrefl _)
    · exact Nat.le_zero.mp before
  have lastOne : last.2 = 1 := by
    have member := latest.1
    simp only [List.zipIdx_cons, List.zipIdx_nil, List.mem_cons, List.not_mem_nil, or_false]
      at member
    rcases member with rfl | rfl
    · rcases latest.2 (1, 1) (by simp) with less | ⟨-, before⟩
      · exact absurd less (lt_irrefl _)
      · exact absurd before (by decide)
    · rfl
  have drew := drew 0 range
  have cold := cold 0
  rw [firstZero] at drew
  rw [lastOne] at cold
  refine ⟨drew, cold, fun exact_ => ?_⟩
  have same := exact_.greedy rfl 0 range
  rw [drew] at same
  exact absurd (same.trans cold) (by simp)

end AiCoreStack.Serving
