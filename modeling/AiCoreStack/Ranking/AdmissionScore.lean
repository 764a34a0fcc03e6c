import AiCoreStack.Ranking.Stages

/-!
# The admission key and the fused score

The first stage computes its key candidate by candidate, from sums over the axes; the second one
fuses the axes term by term.  In exact arithmetic both come to the same number for a candidate
that some axis speaks about, whatever the weights are.
-/

namespace AiCoreStack.Ranking.Engine

open Foundation

section Alone

variable {F C : Type} [Scalar F] (self : Engine F C)

/-- The fusion of a candidate that is not ranked among others. -/
def fuseAlone (s : Staged F C) : FusionTrace F where
  method := self.fusion.method
  k := self.fusion.rrfK
  missing := self.missing
  terms := (self.scorers.zip s.scores).map fun (m, raw) => self.fuseTerm s none m raw

/-- The pool entry of a candidate that is not ranked among others. -/
def entryOf (s : Staged F C) : PoolEntry F C where
  candidate := s.candidate
  id := s.id
  scores := s.scores
  fused := (self.fuseAlone s).recompute
  trace := self.fuseAlone s

variable {self}

/-- Only the rank fusion looks at the rank. -/
theorem fuseTerm_unranked (unranked : self.fusion.isRrf = false) (s : Staged F C)
    (rank : Option UInt32) (m : Scorer F C) (raw : Option F) :
    self.fuseTerm s rank m raw = self.fuseTerm s none m raw := by
  rw [fuseTerm, fuseTerm]
  cases fusion : self.fusion with
  | weightedSum weights => cases self.effective raw <;> rfl
  | rrf k =>
      rw [fusion] at unranked
      cases unranked
  | max => cases self.effective raw <;> rfl

/-- Without ranks every candidate is fused alone. -/
theorem fuseAll_eq_map (unranked : self.fusion.isRrf = false) (staged : List (Staged F C)) :
    self.fuseAll staged = staged.map self.entryOf := by
  have alone (i : Fin staged.length) : self.fuse staged i = self.fuseAlone (staged.get i) := by
    rw [fuse, fuseAlone]
    congr 1
    apply List.ext_getElem
    · simp
    · intro axis left right
      simp only [List.getElem_map, List.getElem_zipIdx]
      exact fuseTerm_unranked unranked _ _ _ _
  rw [fuseAll]
  apply List.ext_getElem
  · simp
  · intro i left right
    simp only [List.getElem_map, List.getElem_finRange, alone]
    rfl

end Alone

/-! ## Rational scores and weights -/

variable {C : Type}

/-- Scores, imputed values and weights are rational numbers. -/
structure Rational (engine : Engine Exact C) : Prop where
  scores : ∀ m ∈ engine.scorers, ∀ candidate value, m.score candidate = some value →
    ∃ q : ℚ, value = .fin q
  imputed : ∀ value, engine.missing = .impute value → ∃ q : ℚ, value = .fin q
  weights : ∀ weights, engine.fusion = .weightedSum weights → ∀ entry ∈ weights,
    ∃ q : ℚ, entry.2 = .fin q

variable {self : Engine Exact C}

theorem Rational.weightOf_eq (rational : self.Rational) (id : ScorerId) :
    self.weightOf id = .fin (self.weightOf id).finitePart := by
  rw [weightOf]
  cases fusion : self.fusion with
  | rrf k => rfl
  | max => rfl
  | weightedSum weights =>
      dsimp only
      split
      next => rfl
      next =>
        cases found : weights.find? fun (k, _) => k == id with
        | none => rfl
        | some entry =>
            obtain ⟨q, isFin⟩ := rational.weights weights fusion entry
              (List.mem_of_find?_eq_some found)
            rw [Option.elim_some, isFin]
            rfl

/-- The weight and the value of each axis that takes part. -/
def parts (self : Engine Exact C) (axes : List (Scorer Exact C × Option Exact)) : List (ℚ × ℚ) :=
  axes.filterMap fun (m, raw) =>
    (self.effective raw).map fun v => ((self.weightOf m.id).finitePart, v.finitePart)

/-- Axes with rational values. -/
def RationalAxes (self : Engine Exact C) (axes : List (Scorer Exact C × Option Exact)) : Prop :=
  ∀ axis ∈ axes, ∀ v, self.effective axis.2 = some v → v = .fin v.finitePart

theorem parts_cons (axis : Scorer Exact C × Option Exact)
    (rest : List (Scorer Exact C × Option Exact)) :
    self.parts (axis :: rest) =
      ((self.effective axis.2).map fun v =>
        ((self.weightOf axis.1.id).finitePart, v.finitePart)).toList ++ self.parts rest := by
  obtain ⟨m, raw⟩ := axis
  cases taken : self.effective raw <;> simp [parts, taken]

/-- What the first stage adds up over the axes. -/
theorem foldl_addAxis (rational : self.Rational) {axes : List (Scorer Exact C × Option Exact)}
    (cheap : ∀ axis ∈ axes, axis.1.cost = .cheap) (values : self.RationalAxes axes)
    (sum weights : ℚ) (max : Exact) (used : Nat) :
    axes.foldl self.addAxis ⟨.fin sum, .fin weights, max, used⟩ =
      ⟨.fin (sum + ((self.parts axes).map fun part => part.1 * part.2).sum),
        .fin (weights + ((self.parts axes).map Prod.fst).sum),
        ((self.parts axes).map fun part => Exact.fin part.2).foldl Scalar.max max,
        used + (self.parts axes).length⟩ := by
  induction axes generalizing sum weights max used with
  | nil => simp [parts]
  | cons axis rest ih =>
      have later := ih (fun other member => cheap other (List.mem_cons_of_mem axis member))
        fun other member => values other (List.mem_cons_of_mem axis member)
      rw [List.foldl_cons, addAxis, if_pos (cheap axis List.mem_cons_self), parts_cons]
      cases taken : self.effective axis.2 with
      | none => exact later sum weights max used
      | some v =>
          obtain ⟨w, isWeight⟩ : ∃ w : ℚ, self.weightOf axis.1.id = .fin w :=
            ⟨_, rational.weightOf_eq axis.1.id⟩
          obtain ⟨q, isFin⟩ : ∃ q : ℚ, v = .fin q := ⟨_, values axis List.mem_cons_self v taken⟩
          dsimp only
          rw [isWeight, isFin, Exact.mul_fin, Exact.add_fin, Exact.add_fin, later]
          simp only [Exact.finitePart, Option.map_some, Option.toList_some, List.map_append,
            List.map_cons, List.map_nil, List.sum_append, List.sum_cons, List.sum_nil,
            List.foldl_append, List.foldl_cons, List.foldl_nil, List.length_append,
            List.length_cons, List.length_nil, add_zero, zero_add, add_assoc]

theorem weightSum_eq (rational : self.Rational) (s : Staged Exact C) :
    self.weightSum s = .fin ((self.parts (self.scorers.zip s.scores)).map Prod.fst).sum := by
  have from_ (axes : List (Scorer Exact C × Option Exact)) (start : ℚ) :
      (axes.foldl (fun total (m, v) =>
        if (self.effective v).isSome then Scalar.add total (self.weightOf m.id) else total)
        (Exact.fin start)) = .fin (start + ((self.parts axes).map Prod.fst).sum) := by
    induction axes generalizing start with
    | nil => simp [parts]
    | cons axis rest ih =>
        obtain ⟨m, raw⟩ := axis
        rw [List.foldl_cons, parts_cons]
        dsimp only
        cases taken : self.effective raw with
        | none => exact ih start
        | some v =>
            obtain ⟨w, isWeight⟩ : ∃ w : ℚ, self.weightOf m.id = .fin w :=
              ⟨_, rational.weightOf_eq m.id⟩
            rw [Option.isSome_some, if_pos rfl, isWeight, Exact.add_fin, ih]
            simp [Exact.finitePart, add_assoc]
  rw [weightSum, Exact.lit_eq, from_, zero_add]

/-- The contributions of the axes that take part. -/
theorem contributions_eq (s : Staged Exact C) (share : ℚ × ℚ → ℚ)
    {axes : List (Scorer Exact C × Option Exact)}
    (each : ∀ axis ∈ axes, ∀ v, self.effective axis.2 = some v →
      (self.fuseTerm s none axis.1 axis.2).input = inputKind axis.2 v ∧
        (self.fuseTerm s none axis.1 axis.2).contribution =
          .fin (share ((self.weightOf axis.1.id).finitePart, v.finitePart))) :
    (((axes.map fun (m, raw) => self.fuseTerm s none m raw).filter (·.input.isUsed)).map
      (·.contribution)) = ((self.parts axes).map share).map Exact.fin := by
  induction axes with
  | nil => rfl
  | cons axis rest ih =>
      have later := ih fun other member => each other (List.mem_cons_of_mem axis member)
      rw [List.map_cons, parts_cons]
      cases taken : self.effective axis.2 with
      | none =>
          have skipped : (self.fuseTerm s none axis.1 axis.2).input = .skipped := by
            rw [fuseTerm, taken]
          rw [List.filter_cons_of_neg (by simp [skipped, FusionInput.isUsed])]
          exact later
      | some v =>
          obtain ⟨input, contribution⟩ := each axis List.mem_cons_self v taken
          have used : (inputKind axis.2 v).isUsed = true := by
            rw [inputKind]
            split <;> rfl
          rw [List.filter_cons_of_pos (by rw [input]; exact used), List.map_cons, contribution,
            later]
          rfl

/-- A rational constant comes out of a sum of products. -/
theorem sum_div (parts : List (ℚ × ℚ)) (total : ℚ) :
    (parts.map fun part => part.1 / total * part.2).sum =
      (parts.map fun part => part.1 * part.2).sum / total := by
  induction parts with
  | nil => simp
  | cons part rest ih =>
      rw [List.map_cons, List.sum_cons, ih, List.map_cons, List.sum_cons]
      ring

section Fused

variable {s : Staged Exact C} (values : self.RationalAxes (self.scorers.zip s.scores))

include values

/-- The largest value of the axes that take part. -/
theorem recompute_max (fusion : self.fusion = .max) :
    (self.fuseAlone s).recompute = (FusionTrace.maxFold
      ((self.parts (self.scorers.zip s.scores)).map fun part => Exact.fin part.2)).getD (.fin 0) := by
  have contributions := contributions_eq s Prod.snd fun axis member v taken => by
    rw [fuseTerm, fusion, taken]
    exact ⟨rfl, values axis member v taken⟩
  have method : (self.fuseAlone s).method = .max := congrArg Fusion.method fusion
  rw [FusionTrace.recompute, method]
  dsimp only
  rw [fuseAlone, contributions, List.map_map]
  rfl

/-- The mean of the axes that take part, by their weights. -/
theorem recompute_weightedSum (rational : self.Rational) {weights : List (ScorerId × Exact)}
    (fusion : self.fusion = .weightedSum weights) :
    (self.fuseAlone s).recompute =
      if 0 < ((self.parts (self.scorers.zip s.scores)).map Prod.fst).sum then
        .fin (((self.parts (self.scorers.zip s.scores)).map fun part => part.1 * part.2).sum /
          ((self.parts (self.scorers.zip s.scores)).map Prod.fst).sum)
      else .fin 0 := by
  let total := ((self.parts (self.scorers.zip s.scores)).map Prod.fst).sum
  have weighed : self.weightSum s = .fin total := weightSum_eq rational s
  have contributions := contributions_eq s
    (fun part => (if 0 < total then part.1 / total else 0) * part.2)
    fun axis member v taken => by
      obtain ⟨w, isWeight⟩ : ∃ w : ℚ, self.weightOf axis.1.id = .fin w :=
        ⟨_, rational.weightOf_eq axis.1.id⟩
      obtain ⟨q, isFin⟩ : ∃ q : ℚ, v = .fin q := ⟨_, values axis member v taken⟩
      rw [fuseTerm, fusion, taken, weighed, isWeight, isFin]
      refine ⟨rfl, ?_⟩
      dsimp only [Exact.finitePart]
      rw [Exact.lit_eq, Exact.lt_fin]
      by_cases positive : 0 < total
      · rw [if_pos (decide_eq_true positive), if_pos positive, Exact.div_fin w positive.ne',
          Exact.mul_fin]
      · rw [if_neg (by simpa using positive), if_neg positive, Exact.mul_fin]
  have method : (self.fuseAlone s).method = .weightedSum := congrArg Fusion.method fusion
  rw [FusionTrace.recompute, method]
  dsimp only
  rw [fuseAlone, contributions, Scalar.sum, Exact.lit_eq, Exact.foldl_add_fin, zero_add]
  by_cases positive : 0 < total
  · simp only [if_pos positive, sum_div]
    rw [if_pos positive]
  · rw [if_neg positive]
    simp [if_neg positive]

theorem fused_fin (rational : self.Rational) (unranked : self.fusion.isRrf = false) :
    ∃ q : ℚ, (self.entryOf s).fused = .fin q := by
  rw [entryOf]
  dsimp only
  cases fusion : self.fusion with
  | rrf k =>
      rw [fusion] at unranked
      cases unranked
  | max =>
      rw [recompute_max values fusion]
      cases self.parts (self.scorers.zip s.scores) with
      | nil => exact ⟨0, rfl⟩
      | cons part rest =>
          have mapped : rest.map (fun part => Exact.fin part.2) =
              (rest.map Prod.snd).map Exact.fin := by
            rw [List.map_map]
            rfl
          rw [List.map_cons, FusionTrace.maxFold_cons, mapped, Exact.foldl_max_fin]
          exact ⟨_, rfl⟩
  | weightedSum weights =>
      rw [recompute_weightedSum values rational fusion]
      split
      next => exact ⟨_, rfl⟩
      next => exact ⟨_, rfl⟩

/-- In exact arithmetic the first stage keeps candidates by their fused scores. -/
theorem fused_eq_admission (rational : self.Rational) (unranked : self.fusion.isRrf = false)
    (cheap : ∀ m ∈ self.scorers, m.cost = .cheap)
    (participates : self.parts (self.scorers.zip s.scores) ≠ []) :
    (self.entryOf s).fused = self.admissionValue .streamingFusion s.scores := by
  have allCheap : ∀ axis ∈ self.scorers.zip s.scores, axis.1.cost = .cheap :=
    fun axis member => cheap axis.1 (List.of_mem_zip member).1
  have streamed : (self.scorers.zip s.scores).foldl self.addAxis
      ⟨Scalar.lit 0, Scalar.lit 0, Scalar.negInfinity, 0⟩ = _ :=
    foldl_addAxis rational allCheap values 0 0 .negInf 0
  have nonempty : 0 + (self.parts (self.scorers.zip s.scores)).length ≠ 0 := by
    simpa using participates
  rw [entryOf, admissionValue]
  dsimp only
  rw [streamed]
  dsimp only
  rw [if_neg nonempty]
  cases fusion : self.fusion with
  | rrf k =>
      rw [fusion] at unranked
      cases unranked
  | max =>
      rw [recompute_max values fusion]
      cases taken : self.parts (self.scorers.zip s.scores) with
      | nil => exact absurd taken participates
      | cons part rest =>
          rw [List.map_cons, FusionTrace.maxFold_cons]
          rfl
  | weightedSum weights =>
      rw [recompute_weightedSum values rational fusion]
      dsimp only
      rw [zero_add, zero_add, Exact.lit_eq, Exact.lt_fin]
      split
      next positive => rw [if_pos (decide_eq_true positive), Exact.div_fin _ positive.ne']
      next negative => rw [if_neg (by simpa using negative)]

end Fused

end AiCoreStack.Ranking.Engine
