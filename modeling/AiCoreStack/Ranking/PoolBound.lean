import AiCoreStack.Ranking.ArrivalOrder
import AiCoreStack.Ranking.Conservation

/-!
# The reported bound of the pool

The heap is created with a capacity in `usize`, and the trace reports it as a `u32`.  The pool never
outgrows the capacity.  The report is cut to its low 32 bits, so that it is the capacity, saturated,
only for the capacities that a `u32` holds and those whose low bits are all set.
-/

namespace AiCoreStack.Ranking

open Foundation

variable {F C : Type}

/-- The number of candidates that a budget is taken to ask for. -/
def Budget.countOf : Budget F → Nat
  | .topK k => k.toNat
  | .tailMass _ fallbackK => max fallbackK.toNat 1
  | .tokens max => max.toNat

/-- The bound of the pool before it is narrowed. -/
def Engine.requestedPool (engine : Engine F C) : Nat :=
  engine.budget.countOf * engine.poolMultiplier.toNat

/-- The trace reports the capacity of the heap, saturated, and the pool keeps to it. -/
structure ReportsBound [Scalar F] (engine : Engine F C) (outcome : Outcome F C) : Prop where
  within : outcome.selection.poolSize ≤ outcome.trace.poolCapacity
  saturated : outcome.trace.poolCapacity.toNat =
    min (Engine.Stream.start engine.poolCapacity engine.scorers).heap.capacity (2 ^ 32 - 1)

namespace Engine

variable [Scalar F] {self : Engine F C}

/-! ## The capacity -/

omit [Scalar F] in
theorem countOf_lt (budget : Budget F) : budget.countOf < 2 ^ 32 := by
  cases budget with
  | topK k => exact k.toNat_lt
  | tailMass _ fallbackK => exact max_lt fallbackK.toNat_lt (by norm_num)
  | tokens max => exact max.toNat_lt

omit [Scalar F] in
/-- The product of two `u32` does not reach the bound of `usize`. -/
theorem poolCapacity_eq : self.poolCapacity = max self.requestedPool 1 := by
  have small : self.requestedPool ≤ (2 ^ 32 - 1) * (2 ^ 32 - 1) :=
    Nat.mul_le_mul (Nat.le_sub_one_of_lt (countOf_lt _))
      (Nat.le_sub_one_of_lt self.poolMultiplier.toNat_lt)
  have fits : min self.requestedPool (2 ^ 64 - 1) = self.requestedPool :=
    Nat.min_eq_left (small.trans (by norm_num))
  rw [← fits]
  unfold poolCapacity requestedPool Budget.countOf
  cases self.budget <;> rfl

/-! ## The pool -/

section Pool

variable [Candidate C]

theorem length_intake {key : AdmissionKey} {state : List (Staged F C) × RejectLog F C}
    (within : state.1.length ≤ self.poolCapacity) (candidate : C) :
    (self.intake key state candidate).1.length ≤ self.poolCapacity := by
  rw [intake]
  cases self.classify candidate with
  | error reason => exact within
  | ok staged =>
      dsimp only
      rw [TopList.length_offer _ within]
      exact Nat.min_le_left _ _

/-- The pool keeps to the capacity through every prefix of the input. -/
theorem length_firstStage (key : AdmissionKey) (candidates : List C) :
    (self.firstStage key candidates).1.length ≤ self.poolCapacity := by
  induction candidates using List.reverseRecOn with
  | nil => exact Nat.zero_le _
  | append_singleton earlier candidate ih =>
      rw [firstStage_snoc]
      exact length_intake ih candidate

end Pool

/-! ## The report -/

section Report

variable (D : Type) [Analytic D] [Widens F D]

/-- What the second stage reports of the pool. -/
theorem finish_reports {key : AdmissionKey} {stream : Stream F C} {staged : List (Staged F C)}
    {outcome : Outcome F C} (finished : self.finish D key stream staged = .ok outcome) :
    outcome.selection.poolSize = UInt32.ofNat stream.heap.heap.length ∧
      outcome.trace.poolCapacity = UInt32.ofNat self.poolCapacity := by
  rw [finish] at finished
  obtain ⟨⟨after, stats⟩, -, finished⟩ := bind_ok_iff.mp finished
  obtain ⟨chosen, -, assembled⟩ := bind_ok_iff.mp finished
  rw [assemble] at assembled
  obtain ⟨entries, -, rfl⟩ := map_ok_iff.mp assembled
  exact ⟨rfl, rfl⟩

/-- A run reports a pool that kept to the capacity, both cut to 32 bits. -/
theorem run_reports [Candidate C] {candidates : List C} {outcome : Outcome F C}
    (ran : self.run D candidates = .ok outcome) :
    ∃ size ≤ self.poolCapacity, outcome.selection.poolSize = UInt32.ofNat size ∧
      outcome.trace.poolCapacity = UInt32.ofNat self.poolCapacity := by
  rw [run] at ran
  obtain ⟨-, -, ran⟩ := bind_ok_iff.mp ran
  obtain ⟨key, -, ran⟩ := bind_ok_iff.mp ran
  obtain ⟨stream, streamed, -, left, -, -⟩ := self.streamAll_eq key candidates
  obtain ⟨reached, same, ran⟩ := bind_ok_iff.mp ran
  obtain ⟨staged, -, finished⟩ := bind_ok_iff.mp ran
  cases streamed.symm.trans same
  obtain ⟨size, capacity⟩ := finish_reports D finished
  exact ⟨_, left ▸ length_firstStage key candidates, size, capacity⟩

end Report

/-- Cutting to 32 bits is saturating exactly where nothing is cut or all low bits are set. -/
theorem mod_eq_saturated (count : Nat) :
    max count 1 % 2 ^ 32 = min (max count 1) (2 ^ 32 - 1) ↔
      count < 2 ^ 32 ∨ count % 2 ^ 32 = 2 ^ 32 - 1 := by
  omega

/-- The trace reports the bound of the pool exactly if the product of the budget and the multiplier
fits a `u32` or its low 32 bits are all set. -/
theorem reportsBound_iff (D : Type) [Analytic D] [Widens F D] [Candidate C] {candidates : List C}
    {outcome : Outcome F C} (ran : self.run D candidates = .ok outcome) :
    ReportsBound self outcome ↔
      self.requestedPool < 2 ^ 32 ∨ self.requestedPool % 2 ^ 32 = 2 ^ 32 - 1 := by
  obtain ⟨size, within, poolSize, poolCapacity⟩ := run_reports D ran
  have reported : outcome.trace.poolCapacity.toNat = max self.requestedPool 1 % 2 ^ 32 := by
    rw [poolCapacity, poolCapacity_eq, UInt32.toNat_ofNat']
  have created : (Stream.start self.poolCapacity self.scorers).heap.capacity =
      max self.requestedPool 1 := poolCapacity_eq
  rw [← mod_eq_saturated, ← reported, ← created]
  constructor
  · exact ReportsBound.saturated
  · intro saturated
    refine ⟨?_, saturated⟩
    rw [UInt32.le_iff_toNat_le, saturated, poolSize, UInt32.toNat_ofNat']
    -- either nothing of the size is cut, or the report is the largest `u32`
    change size ≤ (Stream.start self.poolCapacity self.scorers).heap.capacity at within
    exact le_min ((Nat.mod_le _ _).trans within) (Nat.le_sub_one_of_lt (Nat.mod_lt _ (by norm_num)))

/-- One candidate in a pool for two. -/
theorem reportsBound_one :
    ∃ outcome, parityEngine.run Exact [7] = .ok outcome ∧ ReportsBound parityEngine outcome := by
  obtain ⟨outcome, ran⟩ : ∃ outcome, parityEngine.run Exact [7] = .ok outcome := ⟨_, rfl⟩
  exact ⟨outcome, ran, (reportsBound_iff Exact ran).mpr (.inl (by decide))⟩

/-- A pool for `2 ^ 32` candidates. -/
def widePool : Engine Exact UInt64 :=
  { parityEngine with budget := .topK 65536, poolMultiplier := 65536 }

/-- The trace reports a bound of zero for a pool with one candidate in it. -/
theorem widePool_unreported :
    ∃ outcome, widePool.run Exact [7] = .ok outcome ∧ outcome.selection.poolSize = 1 ∧
      outcome.trace.poolCapacity = 0 ∧ ¬ ReportsBound widePool outcome := by
  obtain ⟨outcome, ran, size, capacity⟩ : ∃ outcome, widePool.run Exact [7] = .ok outcome ∧
      outcome.selection.poolSize = 1 ∧ outcome.trace.poolCapacity = 0 := ⟨_, rfl, rfl, rfl⟩
  refine ⟨outcome, ran, size, capacity, ?_⟩
  intro reports
  have within := reports.within
  rw [size, capacity] at within
  exact absurd within (by decide)

end Engine

end AiCoreStack.Ranking
