import AiCoreStack.Foundation.StableSort

/-!
# Increasing positions cut at wide gaps

Increasing positions fall into spans: a span goes on until the next position is more than a gap
away.  Items with a key are cut into the parts whose keys lie in one span.
-/

namespace AiCoreStack.Foundation

open scoped List

/-! ## Spans -/

/-- The spans of a run that has reached a position. -/
def spansFrom (gap start last : Nat) : List Nat → List (Nat × Nat)
  | [] => [(start, last + 1)]
  | next :: rest =>
      if gap < next - last then (start, last + 1) :: spansFrom gap next next rest
      else spansFrom gap start next rest

/-- Half-open intervals around positions that are at most a gap apart. -/
def spans (gap : Nat) : List Nat → List (Nat × Nat)
  | [] => []
  | first :: rest => spansFrom gap first first rest

/-- A position in a half-open interval. -/
def Inside (span : Nat × Nat) (position : Nat) : Prop :=
  span.1 ≤ position ∧ position < span.2

/-- Intervals one behind the other. -/
def InOrder (parts : List (Nat × Nat)) : Prop := parts.Pairwise fun left right => left.2 ≤ right.1

variable {gap start last : Nat} {rest positions : List Nat}

theorem exists_inside_spansFrom (below : start ≤ last)
    (increasing : (last :: rest).Pairwise (· < ·)) {position : Nat}
    (among : start ≤ position ∧ position ≤ last ∨ position ∈ rest) :
    ∃ span ∈ spansFrom gap start last rest, Inside span position := by
  induction rest generalizing start last with
  | nil =>
      obtain ⟨above, within⟩ := among.resolve_right List.not_mem_nil
      exact ⟨(start, last + 1), List.mem_singleton_self _, above, Nat.lt_succ_of_le within⟩
  | cons next rest ih =>
      obtain ⟨beyond, increasing⟩ := List.pairwise_cons.mp increasing
      have later := beyond next List.mem_cons_self
      rw [spansFrom]
      split
      · rcases among with ⟨above, within⟩ | member
        · exact ⟨_, List.mem_cons_self, above, Nat.lt_succ_of_le within⟩
        · obtain ⟨span, inSpans, inside⟩ := ih (Nat.le_refl next) increasing (by
            rcases List.mem_cons.mp member with rfl | member
            · exact .inl ⟨Nat.le_refl _, Nat.le_refl _⟩
            · exact .inr member)
          exact ⟨span, List.mem_cons_of_mem _ inSpans, inside⟩
      · apply ih (by omega) increasing
        rcases among with ⟨above, within⟩ | member
        · exact .inl ⟨above, by omega⟩
        · rcases List.mem_cons.mp member with rfl | member
          · exact .inl ⟨by omega, Nat.le_refl _⟩
          · exact .inr member

/-- A span starts a run or lies behind a gap. -/
theorem opens_spansFrom (increasing : (last :: rest).Pairwise (· < ·)) {span : Nat × Nat}
    (member : span ∈ spansFrom gap start last rest) :
    span.1 = start ∨ span.1 ∈ rest ∧
      ∀ position, position ≤ last ∨ position ∈ rest → position < span.1 →
        position + gap < span.1 := by
  induction rest generalizing start last with
  | nil =>
      obtain rfl := List.mem_singleton.mp member
      exact .inl rfl
  | cons next rest ih =>
      obtain ⟨beyond, increasing⟩ := List.pairwise_cons.mp increasing
      have later := beyond next List.mem_cons_self
      rw [spansFrom] at member
      split at member
      · next wide =>
          rcases List.mem_cons.mp member with rfl | member
          · exact .inl rfl
          · refine .inr ?_
            rcases ih increasing member with opened | ⟨opened, apart⟩
            · refine ⟨opened ▸ List.mem_cons_self, fun position among before => ?_⟩
              rcases among with within | among
              · omega
              · rcases List.mem_cons.mp among with rfl | among
                · omega
                · have := (List.pairwise_cons.mp increasing).1 position among
                  omega
            · refine ⟨List.mem_cons_of_mem _ opened, fun position among before => ?_⟩
              apply apart position _ before
              rcases among with within | among
              · exact .inl (by omega)
              · rcases List.mem_cons.mp among with rfl | among
                · exact .inl (Nat.le_refl _)
                · exact .inr among
      · rcases ih increasing member with opened | ⟨opened, apart⟩
        · exact .inl opened
        · refine .inr ⟨List.mem_cons_of_mem _ opened, fun position among before => ?_⟩
          apply apart position _ before
          rcases among with within | among
          · exact .inl (by omega)
          · rcases List.mem_cons.mp among with rfl | among
            · exact .inl (Nat.le_refl _)
            · exact .inr among

/-- Behind a position of a span the next one is at most a gap away. -/
theorem exists_near_spansFrom (increasing : (last :: rest).Pairwise (· < ·)) {span : Nat × Nat}
    (member : span ∈ spansFrom gap start last rest) {position : Nat} (reached : last ≤ position)
    (starts : span.1 ≤ position) (ends : position + gap + 1 < span.2) :
    ∃ near ∈ rest, position < near ∧ near ≤ position + gap := by
  induction rest generalizing start last with
  | nil =>
      obtain rfl := List.mem_singleton.mp member
      omega
  | cons next rest ih =>
      obtain ⟨-, increasing⟩ := List.pairwise_cons.mp increasing
      rw [spansFrom] at member
      rcases Nat.lt_or_ge position next with before | behind
      · split at member
        · next wide =>
            rcases List.mem_cons.mp member with rfl | member
            · omega
            · -- a later span starts at `next` or behind it
              rcases opens_spansFrom increasing member with opened | ⟨opened, -⟩
              · omega
              · have := (List.pairwise_cons.mp increasing).1 span.1 opened
                omega
        · exact ⟨next, List.mem_cons_self, before, by omega⟩
      · have later : ∃ near ∈ rest, position < near ∧ near ≤ position + gap := by
          split at member
          · rcases List.mem_cons.mp member with rfl | member
            · omega
            · exact ih increasing member behind
          · exact ih increasing member behind
        obtain ⟨near, among, close⟩ := later
        exact ⟨near, List.mem_cons_of_mem _ among, close⟩

theorem lt_spansFrom (below : start ≤ last) (increasing : (last :: rest).Pairwise (· < ·))
    {span : Nat × Nat} (member : span ∈ spansFrom gap start last rest) : span.1 < span.2 := by
  induction rest generalizing start last with
  | nil =>
      obtain rfl := List.mem_singleton.mp member
      exact Nat.lt_succ_of_le below
  | cons next rest ih =>
      obtain ⟨beyond, increasing⟩ := List.pairwise_cons.mp increasing
      have later := beyond next List.mem_cons_self
      rw [spansFrom] at member
      split at member
      · rcases List.mem_cons.mp member with rfl | member
        · exact Nat.lt_succ_of_le below
        · exact ih (Nat.le_refl next) increasing member
      · exact ih (by omega) increasing member

theorem inOrder_spansFrom (increasing : (last :: rest).Pairwise (· < ·)) :
    InOrder (spansFrom gap start last rest) := by
  induction rest generalizing start last with
  | nil => exact List.pairwise_singleton _ _
  | cons next rest ih =>
      obtain ⟨beyond, increasing⟩ := List.pairwise_cons.mp increasing
      have later := beyond next List.mem_cons_self
      rw [spansFrom]
      split
      · refine List.pairwise_cons.mpr ⟨fun span member => ?_, ih increasing⟩
        rcases opens_spansFrom increasing member with opened | ⟨opened, -⟩
        · rw [opened]
          exact later
        · exact beyond _ (List.mem_cons_of_mem _ opened)
      · exact ih increasing

theorem spansFrom_zero (increasing : (last :: rest).Pairwise (· < ·)) {span : Nat × Nat}
    (member : span ∈ spansFrom 0 last last rest) : span.2 = span.1 + 1 := by
  induction rest generalizing last with
  | nil =>
      obtain rfl := List.mem_singleton.mp member
      rfl
  | cons next rest ih =>
      obtain ⟨beyond, increasing⟩ := List.pairwise_cons.mp increasing
      have later := beyond next List.mem_cons_self
      rw [spansFrom, if_pos (by omega)] at member
      rcases List.mem_cons.mp member with rfl | member
      · rfl
      · exact ih increasing member

/-- Every position lies in a span. -/
theorem exists_inside_spans (increasing : positions.Pairwise (· < ·)) {position : Nat}
    (member : position ∈ positions) : ∃ span ∈ spans gap positions, Inside span position := by
  cases positions with
  | nil => exact absurd member List.not_mem_nil
  | cons first rest =>
      apply exists_inside_spansFrom (Nat.le_refl _) increasing
      rcases List.mem_cons.mp member with rfl | member
      · exact .inl ⟨Nat.le_refl _, Nat.le_refl _⟩
      · exact .inr member

theorem inOrder_spans (increasing : positions.Pairwise (· < ·)) :
    InOrder (spans gap positions) := by
  cases positions with
  | nil => exact .nil
  | cons first rest => exact inOrder_spansFrom increasing

/-- A span starts at a position, and every position in front of it is more than a gap away. -/
theorem opens_spans (increasing : positions.Pairwise (· < ·)) {span : Nat × Nat}
    (member : span ∈ spans gap positions) :
    span.1 ∈ positions ∧ ∀ position ∈ positions, position < span.1 → position + gap < span.1 := by
  cases positions with
  | nil => exact absurd member List.not_mem_nil
  | cons first rest =>
      rcases opens_spansFrom increasing member with opened | ⟨opened, apart⟩
      · refine ⟨opened ▸ List.mem_cons_self, fun position among before => ?_⟩
        rcases List.mem_cons.mp among with rfl | among
        · omega
        · have := (List.pairwise_cons.mp increasing).1 position among
          omega
      · refine ⟨List.mem_cons_of_mem _ opened, fun position among before => ?_⟩
        apply apart position _ before
        rcases List.mem_cons.mp among with rfl | among
        · exact .inl (Nat.le_refl _)
        · exact .inr among

/-- Inside a span no positions as many as the gap are missing in a row. -/
theorem exists_near_spans (increasing : positions.Pairwise (· < ·)) {span : Nat × Nat}
    (member : span ∈ spans gap positions) {position : Nat} (starts : span.1 ≤ position)
    (ends : position + gap + 1 < span.2) :
    ∃ near ∈ positions, position < near ∧ near ≤ position + gap := by
  have among := (opens_spans increasing member).1
  cases positions with
  | nil => exact absurd member List.not_mem_nil
  | cons first rest =>
      have reached : first ≤ span.1 := by
        rcases List.mem_cons.mp among with same | among
        · exact Nat.le_of_eq same.symm
        · exact Nat.le_of_lt ((List.pairwise_cons.mp increasing).1 _ among)
      obtain ⟨near, among, close⟩ := exists_near_spansFrom increasing member
        (Nat.le_trans reached starts) starts ends
      exact ⟨near, List.mem_cons_of_mem _ among, close⟩

/-- A span lies around the position it starts at. -/
theorem inside_start (increasing : positions.Pairwise (· < ·)) {span : Nat × Nat}
    (member : span ∈ spans gap positions) : Inside span span.1 := by
  cases positions with
  | nil => exact absurd member List.not_mem_nil
  | cons first rest => exact ⟨Nat.le_refl _, lt_spansFrom (Nat.le_refl _) increasing member⟩

/-- Without a gap every position is a span of its own. -/
theorem spans_zero (increasing : positions.Pairwise (· < ·)) {span : Nat × Nat}
    (member : span ∈ spans 0 positions) : span.2 = span.1 + 1 := by
  cases positions with
  | nil => exact absurd member List.not_mem_nil
  | cons first rest => exact spansFrom_zero increasing member

/-- Positions without a hole between them lie in one span. -/
theorem inside_of_run (increasing : positions.Pairwise (· < ·)) (wide : 1 ≤ gap) {low high : Nat}
    (run : ∀ position, low ≤ position → position ≤ high → position ∈ positions)
    {span : Nat × Nat} (member : span ∈ spans gap positions) (inside : Inside span high)
    (below : low ≤ high) : Inside span low := by
  obtain ⟨-, apart⟩ := opens_spans increasing member
  refine ⟨?_, Nat.lt_of_le_of_lt below inside.2⟩
  by_contra before
  have reached := inside.1
  have near := apart (span.1 - 1) (run _ (by omega) (by omega)) (by omega)
  omega

theorem InOrder.same_or_before {parts : List (Nat × Nat)} (order : InOrder parts)
    {left right : Nat × Nat} (inLeft : left ∈ parts) (inRight : right ∈ parts) {low high : Nat}
    (insideLow : Inside left low) (insideHigh : Inside right high) (below : low ≤ high) :
    left = right ∨ [left, right] <+ parts := by
  by_cases same : left = right
  · exact .inl same
  · refine .inr ((StableSort.pair_sublist_or same inLeft inRight).resolve_right fun sub => ?_)
    have behind := List.pairwise_iff_forall_sublist.mp order sub
    obtain ⟨-, ends⟩ := insideHigh
    obtain ⟨starts, -⟩ := insideLow
    omega

/-- Intervals in order share no position. -/
theorem InOrder.eq_of_inside {parts : List (Nat × Nat)} (order : InOrder parts)
    {left right : Nat × Nat} (inLeft : left ∈ parts) (inRight : right ∈ parts) {position : Nat}
    (inside : Inside left position) (inside' : Inside right position) : left = right := by
  by_contra distinct
  rcases StableSort.pair_sublist_or distinct inLeft inRight with sub | sub
  · have behind := List.pairwise_iff_forall_sublist.mp order sub
    obtain ⟨-, ends⟩ := inside
    obtain ⟨starts, -⟩ := inside'
    omega
  · have behind := List.pairwise_iff_forall_sublist.mp order sub
    obtain ⟨-, ends⟩ := inside'
    obtain ⟨starts, -⟩ := inside
    omega

/-! ## Items with a key -/

section Items

variable {α : Type} {key : α → Nat} {parts : List (Nat × Nat)} {items : List α}

/-- The items whose key lies in an interval. -/
def partAt (key : α → Nat) (span : Nat × Nat) (items : List α) : List α :=
  items.filter fun item => decide (span.1 ≤ key item) && decide (key item < span.2)

@[simp] theorem mem_partAt {span : Nat × Nat} {item : α} :
    item ∈ partAt key span items ↔ item ∈ items ∧ Inside span (key item) := by
  simp [partAt, Inside]

/-- The parts in the order of the intervals. -/
def cutAt (key : α → Nat) (parts : List (Nat × Nat)) (items : List α) : List (List α) :=
  parts.map fun span => partAt key span items

/-- Items that meet one of two exclusive conditions. -/
theorem filter_append_filter {here later : α → Bool}
    (apart : ∀ item ∈ items, later item = true → here item = false) :
    items.filter here ++ items.filter later ~ items.filter fun item => here item || later item := by
  have split := List.filter_append_perm here (items.filter fun item => here item || later item)
  rw [List.filter_filter, List.filter_filter] at split
  refine List.Perm.trans (.of_eq ?_) split
  congr 1
  · apply List.filter_congr
    intro item _
    cases here item <;> simp
  · apply List.filter_congr
    intro item member
    by_cases reached : later item = true
    · rw [reached, apart item member reached]
      rfl
    · rw [Bool.not_eq_true] at reached
      rw [reached]
      cases here item <;> simp

/-- Intervals in order give each item they reach to one part. -/
theorem flatten_cutAt (order : InOrder parts) :
    (cutAt key parts items).flatten ~ items.filter fun item =>
      parts.any fun span => decide (span.1 ≤ key item) && decide (key item < span.2) := by
  induction parts with
  | nil => simp [cutAt]
  | cons span rest ih =>
      obtain ⟨behind, order⟩ := List.pairwise_cons.mp order
      rw [cutAt, List.map_cons, List.flatten_cons]
      refine ((ih order).append_left _).trans (filter_append_filter ?_)
      intro item _ reached
      obtain ⟨other, member, inside⟩ := List.any_eq_true.mp reached
      have := behind other member
      simp only [Bool.and_eq_true, decide_eq_true_eq, Bool.and_eq_false_iff,
        decide_eq_false_iff_not] at inside ⊢
      omega

theorem flatten_cutAt_subperm (order : InOrder parts) :
    (cutAt key parts items).flatten <+~ items :=
  (flatten_cutAt order).subperm.trans List.filter_sublist.subperm

/-- Of two items the one with the smaller key comes first, or both are in one part. -/
theorem same_or_before_cutAt (order : InOrder parts) {low high : α} (inLow : low ∈ items)
    (inHigh : high ∈ items) (below : key low ≤ key high)
    (reached : ∀ item ∈ items, ∃ span ∈ parts, Inside span (key item)) :
    (∃ part ∈ cutAt key parts items, low ∈ part ∧ high ∈ part) ∨
      ∃ first second, [first, second] <+ cutAt key parts items ∧ low ∈ first ∧ high ∈ second := by
  obtain ⟨left, inLeft, insideLow⟩ := reached low inLow
  obtain ⟨right, inRight, insideHigh⟩ := reached high inHigh
  rcases order.same_or_before inLeft inRight insideLow insideHigh below with rfl | sub
  · exact .inl ⟨_, List.mem_map_of_mem inLeft, mem_partAt.mpr ⟨inLow, insideLow⟩,
      mem_partAt.mpr ⟨inHigh, insideHigh⟩⟩
  · exact .inr ⟨_, _, sub.map _, mem_partAt.mpr ⟨inLow, insideLow⟩,
      mem_partAt.mpr ⟨inHigh, insideHigh⟩⟩

end Items

end AiCoreStack.Foundation
