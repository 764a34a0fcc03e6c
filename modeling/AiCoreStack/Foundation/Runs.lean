import Mathlib

/-!
# Runs

What is known of a list that is read item by item from the front.
-/

namespace AiCoreStack.Foundation

variable {α : Type}

/-- A property of the items read so far that every further item keeps exactly when it
meets a condition holds of a list exactly when all its items meet the condition. -/
theorem forall_split_iff {property : List α → Prop} {condition : List α → α → Prop}
    (start : property [])
    (step : ∀ read item, property (read ++ [item]) ↔ property read ∧ condition read item)
    (items : List α) :
    property items ↔
      ∀ before item after, items = before ++ item :: after → condition before item := by
  induction items using List.reverseRecOn with
  | nil => simpa using start
  | append_singleton read item ih =>
      rw [step, ih]
      constructor
      · rintro ⟨earlier, last⟩ before other after split
        rcases List.eq_nil_or_concat after with rfl | ⟨front, final, rfl⟩
        · obtain ⟨rfl, same⟩ := List.append_inj' split rfl
          rwa [← List.cons.inj same |>.1]
        · rw [List.concat_eq_append, ← List.cons_append, ← List.append_assoc] at split
          exact earlier before other front (List.append_inj' split rfl).1
      · intro every
        refine ⟨fun before other after split => ?_, every read item [] rfl⟩
        exact every before other (after ++ [item]) (by rw [split]; simp)

theorem forall_split_nil {condition : List α → α → Prop} :
    ∀ before item after, [] = before ++ item :: after → condition before item := by
  intro before item after split
  simp at split

/-- Every item meets a condition exactly when the first one does and all behind it do. -/
theorem forall_split_cons {condition : List α → α → Prop} (first : α) (rest : List α) :
    (∀ before item after, first :: rest = before ++ item :: after → condition before item) ↔
      condition [] first ∧ ∀ before item after, rest = before ++ item :: after →
        condition (first :: before) item := by
  constructor
  · intro every
    refine ⟨every [] first rest rfl, fun before item after split => ?_⟩
    exact every (first :: before) item after (by rw [split, List.cons_append])
  · rintro ⟨head, tail⟩ before item after split
    cases before with
    | nil => rwa [← (List.cons.inj split).1]
    | cons other before =>
        obtain ⟨rfl, behind⟩ := List.cons.inj split
        exact tail before item after behind

/-! ## Balances

A machine that reads events holds some content.  Every step accounts for what it takes in:
what the machine holds afterwards and what the step drops are what it held before and what
it took in. -/

section Balance

variable {σ ε : Type} {step : σ → ε → σ} {content : σ → Multiset α}
variable {taken dropped : σ → ε → Multiset α}

/-- What the steps of a run take in together. -/
def takenAlong (step : σ → ε → σ) (taken : σ → ε → Multiset α) (state : σ) :
    List ε → Multiset α
  | [] => 0
  | event :: rest => taken state event + takenAlong step taken (step state event) rest

theorem takenAlong_snoc (state : σ) (events : List ε) (event : ε) :
    takenAlong step taken state (events ++ [event]) =
      takenAlong step taken state events + taken (events.foldl step state) event := by
  induction events generalizing state with
  | nil => simp [takenAlong]
  | cons first rest ih => rw [List.cons_append, takenAlong, ih, takenAlong, add_assoc]; rfl

/-- Runs that take in the same at every step take in the same together. -/
theorem takenAlong_congr {τ : Type} {step' : τ → ε → τ} {taken' : τ → ε → Multiset α}
    {state : σ} {state' : τ} {events : List ε}
    (same : ∀ before event after, events = before ++ event :: after →
      taken (before.foldl step state) event = taken' (before.foldl step' state') event) :
    takenAlong step taken state events = takenAlong step' taken' state' events := by
  induction events generalizing state state' with
  | nil => rfl
  | cons event events ih =>
      obtain ⟨first, rest⟩ := (@forall_split_cons _ (fun before event =>
        taken (before.foldl step state) event = taken' (before.foldl step' state') event)
        event events).mp same
      rw [takenAlong, takenAlong, ih rest]
      exact congrArg (· + _) first

variable (balance : ∀ state event,
  content (step state event) + dropped state event = content state + taken state event)

include balance

/-- A run holds no more than it took in. -/
theorem content_le_takenAlong (state : σ) (events : List ε) :
    content (events.foldl step state) ≤ content state + takenAlong step taken state events := by
  induction events using List.reverseRecOn with
  | nil => simp [takenAlong]
  | append_singleton events event ih =>
      rw [List.foldl_append, takenAlong_snoc, ← add_assoc]
      calc content (step (events.foldl step state) event)
          ≤ content (step (events.foldl step state) event) +
              dropped (events.foldl step state) event := Multiset.le_add_right _ _
        _ = content (events.foldl step state) + taken (events.foldl step state) event :=
            balance _ _
        _ ≤ _ := add_le_add_left ih _

/-- A run holds all it took in exactly when no step drops anything. -/
theorem content_eq_takenAlong_iff (state : σ) (events : List ε) :
    content (events.foldl step state) = content state + takenAlong step taken state events ↔
      ∀ before event after, events = before ++ event :: after →
        dropped (before.foldl step state) event = 0 := by
  apply @forall_split_iff _ fun read =>
    content (read.foldl step state) = content state + takenAlong step taken state read
  · simp [takenAlong]
  intro read event
  have law := balance (read.foldl step state) event
  have bound := content_le_takenAlong balance state read
  rw [List.foldl_append, takenAlong_snoc, ← add_assoc]
  change content (step (read.foldl step state) event) = _ ↔ _
  constructor
  · intro whole
    rw [whole, add_assoc, add_comm (taken _ _), ← add_assoc] at law
    have equal := add_right_cancel law
    have nothing : dropped (read.foldl step state) event = 0 := by
      rw [← equal] at bound
      simpa using bound
    rw [nothing, add_zero] at equal
    exact ⟨equal.symm, nothing⟩
  · rintro ⟨whole, nothing⟩
    rw [nothing, add_zero, whole] at law
    exact law

/-- What comes out of a run is all it took in exactly when no step drops anything and
nothing is left behind. -/
theorem kept_eq_takenAlong_iff (state : σ) (events : List ε) {kept left : Multiset α}
    (result : kept + left = content (events.foldl step state)) :
    kept = content state + takenAlong step taken state events ↔
      (∀ before event after, events = before ++ event :: after →
        dropped (before.foldl step state) event = 0) ∧ left = 0 := by
  have bound := content_le_takenAlong balance state events
  rw [← content_eq_takenAlong_iff balance, ← result]
  rw [← result] at bound
  constructor
  · intro whole
    rw [← whole] at bound ⊢
    have nothing : left = 0 := by simpa using bound
    exact ⟨by rw [nothing, add_zero], nothing⟩
  · rintro ⟨whole, rfl⟩
    rw [← whole, add_zero]

end Balance

/-- Positions increase along a list. -/
theorem pairwise_zipIdx (items : List α) :
    items.zipIdx.Pairwise fun left right => left.2 < right.2 := by
  rw [← List.pairwise_map (f := Prod.snd) (R := (· < ·)), List.zipIdx_map_snd]
  exact List.pairwise_lt_range'

end AiCoreStack.Foundation
