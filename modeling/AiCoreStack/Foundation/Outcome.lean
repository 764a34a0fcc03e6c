import Mathlib

/-!
# Computations that may fail

When a sequence of fallible steps ends with a value or with an error: `bind`, `map` and
traversals in `Except`.
-/

namespace AiCoreStack.Foundation

universe u v

variable {ε : Type u} {α β : Type v}

theorem bind_ok_iff {step : Except ε α} {next : α → Except ε β} {result : β} :
    step.bind next = .ok result ↔ ∃ value, step = .ok value ∧ next value = .ok result := by
  cases step <;> simp [Except.bind]

theorem map_ok_iff {step : Except ε α} {next : α → β} {result : β} :
    step.map next = .ok result ↔ ∃ value, step = .ok value ∧ next value = result := by
  cases step <;> simp [Except.map]

/-! ## The monad and its traversals -/

@[simp] theorem ok_bind {α β ε : Type} (value : α) (next : α → Except ε β) :
    (Except.ok value >>= next) = next value := rfl

theorem bind_eq_ok {α β ε : Type} {step : Except ε α} {next : α → Except ε β} {result : β}
    (ran : (step >>= next) = .ok result) :
    ∃ value, step = .ok value ∧ next value = .ok result :=
  bind_ok_iff.mp ran

/-- A traversal whose steps all succeed. -/
theorem mapM_ok {α β ε : Type} (γ : Type) {f : α → Except ε β} {xs : List α}
    (total : ∀ x ∈ xs, ∃ y, f x = .ok y) :
    ∃ ys, xs.mapM f = .ok ys ∧
      ∀ g : β → Option γ, ys.filterMap g = xs.filterMap fun x => (f x).toOption.bind g := by
  induction xs with
  | nil => exact ⟨[], rfl, by simp⟩
  | cons x xs ih =>
      rw [List.forall_mem_cons] at total
      obtain ⟨y, head⟩ := total.1
      obtain ⟨ys, tail, mapped⟩ := ih total.2
      refine ⟨y :: ys, ?_, ?_⟩
      · rw [List.mapM_cons, head, tail]
        rfl
      · intro g
        rw [List.filterMap_cons, List.filterMap_cons, mapped g, head]
        rfl

theorem forall₂_of_mapM {α β ε : Type} {f : α → Except ε β} {xs : List α} {ys : List β}
    (mapped : xs.mapM f = .ok ys) : List.Forall₂ (fun x y => f x = .ok y) xs ys := by
  induction xs generalizing ys with
  | nil =>
      obtain rfl : [] = ys := by simpa [pure, Except.pure] using mapped
      exact .nil
  | cons x xs ih =>
      rw [List.mapM_cons] at mapped
      obtain ⟨y, head, mapped⟩ := bind_eq_ok mapped
      obtain ⟨rest, tail, mapped⟩ := bind_eq_ok mapped
      obtain rfl := Except.ok.inj mapped
      exact .cons head (ih tail)

theorem mem_mapM_ok {α β ε : Type} {f : α → Except ε β} {xs : List α} {ys : List β}
    (mapped : xs.mapM f = .ok ys) :
    (∀ y ∈ ys, ∃ x ∈ xs, f x = .ok y) ∧ ∀ x ∈ xs, ∃ y, f x = .ok y := by
  have paired := forall₂_of_mapM mapped
  clear mapped
  induction paired with
  | nil => simp
  | cons head _ ih =>
      rw [List.forall_mem_cons, List.forall_mem_cons]
      refine ⟨⟨⟨_, List.mem_cons_self, head⟩, ?_⟩, ⟨_, head⟩, ih.2⟩
      intro y member
      obtain ⟨x, inside, eq⟩ := ih.1 y member
      exact ⟨x, List.mem_cons_of_mem _ inside, eq⟩

/-! ## Computations with a state -/

/-- Whatever the state, the computation ends with a value that satisfies `post`. -/
def Ends {σ α : Type} (step : StateT σ Option α) (post : α → Prop) : Prop :=
  ∀ s, ∃ a s', step.run s = some (a, s') ∧ post a

namespace Ends

variable {σ α β : Type} {step : StateT σ Option α} {post : α → Prop}

theorem pure {a : α} (holds : post a) : Ends (Pure.pure a : StateT σ Option α) post :=
  fun s => ⟨a, s, rfl, holds⟩

theorem lift {option : Option α} {a : α} (found : option = some a) (holds : post a) :
    Ends (StateT.lift option : StateT σ Option α) post :=
  fun s => ⟨a, s, by rw [found]; rfl, holds⟩

theorem bind {next : α → StateT σ Option β} {after : β → Prop} (ends : Ends step post)
    (continues : ∀ a, post a → Ends (next a) after) : Ends (step >>= next) after := by
  intro s
  obtain ⟨a, s', ran, holds⟩ := ends s
  obtain ⟨b, s'', ran', holds'⟩ := continues a holds s'
  refine ⟨b, s'', ?_, holds'⟩
  rw [StateT.run_bind, ran]
  exact ran'

theorem mono {post' : α → Prop} (ends : Ends step post) (weaker : ∀ a, post a → post' a) :
    Ends step post' := by
  intro s
  obtain ⟨a, s', ran, holds⟩ := ends s
  exact ⟨a, s', ran, weaker a holds⟩

theorem mapM {f : α → StateT σ Option β} {related : α → β → Prop} {xs : List α}
    (each : ∀ x ∈ xs, Ends (f x) (related x)) : Ends (xs.mapM f) (List.Forall₂ related xs) := by
  induction xs with
  | nil =>
      rw [List.mapM_nil]
      exact .pure .nil
  | cons x xs ih =>
      rw [List.forall_mem_cons] at each
      rw [List.mapM_cons]
      exact each.1.bind fun y head => (ih each.2).bind fun ys tail => .pure (.cons head tail)

end Ends

end AiCoreStack.Foundation
