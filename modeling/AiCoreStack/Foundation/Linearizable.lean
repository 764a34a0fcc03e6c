import Mathlib

/-!
# Linearizability

A history of calls and returns on a shared object linearizes when the calls can be served one
after the other, each at a moment between its call and its return.  The atomic object, which
serves a call in one step of its own, has only such histories, and so has every system that
follows it step by step.
-/

namespace AiCoreStack.Foundation.Linearizable

variable {ι S Op R : Type}

/-- What is seen of a run from outside. -/
inductive Visible (ι Op R : Type) where
  | call (task : ι) (op : Op)
  | ret (task : ι) (answer : R)

/-- The runs of labelled steps, with what is seen of them in order. -/
inductive Trace {W E : Type} (step : W → Option E → W → Prop) : W → List E → W → Prop
  | refl (w : W) : Trace step w [] w
  | silent {w w' w'' : W} {history : List E} (run : Trace step w history w')
      (last : step w' none w'') : Trace step w history w''
  | visible {w w' w'' : W} {history : List E} {event : E} (run : Trace step w history w')
      (last : step w' (some event) w'') : Trace step w (history ++ [event]) w''

/-- The answers of an object that serves calls one after the other, and its last state. -/
inductive Serves (object : Op → S → R × S) : S → List (ι × Op × R) → S → Prop
  | nil (s : S) : Serves object s [] s
  | snoc {s s' : S} {order : List (ι × Op × R)} (earlier : Serves object s order s') (task : ι)
      (op : Op) : Serves object s (order ++ [(task, op, (object op s').1)]) (object op s').2

/-- The calls of the order are made in the history and served in this order; every return of the
history is among them with its answer, no task is served twice, and a task that returned before
another one called is served before it. -/
structure Linearizes (object : Op → S → R × S) (s : S) (history : List (Visible ι Op R))
    (order : List (ι × Op × R)) (s' : S) : Prop where
  serves : Serves object s order s'
  once : (order.map Prod.fst).Nodup
  called : ∀ task op answer, (task, op, answer) ∈ order → .call task op ∈ history
  answered : ∀ task answer, .ret task answer ∈ history → ∃ op, (task, op, answer) ∈ order
  realTime : ∀ task answer later op, [.ret task answer, .call later op].Sublist history →
    later ∈ order.map Prod.fst → [task, later].Sublist (order.map Prod.fst)

/-- Two elements in order in a list with one more element at its end. -/
theorem pair_sublist_concat {α : Type} {x y e : α} {l : List α} :
    [x, y].Sublist (l ++ [e]) ↔ [x, y].Sublist l ∨ (x ∈ l ∧ y = e) := by
  have turned : [x, y].Sublist (l ++ [e]) ↔ [y, x].Sublist (e :: l.reverse) := by
    rw [← List.reverse_sublist]
    simp
  have turned' : [x, y].Sublist l ↔ [y, x].Sublist l.reverse := by
    rw [← List.reverse_sublist]
    simp
  rw [turned, turned', List.sublist_cons_iff]
  refine or_congr Iff.rfl ⟨?_, ?_⟩
  · rintro ⟨rest, split, inside⟩
    obtain ⟨rfl, rfl⟩ := List.cons.inj split
    exact ⟨List.mem_reverse.mp (List.singleton_sublist.mp inside), rfl⟩
  · rintro ⟨inside, rfl⟩
    exact ⟨[x], rfl, List.singleton_sublist.mpr (List.mem_reverse.mpr inside)⟩

/-- How far the call of a task is. -/
inductive Status (Op R : Type) where
  | idle
  | called (op : Op)
  | served (op : Op) (answer : R)
  | ended

/-- An object that serves each call in one step. -/
structure Atomic (ι S Op R : Type) where
  state : S
  status : ι → Status Op R

namespace Atomic

def start (s : S) : Atomic ι S Op R := ⟨s, fun _ => .idle⟩

/-- A task calls, is served, returns, or is stopped for ever. -/
inductive Step [DecidableEq ι] (object : Op → S → R × S) :
    Atomic ι S Op R → Option (Visible ι Op R) → Atomic ι S Op R → Prop
  | call (w : Atomic ι S Op R) (task : ι) (op : Op) (fresh : w.status task = .idle) :
      Step object w (some (.call task op))
        { w with status := Function.update w.status task (.called op) }
  | serve (w : Atomic ι S Op R) (task : ι) (op : Op) (waiting : w.status task = .called op) :
      Step object w none
        { state := (object op w.state).2
          status := Function.update w.status task (.served op (object op w.state).1) }
  | ret (w : Atomic ι S Op R) (task : ι) (op : Op) (answer : R)
      (done : w.status task = .served op answer) :
      Step object w (some (.ret task answer))
        { w with status := Function.update w.status task .ended }
  | stop (w : Atomic ι S Op R) (task : ι) (active : w.status task ≠ .idle) :
      Step object w none { w with status := Function.update w.status task .ended }

/-- What the status of a task says of the history and of the order so far. -/
def Recorded (history : List (Visible ι Op R)) (order : List (ι × Op × R)) (task : ι) :
    Status Op R → Prop
  | .idle => (∀ op, .call task op ∉ history) ∧ task ∉ order.map Prod.fst
  | .called op => .call task op ∈ history ∧ task ∉ order.map Prod.fst
  | .served op answer => (task, op, answer) ∈ order
  | .ended => True

theorem Recorded.later {history : List (Visible ι Op R)} {order : List (ι × Op × R)} {task : ι}
    {status : Status Op R} (recorded : Recorded history order task status)
    {event : Visible ι Op R} (other : ∀ op, event ≠ .call task op) :
    Recorded (history ++ [event]) order task status := by
  cases status with
  | idle =>
      refine ⟨fun op made => ?_, recorded.2⟩
      rcases List.mem_append.mp made with made | same
      · exact recorded.1 op made
      · exact other op (List.mem_singleton.mp same).symm
  | called op => exact ⟨List.mem_append_left _ recorded.1, recorded.2⟩
  | served op answer => exact recorded
  | ended => trivial

theorem Recorded.after {history : List (Visible ι Op R)} {order : List (ι × Op × R)} {task : ι}
    {status : Status Op R} (recorded : Recorded history order task status)
    {entry : ι × Op × R} (other : task ≠ entry.1) :
    Recorded history (order ++ [entry]) task status := by
  cases status with
  | idle => exact ⟨recorded.1, by simp [other, recorded.2]⟩
  | called op => exact ⟨recorded.1, by simp [other, recorded.2]⟩
  | served op answer => exact List.mem_append_left _ recorded
  | ended => trivial

/-- The order in which the tasks are served linearizes the history. -/
structure Ordered (object : Op → S → R × S) (s : S) (history : List (Visible ι Op R))
    (order : List (ι × Op × R)) (w : Atomic ι S Op R) : Prop where
  linearizes : Linearizes object s history order w.state
  recorded : ∀ task, Recorded history order task (w.status task)

variable [DecidableEq ι] {object : Op → S → R × S} {s : S} {history : List (Visible ι Op R)}
  {order : List (ι × Op × R)} {w w' : Atomic ι S Op R}

theorem Ordered.call (ordered : Ordered object s history order w) {task : ι} {op : Op}
    (fresh : w.status task = .idle) :
    Ordered object s (history ++ [.call task op]) order
      { w with status := Function.update w.status task (.called op) } := by
  obtain ⟨linearizes, recorded⟩ := ordered
  have unserved : task ∉ order.map Prod.fst := by
    have here := recorded task
    rw [fresh] at here
    exact here.2
  refine ⟨{ linearizes with called := ?_, answered := ?_, realTime := ?_ }, ?_⟩
  · exact fun other op' answer inside =>
      List.mem_append_left _ (linearizes.called other op' answer inside)
  · intro other answer returned
    rcases List.mem_append.mp returned with returned | same
    · exact linearizes.answered other answer returned
    · simp at same
  · intro other answer later op' both served
    rcases pair_sublist_concat.mp both with both | ⟨_, same⟩
    · exact linearizes.realTime other answer later op' both served
    · cases same
      exact absurd served unserved
  · refine (Function.forall_update_iff _ _).mpr ⟨?_, fun other same => ?_⟩
    · exact ⟨List.mem_append_right _ (List.mem_singleton_self _), unserved⟩
    · refine (recorded other).later fun op' equal => same ?_
      injection equal with equal
      exact equal.symm

theorem Ordered.serve (ordered : Ordered object s history order w) {task : ι} {op : Op}
    (waiting : w.status task = .called op) :
    Ordered object s history (order ++ [(task, op, (object op w.state).1)])
      { state := (object op w.state).2
        status := Function.update w.status task (.served op (object op w.state).1) } := by
  obtain ⟨linearizes, recorded⟩ := ordered
  have here := recorded task
  rw [waiting] at here
  obtain ⟨made, unserved⟩ := here
  refine ⟨⟨.snoc linearizes.serves task op, ?_, ?_, ?_, ?_⟩, ?_⟩
  · rw [List.map_append, List.nodup_append]
    refine ⟨linearizes.once, List.nodup_singleton _, ?_⟩
    rintro other inside _ last rfl
    rw [List.mem_singleton.mp last] at inside
    exact unserved inside
  · intro other op' answer inside
    rcases List.mem_append.mp inside with inside | last
    · exact linearizes.called other op' answer inside
    · cases List.mem_singleton.mp last
      exact made
  · intro other answer returned
    obtain ⟨op', inside⟩ := linearizes.answered other answer returned
    exact ⟨op', List.mem_append_left _ inside⟩
  · intro other answer later op' both served
    rw [List.map_append] at served ⊢
    rcases List.mem_append.mp served with served | last
    · exact (linearizes.realTime other answer later op' both served).trans
        (List.sublist_append_left ..)
    · obtain ⟨op'', inside⟩ := linearizes.answered other answer
        (both.subset (List.mem_cons_self ..))
      exact pair_sublist_concat.mpr
        (.inr ⟨List.mem_map.mpr ⟨_, inside, rfl⟩, List.mem_singleton.mp last⟩)
  · refine (Function.forall_update_iff _ _).mpr ⟨?_, fun other same => ?_⟩
    · exact List.mem_append_right _ (List.mem_singleton_self _)
    · exact (recorded other).after same

theorem Ordered.ret (ordered : Ordered object s history order w) {task : ι} {op : Op} {answer : R}
    (done : w.status task = .served op answer) :
    Ordered object s (history ++ [.ret task answer]) order
      { w with status := Function.update w.status task .ended } := by
  obtain ⟨linearizes, recorded⟩ := ordered
  have here := recorded task
  rw [done] at here
  refine ⟨{ linearizes with called := ?_, answered := ?_, realTime := ?_ }, ?_⟩
  · exact fun other op' answer' inside =>
      List.mem_append_left _ (linearizes.called other op' answer' inside)
  · intro other answer' returned
    rcases List.mem_append.mp returned with returned | same
    · exact linearizes.answered other answer' returned
    · cases List.mem_singleton.mp same
      exact ⟨op, here⟩
  · intro other answer' later op' both served
    rcases pair_sublist_concat.mp both with both | ⟨_, same⟩
    · exact linearizes.realTime other answer' later op' both served
    · cases same
  · refine (Function.forall_update_iff _ _).mpr ⟨trivial, fun other _ => ?_⟩
    exact (recorded other).later (by simp)

theorem Ordered.stop (ordered : Ordered object s history order w) (task : ι) :
    Ordered object s history order
      { w with status := Function.update w.status task .ended } := by
  refine ⟨ordered.linearizes, (Function.forall_update_iff _ _).mpr ⟨trivial, ?_⟩⟩
  exact fun other _ => ordered.recorded other

/-- The histories of the atomic object linearize, with its own order of service. -/
theorem linearizes (run : Trace (Step object) (start s) history w) :
    ∃ order, Linearizes object s history order w.state := by
  suffices ordered : ∃ order, Ordered object s history order w from
    ordered.imp fun _ ordered => ordered.linearizes
  induction run with
  | refl =>
      refine ⟨[], ⟨.nil s, List.nodup_nil, by simp, by simp, by simp⟩, fun task => ?_⟩
      exact ⟨by simp, by simp⟩
  | silent _ last ih =>
      obtain ⟨order, ordered⟩ := ih
      cases last with
      | serve task op waiting => exact ⟨_, ordered.serve waiting⟩
      | stop task active => exact ⟨order, ordered.stop task⟩
  | visible _ last ih =>
      obtain ⟨order, ordered⟩ := ih
      cases last with
      | call task op fresh => exact ⟨order, ordered.call fresh⟩
      | ret task op answer done => exact ⟨order, ordered.ret done⟩

end Atomic

/-- A system each step of which is seen as a step of another one, or is not seen, has no other
histories. -/
theorem Trace.simulates {W W' E : Type} {step : W → Option E → W → Prop}
    {step' : W' → Option E → W' → Prop} {related : W → W' → Prop}
    (follows : ∀ {v v' : W} {event : Option E} {w : W'}, step v event v' → related v w →
      (event = none ∧ related v' w) ∨ ∃ w', step' w event w' ∧ related v' w')
    {v v' : W} {w : W'} {history : List E} (run : Trace step v history v')
    (begun : related v w) : ∃ w', Trace step' w history w' ∧ related v' w' := by
  induction run with
  | refl => exact ⟨w, .refl w, begun⟩
  | silent _ last ih =>
      obtain ⟨w', run', before⟩ := ih
      rcases follows last before with ⟨_, after⟩ | ⟨w'', last', after⟩
      · exact ⟨w', run', after⟩
      · exact ⟨w'', run'.silent last', after⟩
  | visible _ last ih =>
      obtain ⟨w', run', before⟩ := ih
      rcases follows last before with ⟨unseen, _⟩ | ⟨w'', last', after⟩
      · simp at unseen
      · exact ⟨w'', run'.visible last', after⟩

end AiCoreStack.Foundation.Linearizable
