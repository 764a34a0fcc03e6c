import Mathlib

/-!
# Programs under one lock

Tasks run programs on a shared state, each between taking and giving back one lock.  A crash
leaves the lock free and a torn state behind.  When programs answer alike from all valid states,
and whatever happens leaves a valid state, every task that comes to its end answers as if alone.
-/

namespace AiCoreStack.Foundation

/-- A program on a state: it ends with an answer, or acts on the state and goes on with what the
action gives. -/
inductive Program (S A R : Type) where
  | done (answer : R)
  | act (action : S → A × S) (next : A → Program S A R)

namespace Program

variable {S A R : Type}

/-- The answer of a program and the state it leaves, when nothing comes between. -/
def run : Program S A R → S → R × S
  | .done answer, s => (answer, s)
  | .act action next, s => (next (action s).1).run (action s).2

/-- The program with its answer worked on. -/
def map {Q : Type} (work : R → Q) : Program S A R → Program S A Q
  | .done answer => .done (work answer)
  | .act action next => .act action fun given => (next given).map work

theorem run_map {Q : Type} (work : R → Q) (program : Program S A R) (s : S) :
    ((program.map work).run s).1 = work (program.run s).1 := by
  induction program generalizing s with
  | done answer => rfl
  | act action next ih => exact ih _ _

/-- The actions of a program leave valid states. -/
inductive Keeps (valid : S → Prop) : Program S A R → Prop
  | done (answer : R) : Keeps valid (.done answer)
  | act {action : S → A × S} {next : A → Program S A R}
      (kept : ∀ {s}, valid s → valid (action s).2) (later : ∀ given, Keeps valid (next given)) :
      Keeps valid (.act action next)

theorem Keeps.map {Q : Type} {valid : S → Prop} {program : Program S A R}
    (keeps : program.Keeps valid) (work : R → Q) : (program.map work).Keeps valid := by
  induction keeps with
  | done answer => exact .done _
  | act kept _ ih => exact .act kept ih

/-- A program answers alike from all valid states. -/
def Restarts (valid : S → Prop) (program : Program S A R) : Prop :=
  ∀ s s' : S, valid s → valid s' → (program.run s).1 = (program.run s').1

theorem Restarts.map {Q : Type} {valid : S → Prop} {program : Program S A R}
    (restarts : program.Restarts valid) (work : R → Q) : (program.map work).Restarts valid := by
  intro s s' sound sound'
  rw [run_map, run_map, restarts s s' sound sound']

end Program

/-- Tasks around a shared state: what the task with the lock still has to do, and how the tasks
that have given the lock back came to their end, by an answer or by a crash. -/
structure Shared (ι S A R : Type) where
  state : S
  holder : Option (ι × Program S A R)
  ended : ι → Option (Option R)

namespace Shared

variable {ι S A R : Type} [DecidableEq ι] {program : ι → Program S A R} {torn : S → S → Prop}

def start (s : S) : Shared ι S A R := ⟨s, none, fun _ => none⟩

/-- One step of some task. -/
inductive Step (program : ι → Program S A R) (torn : S → S → Prop) :
    Shared ι S A R → Shared ι S A R → Prop
  | lock (w : Shared ι S A R) (task : ι) (free : w.holder = none) (fresh : w.ended task = none) :
      Step program torn w { w with holder := some (task, program task) }
  | act (w : Shared ι S A R) (task : ι) (action : S → A × S) (next : A → Program S A R)
      (held : w.holder = some (task, .act action next)) :
      Step program torn w
        { w with
          state := (action w.state).2
          holder := some (task, next (action w.state).1) }
  | crash (w : Shared ι S A R) (task : ι) (rest : Program S A R) (s : S)
      (held : w.holder = some (task, rest)) (left : torn w.state s) :
      Step program torn w
        { state := s, holder := none, ended := Function.update w.ended task (some none) }
  | unlock (w : Shared ι S A R) (task : ι) (answer : R)
      (held : w.holder = some (task, .done answer)) :
      Step program torn w
        { w with holder := none, ended := Function.update w.ended task (some (some answer)) }

def Reachable (program : ι → Program S A R) (torn : S → S → Prop) (s : S)
    (w : Shared ι S A R) : Prop :=
  Relation.ReflTransGen (Step program torn) (start s) w

/-- The task with the lock is on the way to the answer that it gives alone, and those that have
answered gave it. -/
structure Isolated (program : ι → Program S A R) (valid : S → Prop) (s : S)
    (w : Shared ι S A R) : Prop where
  sound : valid w.state
  underway : ∀ task rest, w.holder = some (task, rest) →
    rest.Keeps valid ∧ (rest.run w.state).1 = ((program task).run s).1
  answered : ∀ task answer, w.ended task = some (some answer) →
    answer = ((program task).run s).1

variable {valid : S → Prop} {s : S} {w w' : Shared ι S A R}

theorem Isolated.step (keeps : ∀ task, (program task).Keeps valid)
    (restarts : ∀ task, (program task).Restarts valid)
    (robust : ∀ {s s'}, torn s s' → valid s → valid s') (sound : valid s)
    (isolated : Isolated program valid s w) (step : Step program torn w w') :
    Isolated program valid s w' := by
  cases step with
  | lock task free fresh =>
      refine { isolated with underway := ?_ }
      rintro _ _ ⟨⟩
      exact ⟨keeps task, restarts task _ _ isolated.sound sound⟩
  | act task action next held =>
      obtain ⟨kept, same⟩ := isolated.underway _ _ held
      cases kept with
      | act kept later =>
          refine ⟨kept isolated.sound, ?_, isolated.answered⟩
          rintro _ _ ⟨⟩
          exact ⟨later _, same⟩
  | crash task rest s held left =>
      refine ⟨robust left isolated.sound, by simp, ?_⟩
      intro other answer given
      by_cases same : other = task
      · subst same
        simp at given
      · simp only [Function.update_of_ne same] at given
        exact isolated.answered other answer given
  | unlock task answer held =>
      refine ⟨isolated.sound, by simp, ?_⟩
      intro other answer' given
      by_cases same : other = task
      · subst same
        simp only [Function.update_self, Option.some.injEq] at given
        rw [← given]
        exact (isolated.underway _ _ held).2
      · simp only [Function.update_of_ne same] at given
        exact isolated.answered other answer' given

theorem Reachable.isolated (keeps : ∀ task, (program task).Keeps valid)
    (restarts : ∀ task, (program task).Restarts valid)
    (robust : ∀ {s s'}, torn s s' → valid s → valid s') (sound : valid s)
    (reached : Reachable program torn s w) : Isolated program valid s w := by
  induction reached with
  | refl => exact ⟨sound, by simp [start], by simp [start]⟩
  | tail _ step ih => exact ih.step keeps restarts robust sound step

end Shared

end AiCoreStack.Foundation
