import Mathlib

/-!
# A bounded channel

One task sends events into a channel of bounded capacity, and a receiver takes them out in order
until it hangs up.  A send waits for room and fails once the receiver is gone.  Whatever the
order of steps, the receiver gets the events of a task none of whose sends fails, up to where it
hangs up.
-/

namespace AiCoreStack.Foundation

/-- A task that sends events.  It is given by the events that it sends when the sends are answered
in a given way, and no event depends on the answers to it and to later ones. -/
structure Sender (E : Type) where
  events : (Nat → Bool) → List E
  causal : ∀ {answers others : Nat → Bool} (n : Nat), (∀ i < n, answers i = others i) →
    (events answers).take (n + 1) = (events others).take (n + 1)

/-- The answers to the sends of a task when the receiver hangs up after so many. -/
def upTo (accepted : Nat) : Nat → Bool := fun i => i < accepted

namespace Sender

variable {E : Type} (s : Sender E)

/-- The events that are sent to a receiver that stays. -/
def whole : List E := s.events fun _ => true

/-- Up to the first send that fails, the events are those for a receiver that stays. -/
theorem take_upTo (accepted : Nat) :
    (s.events (upTo accepted)).take (accepted + 1) = s.whole.take (accepted + 1) :=
  s.causal accepted fun _ below => decide_eq_true below

end Sender

/-- The state of the channel, with the number of sends that went through and that failed. -/
structure Wire (E : Type) where
  accepted : Nat
  failed : Nat
  connected : Bool
  buffer : List E
  received : List E

namespace Wire

variable {E : Type} {s : Sender E} {capacity : Nat}

def start : Wire E := ⟨0, 0, true, [], []⟩

/-- The event that the task sends next, if it is not done. -/
def next (s : Sender E) (w : Wire E) : Option E :=
  (s.events (upTo w.accepted))[w.accepted + w.failed]?

/-- One step of the task, of the receiver, or of whoever cuts the connection. -/
inductive Step (s : Sender E) (capacity : Nat) : Wire E → Wire E → Prop
  | send (w : Wire E) (event : E) (connected : w.connected = true)
      (room : w.buffer.length < capacity) (sent : w.next s = some event) :
      Step s capacity w { w with accepted := w.accepted + 1, buffer := w.buffer ++ [event] }
  | fail (w : Wire E) (event : E) (gone : w.connected = false) (sent : w.next s = some event) :
      Step s capacity w { w with failed := w.failed + 1 }
  | receive (w : Wire E) (event : E) (rest : List E) (connected : w.connected = true)
      (first : w.buffer = event :: rest) :
      Step s capacity w { w with buffer := rest, received := w.received ++ [event] }
  | hangUp (w : Wire E) (connected : w.connected = true) :
      Step s capacity w { w with connected := false, buffer := [] }

def Reachable (s : Sender E) (capacity : Nat) (w : Wire E) : Prop :=
  Relation.ReflTransGen (Step s capacity) start w

/-- What the receiver has got is the beginning of what a receiver that stays gets. -/
structure Faithful (s : Sender E) (capacity : Nat) (w : Wire E) : Prop where
  unfailed : w.connected = true → w.failed = 0
  sent : w.connected = true → w.received ++ w.buffer = s.whole.take w.accepted
  short : w.buffer.length ≤ capacity
  begun : w.received <+: s.whole.take w.accepted
  enough : w.accepted ≤ s.whole.length
  lost : w.accepted ≤ w.received.length + capacity
  stopped : w.failed ≠ 0 → w.accepted + w.failed ≤ (s.events (upTo w.accepted)).length

variable {w w' : Wire E}

/-- The next event of a task whose sends went through. -/
theorem next_eq (unfailed : w.failed = 0) : w.next s = s.whole[w.accepted]? := by
  have same := congrArg (fun events => events[w.accepted]?) (s.take_upTo w.accepted)
  simp only [List.getElem?_take, Nat.lt_succ_self, if_true] at same
  rw [next, unfailed, Nat.add_zero, same]

theorem Faithful.initial : Faithful s capacity start where
  unfailed := fun _ => rfl
  sent := fun _ => rfl
  short := Nat.zero_le _
  begun := List.prefix_rfl
  enough := Nat.zero_le _
  lost := Nat.zero_le _
  stopped := fun none => absurd rfl none

theorem Faithful.step (faithful : Faithful s capacity w) (step : Step s capacity w w') :
    Faithful s capacity w' := by
  cases step with
  | send event connected room sent =>
      have unfailed := faithful.unfailed connected
      rw [next_eq unfailed] at sent
      have longer : s.whole.take (w.accepted + 1) = s.whole.take w.accepted ++ [event] := by
        rw [List.take_add_one, sent]
        rfl
      have bound := List.getElem?_eq_some_iff.mp sent
      have all := congrArg List.length (faithful.sent connected)
      rw [List.length_append, List.length_take, Nat.min_eq_left faithful.enough] at all
      constructor
      · exact faithful.unfailed
      · intro _
        simp only
        rw [longer, ← faithful.sent connected, List.append_assoc]
      · rw [List.length_append, List.length_singleton]
        exact room
      · simp only
        rw [longer]
        exact faithful.begun.trans (List.prefix_append _ _)
      · exact bound.1
      · simp only
        omega
      · exact fun some_ => absurd unfailed some_
  | fail event gone sent =>
      have more := (List.getElem?_eq_some_iff.mp sent).1
      exact { faithful with
        unfailed := fun connected => absurd (connected.symm.trans gone) (by decide)
        sent := fun connected => absurd (connected.symm.trans gone) (by decide)
        stopped := fun _ => more }
  | receive event rest connected first =>
      have sent := faithful.sent connected
      have short := faithful.short
      have lost := faithful.lost
      rw [first] at sent short
      rw [List.length_cons] at short
      have moved : w.received ++ [event] ++ rest = s.whole.take w.accepted := by
        rw [← sent, List.append_assoc, List.singleton_append]
      exact { faithful with
        sent := fun _ => moved
        short := (Nat.lt_of_succ_le short).le
        begun := ⟨rest, moved⟩
        lost := by
          simp only
          rw [List.length_append, List.length_singleton]
          omega }
  | hangUp connected =>
      exact { faithful with
        unfailed := fun _ => faithful.unfailed connected
        sent := fun again => absurd again Bool.false_ne_true
        short := Nat.zero_le _ }

theorem Reachable.faithful (reached : Reachable s capacity w) : Faithful s capacity w := by
  induction reached with
  | refl => exact .initial
  | tail _ step ih => exact ih.step step

/-- The task is done and the receiver has taken everything out. -/
def Done (s : Sender E) (w : Wire E) : Prop := w.buffer = [] ∧ w.next s = none

/-- A receiver that stays has got all events when the task is done. -/
theorem Faithful.complete (faithful : Faithful s capacity w) (connected : w.connected = true)
    (done : w.Done s) : w.received = s.whole := by
  obtain ⟨empty, finished⟩ := done
  rw [next_eq (faithful.unfailed connected), List.getElem?_eq_none_iff] at finished
  have sent := faithful.sent connected
  rwa [empty, List.append_nil, List.take_of_length_le finished] at sent

/-- How many steps the task and the receiver still take if the receiver stays. -/
def remaining (s : Sender E) (w : Wire E) : Nat :=
  2 * (s.whole.length - w.accepted) + w.buffer.length

/-- As long as the receiver stays, every step brings the end nearer. -/
theorem Faithful.remaining_lt (faithful : Faithful s capacity w) (step : Step s capacity w w')
    (connected : w'.connected = true) : w'.remaining s < w.remaining s := by
  cases step with
  | send event connected_ room sent =>
      rw [next_eq (faithful.unfailed connected)] at sent
      have bound := (List.getElem?_eq_some_iff.mp sent).1
      simp only [remaining, List.length_append, List.length_singleton]
      omega
  | fail event gone sent => exact absurd (connected.symm.trans gone) (by decide)
  | receive event rest connected_ first =>
      simp only [remaining, first, List.length_cons]
      omega
  | hangUp connected_ => exact absurd connected Bool.false_ne_true

/-- With any room at all the task and a receiver that stays never wait for each other. -/
theorem exists_step (positive : 0 < capacity) (connected : w.connected = true)
    (busy : ¬ w.Done s) : ∃ w', Step s capacity w w' ∧ w'.connected = true := by
  cases buffer : w.buffer with
  | cons event rest => exact ⟨_, .receive w event rest connected buffer, connected⟩
  | nil =>
      cases sent : w.next s with
      | none => exact absurd ⟨buffer, sent⟩ busy
      | some event =>
          refine ⟨_, .send w event connected ?_ sent, connected⟩
          rw [buffer]
          exact positive

/-- A receiver that stays can always get the rest. -/
theorem Faithful.exists_run (faithful : Faithful s capacity w) (positive : 0 < capacity)
    (connected : w.connected = true) :
    ∃ w', Relation.ReflTransGen (Step s capacity) w w' ∧ w'.received = s.whole := by
  induction left : w.remaining s using Nat.strong_induction_on generalizing w with
  | _ left ih =>
      by_cases done : w.Done s
      · exact ⟨w, .refl, faithful.complete connected done⟩
      · obtain ⟨w', step, still⟩ := exists_step positive connected done
        have less := faithful.remaining_lt step still
        obtain ⟨last, run, whole⟩ := ih _ (left ▸ less) (faithful.step step) still rfl
        exact ⟨last, run.head step, whole⟩

end Wire

end AiCoreStack.Foundation
