import Mathlib
import AiCoreStack.Foundation.Spacing

/-!
# The limiter of a source

`MinIntervalLimiter::acquire` under any interleaving of its callers.  They share one fair mutex
around the time of the last request: the head of the queue gets the lock, sleeps for what is
missing of the interval, and writes down the time at which it goes on.  Time passes between any
two steps, and a caller may be dropped wherever it is suspended.
-/

namespace AiCoreStack.Scholar

open Foundation
open scoped List

structure MinIntervalLimiter where
  interval : Nat
  last : Option Nat
  deriving Repr, DecidableEq

namespace MinIntervalLimiter

def new (interval : Nat) : MinIntervalLimiter := ⟨interval, none⟩

/-- An interval in milliseconds, kept in nanoseconds. -/
def fromMillis (ms : Nat) : MinIntervalLimiter := new (ms * 1000000)

/-- What a caller that holds the lock has to sleep, if anything. -/
def rest (limiter : MinIntervalLimiter) (now : Nat) : Option Nat :=
  match limiter.last with
  | some prev =>
      let elapsed := now - prev
      if elapsed < limiter.interval then some (limiter.interval - elapsed) else none
  | none => none

end MinIntervalLimiter

/-- The limiter that `register` gives a source. -/
def limiterOf (minIntervalMs : Nat) : Option MinIntervalLimiter :=
  if 0 < minIntervalMs then some (.fromMillis minIntervalMs) else none

/-- How far the caller that has the lock is in `acquire`. -/
inductive Phase where
  /-- The lock is granted. -/
  | locked
  /-- The elapsed time is measured, and `rest` is missing. -/
  | measured (rest : Nat)
  /-- The sleep is under way, up to `wake` at least. -/
  | asleep (wake : Nat)
  /-- The current time is next to be written down. -/
  | ready
  deriving Repr, DecidableEq

/-- The points at which a future can be dropped: on the lock, and on the sleep. -/
def Phase.suspended : Phase → Bool
  | .locked | .asleep _ => true
  | .measured _ | .ready => false

variable {ι : Type}

/-- The limiter with its callers, and a record of what happened to the calls. -/
structure World (ι : Type) where
  now : Nat
  limiter : MinIntervalLimiter
  queue : List ι
  holder : Option (ι × Phase)
  calls : List ι
  admitted : List (ι × Nat)
  dropped : List ι

namespace World

def start (limiter : MinIntervalLimiter) : World ι := ⟨0, limiter, [], none, [], [], []⟩

/-- The caller that has the lock, if any, and the ones behind it. -/
def line (w : World ι) : List ι := w.holder.toList.map Prod.fst ++ w.queue

/-- The times at which `acquire` returned. -/
def times (w : World ι) : List Nat := w.admitted.map Prod.snd

/-- One step of the clock, of a caller, or of whoever drops a caller. -/
inductive Step : World ι → World ι → Prop
  | tick (w : World ι) (passed : Nat) : Step w { w with now := w.now + passed }
  /-- Without an interval the call returns at once. -/
  | pass (w : World ι) (task : ι) (free : w.limiter.interval = 0) (fresh : task ∉ w.calls) :
      Step w { w with calls := w.calls ++ [task], admitted := w.admitted ++ [(task, w.now)] }
  | call (w : World ι) (task : ι) (paced : w.limiter.interval ≠ 0) (fresh : task ∉ w.calls) :
      Step w { w with calls := w.calls ++ [task], queue := w.queue ++ [task] }
  | lock (w : World ι) (task : ι) (behind : List ι) (free : w.holder = none)
      (first : w.queue = task :: behind) :
      Step w { w with queue := behind, holder := some (task, .locked) }
  | measure (w : World ι) (task : ι) (rest : Nat) (held : w.holder = some (task, .locked))
      (missing : w.limiter.rest w.now = some rest) :
      Step w { w with holder := some (task, .measured rest) }
  | skip (w : World ι) (task : ι) (held : w.holder = some (task, .locked))
      (missing : w.limiter.rest w.now = none) :
      Step w { w with holder := some (task, .ready) }
  | sleep (w : World ι) (task : ι) (rest : Nat) (held : w.holder = some (task, .measured rest)) :
      Step w { w with holder := some (task, .asleep (w.now + rest)) }
  | wake (w : World ι) (task : ι) (wake : Nat) (held : w.holder = some (task, .asleep wake))
      (elapsed : wake ≤ w.now) : Step w { w with holder := some (task, .ready) }
  | grant (w : World ι) (task : ι) (held : w.holder = some (task, .ready)) :
      Step w { w with
        limiter := { w.limiter with last := some w.now }
        holder := none
        admitted := w.admitted ++ [(task, w.now)] }
  /-- A caller is dropped while it waits for the lock. -/
  | leave (w : World ι) (before : List ι) (task : ι) (behind : List ι)
      (waiting : w.queue = before ++ task :: behind) :
      Step w { w with queue := before ++ behind, dropped := w.dropped ++ [task] }
  /-- A caller is dropped with the lock in its hands. -/
  | abandon (w : World ι) (task : ι) (phase : Phase) (held : w.holder = some (task, phase))
      (suspended : phase.suspended) :
      Step w { w with holder := none, dropped := w.dropped ++ [task] }

/-- What is reached from the start in any number of steps. -/
def Reachable (limiter : MinIntervalLimiter) (w : World ι) : Prop :=
  Relation.ReflTransGen Step (start limiter) w

variable {limiter : MinIntervalLimiter} {w w' : World ι}

/-- An invariant of the start that every step keeps holds of everything reached. -/
theorem Reachable.rec_on {invariant : World ι → Prop} (reached : Reachable limiter w)
    (initial : invariant (start limiter))
    (kept : ∀ {w w' : World ι}, Step w w' → invariant w → invariant w') : invariant w := by
  induction reached with
  | refl => exact initial
  | tail _ step ih => exact kept step ih

/-! ## The distance between requests -/

end World

/-- What a phase says about the time of the last request. -/
def Phase.Clears (interval now prev : Nat) : Phase → Prop
  | .locked => True
  | .measured rest => prev + interval ≤ now + rest
  | .asleep wake => prev + interval ≤ wake
  | .ready => prev + interval ≤ now

theorem Phase.Clears.later {interval now prev : Nat} {phase : Phase}
    (clears : phase.Clears interval now prev) (passed : Nat) :
    phase.Clears interval (now + passed) prev := by
  cases phase <;> simp only [Phase.Clears] at * <;> omega

namespace World

/-- The requests so far are spaced, and so is the one to come. -/
structure Paced (interval : Nat) (w : World ι) : Prop where
  same : w.limiter.interval = interval
  positive : 0 < interval
  last : w.limiter.last = w.times.getLast?
  past : ∀ time ∈ w.times, time ≤ w.now
  spaced : Spaced interval w.times
  held : ∀ holder ∈ w.holder, ∀ prev ∈ w.limiter.last, holder.2.Clears interval w.now prev

namespace Paced

variable {interval prev : Nat}

theorem prev_le (paced : Paced interval w) (before : w.limiter.last = some prev) : prev ≤ w.now :=
  paced.past prev (List.mem_of_getLast? (paced.last.symm.trans before))

/-- The last request is the latest one. -/
theorem le_prev (paced : Paced interval w) (before : w.limiter.last = some prev) :
    ∀ time ∈ w.times, time ≤ prev := by
  intro time member
  obtain ⟨init, ends⟩ := List.getLast?_eq_some_iff.mp (paced.last.symm.trans before)
  have spaced := paced.spaced
  rw [ends] at member spaced
  rcases List.mem_append.mp member with early | final
  · have behind := (List.pairwise_append.mp spaced).2.2 time early prev (List.mem_singleton_self _)
    omega
  · exact (List.mem_singleton.mp final).le

theorem initial (positive : 0 < interval) : Paced interval (start (.new interval) : World ι) where
  same := rfl
  positive := positive
  last := rfl
  past := fun _ member => absurd member List.not_mem_nil
  spaced := Spaced.nil
  held := fun _ member => absurd member (Option.not_mem_none _)

theorem times_grant (w : World ι) (task : ι) :
    times { w with
      limiter := { w.limiter with last := some w.now }
      holder := none
      admitted := w.admitted ++ [(task, w.now)] } = w.times ++ [w.now] := List.map_append

theorem step (paced : Paced interval w) (step : Step w w') : Paced interval w' := by
  cases step with
  | tick passed =>
      exact { paced with
        past := fun time member => (paced.past time member).trans (Nat.le_add_right _ _)
        held := fun holder held prev before => (paced.held holder held prev before).later passed }
  | pass task free fresh => exact absurd (free.symm.trans paced.same) paced.positive.ne
  | call task positive fresh => exact { paced with }
  | lock task behind free first =>
      refine { paced with held := ?_ }
      rintro _ ⟨⟩ prev before
      trivial
  | measure task rest held missing =>
      refine { paced with held := ?_ }
      rintro _ ⟨⟩ prev before
      have before_ : w.limiter.last = some prev := before
      have past := paced.prev_le before_
      rw [MinIntervalLimiter.rest, before_] at missing
      simp only [paced.same, Option.ite_none_right_eq_some, Option.some.injEq] at missing
      simp only [Phase.Clears]
      omega
  | skip task held missing =>
      refine { paced with held := ?_ }
      rintro _ ⟨⟩ prev before
      have before_ : w.limiter.last = some prev := before
      have past := paced.prev_le before_
      rw [MinIntervalLimiter.rest, before_] at missing
      simp only [paced.same, ite_eq_right_iff, reduceCtorEq, imp_false, not_lt] at missing
      simp only [Phase.Clears]
      omega
  | sleep task rest held =>
      refine { paced with held := ?_ }
      rintro _ ⟨⟩ prev before
      exact paced.held _ held prev before
  | wake task wake held elapsed =>
      refine { paced with held := ?_ }
      rintro _ ⟨⟩ prev before
      exact (paced.held _ held prev before : prev + interval ≤ wake).trans elapsed
  | grant task held =>
      have behind : ∀ time ∈ w.times, time + interval ≤ w.now := by
        intro time member
        cases before : w.limiter.last with
        | none =>
            rw [List.getLast?_eq_none_iff.mp (paced.last.symm.trans before)] at member
            exact absurd member List.not_mem_nil
        | some prev =>
            have clear : prev + interval ≤ w.now := paced.held _ held prev before
            have := paced.le_prev before time member
            omega
      exact {
        same := paced.same
        positive := paced.positive
        last := by
          rw [times_grant, List.getLast?_concat]
        past := by
          rw [times_grant]
          intro time member
          rcases List.mem_append.mp member with early | final
          · exact paced.past time early
          · exact (List.mem_singleton.mp final).le
        spaced := by
          rw [times_grant]
          exact paced.spaced.concat behind
        held := fun _ none => absurd none (Option.not_mem_none _) }
  | leave before task behind waiting => exact { paced with }
  | abandon task phase held suspended =>
      exact { paced with held := fun _ none => absurd none (Option.not_mem_none _) }

end Paced

end World

/-- Whatever the callers do and whenever they are dropped, the requests to a source are its
interval apart, and no window holds more of them than intervals fit into it, and one more. -/
theorem acquire_spaced {ms : Nat} {limiter : MinIntervalLimiter} {w : World ι}
    (made : limiterOf ms = some limiter) (reached : World.Reachable limiter w) :
    Spaced (ms * 1000000) w.times ∧
      ∀ start width, (w.times.filter fun time => start ≤ time ∧ time < start + width).length ≤
        (width + ms * 1000000 - 1) / (ms * 1000000) := by
  rw [limiterOf, Option.ite_none_right_eq_some, Option.some.injEq] at made
  obtain ⟨positive, rfl⟩ := made
  have nonzero : 0 < ms * 1000000 := by omega
  have paced := reached.rec_on (World.Paced.initial nonzero) fun step paced => paced.step step
  exact ⟨paced.spaced, paced.spaced.length_window_le nonzero⟩

/-- Two calls at the same time, one millisecond apart when they are through. -/
def afterTwo : World Nat :=
  ⟨1000000, ⟨1000000, some 1000000⟩, [], none, [0, 1], [(0, 0), (1, 1000000)], []⟩

theorem reachable_afterTwo : World.Reachable (.fromMillis 1) afterTwo := by
  have called : World.Reachable (.fromMillis 1)
      ⟨0, ⟨1000000, none⟩, [0, 1], none, [0, 1], [], []⟩ :=
    (Relation.ReflTransGen.refl.tail (.call _ 0 (by decide) (by decide))).tail
      (.call _ 1 (by decide) (by decide))
  have first : World.Reachable (.fromMillis 1)
      ⟨0, ⟨1000000, some 0⟩, [1], none, [0, 1], [(0, 0)], []⟩ :=
    ((called.tail (.lock _ 0 [1] rfl rfl)).tail (.skip _ 0 rfl rfl)).tail (.grant _ 0 rfl)
  have asleep : World.Reachable (.fromMillis 1)
      ⟨0, ⟨1000000, some 0⟩, [], some (1, .asleep 1000000), [0, 1], [(0, 0)], []⟩ :=
    ((first.tail (.lock _ 1 [] rfl rfl)).tail (.measure _ 1 1000000 rfl rfl)).tail
      (.sleep _ 1 1000000 rfl)
  exact ((asleep.tail (.tick _ 1000000)).tail (.wake _ 1 1000000 rfl (by decide))).tail
    (.grant _ 1 rfl)

theorem acquire_spaced_afterTwo : Spaced 1000000 afterTwo.times ∧
    ∀ start width, (afterTwo.times.filter fun time => start ≤ time ∧ time < start + width).length ≤
      (width + 1000000 - 1) / 1000000 :=
  @acquire_spaced Nat 1 _ _ rfl reachable_afterTwo

/-! ## The order of the calls -/

namespace World

variable {limiter : MinIntervalLimiter} {w w' : World ι}

/-- The callers that are through, then the one with the lock, then the queue. -/
def inOrder (w : World ι) : List ι := w.admitted.map Prod.fst ++ w.line

/-- Every call is accounted for once, and those not dropped stand in the order of the calls. -/
structure Ordered (w : World ι) : Prop where
  nodup : w.calls.Nodup
  sublist : w.inOrder <+ w.calls
  perm : w.inOrder ++ w.dropped ~ w.calls
  /-- Nobody waits without an interval. -/
  unpaced : w.limiter.interval = 0 → w.line = []

namespace Ordered

theorem initial : Ordered (start limiter : World ι) :=
  ⟨List.nodup_nil, List.Sublist.refl _, List.Perm.refl _, fun _ => rfl⟩

/-- A step that leaves the order of the callers as it is. -/
theorem congr (ordered : Ordered w) (calls : w'.calls = w.calls) (dropped : w'.dropped = w.dropped)
    (inOrder : w'.inOrder = w.inOrder) (unpaced : w'.limiter.interval = 0 → w'.line = []) :
    Ordered w' where
  nodup := calls ▸ ordered.nodup
  sublist := by
    rw [calls, inOrder]
    exact ordered.sublist
  perm := by
    rw [calls, dropped, inOrder]
    exact ordered.perm
  unpaced := unpaced

/-- A new call stands behind all others. -/
theorem concat (ordered : Ordered w) {task : ι} (fresh : task ∉ w.calls)
    (calls : w'.calls = w.calls ++ [task]) (dropped : w'.dropped = w.dropped)
    (inOrder : w'.inOrder = w.inOrder ++ [task]) (unpaced : w'.limiter.interval = 0 → w'.line = []) :
    Ordered w' where
  nodup := by
    rw [calls]
    exact List.nodup_append.mpr ⟨ordered.nodup, List.nodup_singleton task,
      fun _ member _ single same => fresh (List.mem_singleton.mp single ▸ same ▸ member)⟩
  sublist := by
    rw [calls, inOrder]
    exact ordered.sublist.append (List.Sublist.refl _)
  perm := by
    rw [calls, dropped, inOrder, List.append_assoc]
    calc w.inOrder ++ ([task] ++ w.dropped)
      _ ~ w.inOrder ++ (w.dropped ++ [task]) := List.perm_append_comm.append_left _
      _ = w.inOrder ++ w.dropped ++ [task] := (List.append_assoc ..).symm
      _ ~ w.calls ++ [task] := ordered.perm.append_right _
  unpaced := unpaced

/-- One caller is taken out. -/
theorem remove (ordered : Ordered w) (before : List ι) (task : ι) (behind : List ι)
    (calls : w'.calls = w.calls) (dropped : w'.dropped = w.dropped ++ [task])
    (waiting : w.inOrder = before ++ task :: behind) (inOrder : w'.inOrder = before ++ behind)
    (unpaced : w'.limiter.interval = 0 → w'.line = []) : Ordered w' where
  nodup := calls ▸ ordered.nodup
  sublist := by
    rw [calls, inOrder]
    refine List.Sublist.trans ?_ ordered.sublist
    rw [waiting]
    exact (List.sublist_cons_self _ _).append_left _
  perm := by
    rw [calls, dropped, inOrder]
    calc before ++ behind ++ (w.dropped ++ [task])
      _ = before ++ (behind ++ w.dropped ++ [task]) := by simp only [List.append_assoc]
      _ ~ before ++ ([task] ++ (behind ++ w.dropped)) := List.perm_append_comm.append_left _
      _ = w.inOrder ++ w.dropped := by simp [waiting]
      _ ~ w.calls := ordered.perm
  unpaced := unpaced

theorem step (ordered : Ordered w) (step : Step w w') : Ordered w' := by
  have unpaced := ordered.unpaced
  cases step with
  | tick passed => exact ordered.congr rfl rfl rfl unpaced
  | pass task free fresh =>
      refine ordered.concat fresh rfl rfl ?_ unpaced
      have alone := unpaced free
      simp_all [inOrder, line]
  | call task paced fresh =>
      refine ordered.concat fresh rfl rfl ?_ fun free => absurd free paced
      simp [inOrder, line]
  | lock task behind free first =>
      have same : w.line = task :: behind := by simp [line, free, first]
      refine ordered.congr rfl rfl ?_ fun none => absurd (same.symm.trans (unpaced none)) (by simp)
      simp [inOrder, line, free, first]
  | measure task rest held | skip task held | sleep task rest held | wake task wake held =>
      refine ordered.congr rfl rfl ?_ fun none => ?_
      · simp [inOrder, line, held]
      · simpa [line, held] using unpaced none
  | grant task held =>
      refine ordered.congr rfl rfl ?_ fun none => ?_
      · simp [inOrder, line, held]
      · simpa [line, held] using unpaced none
  | leave before task behind waiting =>
      refine ordered.remove (w.admitted.map Prod.fst ++ (w.holder.toList.map Prod.fst ++ before))
        task behind rfl rfl ?_ ?_ fun none => ?_
      · simp [inOrder, line, waiting]
      · simp [inOrder, line]
      · simpa [line, waiting] using unpaced none
  | abandon task phase held suspended =>
      refine ordered.remove (w.admitted.map Prod.fst) task w.queue rfl rfl ?_ ?_ fun none => ?_
      · simp [inOrder, line, held]
      · simp [inOrder, line]
      · simpa [line, held] using unpaced none

end Ordered

end World

/-- The callers go on in the order in which they called, each call exactly once unless it is
dropped, and at any time every call is through, in line, or dropped. -/
theorem acquire_ordered {limiter : MinIntervalLimiter} {w : World ι}
    (reached : World.Reachable limiter w) :
    (w.admitted.map Prod.fst ++ w.line).Sublist w.calls ∧ w.calls.Nodup ∧
      (w.admitted.map Prod.fst ++ w.line ++ w.dropped).Perm w.calls := by
  have ordered := reached.rec_on World.Ordered.initial fun step ordered => ordered.step step
  exact ⟨ordered.sublist, ordered.nodup, ordered.perm⟩

theorem acquire_ordered_afterTwo :
    (afterTwo.admitted.map Prod.fst ++ afterTwo.line).Sublist afterTwo.calls ∧
      afterTwo.calls.Nodup ∧
      (afterTwo.admitted.map Prod.fst ++ afterTwo.line ++ afterTwo.dropped).Perm afterTwo.calls :=
  acquire_ordered reachable_afterTwo

/-! ## How long a caller waits -/

namespace World

/-- Whether time may pass up to `later` with nobody kept from what they could do at once. -/
def mayIdle (w : World ι) (later : Nat) : Prop :=
  match w.holder with
  | some (_, .asleep wake) => later ≤ wake
  | some _ => False
  | none => w.queue = []

/-- A step of a scheduler that lets no time pass while a caller can go on. -/
def Prompt (w w' : World ι) : Prop :=
  Step w w' ∧ (w'.now = w.now ∨ w.mayIdle w'.now)

def PromptlyReachable (limiter : MinIntervalLimiter) (w : World ι) : Prop :=
  Relation.ReflTransGen Prompt (start limiter) w

/-- The first time at which the interval after the last request is over. -/
def opens (limiter : MinIntervalLimiter) (now : Nat) : Nat :=
  match limiter.last with
  | some prev => max now (prev + limiter.interval)
  | none => now

/-- When the caller that has the lock, or the one that gets it next, goes on. -/
def turn (w : World ι) : Nat :=
  match w.holder with
  | some (_, .measured rest) => w.now + rest
  | some (_, .asleep wake) => wake
  | some (_, .ready) => w.now
  | some (_, .locked) | none => opens w.limiter w.now

variable {limiter : MinIntervalLimiter} {w w' : World ι} {interval : Nat}

theorem opens_le (limiter : MinIntervalLimiter) {now bound : Nat} (soon : now ≤ bound)
    (clear : ∀ prev ∈ limiter.last, prev + limiter.interval ≤ bound) :
    opens limiter now ≤ bound := by
  unfold opens
  split
  next prev before => exact max_le soon (clear prev before)
  next => exact soon

theorem le_opens (limiter : MinIntervalLimiter) (now : Nat) : now ≤ opens limiter now := by
  unfold opens
  split
  · exact le_max_left _ _
  · exact le_rfl

/-- What prompt steps keep besides the spacing: nobody oversleeps, and nobody sleeps longer than
the interval. -/
structure Timely (interval : Nat) (w : World ι) : Prop where
  paced : Paced interval w
  now_le : w.now ≤ w.turn
  turn_le : w.turn ≤ w.now + interval

theorem Timely.initial (positive : 0 < interval) :
    Timely interval (start (.new interval) : World ι) :=
  ⟨Paced.initial positive, le_rfl, Nat.le_add_right _ _⟩

/-- The caller with the lock never goes on later than a new one would. -/
theorem Paced.opens_le_turn (paced : Paced interval w) (soon : w.now ≤ w.turn) :
    opens w.limiter w.now ≤ w.turn := by
  have held := paced.held
  refine opens_le _ soon fun prev before => ?_
  rw [paced.same]
  rw [turn] at soon ⊢
  split at * <;> rename_i holder
  · exact held _ holder prev before
  · exact held _ holder prev before
  · exact held _ holder prev before
  all_goals
    rw [opens, before, paced.same]
    exact le_max_right _ _

/-- What the caller with the lock sleeps takes it to its turn. -/
theorem Paced.add_rest (paced : Paced interval w) {rest : Nat}
    (missing : w.limiter.rest w.now = some rest) : w.now + rest = opens w.limiter w.now := by
  rw [MinIntervalLimiter.rest] at missing
  split at missing
  next prev before =>
    have past := paced.prev_le before
    simp only [Option.ite_none_right_eq_some, Option.some.injEq] at missing
    rw [opens, before]
    simp only
    omega
  next => exact absurd missing (by simp)

/-- A caller that has nothing to sleep is at its turn. -/
theorem Paced.opens_of_rest (paced : Paced interval w) (missing : w.limiter.rest w.now = none) :
    opens w.limiter w.now = w.now := by
  rw [MinIntervalLimiter.rest] at missing
  split at missing
  next prev before =>
    have past := paced.prev_le before
    simp only [ite_eq_right_iff, reduceCtorEq, imp_false, not_lt] at missing
    rw [opens, before]
    simp only
    omega
  next before => rw [opens, before]

/-- Time passes only for sleepers, or with nobody in line. -/
theorem turn_tick {passed : Nat} (idle : w.now + passed = w.now ∨ w.mayIdle (w.now + passed)) :
    passed = 0 ∨ w.line = [] ∨ (∃ task wake, w.holder = some (task, .asleep wake) ∧
      w.now + passed ≤ wake) := by
  rcases idle with still | idle
  · exact .inl (by omega)
  · rw [mayIdle] at idle
    split at idle
    next task wake held => exact .inr (.inr ⟨task, wake, held, idle⟩)
    next => exact idle.elim
    next free => exact .inr (.inl (by simp [line, free, idle]))

/-- What a prompt step does to the line and to its turn. -/
inductive Effect (interval : Nat) (w w' : World ι) : Prop
  /-- The line may get longer, and its turn does not get later. -/
  | wait (arrived : List ι) (line : w'.line = w.line ++ arrived)
      (turn : w.line = [] ∨ w'.turn ≤ w.turn) (admitted : w'.admitted = w.admitted)
      (dropped : w'.dropped = w.dropped)
  /-- The first of the line goes on, at its turn. -/
  | grant (task : ι) (line : w.line = task :: w'.line) (turn : w'.turn = w.turn + interval)
      (admitted : w'.admitted = w.admitted ++ [(task, w.turn)]) (dropped : w'.dropped = w.dropped)
  /-- One of the line is dropped. -/
  | drop (before : List ι) (task : ι) (behind : List ι) (line : w.line = before ++ task :: behind)
      (rest : w'.line = before ++ behind) (turn : w'.turn ≤ w.turn)
      (admitted : w'.admitted = w.admitted) (dropped : w'.dropped = w.dropped ++ [task])

theorem Timely.effect (timely : Timely interval w) (step : Prompt w w') : Effect interval w w' := by
  obtain ⟨step, idle⟩ := step
  have soon := timely.paced.opens_le_turn timely.now_le
  cases step with
  | tick passed =>
      refine .wait [] (List.append_nil _).symm ?_ rfl rfl
      rcases turn_tick idle with still | alone | ⟨task, wake, held, -⟩
      · subst still
        exact .inr le_rfl
      · exact .inl alone
      · refine .inr ?_
        simp only [turn, held, le_refl]
  | pass task free fresh => exact absurd (free.symm.trans timely.paced.same) timely.paced.positive.ne
  | call task paced fresh =>
      exact .wait [task] (by simp [line]) (.inr le_rfl) rfl rfl
  | lock task behind free first =>
      refine .wait [] (by simp [line, free, first]) (.inr ?_) rfl rfl
      simp only [turn, free, le_refl]
  | measure task rest held missing =>
      refine .wait [] (by simp [line, held]) (.inr ?_) rfl rfl
      simpa only [turn, held] using (timely.paced.add_rest missing).le
  | skip task held missing =>
      refine .wait [] (by simp [line, held]) (.inr ?_) rfl rfl
      simpa [turn, held] using timely.now_le
  | sleep task rest held =>
      refine .wait [] (by simp [line, held]) (.inr ?_) rfl rfl
      simp only [turn, held, le_refl]
  | wake task wake held elapsed =>
      refine .wait [] (by simp [line, held]) (.inr ?_) rfl rfl
      simpa [turn, held] using timely.now_le
  | grant task held =>
      have now : w.turn = w.now := by simp [turn, held]
      refine .grant task (by simp [line, held]) ?_ (by rw [now]) rfl
      rw [now]
      simp [turn, opens, timely.paced.same]
  | leave before task behind waiting =>
      exact .drop (w.holder.toList.map Prod.fst ++ before) task behind (by simp [line, waiting])
        (by simp [line]) le_rfl rfl rfl
  | abandon task phase held suspended =>
      exact .drop [] task w.queue (by simp [line, held]) (by simp [line]) soon rfl rfl

theorem Timely.step (timely : Timely interval w) (step : Prompt w w') : Timely interval w' := by
  obtain ⟨step, idle⟩ := step
  have paced := timely.paced.step step
  have soon := timely.paced.opens_le_turn timely.now_le
  have clear := opens_le w.limiter (Nat.le_add_right w.now interval) fun prev before => by
    have := timely.paced.prev_le before
    have := timely.paced.same
    omega
  have now_le := timely.now_le
  have turn_le := timely.turn_le
  cases step with
  | tick passed =>
      rcases turn_tick idle with still | alone | ⟨task, wake, held, inside⟩
      · subst still
        exact timely
      · have free : w.holder = none := by
          cases holder : w.holder <;> simp [line, holder] at alone ⊢
        refine ⟨paced, ?_, ?_⟩ <;> simp only [turn, free]
        · exact le_opens _ _
        · refine opens_le _ (Nat.le_add_right _ _) fun prev before => ?_
          have := timely.paced.prev_le before
          have := timely.paced.same
          omega
      · have sleeping : w.turn = wake := by simp [turn, held]
        refine ⟨paced, ?_, ?_⟩ <;> simp only [turn, held]
        · exact inside
        · omega
  | pass task free fresh => exact absurd (free.symm.trans timely.paced.same) timely.paced.positive.ne
  | call task _ fresh => exact ⟨paced, now_le, turn_le⟩
  | lock task behind free first =>
      rw [turn, free] at now_le turn_le
      exact ⟨paced, now_le, turn_le⟩
  | measure task rest held missing =>
      rw [turn, held] at now_le turn_le
      rw [← timely.paced.add_rest missing] at now_le turn_le
      exact ⟨paced, now_le, turn_le⟩
  | skip task held missing => exact ⟨paced, le_rfl, Nat.le_add_right _ _⟩
  | sleep task rest held =>
      rw [turn, held] at now_le turn_le
      exact ⟨paced, now_le, turn_le⟩
  | wake task wake held elapsed => exact ⟨paced, le_rfl, Nat.le_add_right _ _⟩
  | grant task held =>
      refine ⟨paced, ?_, ?_⟩ <;> simp [turn, opens, timely.paced.same]
  | leave before task behind waiting => exact ⟨paced, now_le, turn_le⟩
  | abandon task phase held suspended =>
      exact ⟨paced, le_opens _ _, clear⟩

/-- Taking one element out brings the others no further back. -/
theorem stay_of_remove {front back before behind : List ι} {other task : ι}
    (same : front ++ other :: back = before ++ task :: behind) :
    other = task ∨ ∃ before' behind', front ++ back = before' ++ task :: behind' ∧
      before'.length ≤ before.length := by
  rcases List.append_eq_append_iff.mp same with ⟨between, here, tail⟩ | ⟨between, here, tail⟩
  · cases between with
    | nil => exact .inl (List.cons.inj tail).1
    | cons head between =>
        rw [List.cons_append] at tail
        refine .inr ⟨front ++ between, behind, ?_, ?_⟩
        · rw [(List.cons.inj tail).2, List.append_assoc]
        · simp [here]
  · cases between with
    | nil => exact .inl (List.cons.inj tail).1.symm
    | cons head between =>
        refine .inr ⟨before, between ++ back, ?_, le_rfl⟩
        rw [here, (List.cons.inj tail).1, List.append_assoc, List.cons_append]

/-- A call is through by some time, dropped, or in line and due by then. -/
def DueBy (interval bound : Nat) (task : ι) (w : World ι) : Prop :=
  (∃ time ≤ bound, (task, time) ∈ w.admitted) ∨ task ∈ w.dropped ∨
    ∃ before behind, w.line = before ++ task :: behind ∧
      w.turn + before.length * interval ≤ bound

theorem DueBy.step {bound : Nat} {task : ι} (due : DueBy interval bound task w)
    (effect : Effect interval w w') : DueBy interval bound task w' := by
  rcases due with ⟨time, soon, member⟩ | gone | ⟨before, behind, line, soon⟩
  · refine .inl ⟨time, soon, ?_⟩
    cases effect with
    | wait _ _ _ admitted _ => rwa [admitted]
    | grant _ _ _ admitted _ => rw [admitted]; exact List.mem_append_left _ member
    | drop _ _ _ _ _ _ admitted _ => rwa [admitted]
  · refine .inr (.inl ?_)
    cases effect with
    | wait _ _ _ _ dropped => rwa [dropped]
    | grant _ _ _ _ dropped => rwa [dropped]
    | drop _ _ _ _ _ _ _ dropped => rw [dropped]; exact List.mem_append_left _ gone
  · cases effect with
    | wait arrived line' turn admitted dropped =>
        refine .inr (.inr ⟨before, behind ++ arrived, by simp [line', line], ?_⟩)
        rcases turn with alone | turn
        · exact absurd (line.symm.trans alone) (by simp)
        · omega
    | grant first line' turn admitted _ =>
        rw [line'] at line
        cases before with
        | nil =>
            obtain ⟨rfl, -⟩ := List.cons.inj line
            refine .inl ⟨w.turn, by simpa using soon, ?_⟩
            rw [admitted]
            exact List.mem_append_right _ (List.mem_singleton_self _)
        | cons head before =>
            refine .inr (.inr ⟨before, behind, (List.cons.inj line).2, ?_⟩)
            rw [List.length_cons, Nat.add_mul, Nat.one_mul] at soon
            omega
    | drop front other back line' rest turn _ dropped =>
        rw [line'] at line
        rcases stay_of_remove line with rfl | ⟨before', behind', here, ahead⟩
        · refine .inr (.inl ?_)
          rw [dropped]
          exact List.mem_append_right _ (List.mem_singleton_self _)
        · refine .inr (.inr ⟨before', behind', rest.trans here, ?_⟩)
          have := Nat.mul_le_mul_right interval ahead
          omega

theorem Timely.run (timely : Timely interval w) (run : Relation.ReflTransGen Prompt w w') :
    Timely interval w' := by
  induction run with
  | refl => exact timely
  | tail _ step ih => exact ih.step step

theorem Timely.due_run (timely : Timely interval w) {bound : Nat} {task : ι}
    (waiting : ∃ before behind, w.line = before ++ task :: behind ∧
      w.turn + before.length * interval ≤ bound) (run : Relation.ReflTransGen Prompt w w') :
    DueBy interval bound task w' := by
  induction run with
  | refl => exact .inr (.inr waiting)
  | tail before step ih => exact ih.step ((timely.run before).effect step)

/-- A run in which the first of the line goes on at its turn, and nothing else changes. -/
def GoesOn (interval : Nat) (task : ι) (behind : List ι) (w : World ι) : Prop :=
  ∃ w', Relation.ReflTransGen Prompt w w' ∧ w'.line = behind ∧ w'.turn = w.turn + interval ∧
    w'.admitted = w.admitted ++ [(task, w.turn)]

theorem GoesOn.head {task : ι} {behind : List ι} (goes : GoesOn interval task behind w')
    (step : Prompt w w') (turn : w'.turn = w.turn) (admitted : w'.admitted = w.admitted) :
    GoesOn interval task behind w := by
  obtain ⟨through, run, line, next, logged⟩ := goes
  exact ⟨through, run.head step, line, turn ▸ next, turn ▸ admitted ▸ logged⟩

theorem goesOn_ready {task : ι} (held : w.holder = some (task, .ready)) :
    GoesOn w.limiter.interval task w.queue w := by
  have now : w.turn = w.now := by simp [turn, held]
  refine ⟨_, .single ⟨.grant w task held, .inl rfl⟩, rfl, ?_, by rw [now]⟩
  rw [now]
  simp [turn, opens]

theorem goesOn_asleep {task : ι} {wake : Nat} (held : w.holder = some (task, .asleep wake))
    (soon : w.now ≤ wake) : GoesOn w.limiter.interval task w.queue w := by
  have arrived : w.now + (wake - w.now) = wake := Nat.add_sub_cancel' soon
  let awake : World ι := { w with now := w.now + (wake - w.now) }
  let up : World ι := { awake with holder := some (task, .ready) }
  have slept : Prompt w awake := ⟨.tick w _, .inr (by rw [mayIdle, held]; exact arrived.le)⟩
  have woken : Prompt awake up := ⟨.wake awake task wake held arrived.ge, .inl rfl⟩
  have ready : GoesOn w.limiter.interval task w.queue up := goesOn_ready rfl
  exact (ready.head woken (by simp [up, awake, turn, held, arrived]) rfl).head slept
    (by simp [awake, turn, held]) rfl

theorem goesOn_measured {task : ι} {rest : Nat} (held : w.holder = some (task, .measured rest)) :
    GoesOn w.limiter.interval task w.queue w := by
  let asleep : World ι := { w with holder := some (task, .asleep (w.now + rest)) }
  have goes : GoesOn w.limiter.interval task w.queue asleep :=
    goesOn_asleep rfl (Nat.le_add_right _ _)
  exact goes.head ⟨.sleep w task rest held, .inl rfl⟩ (by simp [asleep, turn, held]) rfl

theorem Timely.goesOn_locked (timely : Timely interval w) {task : ι}
    (held : w.holder = some (task, .locked)) : GoesOn w.limiter.interval task w.queue w := by
  have opening : w.turn = opens w.limiter w.now := by simp [turn, held]
  cases missing : w.limiter.rest w.now with
  | some rest =>
      have goes : GoesOn w.limiter.interval task w.queue
          { w with holder := some (task, .measured rest) } := goesOn_measured rfl
      refine goes.head ⟨.measure w task rest held missing, .inl rfl⟩ ?_ rfl
      rw [opening]
      exact timely.paced.add_rest missing
  | none =>
      have goes : GoesOn w.limiter.interval task w.queue
          { w with holder := some (task, .ready) } := goesOn_ready rfl
      refine goes.head ⟨.skip w task held missing, .inl rfl⟩ ?_ rfl
      rw [opening]
      exact (timely.paced.opens_of_rest missing).symm

/-- Whoever is first in line can go on at its turn. -/
theorem Timely.goesOn (timely : Timely interval w) {task : ι} {behind : List ι}
    (first : w.line = task :: behind) : GoesOn interval task behind w := by
  rw [← timely.paced.same]
  cases held : w.holder with
  | none =>
      have queue : w.queue = task :: behind := by simpa [line, held] using first
      have step : Prompt w { w with queue := behind, holder := some (task, .locked) } :=
        ⟨.lock w task behind held queue, .inl rfl⟩
      exact ((timely.step step).goesOn_locked rfl).head step (by simp [turn, held]) rfl
  | some holder =>
      obtain ⟨other, phase⟩ := holder
      obtain ⟨rfl, rfl⟩ : other = task ∧ w.queue = behind := by simpa [line, held] using first
      cases phase with
      | locked => exact timely.goesOn_locked held
      | measured rest => exact goesOn_measured held
      | asleep wake =>
          refine goesOn_asleep held ?_
          simpa [turn, held] using timely.now_le
      | ready => exact goesOn_ready held

/-- Everybody in line can go on, each one interval after the one ahead. -/
theorem Timely.run_line (timely : Timely interval w) {before behind : List ι} {task : ι}
    (waiting : w.line = before ++ task :: behind) :
    ∃ w', Relation.ReflTransGen Prompt w w' ∧
      (task, w.turn + before.length * interval) ∈ w'.admitted := by
  induction before generalizing w with
  | nil =>
      obtain ⟨w', run, -, -, admitted⟩ := timely.goesOn waiting
      refine ⟨w', run, ?_⟩
      simp [admitted]
  | cons head before ih =>
      obtain ⟨next, run, line, turn, -⟩ := timely.goesOn waiting
      obtain ⟨w', rest, member⟩ := ih (timely.run run) line
      refine ⟨w', run.trans rest, ?_⟩
      rw [List.length_cons, Nat.add_mul, Nat.one_mul, Nat.add_comm (before.length * interval),
        ← Nat.add_assoc, ← turn]
      exact member

end World

/-- A call with others ahead of it, the one with the lock among them, is through within as many
intervals and one more, however many callers come after it and whoever is dropped; and it can
always go on. -/
theorem acquire_in_time {ms : Nat} {limiter : MinIntervalLimiter} {w : World ι}
    (made : limiterOf ms = some limiter) (reached : World.PromptlyReachable limiter w)
    {before behind : List ι} {task : ι} (waiting : w.line = before ++ task :: behind) :
    (∀ w', Relation.ReflTransGen World.Prompt w w' →
      (∃ time, (task, time) ∈ w'.admitted ∧
          time ≤ w.now + (before.length + 1) * (ms * 1000000)) ∨
        task ∈ w'.dropped ∨
        task ∈ w'.line ∧ w'.now ≤ w.now + (before.length + 1) * (ms * 1000000)) ∧
      ∃ w' time, Relation.ReflTransGen World.Prompt w w' ∧ (task, time) ∈ w'.admitted ∧
        time ≤ w.now + (before.length + 1) * (ms * 1000000) := by
  rw [limiterOf, Option.ite_none_right_eq_some, Option.some.injEq] at made
  obtain ⟨positive, rfl⟩ := made
  have timely : World.Timely (ms * 1000000) w := (World.Timely.initial (by omega)).run reached
  have soon : w.turn + before.length * (ms * 1000000) ≤
      w.now + (before.length + 1) * (ms * 1000000) := by
    have := timely.turn_le
    rw [Nat.add_mul, Nat.one_mul]
    omega
  constructor
  · intro w' run
    have due := timely.due_run ⟨before, behind, waiting, soon⟩ run
    rcases due with ⟨time, early, member⟩ | gone | ⟨front, back, line, early⟩
    · exact .inl ⟨time, member, early⟩
    · exact .inr (.inl gone)
    · refine .inr (.inr ⟨by simp [line], ?_⟩)
      have := (timely.run run).now_le
      omega
  · obtain ⟨w', run, member⟩ := timely.run_line waiting
    exact ⟨w', _, run, member, soon⟩

/-- Two calls at the same time, before either has the lock. -/
def bothWaiting : World Nat := ⟨0, ⟨1000000, none⟩, [0, 1], none, [0, 1], [], []⟩

theorem acquire_in_time_second :
    (∀ w', Relation.ReflTransGen World.Prompt bothWaiting w' →
      (∃ time, (1, time) ∈ w'.admitted ∧ time ≤ 2000000) ∨ 1 ∈ w'.dropped ∨
        1 ∈ w'.line ∧ w'.now ≤ 2000000) ∧
      ∃ w' time, Relation.ReflTransGen World.Prompt bothWaiting w' ∧ (1, time) ∈ w'.admitted ∧
        time ≤ 2000000 := by
  have first : World.Prompt (World.start (.fromMillis 1))
      ⟨0, ⟨1000000, none⟩, [0], none, [0], [], []⟩ :=
    ⟨.call (World.start (.fromMillis 1)) 0 (by decide) (by decide), .inl rfl⟩
  have second : World.Prompt ⟨0, ⟨1000000, none⟩, [0], none, [0], [], []⟩ bothWaiting :=
    ⟨.call ⟨0, ⟨1000000, none⟩, [0], none, [0], [], []⟩ 1 (by decide) (by decide), .inl rfl⟩
  exact @acquire_in_time Nat 1 _ _ rfl ((Relation.ReflTransGen.single first).tail second)
    [0] [] 1 rfl

end AiCoreStack.Scholar
