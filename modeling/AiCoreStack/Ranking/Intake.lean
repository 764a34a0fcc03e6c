import AiCoreStack.Foundation.Outcome
import AiCoreStack.Foundation.TopList
import AiCoreStack.Ranking.Engine

/-!
# The first stage

The heap, the slab and its free list keep the best of the staged candidates.  The heap points to
places of the slab, no two of its elements to the same one, and no free place is pointed to.  So
a run of the first stage is one of a bounded list of staged candidates.
-/

namespace AiCoreStack.Ranking.Engine

open Foundation

variable {F C : Type} [Scalar F]

/-! ## The slab -/

/-- The slab holds some candidates at their places, and its free places are none of these. -/
structure Placed (held : List (Nat × Staged F C)) (slab : List (Option (Staged F C)))
    (free : List Nat) : Prop where
  found : ∀ entry ∈ held, slab[entry.1]? = some (some entry.2)
  distinct : (held.map Prod.fst).Nodup
  unused : ∀ i ∈ free, i < slab.length ∧ i ∉ held.map Prod.fst
  freeDistinct : free.Nodup

omit [Scalar F] in
theorem Placed.perm {held other : List (Nat × Staged F C)} {slab : List (Option (Staged F C))}
    {free : List Nat} (placed : Placed held slab free) (perm : held.Perm other) :
    Placed other slab free where
  found entry member := placed.found entry (perm.mem_iff.mpr member)
  distinct := (perm.map Prod.fst).nodup_iff.mp placed.distinct
  unused i member :=
    ⟨(placed.unused i member).1, fun inOther => (placed.unused i member).2
      ((perm.map Prod.fst).mem_iff.mpr inOther)⟩
  freeDistinct := placed.freeDistinct

omit [Scalar F] in
/-- A candidate finds a place. -/
theorem Placed.place {held : List (Nat × Staged F C)} {slab : List (Option (Staged F C))}
    {free : List Nat} (placed : Placed held slab free) (staged : Staged F C) :
    ∃ slab' free' i, place staged slab free = .ok (slab', free', i) ∧
      Placed ((i, staged) :: held) slab' free' := by
  cases free with
  | nil =>
      have inside (entry : Nat × Staged F C) (member : entry ∈ held) : entry.1 < slab.length := by
        have found := placed.found entry member
        exact (List.getElem?_eq_some_iff.mp found).1
      refine ⟨_, _, _, rfl, ?_, ?_, by simp, List.nodup_nil⟩
      · intro entry member
        rcases List.mem_cons.mp member with rfl | later
        · simp
        · rw [List.getElem?_append_left (inside entry later)]
          exact placed.found entry later
      · rw [List.map_cons, List.nodup_cons]
        refine ⟨?_, placed.distinct⟩
        intro member
        obtain ⟨entry, found, same⟩ := List.mem_map.mp member
        have bound := inside entry found
        omega
  | cons i rest =>
      obtain ⟨bound, unused⟩ := placed.unused i List.mem_cons_self
      have fresh := List.nodup_cons.mp placed.freeDistinct
      refine ⟨_, _, _, if_pos bound, ?_, ?_, ?_, fresh.2⟩
      · intro entry member
        rcases List.mem_cons.mp member with rfl | later
        · simp [bound]
        · have other : i ≠ entry.1 := by
            rintro rfl
            exact unused (List.mem_map_of_mem later)
          rw [List.getElem?_set_ne other]
          exact placed.found entry later
      · exact List.nodup_cons.mpr ⟨unused, placed.distinct⟩
      · intro j member
        obtain ⟨within, notHeld⟩ := placed.unused j (List.mem_cons_of_mem i member)
        rw [List.length_set, List.map_cons, List.mem_cons, not_or]
        refine ⟨within, ?_, notHeld⟩
        rintro rfl
        exact fresh.1 member

omit [Scalar F] in
/-- A candidate leaves its place. -/
theorem Placed.take {entry : Nat × Staged F C} {held : List (Nat × Staged F C)}
    {slab : List (Option (Staged F C))} {free : List Nat}
    (placed : Placed (entry :: held) slab free) :
    take slab entry.1 = .ok (entry.2, slab.set entry.1 none) ∧
      Placed held (slab.set entry.1 none) (entry.1 :: free) := by
  have found := placed.found entry List.mem_cons_self
  have fresh := List.nodup_cons.mp placed.distinct
  constructor
  · rw [Engine.take, found]
    rfl
  · refine ⟨?_, fresh.2, ?_, ?_⟩
    · intro other member
      have different : entry.1 ≠ other.1 := by
        intro same
        exact fresh.1 (same ▸ List.mem_map_of_mem member)
      rw [List.getElem?_set_ne different]
      exact placed.found other (List.mem_cons_of_mem entry member)
    · intro i member
      rw [List.length_set]
      rcases List.mem_cons.mp member with rfl | earlier
      · exact ⟨(List.getElem?_eq_some_iff.mp found).1, fresh.1⟩
      · have before := placed.unused i earlier
        exact ⟨before.1, fun inHeld => before.2 (List.mem_cons_of_mem _ inHeld)⟩
    · refine List.nodup_cons.mpr ⟨?_, placed.freeDistinct⟩
      intro member
      exact (placed.unused entry.1 member).2 List.mem_cons_self

omit [Scalar F] in
/-- The candidates come out of the slab in the order that is asked for. -/
theorem Placed.collect {held order : List (Nat × Staged F C)} {slab : List (Option (Staged F C))}
    {free : List Nat} (placed : Placed held slab free) (perm : held.Perm order) :
    collect slab (order.map Prod.fst) = .ok (order.map Prod.snd) := by
  induction order generalizing held slab free with
  | nil => rfl
  | cons entry order ih =>
      obtain ⟨taken, left⟩ := (placed.perm perm).take
      rw [List.map_cons, Engine.collect, taken]
      change Except.map _ (Engine.collect (slab.set entry.1 none) (order.map Prod.fst)) = _
      rw [ih left (List.Perm.refl order)]
      rfl

/-! ## A bounded list of staged candidates -/

variable (self : Engine F C)

/-- How staged candidates compare: a larger key is better, then a smaller identifier. -/
def stagedCmp (key : AdmissionKey) (left right : Staged F C) : Ordering :=
  (Scalar.totalCmp (self.admissionValue key left.scores)
    (self.admissionValue key right.scores)).then (right.id.cmp left.id)

/-- The element of the heap for a candidate at a place. -/
def slotOf (key : AdmissionKey) (entry : Nat × Staged F C) : Slot F :=
  ⟨self.admissionValue key entry.2.scores, entry.2.id, entry.1⟩

/-- What the unary constraints and the cheap scorers make of a candidate. -/
def classify [Candidate C] (candidate : C) : Except RejectReason (Staged F C) :=
  match self.failedUnary candidate with
  | some id => .error (.unaryConstraint id)
  | none =>
      match self.scoreCheap candidate self.scorers with
      | .error id => .error (.notScored id)
      | .ok scores => .ok ⟨candidate, Candidate.id candidate, scores⟩

variable {self} in
/-- What a candidate that passes the unary constraints and the cheap scorers is staged as. -/
theorem classify_eq_ok [Candidate C] {candidate : C} {staged : Staged F C}
    (passed : self.classify candidate = .ok staged) :
    ∃ scores, self.scoreCheap candidate self.scorers = .ok scores ∧
      staged = ⟨candidate, Candidate.id candidate, scores⟩ := by
  rw [classify] at passed
  split at passed
  next => cases passed
  next =>
    split at passed
    next => cases passed
    next scores scored =>
      cases passed
      exact ⟨scores, scored, rfl⟩

/-- Record a candidate that lost its place. -/
def recordDropped (log : RejectLog F C) : Option (Staged F C) → RejectLog F C
  | none => log
  | some staged => log.record self.rejections staged.candidate .outOfPool none

/-- One candidate of the first stage, on a bounded list. -/
def intake [Candidate C] (key : AdmissionKey) (state : List (Staged F C) × RejectLog F C)
    (candidate : C) : List (Staged F C) × RejectLog F C :=
  match self.classify candidate with
  | .error reason => (state.1, state.2.record self.rejections candidate reason none)
  | .ok staged =>
      let next := TopList.offer (self.stagedCmp key) self.poolCapacity state.1 staged
      (next.1, self.recordDropped state.2 next.2)

/-! ## The heap and the slab refine the list -/

/-- The heap and the slab keep some candidates at their places. -/
structure Keeps (engine : Engine F C) (key : AdmissionKey) (stream : Stream F C)
    (held : List (Nat × Staged F C)) : Prop where
  heap : stream.heap = ⟨engine.poolCapacity, held.map (engine.slotOf key)⟩
  placed : Placed held stream.slab stream.free

/-- How entries of the heap compare. -/
def entryCmp (key : AdmissionKey) (left right : Nat × Staged F C) : Ordering :=
  self.stagedCmp key left.2 right.2

theorem push_slotOf (key : AdmissionKey) (entry : Nat × Staged F C)
    (held : List (Nat × Staged F C)) :
    SlotHeap.push (self.slotOf key entry) (held.map (self.slotOf key)) =
      (held.orderedInsert (TopList.Below (self.entryCmp key)) entry).map (self.slotOf key) := by
  symm
  apply List.map_orderedInsert
  · intro other _
    rfl
  · intro other _
    rfl

/-- What a push does: there is room, or the worst entry has to go, or nothing changes. -/
theorem push_cases (key : AdmissionKey) (capacity : Nat) (entry : Nat × Staged F C)
    (held : List (Nat × Staged F C)) :
    (TopList.offer (self.entryCmp key) capacity held entry =
        (held.orderedInsert (TopList.Below (self.entryCmp key)) entry, none) ∧
      BoundedHeap.push ⟨capacity, held.map (self.slotOf key)⟩ (self.slotOf key entry) =
        .ok (⟨capacity, (held.orderedInsert (TopList.Below (self.entryCmp key)) entry).map
          (self.slotOf key)⟩, .accepted none)) ∨
    (∃ worst rest, held = worst :: rest ∧
      TopList.offer (self.entryCmp key) capacity held entry =
        (rest.orderedInsert (TopList.Below (self.entryCmp key)) entry, some worst) ∧
      BoundedHeap.push ⟨capacity, held.map (self.slotOf key)⟩ (self.slotOf key entry) =
        .ok (⟨capacity, (rest.orderedInsert (TopList.Below (self.entryCmp key)) entry).map
          (self.slotOf key)⟩, .accepted (some worst.1))) ∨
    (TopList.offer (self.entryCmp key) capacity held entry = (held, some entry) ∧
      BoundedHeap.push ⟨capacity, held.map (self.slotOf key)⟩ (self.slotOf key entry) =
        .ok (⟨capacity, held.map (self.slotOf key)⟩, .rejected)) := by
  rw [TopList.offer, BoundedHeap.push]
  dsimp only
  rw [List.length_map, push_slotOf]
  by_cases room : held.length < capacity
  · left
    rw [if_pos room, if_pos room]
    exact ⟨rfl, rfl⟩
  · right
    rw [if_neg room, if_neg room]
    cases held with
    | nil => exact .inr ⟨rfl, rfl⟩
    | cons worst rest =>
        have peeked : SlotHeap.peek ((worst :: rest).map (self.slotOf key)) =
            some (self.slotOf key worst) := rfl
        have popped : SlotHeap.pop ((worst :: rest).map (self.slotOf key)) =
            some (self.slotOf key worst, rest.map (self.slotOf key)) := rfl
        have compared : (self.slotOf key entry).cmp (self.slotOf key worst) =
            self.entryCmp key entry worst := rfl
        rw [TopList.replaceWorst, peeked, popped]
        dsimp only [expect, Except.map]
        rw [compared, push_slotOf]
        by_cases better : self.entryCmp key entry worst = .gt
        · left
          rw [if_pos better, if_pos better]
          exact ⟨worst, rest, rfl, rfl, rfl⟩
        · right
          rw [if_neg better, if_neg better]
          exact ⟨rfl, rfl⟩

variable {self}

omit [Scalar F] in
theorem expel_eq {stream : Stream F C} {entry : Nat × Staged F C}
    {held : List (Nat × Staged F C)} (placed : Placed (entry :: held) stream.slab stream.free) :
    self.expel stream entry.1 = .ok { stream with
      slab := stream.slab.set entry.1 none
      free := entry.1 :: stream.free
      log := self.recordDropped stream.log (some entry.2) } := by
  rw [expel, placed.take.1]
  rfl

/-- A candidate that gets a place, or not, on the list and in the heap. -/
theorem Keeps.admitStaged {key : AdmissionKey} {stream : Stream F C}
    {held : List (Nat × Staged F C)} (keeps : self.Keeps key stream held) (staged : Staged F C) :
    ∃ next after, self.admitStaged stream (self.admissionValue key staged.scores) staged = .ok next ∧
      self.Keeps key next after ∧
      (after.map Prod.snd, next.log) =
        ((TopList.offer (self.stagedCmp key) self.poolCapacity (held.map Prod.snd) staged).1,
          self.recordDropped stream.log
            (TopList.offer (self.stagedCmp key) self.poolCapacity (held.map Prod.snd) staged).2) ∧
      next.inputCount = stream.inputCount := by
  obtain ⟨slab, free, i, found, placed⟩ := keeps.placed.place staged
  -- the list of candidates is the one of the entries without their places
  have listed := TopList.offer_map (self.entryCmp key) Prod.snd (self.stagedCmp key)
    (fun _ _ => rfl) self.poolCapacity held (i, staged)
  have slot : (⟨self.admissionValue key staged.scores, staged.id, i⟩ : Slot F) =
      self.slotOf key (i, staged) := rfl
  rw [listed, Engine.admitStaged, found]
  dsimp only [Except.bind]
  rw [keeps.heap, slot]
  have inserted (rest : List (Nat × Staged F C)) :=
    (List.perm_orderedInsert (TopList.Below (self.entryCmp key)) (i, staged) rest).symm
  rcases self.push_cases key self.poolCapacity (i, staged) held with
    ⟨offered, pushed⟩ | ⟨worst, rest, rfl, offered, pushed⟩ | ⟨offered, pushed⟩
  · rw [offered, pushed]
    exact ⟨_, _, rfl, ⟨rfl, placed.perm (inserted held)⟩, rfl, rfl⟩
  · have swapped := placed.perm (List.Perm.swap worst (i, staged) rest)
    rw [offered, pushed]
    exact ⟨_, _, expel_eq swapped, ⟨rfl, swapped.take.2.perm (inserted rest)⟩, rfl, rfl⟩
  · let reached : Stream F C :=
      { stream with heap := ⟨self.poolCapacity, held.map (self.slotOf key)⟩, slab, free }
    have refused : Placed ((i, staged) :: held) reached.slab reached.free := placed
    rw [offered, pushed]
    exact ⟨_, held, expel_eq refused, ⟨rfl, placed.take.2⟩, rfl, rfl⟩

/-- One candidate of the stream. -/
theorem Keeps.step [Candidate C] {key : AdmissionKey} {stream : Stream F C}
    {held : List (Nat × Staged F C)} (keeps : self.Keeps key stream held) (candidate : C) :
    ∃ next after, self.step key stream candidate = .ok next ∧ self.Keeps key next after ∧
      (after.map Prod.snd, next.log) =
        self.intake key (held.map Prod.snd, stream.log) candidate ∧
      next.inputCount = stream.inputCount + 1 := by
  rw [Engine.step, intake, classify]
  cases unary : self.failedUnary candidate with
  | some id => exact ⟨_, held, rfl, ⟨keeps.heap, keeps.placed⟩, rfl, rfl⟩
  | none =>
      cases scored : self.scoreCheap candidate self.scorers with
      | error id => exact ⟨_, held, rfl, ⟨keeps.heap, keeps.placed⟩, rfl, rfl⟩
      | ok scores =>
          let counted : Stream F C :=
            { stream with
              inputCount := stream.inputCount + 1
              stats := self.traceCheap candidate self.scorers stream.stats }
          have kept : self.Keeps key counted held := ⟨keeps.heap, keeps.placed⟩
          exact kept.admitStaged ⟨candidate, Candidate.id candidate, scores⟩

theorem Keeps.streamAll [Candidate C] {key : AdmissionKey} {stream : Stream F C}
    {held : List (Nat × Staged F C)} (keeps : self.Keeps key stream held) (candidates : List C) :
    ∃ next after, self.streamAll key stream candidates = .ok next ∧ self.Keeps key next after ∧
      (after.map Prod.snd, next.log) =
        candidates.foldl (self.intake key) (held.map Prod.snd, stream.log) ∧
      next.inputCount = stream.inputCount + candidates.length := by
  induction candidates generalizing stream held with
  | nil => exact ⟨stream, held, rfl, keeps, rfl, rfl⟩
  | cons candidate rest ih =>
      obtain ⟨first, middle, ran, kept, matched, counted⟩ := keeps.step candidate
      obtain ⟨next, after, ranAll, keptAll, matchedAll, countedAll⟩ := ih kept
      refine ⟨next, after, ?_, keptAll, ?_, ?_⟩
      · rw [Engine.streamAll, ran]
        exact ranAll
      · rw [List.foldl_cons, ← matched, matchedAll]
      · rw [countedAll, counted, List.length_cons]
        omega

/-- The candidates that are left come out of the slab, the best first. -/
theorem Keeps.collect {key : AdmissionKey} {stream : Stream F C}
    {held : List (Nat × Staged F C)} (keeps : self.Keeps key stream held) :
    Engine.collect stream.slab stream.heap.intoSortedIndices =
      .ok ((held.map Prod.snd).insertionSort fun left right =>
        TopList.Below (self.stagedCmp key) right left) := by
  have sorted := List.map_insertionSort
    (fun left right : Nat × Staged F C => TopList.Below (self.stagedCmp key) right.2 left.2)
    (fun left right : Slot F => right.cmp left ≠ .gt) (self.slotOf key) held (fun _ _ _ _ => Iff.rfl)
  have listed := List.map_insertionSort
    (fun left right : Nat × Staged F C => TopList.Below (self.stagedCmp key) right.2 left.2)
    (fun left right => TopList.Below (self.stagedCmp key) right left) Prod.snd held
    (fun _ _ _ _ => Iff.rfl)
  have indices : stream.heap.intoSortedIndices =
      (held.insertionSort fun left right =>
        TopList.Below (self.stagedCmp key) right.2 left.2).map Prod.fst := by
    rw [BoundedHeap.intoSortedIndices, keeps.heap, ← sorted, List.map_map]
    rfl
  rw [indices, keeps.placed.collect (List.perm_insertionSort _ held).symm, listed]

/-- What the first stage leaves: the best candidates, and the rejections up to there. -/
def firstStage [Candidate C] (self : Engine F C) (key : AdmissionKey) (candidates : List C) :
    List (Staged F C) × RejectLog F C :=
  candidates.foldl (self.intake key) ([], {})

theorem firstStage_snoc [Candidate C] (self : Engine F C) (key : AdmissionKey)
    (candidates : List C) (candidate : C) :
    self.firstStage key (candidates ++ [candidate]) =
      self.intake key (self.firstStage key candidates) candidate := by
  rw [firstStage, List.foldl_append]
  rfl

/-- The first stage never fails, and leaves what it should. -/
theorem streamAll_eq [Candidate C] (self : Engine F C) (key : AdmissionKey) (candidates : List C) :
    ∃ stream, self.streamAll key (Stream.start self.poolCapacity self.scorers) candidates =
        .ok stream ∧
      Engine.collect stream.slab stream.heap.intoSortedIndices =
        .ok ((self.firstStage key candidates).1.insertionSort fun left right =>
          TopList.Below (self.stagedCmp key) right left) ∧
      stream.heap.heap.length = (self.firstStage key candidates).1.length ∧
      stream.log = (self.firstStage key candidates).2 ∧
      stream.inputCount = candidates.length := by
  have start : self.Keeps key (Stream.start self.poolCapacity self.scorers) [] :=
    ⟨rfl, by simp, List.nodup_nil, by simp [Stream.start], List.nodup_nil⟩
  obtain ⟨stream, held, ran, keeps, matched, counted⟩ := start.streamAll candidates
  have left : held.map Prod.snd = (self.firstStage key candidates).1 := congrArg Prod.fst matched
  refine ⟨stream, ran, ?_, ?_, congrArg Prod.snd matched, ?_⟩
  · rw [← left]
    exact keeps.collect
  · rw [← left, keeps.heap, List.length_map, List.length_map]
  · rw [counted, Stream.start, Nat.zero_add]

end AiCoreStack.Ranking.Engine
