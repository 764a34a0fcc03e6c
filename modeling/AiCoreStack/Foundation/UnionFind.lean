import Mathlib

/-!
# Union-find with path compression

Elements `0 .. n - 1` with a parent each; an element that is its own parent is a root.  `find`
climbs to the root and hangs the climbed elements below it, `union` hangs one root below the
other.  Both loops end, and after any run of unions two elements have one root exactly when the
united pairs connect them.
-/

namespace AiCoreStack.Foundation.UnionFind

/-- The parent of an element. -/
def up (parent : List Nat) (x : Nat) : Nat := parent.getD x x

/-- Climb to an element that is its own parent. -/
def climb (parent : List Nat) : Nat → Nat → Nat
  | 0, r => r
  | fuel + 1, r => if up parent r = r then r else climb parent fuel (up parent r)

/-- Hang the elements on the way to a root below it. -/
def compress (root : Nat) : Nat → List Nat → Nat → List Nat
  | 0, parent, _ => parent
  | fuel + 1, parent, cur =>
      if up parent cur = root then parent
      else compress root fuel (parent.set cur root) (up parent cur)

def root (parent : List Nat) (x : Nat) : Nat := climb parent parent.length x

def find (parent : List Nat) (x : Nat) : Nat × List Nat :=
  (root parent x, compress (root parent x) parent.length parent x)

def union (parent : List Nat) (x y : Nat) : List Nat :=
  let (rx, parent) := find parent x
  let (ry, parent) := find parent y
  if rx ≠ ry then parent.set rx ry else parent

/-- Find the roots of elements, one after the other. -/
def findAll (parent : List Nat) : List Nat → List Nat × List Nat
  | [] => ([], parent)
  | x :: rest =>
      let (r, parent) := find parent x
      let (roots, parent) := findAll parent rest
      (r :: roots, parent)

/-- Every element on its own. -/
def separate (n : Nat) : List Nat := List.range n

theorem up_eq_getElem {parent : List Nat} {x : Nat} (inRange : x < parent.length) :
    up parent x = parent[x] := by
  simp [up, inRange]

theorem up_set_self {parent : List Nat} {x : Nat} (inRange : x < parent.length) (r : Nat) :
    up (parent.set x r) x = r := by
  simp [up, inRange]

theorem up_set_of_ne {parent : List Nat} {x z : Nat} (other : z ≠ x) (r : Nat) :
    up (parent.set x r) z = up parent z := by
  simp [up, List.getElem?_set_ne (Ne.symm other)]

/-! ## Ways to a root -/

/-- The parents lead from an element to a root. -/
inductive Reaches (parent : List Nat) : Nat → Nat → Prop where
  | root {r : Nat} (own : up parent r = r) : Reaches parent r r
  | step {x r : Nat} (rest : Reaches parent (up parent x) r) : Reaches parent x r

namespace Reaches

variable {parent : List Nat} {x r s : Nat}

theorem own (way : Reaches parent x r) : up parent r = r := by
  induction way with
  | root own => exact own
  | step _ ih => exact ih

theorem eq_of_own (way : Reaches parent x r) (own : up parent x = x) : r = x := by
  induction way with
  | root _ => rfl
  | step _ ih =>
      rw [own] at ih
      exact ih own

theorem unique (way : Reaches parent x r) (other : Reaches parent x s) : r = s := by
  induction way with
  | root own => exact (other.eq_of_own own).symm
  | step rest ih =>
      cases other with
      | root own => exact (Reaches.step rest).eq_of_own own
      | step rest' => exact ih rest'

theorem next (way : Reaches parent x r) : Reaches parent (up parent x) r := by
  cases way with
  | root own => rw [own]; exact .root own
  | step rest => exact rest

theorem exists_iterate (way : Reaches parent x r) : ∃ k, (up parent)^[k] x = r := by
  induction way with
  | root _ => exact ⟨0, rfl⟩
  | step _ ih =>
      obtain ⟨k, climbed⟩ := ih
      exact ⟨k + 1, climbed⟩

theorem of_iterate {k : Nat} (own : up parent ((up parent)^[k] x) = (up parent)^[k] x) :
    Reaches parent x ((up parent)^[k] x) := by
  induction k generalizing x with
  | zero => exact .root own
  | succ k ih => exact .step (ih own)

/-- Hanging an element below its root changes no root. -/
theorem compressed {cur : Nat} (inRange : cur < parent.length) (below : Reaches parent cur r)
    (way : Reaches parent x s) : Reaches (parent.set cur r) x s := by
  have rootStays : up (parent.set cur r) r = r := by
    by_cases same : r = cur
    · subst same
      exact up_set_self inRange r
    · rw [up_set_of_ne same]
      exact below.own
  induction way with
  | @root s own =>
      by_cases same : s = cur
      · subst same
        have isRoot := below.eq_of_own own
        subst isRoot
        exact .root rootStays
      · exact .root (by rw [up_set_of_ne same, own])
  | @step x s rest ih =>
      apply Reaches.step
      by_cases same : x = cur
      · subst same
        rw [up_set_self inRange, ← below.unique (.step rest)]
        exact .root rootStays
      · rw [up_set_of_ne same]
        exact ih

/-- Hanging one root below another moves its class there. -/
theorem united {a b : Nat} (inRange : a < parent.length) (ownA : up parent a = a)
    (ownB : up parent b = b) (distinct : a ≠ b) (way : Reaches parent x s) :
    Reaches (parent.set a b) x (if s = a then b else s) := by
  have top : Reaches (parent.set a b) b b :=
    .root (by rw [up_set_of_ne (Ne.symm distinct), ownB])
  induction way with
  | @root s own =>
      by_cases same : s = a
      · rw [if_pos same, same]
        exact .step (by rwa [up_set_self inRange])
      · rw [if_neg same]
        exact .root (by rw [up_set_of_ne same, own])
  | @step x s rest ih =>
      by_cases same : x = a
      · have isA : s = a := (Reaches.step rest).eq_of_own (same ▸ ownA) ▸ same
        rw [if_pos isA, same]
        exact .step (by rwa [up_set_self inRange])
      · exact .step (by rwa [up_set_of_ne same])

end Reaches

theorem climb_eq_iterate (parent : List Nat) (fuel x : Nat) :
    climb parent fuel x = (up parent)^[fuel] x := by
  induction fuel generalizing x with
  | zero => rfl
  | succ fuel ih =>
      rw [climb, Function.iterate_succ_apply]
      split
      next own => rw [own, Function.iterate_fixed own]
      next => exact ih _

/-- Parents that stay among the elements and lead to a root from everywhere. -/
structure Forest (parent : List Nat) : Prop where
  inRange : ∀ x < parent.length, up parent x < parent.length
  rooted : ∀ x < parent.length, ∃ r, Reaches parent x r

namespace Forest

variable {parent : List Nat} (forest : Forest parent)

include forest

theorem iterate_lt {x : Nat} (inside : x < parent.length) (k : Nat) :
    (up parent)^[k] x < parent.length := by
  induction k generalizing x with
  | zero => exact inside
  | succ k ih => exact ih (forest.inRange x inside)

/-- As many steps as there are elements lead to the root: among the elements of the way one
comes twice, and from there the way goes round in a circle unless it has arrived. -/
theorem own_iterate {x : Nat} (inside : x < parent.length) :
    up parent ((up parent)^[parent.length] x) = (up parent)^[parent.length] x := by
  obtain ⟨r, way⟩ := forest.rooted x inside
  obtain ⟨k, climbed⟩ := way.exists_iterate
  obtain ⟨i, j, before, same⟩ : ∃ i j : Fin (parent.length + 1), i < j ∧
      (up parent)^[i] x = (up parent)^[j] x := by
    have crowded : Fintype.card (Fin parent.length) < Fintype.card (Fin (parent.length + 1)) := by
      simp
    obtain ⟨i, j, distinct, same⟩ := Fintype.exists_ne_map_eq_of_card_lt
      (fun i : Fin (parent.length + 1) =>
        (⟨(up parent)^[i] x, forest.iterate_lt inside i⟩ : Fin parent.length)) crowded
    rw [Fin.mk.injEq] at same
    rcases lt_or_gt_of_ne distinct with before | after
    · exact ⟨i, j, before, same⟩
    · exact ⟨j, i, after, same.symm⟩
  have stays (m : Nat) : (up parent)^[m] r = r := Function.iterate_fixed way.own m
  have circle : Function.IsPeriodicPt (up parent) (j - i) ((up parent)^[i] x) := by
    rw [Function.IsPeriodicPt, Function.IsFixedPt, ← Function.iterate_add_apply,
      Nat.sub_add_cancel (Nat.le_of_lt before), ← same]
  have arrived : (up parent)^[i] x = r := by
    have round : (up parent)^[(j - i) * k] ((up parent)^[i] x) = (up parent)^[i] x :=
      circle.mul_const k
    have enough : (j - i : Nat) * k + i = ((j - i : Nat) * k + i - k) + k := by
      have positive : 1 ≤ (j - i : Nat) := by omega
      have := Nat.mul_le_mul_right k positive
      omega
    rw [← round, ← Function.iterate_add_apply, enough, Function.iterate_add_apply, climbed, stays]
  have split : parent.length = (parent.length - i) + i := by omega
  rw [split, Function.iterate_add_apply, arrived, stays]
  exact way.own

theorem reaches_root {x : Nat} (inside : x < parent.length) :
    Reaches parent x (root parent x) := by
  rw [root, climb_eq_iterate]
  exact .of_iterate (forest.own_iterate inside)

theorem root_eq {x r : Nat} (inside : x < parent.length) (way : Reaches parent x r) :
    root parent x = r :=
  (forest.reaches_root inside).unique way

theorem root_lt {x : Nat} (inside : x < parent.length) : root parent x < parent.length := by
  rw [root, climb_eq_iterate]
  exact forest.iterate_lt inside _

end Forest

/-! ## The loops end -/

/-- Hanging an element below the root makes no way to that root longer. -/
theorem iterate_set {parent : List Nat} {cur r : Nat} (inRange : cur < parent.length) {k x : Nat}
    (climbed : (up parent)^[k] x = r) : ∃ j ≤ k, (up (parent.set cur r))^[j] x = r := by
  induction k generalizing x with
  | zero => exact ⟨0, Nat.le_refl 0, climbed⟩
  | succ k ih =>
      by_cases same : x = cur
      · refine ⟨1, by omega, ?_⟩
        rw [Function.iterate_one, same, up_set_self inRange]
      · obtain ⟨j, within, arrived⟩ := ih climbed
        refine ⟨j + 1, by omega, ?_⟩
        rw [Function.iterate_succ_apply, up_set_of_ne same]
        exact arrived

/-- A way of at most so many steps from an element to its root. -/
structure Climbs (parent : List Nat) (cur r steps : Nat) : Prop where
  closed : ∀ x < parent.length, up parent x < parent.length
  inRange : cur < parent.length
  rootInRange : r < parent.length
  own : up parent r = r
  arrives : ∃ k ≤ steps, (up parent)^[k] cur = r

namespace Climbs

variable {parent : List Nat} {cur r steps : Nat}

theorem eq_root (climbs : Climbs parent cur r 0) : cur = r := by
  obtain ⟨k, within, arrived⟩ := climbs.arrives
  obtain rfl : k = 0 := Nat.le_zero.mp within
  exact arrived

/-- A turn of the second loop leaves a way that is shorter. -/
theorem compressed (climbs : Climbs parent cur r (steps + 1)) (onward : up parent cur ≠ r) :
    Climbs (parent.set cur r) (up parent cur) r steps := by
  have distinct : r ≠ cur := by
    rintro rfl
    exact onward climbs.own
  obtain ⟨k, within, arrived⟩ := climbs.arrives
  obtain ⟨k, rfl⟩ : ∃ fewer, k = fewer + 1 := by
    apply Nat.exists_eq_succ_of_ne_zero
    rintro rfl
    exact distinct arrived.symm
  rw [Function.iterate_succ_apply] at arrived
  obtain ⟨j, shorter, arrives⟩ := iterate_set climbs.inRange arrived
  constructor
  · intro x inside
    rw [List.length_set] at inside ⊢
    by_cases same : x = cur
    · rw [same, up_set_self climbs.inRange]
      exact climbs.rootInRange
    · rw [up_set_of_ne same]
      exact climbs.closed x inside
  · rw [List.length_set]
    exact climbs.closed cur climbs.inRange
  · rw [List.length_set]
    exact climbs.rootInRange
  · rw [up_set_of_ne distinct, climbs.own]
  · exact ⟨j, by omega, arrives⟩

/-- With fuel for the way to the root, more fuel changes nothing: the loop has ended. -/
theorem compress_add (climbs : Climbs parent cur r steps) (extra : Nat) :
    compress r (steps + extra) parent cur = compress r steps parent cur := by
  induction steps generalizing parent cur with
  | zero =>
      obtain rfl := climbs.eq_root
      cases extra with
      | zero => rfl
      | succ extra => rw [Nat.zero_add, compress, compress, if_pos climbs.own]
  | succ steps ih =>
      rw [Nat.succ_add, compress, compress]
      split
      next => rfl
      next onward => exact ih (climbs.compressed onward)

end Climbs

theorem Forest.climbs {parent : List Nat} (forest : Forest parent) {x : Nat}
    (inside : x < parent.length) : Climbs parent x (root parent x) parent.length where
  closed := forest.inRange
  inRange := inside
  rootInRange := forest.root_lt inside
  own := (forest.reaches_root inside).own
  arrives := ⟨parent.length, le_rfl, (climb_eq_iterate parent parent.length x).symm⟩

/-- Both loops of `find` end: with more fuel than there are elements they do the same. -/
theorem Forest.find_ends {parent : List Nat} (forest : Forest parent) {x : Nat}
    (inside : x < parent.length) (extra : Nat) :
    climb parent (parent.length + extra) x = root parent x ∧
      compress (root parent x) (parent.length + extra) parent x = (find parent x).2 := by
  have own := (forest.reaches_root inside).own
  constructor
  · rw [climb_eq_iterate, Nat.add_comm, Function.iterate_add_apply,
      ← climb_eq_iterate parent parent.length]
    exact Function.iterate_fixed own extra
  · exact (forest.climbs inside).compress_add extra

/-! ## The operations -/

/-- A change of the parents that keeps a forest and moves roots by a map. -/
structure Moves (parent parent' : List Nat) (shift : Nat → Nat) : Prop where
  forest : Forest parent'
  length : parent'.length = parent.length
  root : ∀ x < parent.length, root parent' x = shift (root parent x)

theorem Moves.refl {parent : List Nat} (forest : Forest parent) : Moves parent parent id :=
  ⟨forest, rfl, fun _ _ => rfl⟩

theorem Moves.trans {parent parent' parent'' : List Nat} {shift shift' : Nat → Nat}
    (first : Moves parent parent' shift) (second : Moves parent' parent'' shift') :
    Moves parent parent'' (shift' ∘ shift) where
  forest := second.forest
  length := second.length.trans first.length
  root x inside := by
    rw [second.root x (first.length ▸ inside), first.root x inside, Function.comp]

/-- Setting a parent, where the new ways to the roots are known. -/
theorem Moves.set {parent : List Nat} (forest : Forest parent) {a b : Nat} {shift : Nat → Nat}
    (inside : b < parent.length)
    (ways : ∀ x < parent.length, Reaches (parent.set a b) x (shift (UnionFind.root parent x))) :
    Moves parent (parent.set a b) shift := by
  have kept : Forest (parent.set a b) := by
    constructor
    · intro x inRange
      rw [List.length_set] at inRange ⊢
      by_cases same : x = a
      · subst same
        rwa [up_set_self inRange]
      · rw [up_set_of_ne same]
        exact forest.inRange x inRange
    · intro x inRange
      rw [List.length_set] at inRange
      exact ⟨_, ways x inRange⟩
  refine ⟨kept, List.length_set, ?_⟩
  intro x inRange
  exact kept.root_eq (by rwa [List.length_set]) (ways x inRange)

theorem moves_compress {r : Nat} (fuel : Nat) {parent : List Nat} (forest : Forest parent)
    {cur : Nat} (inside : cur < parent.length) (below : root parent cur = r) :
    Moves parent (compress r fuel parent cur) id := by
  induction fuel generalizing parent cur with
  | zero => exact .refl forest
  | succ fuel ih =>
      rw [compress]
      split
      next => exact .refl forest
      next =>
        have way := below ▸ forest.reaches_root inside
        have one : Moves parent (parent.set cur r) id := by
          apply Moves.set forest (below ▸ forest.root_lt inside)
          intro x inRange
          exact way.compressed inside (forest.reaches_root inRange)
        have next := forest.inRange cur inside
        have onward : root (parent.set cur r) (up parent cur) = r := by
          rw [one.root _ next, id, ← below]
          exact forest.root_eq next (forest.reaches_root inside).next
        exact one.trans (ih one.forest (one.length ▸ next) onward)

theorem moves_find {parent : List Nat} (forest : Forest parent) {x : Nat}
    (inside : x < parent.length) : Moves parent (find parent x).2 id :=
  moves_compress parent.length forest inside rfl

theorem findAll_roots {parent : List Nat} (forest : Forest parent) {elements : List Nat}
    (inside : ∀ x ∈ elements, x < parent.length) :
    (findAll parent elements).1 = elements.map (root parent) := by
  induction elements generalizing parent with
  | nil => rfl
  | cons x rest ih =>
      have one := moves_find forest (inside x (by simp))
      have others (y : Nat) (member : y ∈ rest) : y < parent.length :=
        inside y (List.mem_cons_of_mem x member)
      have same : rest.map (root (find parent x).2) = rest.map (root parent) :=
        List.map_congr_left fun y member => one.root y (others y member)
      rw [findAll, List.map_cons]
      dsimp only
      rw [ih one.forest fun y member => one.length.symm ▸ others y member, same]
      rfl

theorem moves_union {parent : List Nat} (forest : Forest parent) {x y : Nat}
    (insideX : x < parent.length) (insideY : y < parent.length) :
    Moves parent (union parent x y)
      fun s => if s = root parent x then root parent y else s := by
  have first := moves_find forest insideX
  have second := moves_find first.forest (first.length ▸ insideY)
  have both := first.trans second
  have rootY : (find (find parent x).2 y).1 = root parent y := first.root y insideY
  rw [union]
  dsimp only
  rw [rootY]
  split
  next distinct =>
    have hung : Moves (find (find parent x).2 y).2
        ((find (find parent x).2 y).2.set (find parent x).1 (root parent y))
        fun s => if s = root parent x then root parent y else s := by
      apply Moves.set both.forest
      · rw [both.length]
        exact forest.root_lt insideY
      · intro s inRange
        have own {z : Nat} (inside : z < parent.length) :
            up (find (find parent x).2 y).2 (root parent z) = root parent z := by
          have way := both.forest.reaches_root (both.length.symm ▸ inside)
          rw [both.root z inside] at way
          exact way.own
        exact (both.forest.reaches_root inRange).united
          (both.length.symm ▸ forest.root_lt insideX) (own insideX) (own insideY) distinct
    exact both.trans hung
  next same =>
    have equal : root parent x = root parent y := not_not.mp same
    refine ⟨both.forest, both.length, ?_⟩
    intro s inside
    rw [both.root s inside, equal]
    split
    next isY => exact isY
    next => rfl

/-! ## Runs of unions -/

/-- Unite two elements of different classes that pass a test. -/
def joinIf (test : Nat → Nat → Bool) (parent : List Nat) (x y : Nat) : List Nat :=
  let (rx, parent) := find parent x
  let (ry, parent) := find parent y
  if rx ≠ ry ∧ test x y = true then union parent x y else parent

/-- One such step either leaves the roots as they are or brings two of them together. -/
theorem moves_joinIf (test : Nat → Nat → Bool) {parent : List Nat} (forest : Forest parent)
    {x y : Nat} (insideX : x < parent.length) (insideY : y < parent.length) :
    ∃ shift, Moves parent (joinIf test parent x y) shift ∧
      (test x y = true → shift (root parent x) = shift (root parent y)) ∧
      ∀ r s, shift r = shift s → r = s ∨ test x y = true ∧
        (r = root parent x ∧ s = root parent y ∨ r = root parent y ∧ s = root parent x) := by
  have first := moves_find forest insideX
  have second := moves_find first.forest (first.length ▸ insideY)
  have both := first.trans second
  have rootX : (find parent x).1 = root parent x := rfl
  have rootY : (find (find parent x).2 y).1 = root parent y := first.root y insideY
  rw [joinIf]
  dsimp only
  rw [rootX, rootY]
  split
  next joins =>
    have united := both.trans (moves_union both.forest (both.length.symm ▸ insideX)
      (both.length.symm ▸ insideY))
    rw [both.root x insideX, both.root y insideY] at united
    refine ⟨_, united, ?_, ?_⟩
    · intro _
      simp
    · intro r s same
      dsimp only [Function.comp, id] at same
      split at same
      next isX =>
        split at same
        next isX' => exact .inl (isX.trans isX'.symm)
        next => exact .inr ⟨joins.2, .inl ⟨isX, same.symm⟩⟩
      next =>
        split at same
        next isX' => exact .inr ⟨joins.2, .inr ⟨same, isX'⟩⟩
        next => exact .inl same
  next stays =>
    refine ⟨_, both, ?_, fun r s same => .inl same⟩
    intro passes
    by_contra distinct
    exact stays ⟨distinct, passes⟩

/-- Take pairs one after the other. -/
def joinAll (test : Nat → Nat → Bool) (parent : List Nat) (pairs : List (Nat × Nat)) : List Nat :=
  pairs.foldl (fun parent pair => joinIf test parent pair.1 pair.2) parent

theorem forest_separate (n : Nat) : Forest (separate n) := by
  have own (x : Nat) (inside : x < (separate n).length) : up (separate n) x = x := by
    rw [up_eq_getElem inside]
    simp [separate]
  exact ⟨fun x inside => by rwa [own x inside], fun x inside => ⟨x, .root (own x inside)⟩⟩

theorem root_separate {n x : Nat} (inside : x < n) : root (separate n) x = x := by
  have inRange : x < (separate n).length := by simpa [separate] using inside
  apply (forest_separate n).root_eq inRange
  apply Reaches.root
  rw [up_eq_getElem inRange]
  simp [separate]

/-- The pairs that pass the test. -/
def Passing (test : Nat → Nat → Bool) (pairs : List (Nat × Nat)) (x y : Nat) : Prop :=
  (x, y) ∈ pairs ∧ test x y = true

theorem eq_of_eqvGen {α β : Type} {rel : α → α → Prop} {f : α → β}
    (step : ∀ x y, rel x y → f x = f y) {a b : α} (connected : Relation.EqvGen rel a b) :
    f a = f b :=
  congrArg (Quot.lift f step) (Quot.eqvGen_sound connected)

/-- A run of unions moves elements together that the passing pairs connect, and no others. -/
theorem moves_joinAll (test : Nat → Nat → Bool) {n : Nat} (pairs : List (Nat × Nat))
    (inside : ∀ pair ∈ pairs, pair.1 < n ∧ pair.2 < n) :
    ∃ shift, Moves (separate n) (joinAll test (separate n) pairs) shift ∧
      (∀ x y, Passing test pairs x y → shift x = shift y) ∧
      ∀ a b, shift a = shift b → Relation.EqvGen (Passing test pairs) a b := by
  induction pairs using List.reverseRecOn with
  | nil =>
      refine ⟨id, .refl (forest_separate n), ?_, ?_⟩
      · intro x y passing
        exact absurd passing.1 (by simp)
      · rintro a b rfl
        exact .refl a
  | append_singleton pairs pair ih =>
      obtain ⟨shift, moves, together, apart⟩ := ih fun other member =>
        inside other (List.mem_append_left _ member)
      obtain ⟨insideX, insideY⟩ := inside pair (by simp)
      have length : (separate n).length = n := by simp [separate]
      have rootOf {x : Nat} (inRange : x < n) :
          root (joinAll test (separate n) pairs) x = shift x := by
        rw [moves.root x (length.symm ▸ inRange), root_separate inRange]
      have sized : (joinAll test (separate n) pairs).length = n := moves.length.trans length
      obtain ⟨shift', moves', together', apart'⟩ :=
        moves_joinIf test moves.forest (sized.symm ▸ insideX) (sized.symm ▸ insideY)
      rw [rootOf insideX, rootOf insideY] at together' apart'
      have last : joinAll test (separate n) (pairs ++ [pair]) =
          joinIf test (joinAll test (separate n) pairs) pair.1 pair.2 := by
        rw [joinAll, List.foldl_append]
        rfl
      have more {a b : Nat} (connected : Relation.EqvGen (Passing test pairs) a b) :
          Relation.EqvGen (Passing test (pairs ++ [pair])) a b :=
        connected.mono fun _ _ passing => ⟨List.mem_append_left _ passing.1, passing.2⟩
      refine ⟨shift' ∘ shift, last ▸ moves.trans moves', ?_, ?_⟩
      · intro x y passing
        rcases List.mem_append.mp passing.1 with earlier | new
        · exact congrArg shift' (together x y ⟨earlier, passing.2⟩)
        · obtain rfl : (x, y) = pair := List.mem_singleton.mp new
          exact together' passing.2
      · intro a b same
        rcases apart' _ _ same with equal | ⟨passes, ends⟩
        · exact more (apart a b equal)
        · have bridge : Relation.EqvGen (Passing test (pairs ++ [pair])) pair.1 pair.2 :=
            .rel _ _ ⟨by simp, passes⟩
          rcases ends with ⟨left, right⟩ | ⟨left, right⟩
          · exact .trans _ _ _ (more (apart _ _ left))
              (.trans _ _ _ bridge (more (apart _ _ right.symm)))
          · exact .trans _ _ _ (more (apart _ _ left))
              (.trans _ _ _ (.symm _ _ bridge) (more (apart _ _ right.symm)))

/-- After any run of unions two elements have one root exactly when the pairs that pass the test
connect them. -/
theorem root_joinAll_iff (test : Nat → Nat → Bool) {n : Nat} {pairs : List (Nat × Nat)}
    (inside : ∀ pair ∈ pairs, pair.1 < n ∧ pair.2 < n) {a b : Nat} (insideA : a < n)
    (insideB : b < n) :
    root (joinAll test (separate n) pairs) a = root (joinAll test (separate n) pairs) b ↔
      Relation.EqvGen (Passing test pairs) a b := by
  obtain ⟨shift, moves, together, apart⟩ := moves_joinAll test pairs inside
  have length : (separate n).length = n := by simp [separate]
  rw [moves.root a (length.symm ▸ insideA), moves.root b (length.symm ▸ insideB),
    root_separate insideA, root_separate insideB]
  constructor
  · exact apart a b
  · exact eq_of_eqvGen together

end AiCoreStack.Foundation.UnionFind
