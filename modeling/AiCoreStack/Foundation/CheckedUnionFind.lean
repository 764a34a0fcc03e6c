import AiCoreStack.Foundation.UnionFind

/-!
# Union-find with checked loops

The operations of union-find once more, with every index checked and a bound on the turns of each
loop; `none` stands for an index out of range and for a loop that has not ended.  Among the
parents of a forest neither comes up when there are more turns than elements.
-/

namespace AiCoreStack.Foundation.UnionFind

/-- The first loop of `find`. -/
def climbWithin (parent : List Nat) : Nat → Nat → Option Nat
  | 0, _ => none
  | turns + 1, r => do
      let above ← parent[r]?
      if above = r then some r else climbWithin parent turns above

/-- The second loop of `find`. -/
def compressWithin (root : Nat) : Nat → List Nat → Nat → Option (List Nat)
  | 0, _, _ => none
  | turns + 1, parent, cur => do
      let next ← parent[cur]?
      if next = root then some parent else compressWithin root turns (parent.set cur root) next

def findWithin (turns : Nat) (parent : List Nat) (x : Nat) : Option (Nat × List Nat) := do
  let r ← climbWithin parent turns x
  let parent ← compressWithin r turns parent x
  some (r, parent)

def unionWithin (turns : Nat) (parent : List Nat) (x y : Nat) : Option (List Nat) := do
  let (rx, parent) ← findWithin turns parent x
  let (ry, parent) ← findWithin turns parent y
  if rx ≠ ry then some (parent.set rx ry) else some parent

def findAllWithin (turns : Nat) (parent : List Nat) : List Nat → Option (List Nat × List Nat)
  | [] => some ([], parent)
  | x :: rest => do
      let (r, parent) ← findWithin turns parent x
      let (roots, parent) ← findAllWithin turns parent rest
      some (r :: roots, parent)

def joinIfWithin (test : Nat → Nat → Bool) (turns : Nat) (parent : List Nat) (x y : Nat) :
    Option (List Nat) := do
  let (rx, parent) ← findWithin turns parent x
  let (ry, parent) ← findWithin turns parent y
  if rx ≠ ry ∧ test x y = true then unionWithin turns parent x y else some parent

def joinAllWithin (test : Nat → Nat → Bool) (turns : Nat) (parent : List Nat)
    (pairs : List (Nat × Nat)) : Option (List Nat) :=
  pairs.foldlM (fun parent pair => joinIfWithin test turns parent pair.1 pair.2) parent

/-! ## The loops -/

theorem getElem?_eq_up {parent : List Nat} {x : Nat} (inside : x < parent.length) :
    parent[x]? = some (up parent x) := by
  rw [up_eq_getElem inside, List.getElem?_eq_getElem inside]

/-- A climb that arrives has ended one turn later. -/
theorem climbWithin_succ {parent : List Nat}
    (closed : ∀ x < parent.length, up parent x < parent.length) {turns x : Nat}
    (inside : x < parent.length)
    (arrived : up parent (climb parent turns x) = climb parent turns x) :
    climbWithin parent (turns + 1) x = some (climb parent turns x) := by
  induction turns generalizing x with
  | zero =>
      have own : up parent x = x := arrived
      rw [climbWithin, getElem?_eq_up inside, Option.bind_eq_bind, Option.bind_some, if_pos own]
      rfl
  | succ turns ih =>
      rw [climbWithin, getElem?_eq_up inside, Option.bind_eq_bind, Option.bind_some]
      rw [climb] at arrived ⊢
      split
      next own => rfl
      next onward =>
        rw [if_neg onward] at arrived
        exact ih (closed x inside) arrived

/-- So has the compression of a way that is not longer than the turns. -/
theorem Climbs.compressWithin_succ {parent : List Nat} {cur r turns : Nat}
    (climbs : Climbs parent cur r turns) :
    compressWithin r (turns + 1) parent cur = some (compress r turns parent cur) := by
  induction turns generalizing parent cur with
  | zero =>
      obtain rfl := climbs.eq_root
      rw [compressWithin, getElem?_eq_up climbs.inRange, Option.bind_eq_bind, Option.bind_some,
        if_pos climbs.own]
      rfl
  | succ turns ih =>
      rw [compressWithin, getElem?_eq_up climbs.inRange, Option.bind_eq_bind, Option.bind_some,
        compress]
      split
      next => rfl
      next onward => exact ih (climbs.compressed onward)

theorem Climbs.longer {parent : List Nat} {cur r steps : Nat} (climbs : Climbs parent cur r steps)
    (extra : Nat) : Climbs parent cur r (steps + extra) :=
  { climbs with
    arrives := climbs.arrives.imp fun _ => And.imp_left fun within => Nat.le_add_right_of_le within }

/-! ## The operations -/

namespace Forest

variable {parent : List Nat} (forest : Forest parent) {turns : Nat}

include forest

theorem findWithin_eq {x : Nat} (inside : x < parent.length) (enough : parent.length < turns) :
    findWithin turns parent x = some (find parent x) := by
  obtain ⟨extra, rfl⟩ := Nat.exists_eq_add_of_lt enough
  obtain ⟨climbed, compressed⟩ := forest.find_ends inside extra
  have climbs := forest.climbs inside
  rw [findWithin, climbWithin_succ forest.inRange inside (climbed ▸ climbs.own), climbed,
    Option.bind_eq_bind, Option.bind_some, (climbs.longer extra).compressWithin_succ, compressed]
  rfl

theorem unionWithin_eq {x y : Nat} (insideX : x < parent.length) (insideY : y < parent.length)
    (enough : parent.length < turns) :
    unionWithin turns parent x y = some (union parent x y) := by
  have first := moves_find forest insideX
  rw [unionWithin, forest.findWithin_eq insideX enough, Option.bind_eq_bind, Option.bind_some]
  dsimp only
  rw [first.forest.findWithin_eq (first.length ▸ insideY) (first.length ▸ enough),
    Option.bind_some, union]
  dsimp only
  split <;> rfl

theorem findAllWithin_eq {elements : List Nat} (inside : ∀ x ∈ elements, x < parent.length)
    (enough : parent.length < turns) :
    findAllWithin turns parent elements = some (findAll parent elements) := by
  induction elements generalizing parent with
  | nil => rfl
  | cons x rest ih =>
      obtain ⟨here, others⟩ := List.forall_mem_cons.mp inside
      have first := moves_find forest here
      rw [findAllWithin, forest.findWithin_eq here enough, Option.bind_eq_bind, Option.bind_some]
      dsimp only
      rw [ih first.forest (first.length.symm ▸ others) (first.length ▸ enough)]
      rfl

theorem joinIfWithin_eq (test : Nat → Nat → Bool) {x y : Nat} (insideX : x < parent.length)
    (insideY : y < parent.length) (enough : parent.length < turns) :
    joinIfWithin test turns parent x y = some (joinIf test parent x y) := by
  have first := moves_find forest insideX
  have second := moves_find first.forest (first.length ▸ insideY)
  have length := (first.trans second).length
  rw [joinIfWithin, forest.findWithin_eq insideX enough, Option.bind_eq_bind, Option.bind_some]
  dsimp only
  rw [first.forest.findWithin_eq (first.length ▸ insideY) (first.length ▸ enough),
    Option.bind_some, joinIf]
  dsimp only
  split
  next =>
    exact second.forest.unionWithin_eq (length.symm ▸ insideX) (length.symm ▸ insideY)
      (length.symm ▸ enough)
  next => rfl

/-- No run of unions panics, and none of its loops goes on for ever. -/
theorem joinAllWithin_eq (test : Nat → Nat → Bool) {pairs : List (Nat × Nat)}
    (inside : ∀ pair ∈ pairs, pair.1 < parent.length ∧ pair.2 < parent.length)
    (enough : parent.length < turns) :
    joinAllWithin test turns parent pairs = some (joinAll test parent pairs) := by
  induction pairs generalizing parent with
  | nil => rfl
  | cons pair rest ih =>
      obtain ⟨⟨insideX, insideY⟩, others⟩ := List.forall_mem_cons.mp inside
      obtain ⟨_, moves, _⟩ := moves_joinIf test forest insideX insideY
      rw [joinAllWithin, List.foldlM_cons, forest.joinIfWithin_eq test insideX insideY enough,
        Option.bind_eq_bind, Option.bind_some, ← joinAllWithin,
        ih moves.forest (moves.length.symm ▸ others) (moves.length.symm ▸ enough)]
      rfl

end Forest

end AiCoreStack.Foundation.UnionFind
