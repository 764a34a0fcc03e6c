import AiCoreStack.Foundation.CheckedBuffers
import AiCoreStack.Foundation.Flood
import AiCoreStack.Foundation.Grid
import AiCoreStack.Foundation.Scalar

/-!
# Connected boxes

Model of `connected_boxes` in `postprocess.rs`, a flood fill with an explicit stack over a
probability map.  Indices are checked; a map is one buffer of rows.
-/

namespace AiCoreStack.Ocr

open AiCoreStack.Foundation
open Relation

section Model

variable {α : Type} [Scalar α] (prob : List α) (w h : Nat) (threshold : α)

/-- The neighbour at a place, when there is one. -/
def neighbour (nx ny : Int) : Option Nat :=
  if 0 ≤ nx ∧ 0 ≤ ny ∧ nx.toNat < w ∧ ny.toNat < h then some (ny.toNat * w + nx.toNat) else none

/-- `push`: put a neighbour on the stack unless it is visited or below the threshold. -/
def push (place : Int × Int) (state : List Nat × List Bool) : Option (List Nat × List Bool) :=
  match neighbour w h place.1 place.2 with
  | none => some state
  | some nidx => do
      let seen ← state.2[nidx]?
      if seen then return state
      let p ← prob[nidx]?
      if Scalar.le threshold p then return (nidx :: state.1, state.2.set nidx true)
      else return state

/-- The four places next to a pixel, in the order in which they are tried. -/
def sides (idx : Nat) : List (Int × Int) :=
  let px : Int := (idx % w : Nat)
  let py : Int := (idx / w : Nat)
  [(px - 1, py), (px + 1, py), (px, py - 1), (px, py + 1)]

/-- What the loop over one component has computed. -/
structure Fill (α : Type) where
  minX : Nat
  minY : Nat
  maxX : Nat
  maxY : Nat
  sum : α
  count : Nat
  stack : List Nat
  visited : List Bool

/-- One component.  The fuel bounds the number of pixels taken from the stack. -/
def fill (fuel : Nat) (s : Fill α) : Option (Fill α) :=
  match s.stack, fuel with
  | [], _ => some s
  | _ :: _, 0 => none
  | idx :: rest, fuel + 1 => do
      let p ← prob[idx]?
      let state ← (sides w idx).foldlM (fun state place => push prob w h threshold place state)
        (rest, s.visited)
      fill fuel
        { minX := min s.minX (idx % w)
          minY := min s.minY (idx / w)
          maxX := max s.maxX (idx % w)
          maxY := max s.maxY (idx / w)
          sum := Scalar.add s.sum p
          count := s.count + 1
          stack := state.1
          visited := state.2 }

/-- `usize::MAX`. -/
def usizeMax : Nat := 2 ^ 64 - 1

/-- The state in which the fill of a component starts. -/
def Fill.start (visited : List Bool) (start : Nat) : Fill α :=
  ⟨usizeMax, usizeMax, 0, 0, Scalar.lit 0, 0, [start], visited.set start true⟩

/-- A box in the detection map with its score. -/
structure MapBox (α : Type) where
  x : Nat
  y : Nat
  w : Nat
  h : Nat
  score : α

def Fill.box (s : Fill α) : MapBox α :=
  ⟨s.minX, s.minY, s.maxX - s.minX + 1, s.maxY - s.minY + 1,
    Scalar.div s.sum (Scalar.ofNat s.count)⟩

/-- `connected_boxes`. -/
def connectedBoxes (fuel minArea : Nat) : Option (List (MapBox α)) :=
  ((List.range (w * h)).foldlM
    (fun (state : List Bool × List (MapBox α)) start => do
      let seen : Bool ← state.1[start]?
      if seen then return state
      let p ← prob[start]?
      if Scalar.lt p threshold then return state
      let s ← fill prob w h threshold fuel (Fill.start state.1 start)
      let box := s.box
      if minArea ≤ box.w * box.h then return (s.visited, state.2 ++ [box])
      else return (s.visited, state.2))
    (List.replicate (w * h) false, [])).map Prod.snd

end Model

/-! ## Pixels -/

/-- Two pixels next to each other in a row or in a column of a map. -/
def Beside (w p q : Nat) : Prop :=
  p / w = q / w ∧ (p % w + 1 = q % w ∨ q % w + 1 = p % w) ∨
    p % w = q % w ∧ (p / w + 1 = q / w ∨ q / w + 1 = p / w)

theorem Beside.symm {w p q : Nat} (beside : Beside w p q) : Beside w q p := by
  unfold Beside at beside ⊢
  omega

section Pixels

variable {α : Type} [Scalar α] (prob : List α) (w : Nat) (threshold : α)

/-- A pixel that reaches the threshold. -/
def Bright (p : Nat) : Prop := ∃ v, prob[p]? = some v ∧ Scalar.le threshold v = true

/-- Two neighbouring pixels that reach the threshold. -/
def Linked (p q : Nat) : Prop := Bright prob threshold p ∧ Bright prob threshold q ∧ Beside w p q

/-- Pixels of one 4-connected component. -/
def Joined : Nat → Nat → Prop := ReflTransGen (Linked prob w threshold)

/-- The first pixel of a component in raster order. -/
def First (p : Nat) : Prop :=
  Bright prob threshold p ∧ ∀ q, Joined prob w threshold p q → p ≤ q

variable {prob w threshold}

theorem Linked.symm {p q : Nat} (linked : Linked prob w threshold p q) :
    Linked prob w threshold q p :=
  ⟨linked.2.1, linked.1, linked.2.2.symm⟩

theorem Joined.symm {p q : Nat} (joined : Joined prob w threshold p q) :
    Joined prob w threshold q p := by
  induction joined with
  | refl => exact .refl
  | tail _ linked ih => exact .head linked.symm ih

theorem Bright.lt {p : Nat} (bright : Bright prob threshold p) : p < prob.length := by
  obtain ⟨v, found, -⟩ := bright
  exact (List.getElem?_eq_some_iff.mp found).1

theorem Joined.bright {p q : Nat} (joined : Joined prob w threshold p q)
    (bright : Bright prob threshold p) : Bright prob threshold q := by
  cases joined with
  | refl => exact bright
  | tail _ linked => exact linked.2.1

end Pixels

/-! ## Neighbours -/

section Neighbours

variable {w h : Nat}

theorem neighbour_eq_some_iff {nx ny : Int} {y : Nat} (row : 0 < w) :
    neighbour w h nx ny = some y ↔
      ((y % w : Nat) : Int) = nx ∧ ((y / w : Nat) : Int) = ny ∧ y < w * h := by
  constructor
  · intro found
    rw [neighbour] at found
    split at found
    · next inside =>
        obtain ⟨left, top, right, bottom⟩ := inside
        obtain rfl := Option.some.inj found
        have column : (ny.toNat * w + nx.toNat) % w = nx.toNat := by
          rw [Nat.mul_comm, Nat.mul_add_mod, Nat.mod_eq_of_lt right]
        have line : (ny.toNat * w + nx.toNat) / w = ny.toNat := by
          rw [Nat.mul_comm, Nat.mul_add_div row, Nat.div_eq_of_lt right, Nat.add_zero]
        rw [column, line]
        refine ⟨Int.toNat_of_nonneg left, Int.toNat_of_nonneg top, ?_⟩
        calc ny.toNat * w + nx.toNat < ny.toNat * w + w := Nat.add_lt_add_left right _
          _ = w * (ny.toNat + 1) := by ring
          _ ≤ w * h := Nat.mul_le_mul_left w bottom
    · cases found
  · rintro ⟨rfl, rfl, inside⟩
    have line : y / w < h := Nat.div_lt_of_lt_mul inside
    rw [neighbour, if_pos ⟨Int.natCast_nonneg _, Int.natCast_nonneg _,
      by rw [Int.toNat_natCast]; exact Nat.mod_lt y row, by rwa [Int.toNat_natCast]⟩,
      Int.toNat_natCast, Int.toNat_natCast, Nat.div_add_mod']

/-- The sides of a pixel inside the map are the pixels beside it. -/
theorem exists_side_iff {idx y : Nat} (row : 0 < w) :
    (∃ place ∈ sides w idx, neighbour w h place.1 place.2 = some y) ↔
      Beside w idx y ∧ y < w * h := by
  simp only [neighbour_eq_some_iff row, sides, List.mem_cons, List.not_mem_nil, or_false,
    exists_eq_or_imp, exists_eq_left, Beside]
  omega

end Neighbours

/-! ## One component -/

section Component

variable {α : Type} [Scalar α] {prob : List α} {w h : Nat} {threshold : α}
variable {start : Nat} {before : Set Nat} {popped stack : List Nat} {visited : List Bool}

/-- The pixels beside a pixel, in the order in which they are tried. -/
def tried (w h : Nat) (places : List (Int × Int)) : List Nat :=
  places.filterMap fun place => neighbour w h place.1 place.2

/-- Trying pixels keeps the invariant of the fill. -/
theorem push_places (long : prob.length = w * h) (marks : visited.length = w * h)
    {places : List (Int × Int)} {source : Nat} (inside : source ∈ popped)
    (beside : ∀ y ∈ tried w h places, y < w * h ∧ Beside w source y)
    (bright : Bright prob threshold source)
    (flood : Flood (Linked prob w threshold) start before popped stack (markedIn visited)
      (tried w h places)) :
    ∃ state : List Nat × List Bool,
      places.foldlM (fun state place => push prob w h threshold place state) (stack, visited) =
        some state ∧ state.2.length = w * h ∧
      Flood (Linked prob w threshold) start before popped state.1 (markedIn state.2) [] := by
  induction places generalizing stack visited with
  | nil => exact ⟨_, rfl, marks, flood⟩
  | cons place rest ih =>
      rw [List.foldlM_cons, push]
      cases target : neighbour w h place.1 place.2 with
      | none =>
          have outside : tried w h (place :: rest) = tried w h rest := by simp [tried, target]
          rw [outside] at flood beside
          exact ih marks beside flood
      | some y =>
          have next : tried w h (place :: rest) = y :: tried w h rest := by simp [tried, target]
          rw [next] at flood beside
          obtain ⟨here, later⟩ := List.forall_mem_cons.mp beside
          have seen : visited[y]? = some visited[y] := List.getElem?_eq_getElem (marks ▸ here.1)
          have value : prob[y]? = some prob[y] := List.getElem?_eq_getElem (long ▸ here.1)
          simp only [seen, value, Option.bind_eq_bind, Option.bind_some]
          by_cases marked : visited[y] = true
          · rw [if_pos marked]
            apply ih marks later
            exact flood.skip (.inl (by rw [mem_markedIn, seen, marked]))
          · rw [if_neg marked]
            by_cases reaches : Scalar.le threshold prob[y] = true
            · rw [if_pos reaches]
              refine @ih (y :: stack) (visited.set y true) ?_ later ?_
              · rw [List.length_set, marks]
              · rw [markedIn_set (marks ▸ here.1)]
                refine flood.push ?_ inside ⟨bright, ⟨_, value, reaches⟩, here.2⟩
                rw [mem_markedIn, seen]
                simpa using marked
            · rw [if_neg reaches]
              apply ih marks later
              refine flood.skip (.inr fun x linked => ?_)
              obtain ⟨v, found, above⟩ := linked.2.1
              rw [value, Option.some_inj] at found
              exact reaches (found ▸ above)

/-- What the loop has computed from the pixels taken from the stack. -/
structure Tallies (prob : List α) (w : Nat) (popped : List Nat) (s : Fill α) : Prop where
  minX : s.minX = (popped.map (· % w)).foldl min usizeMax
  minY : s.minY = (popped.map (· / w)).foldl min usizeMax
  maxX : s.maxX = (popped.map (· % w)).foldl max 0
  maxY : s.maxY = (popped.map (· / w)).foldl max 0
  sum : s.sum = Scalar.sum (popped.filterMap fun i => prob[i]?)
  count : s.count = popped.length

theorem tallies_start (visited : List Bool) (start : Nat) :
    Tallies prob w [] (Fill.start visited start) :=
  ⟨rfl, rfl, rfl, rfl, rfl, rfl⟩

theorem Tallies.snoc {s : Fill α} (tallies : Tallies prob w popped s) {idx : Nat} {p : α}
    (value : prob[idx]? = some p) (state : List Nat × List Bool) :
    Tallies prob w (popped ++ [idx])
      { minX := min s.minX (idx % w)
        minY := min s.minY (idx / w)
        maxX := max s.maxX (idx % w)
        maxY := max s.maxY (idx / w)
        sum := Scalar.add s.sum p
        count := s.count + 1
        stack := state.1
        visited := state.2 } where
  minX := by simp [tallies.minX]
  minY := by simp [tallies.minY]
  maxX := by simp [tallies.maxX]
  maxY := by simp [tallies.maxY]
  sum := by simp [tallies.sum, value, Scalar.sum]
  count := by simp [tallies.count]

theorem fill_nil {fuel : Nat} {s : Fill α} (empty : s.stack = []) :
    fill prob w h threshold fuel s = some s := by
  unfold fill
  rw [empty]

/-- The loop over a component ends with the invariant and an empty stack. -/
theorem fill_spec (long : prob.length = w * h) {fuel : Nat} {s : Fill α}
    (marks : s.visited.length = w * h) (bright : Bright prob threshold start)
    (flood : Flood (Linked prob w threshold) start before popped s.stack (markedIn s.visited) [])
    (tallies : Tallies prob w popped s) (enough : w * h ≤ popped.length + fuel) :
    ∃ s' popped', fill prob w h threshold fuel s = some s' ∧ s'.visited.length = w * h ∧
      Flood (Linked prob w threshold) start before popped' [] (markedIn s'.visited) [] ∧
      Tallies prob w popped' s' := by
  induction fuel generalizing s popped with
  | zero =>
      cases stack : s.stack with
      | nil => exact ⟨s, popped, fill_nil stack, marks, stack ▸ flood, tallies⟩
      | cons idx rest =>
          rw [stack] at flood
          have few := flood.length_le (List.range (w * h)) fun x member =>
            List.mem_range.mpr (long ▸ (Joined.bright (flood.reached x member) bright).lt)
          rw [List.length_cons, List.length_range] at few
          omega
  | succ fuel ih =>
      cases stack : s.stack with
      | nil => exact ⟨s, popped, fill_nil stack, marks, stack ▸ flood, tallies⟩
      | cons idx rest =>
          rw [stack] at flood
          have brightIdx : Bright prob threshold idx :=
            Joined.bright (flood.reached idx (by simp)) bright
          have inside : idx < w * h := long ▸ brightIdx.lt
          have row : 0 < w := Nat.pos_of_mul_pos_right (Nat.zero_lt_of_lt inside)
          have side {y : Nat} : y ∈ tried w h (sides w idx) ↔ Beside w idx y ∧ y < w * h := by
            rw [tried, List.mem_filterMap, exists_side_iff row]
          have opened := flood.pop (tried w h (sides w idx)) fun y linked =>
            side.mpr ⟨linked.2.2, long ▸ linked.2.1.lt⟩
          obtain ⟨state, pushed, marks', flood'⟩ := push_places long marks
            (List.mem_append_right popped (List.mem_singleton_self idx))
            (fun y member => (side.mp member).symm) brightIdx opened
          obtain ⟨p, value, -⟩ := brightIdx
          obtain ⟨s', popped', ran, done⟩ := ih marks' flood' (tallies.snoc value state)
            (by rw [List.length_append, List.length_singleton]; omega)
          refine ⟨s', popped', ?_, done⟩
          unfold fill
          rw [stack]
          simp only [value, pushed, Option.bind_eq_bind, Option.bind_some]
          exact ran

end Component

end AiCoreStack.Ocr
