import Mathlib.Data.List.Pairwise
import Mathlib.Tactic.Common

/-!
# Monotone tables between two lines

A row ties a stretch of a source line to a stretch of a destination line.  It either
shifts its places one by one or rewrites the stretch as a whole.  The pre-image of an
interval under a list of rows in order spans an interval again, whose ends are computed
from the first and the last row alone.
-/

namespace AiCoreStack.Foundation

universe u

/-- One row of a table. -/
structure Row where
  srcStart : Nat
  srcStop : Nat
  dstStart : Nat
  dstStop : Nat
  shifts : Bool
  deriving DecidableEq

namespace Row

/-- A row takes something from the source, and as much as it gives if it shifts. -/
structure Sound (row : Row) : Prop where
  consumes : row.srcStart < row.srcStop
  forward : row.dstStart ≤ row.dstStop
  even : row.shifts = true → row.srcStart + row.dstStop = row.srcStop + row.dstStart

/-- A row that lies in front of another one on both lines. -/
def Before (left right : Row) : Prop :=
  left.srcStop ≤ right.srcStart ∧ left.dstStop ≤ right.dstStart

/-- Whether a source place is a pre-image of a destination place. -/
def Preimage (row : Row) (place origin : Nat) : Prop :=
  row.dstStart ≤ place ∧ place < row.dstStop ∧
    if row.shifts then origin = row.srcStart + (place - row.dstStart)
    else row.srcStart ≤ origin ∧ origin < row.srcStop

/-- Where an interval that starts in the row starts in the source. -/
def pullStart (row : Row) (start : Nat) : Nat :=
  if row.shifts then row.srcStart + (start - row.dstStart) else row.srcStart

/-- Where an interval that stops in the row stops in the source. -/
def pullStop (row : Row) (stop : Nat) : Nat :=
  if row.shifts then row.srcStart + (stop - row.dstStart) else row.srcStop

theorem Sound.pullStart_mem {row : Row} (sound : row.Sound) {start : Nat}
    (below : row.dstStart ≤ start) (above : start < row.dstStop) :
    row.srcStart ≤ row.pullStart start ∧ row.pullStart start < row.srcStop := by
  have consumes := sound.consumes
  rw [pullStart]
  split
  next shifts =>
    have even := sound.even shifts
    omega
  next => omega

theorem Sound.pullStop_mem {row : Row} (sound : row.Sound) {stop : Nat}
    (below : row.dstStart < stop) (above : stop ≤ row.dstStop) :
    row.srcStart < row.pullStop stop ∧ row.pullStop stop ≤ row.srcStop := by
  have consumes := sound.consumes
  rw [pullStop]
  split
  next shifts =>
    have even := sound.even shifts
    omega
  next => omega

/-- Every place in a sound row has a pre-image. -/
theorem Sound.exists_preimage {row : Row} (sound : row.Sound) {place : Nat}
    (below : row.dstStart ≤ place) (above : place < row.dstStop) :
    ∃ origin, row.Preimage place origin := by
  refine ⟨row.pullStart place, below, above, ?_⟩
  have consumes := sound.consumes
  rw [pullStart]
  split
  next => rfl
  next => exact ⟨Nat.le_refl _, consumes⟩

end Row

/-- Source places behind an interval of destination places. -/
def Image (rows : List Row) (start stop origin : Nat) : Prop :=
  ∃ row ∈ rows, ∃ place, start ≤ place ∧ place < stop ∧ row.Preimage place origin

/-- Places between two places of a set. -/
def Hull (places : Nat → Prop) (place : Nat) : Prop :=
  ∃ low high, places low ∧ places high ∧ low ≤ place ∧ place ≤ high

theorem Image.mono {rows : List Row} {start stop start' stop' origin : Nat}
    (low : start' ≤ start) (high : stop ≤ stop') (image : Image rows start stop origin) :
    Image rows start' stop' origin := by
  obtain ⟨row, member, place, from', until', preimage⟩ := image
  exact ⟨row, member, place, by omega, by omega, preimage⟩

theorem Hull.mono {places places' : Nat → Prop} {place : Nat}
    (within : ∀ place, places place → places' place) (hull : Hull places place) :
    Hull places' place := by
  obtain ⟨low, high, inLow, inHigh, below, above⟩ := hull
  exact ⟨low, high, within low inLow, within high inHigh, below, above⟩

/-- Two members of an ordered list are the same or are ordered. -/
theorem pairwise_trichotomy {α : Type u} {relation : α → α → Prop} {members : List α}
    (ordered : members.Pairwise relation) {left right : α} (inLeft : left ∈ members)
    (inRight : right ∈ members) : left = right ∨ relation left right ∨ relation right left := by
  induction members with
  | nil => exact absurd inLeft (by simp)
  | cons member members ih =>
      rw [List.pairwise_cons] at ordered
      rcases List.mem_cons.mp inLeft with rfl | laterLeft
      · rcases List.mem_cons.mp inRight with rfl | laterRight
        · exact .inl rfl
        · exact .inr (.inl (ordered.1 right laterRight))
      · rcases List.mem_cons.mp inRight with rfl | laterRight
        · exact .inr (.inr (ordered.1 left laterLeft))
        · exact ih ordered.2 laterLeft laterRight

/-- Rows in order, each of them sound. -/
structure Monotone (rows : List Row) : Prop where
  ordered : rows.Pairwise Row.Before
  sound : ∀ row ∈ rows, row.Sound

/-- An interval that starts in one row of a table and stops in another. -/
structure Reaches (rows : List Row) (start stop : Nat) (first last : Row) : Prop where
  firstMem : first ∈ rows
  firstStart : first.dstStart ≤ start
  firstStop : start < first.dstStop
  lastMem : last ∈ rows
  lastStart : last.dstStart < stop
  lastStop : stop ≤ last.dstStop
  positive : start < stop

namespace Monotone

variable {rows : List Row}

/-- Two rows are the same or lie one in front of the other. -/
theorem trichotomy (monotone : Monotone rows) {left right : Row} (inLeft : left ∈ rows)
    (inRight : right ∈ rows) : left = right ∨ left.Before right ∨ right.Before left :=
  pairwise_trichotomy monotone.ordered inLeft inRight

section Interval

variable {first last : Row} {start stop : Nat}

/-- Pre-images of an interval lie between its two ends in the source. -/
theorem image_between (monotone : Monotone rows) (reaches : Reaches rows start stop first last)
    {origin : Nat} (image : Image rows start stop origin) :
    first.pullStart start ≤ origin ∧ origin < last.pullStop stop := by
  obtain ⟨row, member, place, from', until', low, high, preimage⟩ := image
  have sound := monotone.sound row member
  have within : row.srcStart ≤ origin ∧ origin < row.srcStop := by
    split at preimage
    next shifts =>
      have even := sound.even shifts
      omega
    next => exact preimage
  have firstSound := monotone.sound first reaches.firstMem
  have lastSound := monotone.sound last reaches.lastMem
  have startMem := firstSound.pullStart_mem reaches.firstStart reaches.firstStop
  have stopMem := lastSound.pullStop_mem reaches.lastStart reaches.lastStop
  have below := reaches.firstStart
  have below' := reaches.lastStop
  constructor
  · rcases monotone.trichotomy reaches.firstMem member with rfl | before | behind
    · rw [Row.pullStart]
      split
      next shifts =>
        rw [if_pos shifts] at preimage
        omega
      next => exact within.1
    · have order := before.1
      omega
    · have order := behind.2
      omega
  · rcases monotone.trichotomy member reaches.lastMem with rfl | before | behind
    · rw [Row.pullStop]
      split
      next shifts =>
        rw [if_pos shifts] at preimage
        omega
      next => exact within.2
    · have order := before.1
      omega
    · have order := behind.2
      omega

/-- The first place in the source is a pre-image. -/
theorem image_start (monotone : Monotone rows) (reaches : Reaches rows start stop first last) :
    Image rows start stop (first.pullStart start) := by
  refine ⟨first, reaches.firstMem, start, Nat.le_refl _, reaches.positive, reaches.firstStart,
    reaches.firstStop, ?_⟩
  have consumes := (monotone.sound first reaches.firstMem).consumes
  rw [Row.pullStart]
  split
  next => rfl
  next => exact ⟨Nat.le_refl _, consumes⟩

/-- The last place in the source is a pre-image. -/
theorem image_stop (monotone : Monotone rows) (reaches : Reaches rows start stop first last) :
    Image rows start stop (last.pullStop stop - 1) := by
  obtain ⟨-, -, -, member, below, above, positive⟩ := reaches
  refine ⟨last, member, stop - 1, by omega, by omega, by omega, by omega, ?_⟩
  have consumes := (monotone.sound last member).consumes
  rw [Row.pullStop]
  split
  next => omega
  next => omega

/-- The pre-image of an interval spans the interval between its two ends. -/
theorem hull_image (monotone : Monotone rows) (reaches : Reaches rows start stop first last)
    (origin : Nat) :
    first.pullStart start ≤ origin ∧ origin < last.pullStop stop ↔
      Hull (Image rows start stop) origin := by
  constructor
  · rintro ⟨low, high⟩
    exact ⟨_, _, monotone.image_start reaches, monotone.image_stop reaches, low, by omega⟩
  · rintro ⟨low, high, imageLow, imageHigh, order, order'⟩
    have lower := monotone.image_between reaches imageLow
    have upper := monotone.image_between reaches imageHigh
    omega

/-- A row that gives nothing lies inside the source interval when its place is strictly
inside the interval, and beside it otherwise. -/
theorem deleted (monotone : Monotone rows) (reaches : Reaches rows start stop first last)
    {row : Row} (member : row ∈ rows) (empty : row.dstStart = row.dstStop) :
    (start < row.dstStart ∧ row.dstStart < stop →
      first.pullStart start ≤ row.srcStart ∧ row.srcStop ≤ last.pullStop stop) ∧
    (¬ (start < row.dstStart ∧ row.dstStart < stop) →
      row.srcStop ≤ first.pullStart start ∨ last.pullStop stop ≤ row.srcStart) := by
  have firstSound := monotone.sound first reaches.firstMem
  have lastSound := monotone.sound last reaches.lastMem
  have startMem := firstSound.pullStart_mem reaches.firstStart reaches.firstStop
  have stopMem := lastSound.pullStop_mem reaches.lastStart reaches.lastStop
  have ⟨firstMem, below, above, lastMem, below', above', _⟩ := reaches
  constructor
  · rintro ⟨inside, inside'⟩
    constructor
    · rcases monotone.trichotomy reaches.firstMem member with rfl | before | behind
      · omega
      · have order := before.1
        omega
      · have order := behind.2
        omega
    · rcases monotone.trichotomy reaches.lastMem member with rfl | before | behind
      · omega
      · have order := before.2
        omega
      · have order := behind.1
        omega
  · intro inside
    have outside : row.dstStart ≤ start ∨ stop ≤ row.dstStart := by omega
    rcases outside with outside | outside
    · left
      rcases monotone.trichotomy reaches.firstMem member with rfl | before | behind
      · omega
      · have order := before.2
        omega
      · have order := behind.1
        omega
    · right
      rcases monotone.trichotomy reaches.lastMem member with rfl | before | behind
      · omega
      · have order := before.1
        omega
      · have order := behind.2
        omega

end Interval

/-- A place strictly inside a row lies in no other row. -/
theorem eq_of_inside (monotone : Monotone rows) {row other : Row} (member : row ∈ rows)
    (member' : other ∈ rows) {place : Nat} (inside : row.dstStart ≤ place ∧ place ≤ row.dstStop)
    (inside' : other.dstStart < place ∧ place < other.dstStop) : row = other := by
  rcases monotone.trichotomy member member' with same | before | behind
  · exact same
  · have order := before.2
    omega
  · have order := behind.2
    omega

end Monotone

/-- The rows between two searches are those that pass both tests. -/
theorem take_drop_eq_filter {α : Type u} {skipped reached : α → Bool} {rows : List α}
    (skips : rows.Pairwise fun left right => skipped right = true → skipped left = true)
    (reaches : rows.Pairwise fun left right => reached right = true → reached left = true) :
    (rows.take (rows.takeWhile reached).length).drop (rows.takeWhile skipped).length =
      rows.filter fun row => !skipped row && reached row := by
  induction rows with
  | nil => rfl
  | cons row rows ih =>
      rw [List.pairwise_cons] at skips reaches
      have rest := ih skips.2 reaches.2
      by_cases inReach : reached row = true
      · by_cases skip : skipped row = true
        · rw [List.takeWhile_cons_of_pos inReach, List.takeWhile_cons_of_pos skip]
          simpa [skip] using rest
        · have none : rows.takeWhile skipped = [] := by
            cases rows with
            | nil => rfl
            | cons next rows =>
                have unskipped : ¬ skipped next = true :=
                  fun skipNext => skip (skips.1 next List.mem_cons_self skipNext)
                exact List.takeWhile_cons_of_neg unskipped
          rw [none] at rest
          rw [List.takeWhile_cons_of_pos inReach, List.takeWhile_cons_of_neg skip]
          simpa [skip, inReach] using rest
      · rw [List.takeWhile_cons_of_neg inReach, List.length_nil, List.take_zero, List.drop_nil]
        symm
        rw [List.filter_eq_nil_iff]
        intro other member
        rcases List.mem_cons.mp member with rfl | later
        · simp [inReach]
        · have unreached : reached other = false := by
            rw [Bool.eq_false_iff]
            exact fun reach => inReach (reaches.1 other later reach)
          simp [unreached]

end AiCoreStack.Foundation
