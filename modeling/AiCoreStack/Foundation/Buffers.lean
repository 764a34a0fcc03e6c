import Mathlib

/-!
# Flat buffers

Slices of buffers that hold parts of the same length one behind the other, and loops that
update several states side by side.
-/

namespace AiCoreStack.Foundation

variable {α β γ σ : Type}

/-- `&buffer[start..start + length]`. -/
def slice (buffer : List α) (start length : Nat) : List α := (buffer.drop start).take length

theorem slice_append_right (front buffer : List α) (start length : Nat) :
    slice (front ++ buffer) (front.length + start) length = slice buffer start length := by
  rw [slice, slice, List.drop_length_add_append]

theorem slice_append_left {buffer : List α} (back : List α) {start length : Nat}
    (inside : start + length ≤ buffer.length) :
    slice (buffer ++ back) start length = slice buffer start length := by
  rw [slice, slice, List.drop_append_of_le_length (by omega),
    List.take_append_of_le_length (by rw [List.length_drop]; omega)]

/-- A slice of a slice. -/
theorem slice_slice (buffer : List α) (start : Nat) {length inner count : Nat}
    (inside : inner + count ≤ length) :
    slice (slice buffer start length) inner count = slice buffer (start + inner) count := by
  rw [slice, slice, slice, List.drop_take, List.drop_drop, List.take_take,
    Nat.min_eq_left (by omega)]

theorem slice_zero_length (buffer : List α) : slice buffer 0 buffer.length = buffer := by
  simp [slice]

/-- A part of a buffer of parts of the same length. -/
theorem slice_flatten {parts : List (List α)} {width : Nat}
    (uniform : ∀ part ∈ parts, part.length = width) {j : Nat} (inside : j < parts.length) :
    slice parts.flatten (j * width) width = parts.getD j [] := by
  induction parts generalizing j with
  | nil => simp at inside
  | cons part parts ih =>
      have first : part.length = width := uniform part List.mem_cons_self
      rw [List.flatten_cons]
      cases j with
      | zero =>
          rw [Nat.zero_mul, slice_append_left _ (by omega), ← first, slice_zero_length]
          rfl
      | succ j =>
          have later := ih (fun other member => uniform other (List.mem_cons_of_mem part member))
            (Nat.lt_of_succ_lt_succ inside)
          rw [Nat.succ_mul, Nat.add_comm, ← first, slice_append_right, first, later]
          rfl

theorem length_flatten_uniform {parts : List (List α)} {width : Nat}
    (uniform : ∀ part ∈ parts, part.length = width) :
    parts.flatten.length = parts.length * width := by
  induction parts with
  | nil => simp
  | cons part parts ih =>
      rw [List.flatten_cons, List.length_append, uniform part List.mem_cons_self,
        ih fun other member => uniform other (List.mem_cons_of_mem part member), List.length_cons,
        Nat.succ_mul, Nat.add_comm]

/-- A part of a buffer whose parts of the same length are computed one after the other. -/
theorem slice_flatMap_range {part : Nat → List α} {count width : Nat}
    (uniform : ∀ i < count, (part i).length = width) {j : Nat} (inside : j < count) :
    slice ((List.range count).flatMap part) (j * width) width = part j := by
  have parts : ∀ other ∈ (List.range count).map part, other.length = width := by
    intro other member
    obtain ⟨i, within, rfl⟩ := List.mem_map.mp member
    exact uniform i (List.mem_range.mp within)
  rw [List.flatMap_def, slice_flatten parts (by simpa using inside)]
  simp [inside]

theorem length_flatMap_range {part : Nat → List α} {count width : Nat}
    (uniform : ∀ i < count, (part i).length = width) :
    ((List.range count).flatMap part).length = count * width := by
  rw [List.flatMap_def, length_flatten_uniform, List.length_map, List.length_range]
  intro other member
  obtain ⟨i, within, rfl⟩ := List.mem_map.mp member
  exact uniform i (List.mem_range.mp within)

/-- The parts of a buffer. -/
def chunks (width count : Nat) (buffer : List α) : List (List α) :=
  (List.range count).map fun i => slice buffer (i * width) width

@[simp] theorem length_chunks (width count : Nat) (buffer : List α) :
    (chunks width count buffer).length = count := by
  simp [chunks]

theorem length_of_mem_chunks {width count : Nat} {buffer : List α}
    (long : buffer.length = count * width) {part : List α} (member : part ∈ chunks width count buffer) :
    part.length = width := by
  obtain ⟨i, inside, rfl⟩ := List.mem_map.mp member
  have bound := Nat.mul_le_mul_right width (Nat.succ_le_of_lt (List.mem_range.mp inside))
  rw [Nat.succ_mul] at bound
  rw [slice, List.length_take, List.length_drop]
  omega

/-- The front of a list, read by its positions. -/
theorem map_take_eq_map_range (f : α → β) (fallback : α) {items : List α} {count : Nat}
    (inside : count ≤ items.length) :
    (items.take count).map f = (List.range count).map fun j => f (items.getD j fallback) := by
  apply List.ext_getElem
  · simpa using inside
  · intro j left right
    have within : j < items.length := by
      simp at right
      omega
    simp [within]

theorem map_mapIdx (f : Nat → α → β) (g : β → γ) (items : List α) :
    (items.mapIdx f).map g = items.mapIdx fun i item => g (f i item) := by
  apply List.ext_getElem
  · simp
  · simp

theorem mapIdx_map (f : α → β) (g : Nat → β → γ) (items : List α) :
    (items.map f).mapIdx g = items.mapIdx fun i item => g i (f item) := by
  apply List.ext_getElem
  · simp
  · simp

theorem zipWith_mapIdx (f : α → β → γ) (g : Nat → α → β) (items : List α) :
    List.zipWith f items (items.mapIdx g) = items.mapIdx fun i item => f item (g i item) := by
  apply List.ext_getElem
  · simp
  · simp

/-! ## Loops over states -/

/-- A loop that updates every state of a list runs the loop of each of them. -/
theorem foldl_mapIdx (step : Nat → σ → β → σ) (items : List β) (states : List σ) :
    items.foldl (fun states item => states.mapIdx fun i state => step i state item) states =
      states.mapIdx fun i state => items.foldl (step i) state := by
  induction items generalizing states with
  | nil =>
      apply List.ext_getElem
      · simp
      · simp
  | cons item items ih =>
      rw [List.foldl_cons, ih, List.mapIdx_mapIdx]
      rfl

theorem foldl_mapIdx_replicate (step : Nat → σ → β → σ) (items : List β) (count : Nat) (state : σ) :
    items.foldl (fun states item => states.mapIdx fun i state => step i state item)
        (List.replicate count state) =
      (List.range count).map fun i => items.foldl (step i) state := by
  rw [foldl_mapIdx]
  apply List.ext_getElem
  · simp
  · simp

/-- A loop that skips what lies behind a bound ends there. -/
theorem foldl_range_guard (step : σ → Nat → σ) (state : σ) {bound count : Nat}
    (inside : bound ≤ count) :
    (List.range count).foldl (fun state j => if j < bound then step state j else state) state =
      (List.range bound).foldl step state := by
  obtain ⟨more, rfl⟩ := Nat.exists_eq_add_of_le inside
  induction more with
  | zero =>
      apply List.foldl_ext
      intro state j member
      exact if_pos (List.mem_range.mp member)
  | succ more ih =>
      rw [← Nat.add_assoc, List.range_succ, List.foldl_append, ih (Nat.le_add_right _ _)]
      exact if_neg (by omega)

/-- The numbers below a bound, block by block. -/
theorem flatMap_range_blocks (width bound count : Nat) :
    ((List.range count).flatMap fun block =>
      (List.range (min (bound - block * width) width)).map (block * width + ·)) =
      List.range (min bound (count * width)) := by
  induction count with
  | zero => simp
  | succ count ih =>
      rw [List.range_succ, List.flatMap_append, ih, List.flatMap_singleton]
      rcases Nat.le_total (count * width) bound with inside | outside
      · rw [Nat.min_eq_right inside, ← List.range_add, Nat.succ_mul]
        congr 1
        omega
      · rw [Nat.sub_eq_zero_of_le outside, Nat.zero_min, List.range_zero, List.map_nil,
          List.append_nil, Nat.succ_mul]
        congr 1
        omega

/-- The numbers below a product, in blocks of the same size. -/
theorem flatMap_range_mul (f : Nat → List β) (count width : Nat) :
    ((List.range count).flatMap fun block =>
      (List.range width).flatMap fun i => f (block * width + i)) =
      (List.range (count * width)).flatMap f := by
  induction count with
  | zero => simp
  | succ count ih =>
      rw [List.range_succ, List.flatMap_append, ih, List.flatMap_singleton, Nat.succ_mul,
        List.range_add, List.flatMap_append, List.flatMap_map]

end AiCoreStack.Foundation
