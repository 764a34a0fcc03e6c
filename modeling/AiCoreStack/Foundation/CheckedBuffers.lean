import AiCoreStack.Foundation.Buffers

/-!
# Flat buffers with checked bounds

Loops over flat buffers in which every slice and every index is checked.  A loop is followed by an
invariant on the number of its turns: it ends without a failed check if every turn does and keeps
the invariant.
-/

namespace AiCoreStack.Foundation

variable {α β σ : Type}

/-! ## Loops -/

/-- A loop over consecutive numbers keeps an invariant on the number that comes next. -/
theorem foldlM_range' {step : σ → Nat → Option σ} (Inv : Nat → σ → Prop) {first : Nat} (count : Nat)
    {start : σ} (begin_ : Inv first start)
    (turn : ∀ j, first ≤ j → j < first + count → ∀ state, Inv j state →
      ∃ next, step state j = some next ∧ Inv (j + 1) next) :
    ∃ final, (List.range' first count).foldlM step start = some final ∧
      Inv (first + count) final := by
  induction count generalizing first start with
  | zero => exact ⟨start, rfl, begin_⟩
  | succ count ih =>
      obtain ⟨next, stepped, kept⟩ := turn first (Nat.le_refl _) (by omega) start begin_
      obtain ⟨final, ran, reached⟩ := ih kept fun j above below =>
        turn j (by omega) (by omega)
      refine ⟨final, ?_, ?_⟩
      · rw [List.range'_succ, List.foldlM_cons, stepped]
        exact ran
      · rwa [Nat.add_right_comm] at reached

theorem foldlM_range {step : σ → Nat → Option σ} (Inv : Nat → σ → Prop) (count : Nat) {start : σ}
    (begin_ : Inv 0 start)
    (turn : ∀ j < count, ∀ state, Inv j state →
      ∃ next, step state j = some next ∧ Inv (j + 1) next) :
    ∃ final, (List.range count).foldlM step start = some final ∧ Inv count final := by
  have ran := foldlM_range' Inv count begin_ fun j _ below => turn j (by omega)
  rwa [Nat.zero_add, ← List.range_eq_range'] at ran

/-- A loop whose states are known. -/
theorem foldlM_range_eq {step : σ → Nat → Option σ} (state : Nat → σ) (count : Nat) {start : σ}
    (begin_ : start = state 0) (turn : ∀ j < count, step (state j) j = some (state (j + 1))) :
    (List.range count).foldlM step start = some (state count) := by
  obtain ⟨final, ran, rfl⟩ := foldlM_range (fun j now => now = state j) count begin_ (by
    rintro j below _ rfl
    exact ⟨_, turn j below, rfl⟩)
  exact ran

/-- A loop over a list keeps an invariant on the items that are done. -/
theorem foldlM_done {step : σ → α → Option σ} (Inv : List α → σ → Prop) {items : List α}
    {start : σ} (begin_ : Inv [] start)
    (turn : ∀ done item, done ++ [item] <+: items → ∀ state, Inv done state →
      ∃ next, step state item = some next ∧ Inv (done ++ [item]) next) :
    ∃ final, items.foldlM step start = some final ∧ Inv items final := by
  induction items using List.reverseRecOn with
  | nil => exact ⟨start, rfl, begin_⟩
  | append_singleton rest item ih =>
      obtain ⟨state, ran, kept⟩ := ih fun done item within =>
        turn done item (within.trans (List.prefix_append _ _))
      obtain ⟨next, stepped, reached⟩ := turn rest item (List.prefix_refl _) state kept
      refine ⟨next, ?_, reached⟩
      rw [List.foldlM_append, ran]
      simp [stepped]

/-! ## Flags -/

/-- The places whose flags are set. -/
def markedIn (flags : List Bool) : Set Nat := {x | flags[x]? = some true}

@[simp] theorem mem_markedIn {flags : List Bool} {x : Nat} :
    x ∈ markedIn flags ↔ flags[x]? = some true := Iff.rfl

theorem markedIn_set {flags : List Bool} {y : Nat} (inside : y < flags.length) :
    markedIn (flags.set y true) = insert y (markedIn flags) := by
  ext x
  rw [Set.mem_insert_iff, mem_markedIn, mem_markedIn, List.getElem?_set]
  by_cases same : y = x
  · subst same
    simp [inside]
  · simp [same, Ne.symm same]

/-! ## Results item by item -/

theorem mapM_eq_some {f : α → Option β} {g : α → β} {items : List α}
    (each : ∀ item ∈ items, f item = some (g item)) : items.mapM f = some (items.map g) := by
  induction items with
  | nil => rfl
  | cons item rest ih =>
      obtain ⟨first, later⟩ := List.forall_mem_cons.mp each
      rw [List.mapM_cons, first, ih later]
      rfl

theorem mapM_eq_some_iff {f : α → Option β} {items : List α} {results : List β} :
    items.mapM f = some results ↔
      List.Forall₂ (fun item result => f item = some result) items results := by
  induction items generalizing results with
  | nil =>
      rw [List.mapM_nil, Option.pure_def, Option.some_inj, List.forall₂_nil_left_iff]
      exact eq_comm
  | cons item rest ih =>
      rw [List.mapM_cons, List.forall₂_cons_left_iff, Option.bind_eq_bind, Option.bind_eq_some_iff]
      constructor
      · rintro ⟨first, head, ran⟩
        obtain ⟨later, tail, eq⟩ := Option.bind_eq_some_iff.mp ran
        exact ⟨first, later, head, ih.mp tail, (Option.some.inj eq).symm⟩
      · rintro ⟨first, later, head, tail, rfl⟩
        exact ⟨first, head, Option.bind_eq_some_iff.mpr ⟨later, ih.mpr tail, rfl⟩⟩

/-- What stands beside some of the items, in order. -/
theorem sublist_of_forall₂ {relation : α → β → Prop} {items : List α} {results : List β}
    (related : List.Forall₂ relation items results) {chosen : List α} (sub : chosen.Sublist items) :
    ∃ beside : List β, beside.Sublist results ∧ List.Forall₂ relation chosen beside := by
  induction sub generalizing results with
  | slnil => exact ⟨[], List.nil_sublist _, .nil⟩
  | cons item sub ih =>
      obtain ⟨result, rest, -, tail, rfl⟩ := List.forall₂_cons_left_iff.mp related
      obtain ⟨beside, inside, paired⟩ := ih tail
      exact ⟨beside, inside.cons result, paired⟩
  | cons_cons item sub ih =>
      obtain ⟨result, rest, head, tail, rfl⟩ := List.forall₂_cons_left_iff.mp related
      obtain ⟨beside, inside, paired⟩ := ih tail
      exact ⟨result :: beside, inside.cons_cons result, .cons head paired⟩

theorem exists_beside {relation : α → β → Prop} {items : List α} {results : List β}
    (related : List.Forall₂ relation items results) {item : α} (member : item ∈ items) :
    ∃ result ∈ results, relation item result := by
  obtain ⟨beside, sub, paired⟩ :=
    sublist_of_forall₂ related (List.singleton_sublist.mpr member)
  obtain ⟨result, rest, holds, -, rfl⟩ := List.forall₂_cons_left_iff.mp paired
  exact ⟨result, sub.subset List.mem_cons_self, holds⟩

theorem exists_pair_beside {relation : α → β → Prop} {items : List α} {results : List β}
    (related : List.Forall₂ relation items results) {first second : α}
    (sub : [first, second].Sublist items) :
    ∃ left right, [left, right].Sublist results ∧ relation first left ∧ relation second right := by
  obtain ⟨beside, inside, paired⟩ := sublist_of_forall₂ related sub
  obtain ⟨left, later, holds, behind, rfl⟩ := List.forall₂_cons_left_iff.mp paired
  obtain ⟨right, rest, holds', none, rfl⟩ := List.forall₂_cons_left_iff.mp behind
  obtain rfl := List.forall₂_nil_left_iff.mp none
  exact ⟨left, right, inside, holds, holds'⟩

theorem exists_mapM {f : α → Option β} {items : List α}
    (each : ∀ item ∈ items, ∃ result, f item = some result) :
    ∃ results, items.mapM f = some results := by
  induction items with
  | nil => exact ⟨[], rfl⟩
  | cons item rest ih =>
      obtain ⟨first, later⟩ := List.forall_mem_cons.mp each
      obtain ⟨result, found⟩ := first
      obtain ⟨results, read⟩ := ih later
      exact ⟨result :: results, mapM_eq_some_iff.mpr (.cons found (mapM_eq_some_iff.mp read))⟩

theorem mapM_eq_none {f : α → Option β} {items : List α} {item : α} (member : item ∈ items)
    (fails : f item = none) : items.mapM f = none := by
  cases ran : items.mapM f with
  | none => rfl
  | some results =>
      obtain ⟨result, -, found⟩ := exists_beside (mapM_eq_some_iff.mp ran) member
      rw [fails] at found
      cases found

theorem mapM_eq_filterMap {f : α → Option β} {items : List α}
    (each : ∀ item ∈ items, ∃ result, f item = some result) :
    items.mapM f = some (items.filterMap f) := by
  induction items with
  | nil => rfl
  | cons item rest ih =>
      obtain ⟨⟨result, found⟩, later⟩ := List.forall_mem_cons.mp each
      rw [List.mapM_cons, found, ih later, List.filterMap_cons_some found]
      rfl

theorem filterMap_getElem?_range (items : List α) :
    (List.range items.length).filterMap (fun i => items[i]?) = items := by
  induction items with
  | nil => rfl
  | cons item rest ih =>
      rw [List.length_cons, List.range_succ_eq_map, List.filterMap_cons, List.filterMap_map]
      exact congrArg (item :: ·) ih

/-- Reading a list at all of its positions in some order rearranges it. -/
theorem mapM_getElem?_perm {items : List α} {order : List Nat}
    (perm : order.Perm (List.range items.length)) :
    ∃ ordered, order.mapM (fun i => items[i]?) = some ordered ∧ ordered.Perm items := by
  refine ⟨order.filterMap fun i => items[i]?, mapM_eq_filterMap fun i member => ?_, ?_⟩
  · have inside := List.mem_range.mp (perm.mem_iff.mp member)
    exact ⟨_, List.getElem?_eq_getElem inside⟩
  · have read := perm.filterMap fun i => items[i]?
    rwa [filterMap_getElem?_range] at read

/-! ## Slices -/

/-- `&buffer[start..stop]`. -/
def range? (buffer : List α) (start stop : Nat) : Option (List α) :=
  if start ≤ stop ∧ stop ≤ buffer.length then some (slice buffer start (stop - start)) else none

theorem range?_eq_some {buffer : List α} {start width : Nat}
    (inside : start + width ≤ buffer.length) :
    range? buffer start (start + width) = some (slice buffer start width) := by
  rw [range?, if_pos ⟨Nat.le_add_right _ _, inside⟩, Nat.add_sub_cancel_left]

/-- The part of a number of parts of the same width. -/
theorem part_inside {i count width : Nat} (inside : i < count) :
    i * width + width ≤ count * width := by
  rw [← Nat.succ_mul]
  exact Nat.mul_le_mul_right width inside

theorem range?_part {buffer : List α} {i count width : Nat} (long : buffer.length = count * width)
    (inside : i < count) :
    range? buffer (i * width) ((i + 1) * width) = some (slice buffer (i * width) width) := by
  rw [Nat.succ_mul]
  exact range?_eq_some (long ▸ part_inside inside)

theorem length_slice {buffer : List α} {start width : Nat}
    (inside : start + width ≤ buffer.length) : (slice buffer start width).length = width := by
  rw [slice, List.length_take, List.length_drop]
  omega

theorem getElem?_slice (buffer : List α) (start : Nat) {width t : Nat} (inside : t < width) :
    (slice buffer start width)[t]? = buffer[start + t]? := by
  rw [slice, List.getElem?_take_of_lt inside, List.getElem?_drop]

/-- `buffer[start..start + part.len()].copy_from_slice(part)`. -/
def splice (buffer : List α) (start : Nat) (part : List α) : List α :=
  buffer.take start ++ part ++ buffer.drop (start + part.length)

theorem length_splice {buffer part : List α} {start : Nat}
    (inside : start + part.length ≤ buffer.length) :
    (splice buffer start part).length = buffer.length := by
  simp only [splice, List.length_append, List.length_take, List.length_drop]
  omega

theorem getElem?_splice {buffer part : List α} {start : Nat}
    (inside : start + part.length ≤ buffer.length) (p : Nat) :
    (splice buffer start part)[p]? =
      if start ≤ p ∧ p < start + part.length then part[p - start]? else buffer[p]? := by
  have front : (buffer.take start).length = start := by
    rw [List.length_take]
    omega
  rw [splice, List.append_assoc, List.getElem?_append, front]
  by_cases before : p < start
  · rw [if_pos before, if_neg (by omega), List.getElem?_take_of_lt before]
  · rw [if_neg before, List.getElem?_append]
    by_cases within : p - start < part.length
    · rw [if_pos within, if_pos (by omega)]
    · rw [if_neg within, if_neg (by omega), List.getElem?_drop]
      congr 1
      omega

/-! ## Parts of the same width -/

theorem div_part {i width t : Nat} (inside : t < width) : (i * width + t) / width = i := by
  rw [Nat.mul_comm, Nat.mul_add_div (by omega), Nat.div_eq_of_lt inside, Nat.add_zero]

theorem mod_part {i width t : Nat} (inside : t < width) : (i * width + t) % width = t := by
  rw [Nat.mul_comm, Nat.mul_add_mod, Nat.mod_eq_of_lt inside]

/-- A number of a buffer of parts. -/
theorem getElem?_flatMap_range {part : Nat → List α} {count width : Nat}
    (uniform : ∀ i < count, (part i).length = width) {i t : Nat} (inside : i < count)
    (within : t < width) :
    ((List.range count).flatMap part)[i * width + t]? = (part i)[t]? := by
  rw [← getElem?_slice _ _ within, slice_flatMap_range uniform inside]

/-- A buffer is known by its numbers. -/
theorem eq_flatMap_range {buffer : List α} {part : Nat → List α} {count width : Nat}
    (uniform : ∀ i < count, (part i).length = width) (long : buffer.length = count * width)
    (each : ∀ i < count, ∀ t < width, buffer[i * width + t]? = (part i)[t]?) :
    buffer = (List.range count).flatMap part := by
  have same := length_flatMap_range uniform
  apply List.ext_getElem?
  intro p
  by_cases inside : p < count * width
  · have positive : 0 < width := Nat.pos_of_mul_pos_left (Nat.zero_lt_of_lt inside)
    have block : p / width < count := (Nat.div_lt_iff_lt_mul positive).mpr inside
    have rest := Nat.mod_lt p positive
    have split : p / width * width + p % width = p := Nat.div_add_mod' p width
    rw [← split, each _ block _ rest, getElem?_flatMap_range uniform block rest]
  · rw [List.getElem?_eq_none (by omega), List.getElem?_eq_none (by omega)]

/-! ## Chunks -/

/-- `par_chunks_mut(width)` over a buffer of `total` numbers: a task for each chunk, which is told
the length of the chunk and fills it. -/
def parChunks (width total : Nat) (task : Nat → Nat → Option (List α)) : Option (List α) :=
  if width = 0 then none
  else
    ((List.range ((total + width - 1) / width)).mapM fun i =>
      task i (min width (total - i * width))).map List.flatten

/-- Tasks that end fill the chunks one behind the other. -/
theorem parChunks_eq {width total : Nat} (positive : 0 < width)
    {task : Nat → Nat → Option (List α)} {part : Nat → List α}
    (each : ∀ i < (total + width - 1) / width,
      task i (min width (total - i * width)) = some (part i)) :
    parChunks width total task =
      some ((List.range ((total + width - 1) / width)).flatMap part) := by
  rw [parChunks, if_neg positive.ne', mapM_eq_some fun i member => each i (List.mem_range.mp member),
    List.flatMap_def]
  rfl

/-- Chunks that fill the buffer. -/
theorem parChunks_mul {width count : Nat} (positive : 0 < width)
    {task : Nat → Nat → Option (List α)} {part : Nat → List α}
    (each : ∀ i < count, task i width = some (part i)) :
    parChunks width (count * width) task = some ((List.range count).flatMap part) := by
  have chunks : (count * width + width - 1) / width = count := by
    rw [Nat.add_sub_assoc positive, div_part (by omega)]
  have filled : ∀ i < (count * width + width - 1) / width,
      task i (min width (count * width - i * width)) = some (part i) := by
    rw [chunks]
    intro i inside
    have full : i * width + width ≤ count * width := part_inside inside
    rw [Nat.min_eq_left (by omega)]
    exact each i inside
  have ran := parChunks_eq positive filled
  rwa [chunks] at ran

end AiCoreStack.Foundation
