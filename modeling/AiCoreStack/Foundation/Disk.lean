import Mathlib

/-!
# Files and their names

A directory maps names to files, and a file keeps its contents when its name is taken away or
given to another file, for those who have opened it before.  No two names stand for one file.
-/

namespace AiCoreStack.Foundation

/-- A file with other bytes from an offset on, as far as they go. -/
def overwrite (bytes : List UInt8) (offset : Nat) (chunk : List UInt8) : List UInt8 :=
  bytes.take offset ++ List.replicate (offset - bytes.length) 0 ++ chunk ++
    bytes.drop (offset + chunk.length)

@[simp] theorem overwrite_length (bytes chunk : List UInt8) :
    overwrite bytes bytes.length chunk = bytes ++ chunk := by
  simp [overwrite]

/-- No two names stand for one file. -/
def Distinct {N : Type} (entry : N → Option Nat) : Prop :=
  ∀ ⦃name name' file⦄, entry name = some file → entry name' = some file → name = name'

section

variable {N : Type} [DecidableEq N] {entry : N → Option Nat} {name : N}

theorem Distinct.link (distinct : Distinct entry) {file : Nat}
    (fresh : ∀ other, other ≠ name → entry other ≠ some file) :
    Distinct (Function.update entry name (some file)) := by
  have only : ∀ other file', Function.update entry name (some file) other = some file' →
      (other = name ∧ file' = file) ∨ (other ≠ name ∧ entry other = some file') := by
    intro other file' here
    rcases eq_or_ne other name with rfl | apart
    · rw [Function.update_self] at here
      exact .inl ⟨rfl, (Option.some.inj here).symm⟩
    · rw [Function.update_of_ne apart] at here
      exact .inr ⟨apart, here⟩
  intro left right file' hereLeft hereRight
  rcases only left file' hereLeft with ⟨rfl, rfl⟩ | ⟨apart, oldLeft⟩ <;>
    rcases only right _ hereRight with ⟨rfl, same⟩ | ⟨apart', oldRight⟩
  · rfl
  · exact absurd oldRight (fresh right apart')
  · exact absurd (same ▸ oldLeft) (fresh left apart)
  · exact distinct oldLeft oldRight

theorem unlink_eq_some {other : N} {file : Nat} :
    Function.update entry name none other = some file ↔ other ≠ name ∧ entry other = some file := by
  rcases eq_or_ne other name with rfl | apart
  · simp
  · simp [apart]

theorem Distinct.unlink (distinct : Distinct entry) :
    Distinct (Function.update entry name none) := by
  intro left right file hereLeft hereRight
  exact distinct (unlink_eq_some.mp hereLeft).2 (unlink_eq_some.mp hereRight).2

end

/-- A directory and the contents of its files, those without a name included. -/
structure Disk (N : Type) where
  entry : N → Option Nat
  data : Nat → List UInt8
  next : Nat
  entry_lt : ∀ {name file}, entry name = some file → file < next
  distinct : Distinct entry

namespace Disk

variable {N : Type}

/-- What the file of a name contains. -/
def contents (disk : Disk N) (name : N) : Option (List UInt8) :=
  (disk.entry name).map disk.data

/-- Write into an open file. -/
def write (disk : Disk N) (file offset : Nat) (chunk : List UInt8) : Disk N :=
  { disk with data := Function.update disk.data file (overwrite (disk.data file) offset chunk) }

@[simp] theorem write_entry (disk : Disk N) (file offset : Nat) (chunk : List UInt8) :
    (disk.write file offset chunk).entry = disk.entry := rfl

@[simp] theorem write_next (disk : Disk N) (file offset : Nat) (chunk : List UInt8) :
    (disk.write file offset chunk).next = disk.next := rfl

theorem write_data_self (disk : Disk N) (file : Nat) (chunk : List UInt8) :
    (disk.write file (disk.data file).length chunk).data file = disk.data file ++ chunk := by
  simp [write]

theorem write_data_of_ne (disk : Disk N) {file other : Nat} (apart : other ≠ file)
    (offset : Nat) (chunk : List UInt8) :
    (disk.write file offset chunk).data other = disk.data other :=
  Function.update_of_ne apart ..

/-- The second directory differs from the first one in a name, and in the file of this name,
which may be new. -/
structure Touches (name : N) (disk disk' : Disk N) : Prop where
  entry : ∀ other, other ≠ name → disk'.entry other = disk.entry other
  data : ∀ file, file < disk.next → disk.entry name ≠ some file → disk'.data file = disk.data file
  next : disk.next ≤ disk'.next
  own : ∀ file, disk'.entry name = some file → disk.entry name = some file ∨ disk.next ≤ file

theorem touches_write {disk : Disk N} {name : N} {file : Nat} (named : disk.entry name = some file)
    (offset : Nat) (chunk : List UInt8) : Touches name disk (disk.write file offset chunk) where
  entry _ _ := rfl
  data other _ apart := disk.write_data_of_ne (fun same => apart (by rw [same, named])) offset
    chunk
  next := le_rfl
  own _ here := .inl here

variable [DecidableEq N]

/-- Open a file to write it: the file of the name without its contents, or a new one. -/
def create (disk : Disk N) (name : N) : Nat × Disk N :=
  match disk.entry name with
  | some file => (file, { disk with data := Function.update disk.data file [] })
  | none =>
      (disk.next,
        { entry := Function.update disk.entry name (some disk.next)
          data := Function.update disk.data disk.next []
          next := disk.next + 1
          entry_lt := by
            intro other file here
            rcases eq_or_ne other name with rfl | apart
            · simp only [Function.update_self, Option.some.injEq] at here
              omega
            · rw [Function.update_of_ne apart] at here
              exact (disk.entry_lt here).trans (Nat.lt_succ_self _)
          distinct := disk.distinct.link fun _ _ here => (disk.entry_lt here).false })

/-- Give the file of a name another name, in place of the file that this one stood for. -/
def rename (disk : Disk N) (source target : N) : Option (Disk N) :=
  match found : disk.entry source with
  | none => none
  | some file =>
      some
        { disk with
          entry := Function.update (Function.update disk.entry source none) target (some file)
          entry_lt := by
            intro other file' here
            rcases eq_or_ne other target with rfl | apart
            · simp only [Function.update_self, Option.some.injEq] at here
              exact here ▸ disk.entry_lt found
            · rw [Function.update_of_ne apart] at here
              exact disk.entry_lt (unlink_eq_some.mp here).2
          distinct := disk.distinct.unlink.link fun other _ here =>
            (unlink_eq_some.mp here).1 (disk.distinct (unlink_eq_some.mp here).2 found) }

theorem touches_create (disk : Disk N) (name : N) : Touches name disk (disk.create name).2 := by
  rw [create]
  split
  next file named =>
    exact
      { entry := fun _ _ => rfl
        data := fun other _ apart =>
          Function.update_of_ne (fun same => apart (by rw [same, named])) ..
        next := le_rfl
        own := fun _ here => .inl here }
  next missing =>
    exact
      { entry := fun other apart => Function.update_of_ne apart ..
        data := fun other old _ => Function.update_of_ne old.ne ..
        next := Nat.le_succ _
        own := fun file here => by
          simp only [Function.update_self, Option.some.injEq] at here
          exact .inr here.le }

theorem create_entry (disk : Disk N) (name : N) :
    (disk.create name).2.entry name = some (disk.create name).1 := by
  rw [create]
  split
  next file named => exact named
  next => exact Function.update_self ..

theorem create_data (disk : Disk N) (name : N) :
    (disk.create name).2.data (disk.create name).1 = [] := by
  rw [create]
  split <;> exact Function.update_self ..

/-- What renaming does. -/
theorem rename_eq_some {disk disk' : Disk N} {source target : N} {file : Nat}
    (named : disk.entry source = some file) (renamed : disk.rename source target = some disk') :
    disk'.entry = Function.update (Function.update disk.entry source none) target (some file) ∧
      disk'.data = disk.data ∧ disk'.next = disk.next := by
  rw [rename] at renamed
  split at renamed
  next => simp at renamed
  next file' found =>
    rw [named, Option.some.injEq] at found
    subst found
    rw [← Option.some.inj renamed]
    exact ⟨rfl, rfl, rfl⟩

theorem rename_isSome {disk : Disk N} {source : N} {file : Nat}
    (named : disk.entry source = some file) (target : N) :
    ∃ disk', disk.rename source target = some disk' := by
  rw [rename]
  split
  next missing => simp [named] at missing
  next => exact ⟨_, rfl⟩

end Disk

end AiCoreStack.Foundation
