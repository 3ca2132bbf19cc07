import FoundationsLab.Foundation.Bytes
import FoundationsLab.Foundation.SortedMap
import Mathlib.Data.List.Induction

/-! # Directories

A directory as the list of the operations performed on it, the oldest first. What
a process leaves behind when it stops between two operations is a prefix of the
list. -/

namespace FoundationsLab.Foundation

/-- A file operation. `write` creates the file or replaces its contents, `append`
creates it if it is missing. -/
inductive FileOp (Name : Type*) where
  | write (name : Name) (bytes : Bytes)
  | append (name : Name) (bytes : Bytes)
  | delete (name : Name)
deriving DecidableEq

abbrev Directory (Name : Type*) := List (FileOp Name)

namespace FileOp

variable {Name : Type*}

def name : FileOp Name → Name
  | write name _ => name
  | append name _ => name
  | delete name => name

/-- The bytes that go to the file. -/
def bytes : FileOp Name → Bytes
  | write _ bytes => bytes
  | append _ bytes => bytes
  | delete _ => []

variable [LinearOrder Name]

def apply (files : SortedMap Name Bytes) : FileOp Name → SortedMap Name Bytes
  | write name bytes => files.put name bytes
  | append name bytes => files.put name ((files.get name).getD [] ++ bytes)
  | delete name => files.remove name

end FileOp

namespace Directory

variable {Name : Type*} [LinearOrder Name]

def files (directory : Directory Name) : SortedMap Name Bytes :=
  directory.foldl FileOp.apply SortedMap.empty

/-- The contents of a file; `none` when it does not exist. -/
def read (directory : Directory Name) (name : Name) : Option Bytes :=
  (files directory).get name

def names (directory : Directory Name) : List Name := (files directory).entries.map Prod.fst

/-- A process that started with `before` and would have ended with `after` stopped
between two operations. -/
def StopsAt (before after stop : Directory Name) : Prop := before <+: stop ∧ stop <+: after

theorem files_append (directory : Directory Name) (op : FileOp Name) :
    files (directory ++ [op]) = op.apply (files directory) := by
  simp [files]

theorem read_write (directory : Directory Name) (name : Name) (bytes : Bytes) (other : Name) :
    read (directory ++ [.write name bytes]) other =
      if other = name then some bytes else read directory other := by
  rw [read, files_append, FileOp.apply, SortedMap.get_put]
  rfl

theorem read_append (directory : Directory Name) (name : Name) (bytes : Bytes) (other : Name) :
    read (directory ++ [.append name bytes]) other =
      if other = name then some ((read directory name).getD [] ++ bytes)
      else read directory other := by
  rw [read, files_append, FileOp.apply, SortedMap.get_put]
  rfl

theorem read_delete (directory : Directory Name) (name other : Name) :
    read (directory ++ [.delete name]) other =
      if other = name then none else read directory other := by
  rw [read, files_append, FileOp.apply, SortedMap.get_remove]
  rfl

/-- An operation on one file leaves the others alone. -/
theorem read_of_ne (directory : Directory Name) {op : FileOp Name} {other : Name}
    (different : other ≠ op.name) : read (directory ++ [op]) other = read directory other := by
  cases op with
  | write name bytes => exact (read_write directory name bytes other).trans (if_neg different)
  | append name bytes => exact (read_append directory name bytes other).trans (if_neg different)
  | delete name => exact (read_delete directory name other).trans (if_neg different)

/-- What later operations make of a file depends on what it held, and on nothing else. -/
theorem read_append_congr {first second : Directory Name} {name : Name}
    (same : read first name = read second name) (ops : Directory Name) :
    read (first ++ ops) name = read (second ++ ops) name := by
  induction ops using List.reverseRecOn with
  | nil => simpa using same
  | append_singleton ops op induction =>
      rw [← List.append_assoc, ← List.append_assoc]
      cases op with
      | write other bytes => rw [read_write, read_write, induction]
      | append other bytes =>
          rw [read_append, read_append, induction]
          by_cases isOwn : name = other
          · subst isOwn
            rw [if_pos rfl, if_pos rfl, induction]
          · rw [if_neg isOwn, if_neg isOwn]
      | delete other => rw [read_delete, read_delete, induction]

theorem mem_names {directory : Directory Name} {name : Name} :
    name ∈ names directory ↔ (read directory name).isSome := by
  rw [Option.isSome_iff_exists, names, List.mem_map]
  constructor
  · rintro ⟨⟨name, bytes⟩, member, rfl⟩
    exact ⟨bytes, (files directory).ascending.lookup_eq_some_iff.mpr member⟩
  · rintro ⟨bytes, found⟩
    exact ⟨(name, bytes), (files directory).ascending.lookup_eq_some_iff.mp found, rfl⟩

theorem names_sorted (directory : Directory Name) : (names directory).Pairwise (· < ·) :=
  (files directory).ascending

end Directory

end FoundationsLab.Foundation
