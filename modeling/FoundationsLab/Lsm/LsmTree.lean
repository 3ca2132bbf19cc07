import FoundationsLab.Foundation.Decimal
import FoundationsLab.Foundation.Layers
import FoundationsLab.Lsm.WriteAheadLog
import Mathlib.Data.List.Sort

/-! # The tree

`LsmTree` over a directory. A call returns the new state and whether it returned;
a call that throws leaves what it did before. A read that throws is `none`. -/

namespace FoundationsLab.Lsm

open Foundation
open Foundation.JavaString
open Foundation.Decimal
open WriteAheadLog (Output)

/-! ## The memtable -/

/-- A key bound to `none` was deleted. -/
structure MemTable where
  map : SortedMap JavaString (Option Bytes)
  approxBytes : Int

namespace MemTable

def empty : MemTable where
  map := .empty
  approxBytes := 0

def entryBytes (key : JavaString) (value : Option Bytes) : Int :=
  (getBytes key).length + (value.map List.length).getD 0 + 24

def update (memtable : MemTable) (key : JavaString) (value : Option Bytes) : MemTable :=
  let oldSize := match memtable.map.get key with
    | some old => entryBytes key old
    | none => 0
  { map := memtable.map.put key value
    approxBytes := memtable.approxBytes + (entryBytes key value - oldSize) }

end MemTable

/-! ## File names -/

def tablePrefix : FileName := ofAscii ['s', 's', 't', 'a', 'b', 'l', 'e', '-']
def tableSuffix : FileName := ofAscii ['.', 'd', 'b']

def sstFile (gen : Nat) : FileName := tablePrefix ++ formatPadded 8 gen ++ tableSuffix

def isTable (name : FileName) : Bool :=
  tablePrefix.isPrefixOf name && tableSuffix.isSuffixOf name

/-- The generation in the name of a table. -/
def generation (name : FileName) : Option Int :=
  parseInt ((name.drop tablePrefix.length).take
    (name.length - tableSuffix.length - tablePrefix.length))

/-! ## The tree -/

structure LsmTree where
  memtableLimitBytes : Int
  compactionThreshold : Int
  disk : Directory FileName
  pending : Bytes
  memtable : MemTable
  sstables : List SSTable
  maxGen : Nat

namespace LsmTree

/-- The entries of the tables in a window, the newer ones put over the older ones. -/
def mergeTables (sstables : List SSTable) (fromKey toKey : Option JavaString) :
    Option (SortedMap JavaString (Option Bytes)) :=
  sstables.foldr (fun table merged => do
    let merged ← merged
    let entries ← table.range fromKey toKey
    some (merged.putAll entries)) (some .empty)

/-! ### Reads -/

def getTables (key : JavaString) : List SSTable → Option (Option Bytes)
  | [] => some none
  | table :: older => do
      match ← table.get key with
      | .notFound => getTables key older
      | .tombstone => some none
      | .value bytes => some (some bytes)

def get (tree : LsmTree) (key : JavaString) : Option (Option Bytes) :=
  match tree.memtable.map.get key with
  | some value => some value
  | none => getTables key tree.sstables

def scan (tree : LsmTree) (fromKey toKey : Option JavaString) :
    Option (List (JavaString × Bytes)) := do
  let merged ← mergeTables tree.sstables fromKey toKey
  let inWindow := tree.memtable.map.entries.filter fun entry =>
    !fromKey.any (entry.1 < ·) && !toKey.any (· ≤ entry.1)
  some (Layers.live (merged.putAll inWindow).entries)

/-! ### Flush and compaction -/

def write (tree : LsmTree) (name : FileName) (bytes : Bytes) : LsmTree :=
  { tree with disk := tree.disk ++ [.write name bytes] }

/-- Open a table that is in the directory. -/
def openTable (disk : Directory FileName) (name : FileName) : Option SSTable :=
  (disk.read name).bind (SSTable.new name)

def compact (sizing : Sizing) (tree : LsmTree) : LsmTree × Bool :=
  if tree.sstables.length ≤ 1 then (tree, true)
  else
    match mergeTables tree.sstables none none with
    | none => (tree, false)
    | some merged =>
        let gen := tree.maxGen + 1
        let f := sstFile gen
        let live := merged.entries.filter (·.2.isSome)
        let old := tree.sstables
        let tree := { tree with maxGen := gen }
        let tree := tree.write f (SSTable.write sizing live merged.size)
        match openTable tree.disk f with
        | none => ({ tree with sstables := [] }, false)
        | some table =>
            ({ tree with
                sstables := [table]
                disk := tree.disk ++ old.map fun s => .delete s.file }, true)

def maybeCompact (sizing : Sizing) (tree : LsmTree) : LsmTree × Bool :=
  if tree.compactionThreshold < tree.sstables.length then compact sizing tree else (tree, true)

/-- `flush` before it may compact. -/
def flushMemtable (sizing : Sizing) (tree : LsmTree) : LsmTree × Bool :=
  let gen := tree.maxGen + 1
  let f := sstFile gen
  let tree := { tree with maxGen := gen }
  let tree := tree.write f (SSTable.write sizing tree.memtable.map.entries tree.memtable.map.size)
  match openTable tree.disk f with
  | none => (tree, false)
  | some table =>
      let out := WriteAheadLog.truncate ⟨tree.disk, tree.pending⟩
      ({ tree with
          sstables := table :: tree.sstables
          memtable := .empty
          disk := out.disk
          pending := out.pending }, true)

def flush (sizing : Sizing) (tree : LsmTree) : LsmTree × Bool :=
  if tree.memtable.map.entries = [] then (tree, true)
  else
    match flushMemtable sizing tree with
    | (tree, true) => maybeCompact sizing tree
    | (tree, false) => (tree, false)

/-! ### Writes -/

def maybeFlush (sizing : Sizing) (tree : LsmTree) : LsmTree × Bool :=
  if tree.memtableLimitBytes ≤ tree.memtable.approxBytes then flush sizing tree else (tree, true)

/-- `put` and `delete`: the log comes first. -/
def update (sizing : Sizing) (tree : LsmTree) (key : JavaString) (value : Option Bytes)
    (tombstone : Bool) : LsmTree × Bool :=
  match WriteAheadLog.append ⟨tree.disk, tree.pending⟩ key value tombstone with
  | (out, false) => ({ tree with disk := out.disk, pending := out.pending }, false)
  | (out, true) =>
      maybeFlush sizing { tree with
        disk := out.disk
        pending := out.pending
        memtable := tree.memtable.update key value }

def put (sizing : Sizing) (tree : LsmTree) (key : JavaString) (value : Option Bytes) :
    LsmTree × Bool :=
  update sizing tree key value false

def delete (sizing : Sizing) (tree : LsmTree) (key : JavaString) : LsmTree × Bool :=
  update sizing tree key none true

/-! ### Opening and closing -/

/-- The loop of `openExistingSSTables`. -/
def openTables (disk : Directory FileName) :
    (files : List FileName) → (sstables : List SSTable) → (maxGen : Nat) →
    Option (List SSTable × Nat)
  | [], sstables, maxGen => some (sstables, maxGen)
  | f :: files, sstables, maxGen => do
      let gen ← generation f
      let table ← openTable disk f
      openTables disk files (table :: sstables) (max maxGen gen.toNat)

def openExistingSSTables (disk : Directory FileName) : Option (List SSTable × Nat) :=
  openTables disk ((disk.names.filter isTable).insertionSort (· ≤ ·)) [] 0

/-- The constructor on a directory. -/
def new (disk : Directory FileName) (memtableLimitBytes compactionThreshold : Int) :
    Option LsmTree := do
  let (sstables, maxGen) ← openExistingSSTables disk
  let disk := disk ++ [.append walFile []]
  let records ← WriteAheadLog.replay ((disk.read walFile).getD [])
  some {
    memtableLimitBytes
    compactionThreshold
    disk
    pending := []
    memtable := records.foldl (fun memtable record => memtable.update record.1 record.2) .empty
    sstables
    maxGen }

/-- Open the directory again with the same settings. -/
def reopen (tree : LsmTree) (disk : Directory FileName) : Option LsmTree :=
  new disk tree.memtableLimitBytes tree.compactionThreshold

def close (sizing : Sizing) (tree : LsmTree) : LsmTree × Bool :=
  match flush sizing tree with
  | (tree, true) =>
      let out := Output.flush ⟨tree.disk, tree.pending⟩
      ({ tree with disk := out.disk, pending := out.pending }, true)
  | (tree, false) => (tree, false)

end LsmTree

end FoundationsLab.Lsm
