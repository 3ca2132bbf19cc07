import FoundationsLab.Foundation.JavaString
import FoundationsLab.Foundation.SortedMap
import FoundationsLab.Lsm.BloomFilter

/-! # Sorted tables

The file of an `SSTable`: the entries in ascending order, a sparse index, the
Bloom filter and a footer. An entry without a value is a tombstone. What the code
throws is `none` here. -/

namespace FoundationsLab.Lsm

open Foundation
open Foundation.JavaString

abbrev FileName := JavaString
abbrev Entry := JavaString × Option Bytes

/-- `(int) n`. -/
def intValue (n : Int) : Int := signed 32 (n % 2 ^ 32).toNat

structure SSTable where
  file : FileName
  data : Bytes
  sparseIndex : SortedMap JavaString Int
  bloom : BloomFilter
  dataEnd : Int
  count : Int

/-- The result of a lookup. -/
inductive Result where
  | notFound
  | tombstone
  | value (bytes : Bytes)
deriving DecidableEq

namespace SSTable

def SPARSE : Nat := 64
def MAGIC : Nat := 0x4C534D5F53535431
def FOOTER_BYTES : Nat := 8 + 8 + 4 + 8

/-! ## Writing -/

def encodeVersion : Option Bytes → Bytes
  | none => [0]
  | some value => 1 :: (writeInt value.length ++ value)

def encodeEntry (entry : Entry) : Bytes :=
  let k := getBytes entry.1
  writeInt k.length ++ k ++ encodeVersion entry.2

def encodeIndexEntry (entry : JavaString × Int) : Bytes :=
  let k := getBytes entry.1
  writeInt k.length ++ k ++ writeLong entry.2.toNat

/-- The state of the loop over the entries. -/
structure Writer where
  bytes : Bytes
  count : Nat
  sparse : SortedMap JavaString Int
  bloom : BloomFilter

def Writer.add (writer : Writer) (entry : Entry) : Writer where
  bytes := writer.bytes ++ encodeEntry entry
  count := writer.count + 1
  sparse :=
    if writer.count % SPARSE = 0 then writer.sparse.put entry.1 writer.bytes.length
    else writer.sparse
  bloom := writer.bloom.add (getBytes entry.1)

def Writer.start (sizing : Sizing) (expectedCount : Nat) : Writer where
  bytes := []
  count := 0
  sparse := .empty
  bloom := .new sizing (max 64 expectedCount)

def Writer.index (writer : Writer) : Bytes :=
  writeInt writer.sparse.size ++ writer.sparse.entries.flatMap encodeIndexEntry

def footer (indexOffset bloomOffset count : Nat) : Bytes :=
  writeLong indexOffset ++ writeLong bloomOffset ++ writeInt count ++ writeLong MAGIC

/-- The contents of the file for the entries `sorted`. -/
def write (sizing : Sizing) (sorted : List Entry) (expectedCount : Nat) : Bytes :=
  let writer := sorted.foldl Writer.add (Writer.start sizing expectedCount)
  let indexOffset := writer.bytes.length
  let bytes := writer.bytes ++ writer.index
  let bloomOffset := bytes.length
  bytes ++ writer.bloom.writeTo ++ footer indexOffset bloomOffset writer.count

/-! ## Opening -/

/-- The bytes from a position on. -/
def seek (data : Bytes) (pos : Int) : Option Bytes :=
  if pos < 0 then none else some (data.drop pos.toNat)

/-- A length and as many bytes. -/
def readBytes (bytes : Bytes) : Option (Bytes × Bytes) := do
  let (length, bytes) ← readInt bytes
  if length < 0 then none else takeBytes length.toNat bytes

def readIndex : (n : Nat) → SortedMap JavaString Int → Bytes →
    Option (SortedMap JavaString Int × Bytes)
  | 0, sparseIndex, bytes => some (sparseIndex, bytes)
  | n + 1, sparseIndex, bytes => do
      let (k, bytes) ← readBytes bytes
      let (off, bytes) ← readLong bytes
      readIndex n (sparseIndex.put (newString k) off) bytes

/-- The constructor. A file of 2 GiB or more cannot be mapped. -/
def new (file : FileName) (data : Bytes) : Option SSTable := do
  let bytes ← seek data (data.length - FOOTER_BYTES)
  let (indexOffset, bytes) ← readLong bytes
  let (bloomOffset, bytes) ← readLong bytes
  let (count, bytes) ← readInt bytes
  let (magic, _) ← readLong bytes
  if magic ≠ MAGIC then none
  else do
    let bytes ← seek data indexOffset
    let (n, bytes) ← readInt bytes
    let (sparseIndex, _) ← readIndex n.toNat .empty bytes
    let bytes ← seek data bloomOffset
    let (bloom, _) ← BloomFilter.readFrom bytes
    if 2 ^ 31 ≤ data.length then none
    else some ⟨file, data, sparseIndex, bloom, intValue indexOffset, count⟩

/-! ## Reading -/

def readEntry (bytes : Bytes) : Option (Entry × Bytes) := do
  let (kk, bytes) ← readBytes bytes
  let (flag, bytes) ← takeBytes 1 bytes
  if flag = [1] then do
    let (val, bytes) ← readBytes bytes
    some ((newString kk, some val), bytes)
  else some ((newString kk, none), bytes)

/-- The entry at a position, and the position behind it. -/
def entryAt (data : Bytes) (pos : Int) : Option (Entry × Int) := do
  let bytes ← seek data pos
  let (entry, rest) ← readEntry bytes
  some (entry, data.length - rest.length)

/-- The position where the scan for a key starts. -/
def floorPosition (table : SSTable) (key : JavaString) : Int :=
  match table.sparseIndex.floorEntry key with
  | none => 0
  | some floor => intValue floor.2

/-- The loop of `get`. Every round moves the position forward, so the length of the
file is enough fuel. -/
def getFrom (table : SSTable) (key : JavaString) : (fuel : Nat) → (pos : Int) → Option Result
  | 0, _ => none
  | fuel + 1, pos =>
      if pos < table.dataEnd then do
        let ((cur, val), next) ← entryAt table.data pos
        if cur = key then
          some (match val with
            | some bytes => .value bytes
            | none => .tombstone)
        else if key < cur then some .notFound
        else getFrom table key fuel next
      else some .notFound

def get (table : SSTable) (key : JavaString) : Option Result := do
  if ← table.bloom.mightContain (getBytes key) then
    getFrom table key (table.data.length + 1) (floorPosition table key)
  else some .notFound

/-- The loop of `range`. -/
def rangeFrom (table : SSTable) (fromKey toKey : Option JavaString) :
    (fuel : Nat) → (pos : Int) → Option (List Entry)
  | 0, _ => none
  | fuel + 1, pos =>
      if pos < table.dataEnd then do
        let (entry, next) ← entryAt table.data pos
        if fromKey.any (entry.1 < ·) then rangeFrom table fromKey toKey fuel next
        else if toKey.any (· ≤ entry.1) then some []
        else do
          let entries ← rangeFrom table fromKey toKey fuel next
          some (entry :: entries)
      else some []

def range (table : SSTable) (fromKey toKey : Option JavaString) : Option (List Entry) :=
  let pos := match fromKey with
    | none => 0
    | some key => floorPosition table key
  rangeFrom table fromKey toKey (table.data.length + 1) pos

end SSTable

end FoundationsLab.Lsm
