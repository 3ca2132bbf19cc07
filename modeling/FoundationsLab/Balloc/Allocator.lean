import FoundationsLab.Foundation.Word64
import FoundationsLab.Foundation.Memory
import Mathlib.Logic.Function.Basic

/-! # The allocator

`balloc` over a byte-addressed memory. The block tags, the free-list links and
the chunk headers live in that memory; the static variables are the other
fields. Address `0` is `NULL`. A loop over a linked list takes fuel and is `none`
when it runs out. -/

namespace FoundationsLab.Balloc

open Foundation
open Foundation.Word64

/-! ## Layout -/

def WSIZE : Nat := 8
def DSIZE : Nat := 16
def MIN_BLOCK : Nat := 32
def CHUNK : Nat := 2 ^ 20
def NCLASS : Nat := 16

def pack (size alloc : Nat) : Nat := size ||| alloc

section Tags

variable (mem : Memory)

def blkSize (p : Nat) : Nat := mem.load64 p &&& lnot 7
def blkAlloc (p : Nat) : Nat := mem.load64 p &&& 1

def hdrp (bp : Nat) : Nat := bp - WSIZE
def ftrp (bp : Nat) : Nat := bp + blkSize mem (hdrp bp) - DSIZE
def nextBlkp (bp : Nat) : Nat := bp + blkSize mem (hdrp bp)
def prevBlkp (bp : Nat) : Nat := bp - blkSize mem (bp - DSIZE)

end Tags

/-- The fields of `fnode`. -/
def nodeNext (n : Nat) : Nat := n
def nodePrev (n : Nat) : Nat := n + 8

/-- The fields and the size of `chunk`. -/
def chunkNext (ch : Nat) : Nat := ch
def chunkSize (ch : Nat) : Nat := ch + 8
def sizeofChunk : Nat := 16

structure Stats where
  bytesInUse : Nat
  bytesFree : Nat
  heapBytes : Nat
  blocksInUse : Nat
  blocksFree : Nat
  chunks : Nat

/-- The memory and the static variables, and the pieces of memory that the
system has mapped so far, with their lengths. -/
structure Heap where
  mem : Memory
  gClass : Nat → Nat
  gChunks : Nat
  gStats : Stats
  mapped : List (Nat × Nat)

/-- The heap of a program that has not allocated anything. -/
def Heap.initial (mem : Memory) : Heap where
  mem := mem
  gClass _ := 0
  gChunks := 0
  gStats := ⟨0, 0, 0, 0, 0, 0⟩
  mapped := []

/-! ## Size classes -/

/-- The loop of `sizeClass`; `rest` is `NCLASS - 1 - c`. -/
def sizeClassLoop : (rest size : Nat) → Nat
  | 0, _ => 0
  | rest + 1, size => if size = 0 then 0 else sizeClassLoop rest (size >>> 1) + 1

def sizeClass (size : Nat) : Nat := sizeClassLoop (NCLASS - 1) (size >>> 5)

def listInsert (heap : Heap) (n size : Nat) : Heap :=
  let c := sizeClass size
  let first := heap.gClass c
  let mem := heap.mem.store64 (nodePrev n) 0
  let mem := mem.store64 (nodeNext n) first
  let mem := if first = 0 then mem else mem.store64 (nodePrev first) n
  { heap with mem, gClass := Function.update heap.gClass c n }

def listRemove (heap : Heap) (n size : Nat) : Heap :=
  let c := sizeClass size
  let prev := heap.mem.load64 (nodePrev n)
  let heap :=
    if prev = 0 then
      { heap with gClass := Function.update heap.gClass c (heap.mem.load64 (nodeNext n)) }
    else { heap with mem := heap.mem.store64 (nodeNext prev) (heap.mem.load64 (nodeNext n)) }
  let next := heap.mem.load64 (nodeNext n)
  if next = 0 then heap
  else { heap with mem := heap.mem.store64 (nodePrev next) (heap.mem.load64 (nodePrev n)) }

/-! ## Coalescing -/

def absorb (heap : Heap) (nb : Nat) : Heap :=
  let nsize := blkSize heap.mem (hdrp nb)
  let heap := listRemove heap nb nsize
  { heap with gStats :=
      { heap.gStats with
        blocksFree := sub heap.gStats.blocksFree 1
        bytesFree := sub heap.gStats.bytesFree (sub nsize DSIZE) } }

def coalesce (heap : Heap) (bp : Nat) : Heap × Nat :=
  let prevAlloc := blkAlloc heap.mem (ftrp heap.mem (prevBlkp heap.mem bp))
  let nextAlloc := blkAlloc heap.mem (hdrp (nextBlkp heap.mem bp))
  let size := blkSize heap.mem (hdrp bp)
  if prevAlloc ≠ 0 ∧ nextAlloc ≠ 0 then (heap, bp)
  else if prevAlloc ≠ 0 ∧ nextAlloc = 0 then
    let nb := nextBlkp heap.mem bp
    let heap := absorb heap nb
    let size := add size (blkSize heap.mem (hdrp nb))
    let mem := heap.mem.store64 (hdrp bp) (pack size 0)
    let mem := mem.store64 (ftrp mem bp) (pack size 0)
    ({ heap with mem }, bp)
  else if prevAlloc = 0 ∧ nextAlloc ≠ 0 then
    let pb := prevBlkp heap.mem bp
    let heap := absorb heap pb
    let size := add size (blkSize heap.mem (hdrp pb))
    let mem := heap.mem.store64 (ftrp heap.mem bp) (pack size 0)
    let mem := mem.store64 (hdrp pb) (pack size 0)
    ({ heap with mem }, pb)
  else
    let pb := prevBlkp heap.mem bp
    let nb := nextBlkp heap.mem bp
    let heap := absorb heap pb
    let heap := absorb heap nb
    let size := add size (add (blkSize heap.mem (hdrp pb)) (blkSize heap.mem (hdrp nb)))
    let mem := heap.mem.store64 (hdrp pb) (pack size 0)
    let mem := mem.store64 (ftrp mem nb) (pack size 0)
    ({ heap with mem }, pb)

/-! ## Growing the heap -/

/-- The length that `grow` requests from the system. -/
def growTotal (need : Nat) : Nat :=
  alignUp (add (add (add need sizeofChunk) (3 * WSIZE)) DSIZE)
    (if need < CHUNK then CHUNK else alignUp need 4096)

/-- `mmap` is what the system answers to a request for a number of bytes. -/
def grow (mmap : Nat → Option Nat) (heap : Heap) (need : Nat) : Heap × Nat :=
  let total := growTotal need
  match mmap total with
  | none => (heap, 0)
  | some region =>
      let mem := heap.mem.store64 (chunkSize region) total
      let mem := mem.store64 (chunkNext region) heap.gChunks
      let stats := { heap.gStats with
        chunks := add heap.gStats.chunks 1
        heapBytes := add heap.gStats.heapBytes total }
      let p := region + sizeofChunk
      let firstPayload := alignUp (p + WSIZE + WSIZE) DSIZE
      let prologueFtr := firstPayload - WSIZE - WSIZE
      let mem := mem.store64 prologueFtr (pack WSIZE 1)
      let fh := firstPayload - WSIZE
      let epilogue := region + total - WSIZE
      let bsize := sub epilogue fh &&& lnot 7
      let mem := mem.store64 fh (pack bsize 0)
      let mem := mem.store64 (fh + bsize - WSIZE) (pack bsize 0)
      let mem := mem.store64 epilogue (pack 0 1)
      let bp := fh + WSIZE
      let heap := { heap with
        mem, gChunks := region, gStats := stats, mapped := (region, total) :: heap.mapped }
      let heap := listInsert heap bp bsize
      ({ heap with gStats :=
          { heap.gStats with
            bytesFree := add heap.gStats.bytesFree (sub bsize DSIZE)
            blocksFree := add heap.gStats.blocksFree 1 } }, bp)

/-! ## Placing a block -/

/-- The search along one list; `0` when no block of it is large enough. -/
def findFitList (mem : Memory) (asize : Nat) : (fuel n : Nat) → Option Nat
  | 0, _ => none
  | fuel + 1, n =>
      if n = 0 then some 0
      else if asize ≤ blkSize mem (hdrp n) then some n
      else findFitList mem asize fuel (mem.load64 (nodeNext n))

/-- The search from class `c` on; `rest` is `NCLASS - c`. -/
def findFitFrom (fuel : Nat) (heap : Heap) (asize : Nat) : (rest c : Nat) → Option Nat
  | 0, _ => some 0
  | rest + 1, c => do
      let n ← findFitList heap.mem asize fuel (heap.gClass c)
      if n = 0 then findFitFrom fuel heap asize rest (c + 1) else some n

def findFit (fuel : Nat) (heap : Heap) (asize : Nat) : Option Nat :=
  findFitFrom fuel heap asize (NCLASS - sizeClass asize) (sizeClass asize)

def place (heap : Heap) (bp asize : Nat) : Heap × Nat :=
  let csize := blkSize heap.mem (hdrp bp)
  let heap := listRemove heap bp csize
  let heap := { heap with gStats :=
    { heap.gStats with
      bytesFree := sub heap.gStats.bytesFree (sub csize DSIZE)
      blocksFree := sub heap.gStats.blocksFree 1 } }
  let heap :=
    if MIN_BLOCK ≤ sub csize asize then
      let mem := heap.mem.store64 (hdrp bp) (pack asize 1)
      let mem := mem.store64 (ftrp mem bp) (pack asize 1)
      let rem := nextBlkp mem bp
      let rsize := sub csize asize
      let mem := mem.store64 (hdrp rem) (pack rsize 0)
      let mem := mem.store64 (ftrp mem rem) (pack rsize 0)
      let heap := listInsert { heap with mem } rem rsize
      { heap with gStats :=
        { heap.gStats with
          bytesFree := add heap.gStats.bytesFree (sub rsize DSIZE)
          blocksFree := add heap.gStats.blocksFree 1 } }
    else
      let mem := heap.mem.store64 (hdrp bp) (pack csize 1)
      let mem := mem.store64 (ftrp mem bp) (pack csize 1)
      { heap with mem }
  ({ heap with gStats :=
      { heap.gStats with
        bytesInUse := add heap.gStats.bytesInUse (sub (blkSize heap.mem (hdrp bp)) DSIZE)
        blocksInUse := add heap.gStats.blocksInUse 1 } }, bp)

/-! ## The public functions -/

/-- The block size for a request: header and footer included, and aligned. -/
def blockSize (size : Nat) : Nat :=
  let asize := alignUp (add size DSIZE) DSIZE
  if asize < MIN_BLOCK then MIN_BLOCK else asize

def balloc (fuel : Nat) (mmap : Nat → Option Nat) (heap : Heap) (size : Nat) :
    Option (Heap × Nat) :=
  if size = 0 then some (heap, 0)
  else do
    let asize := blockSize size
    let bp ← findFit fuel heap asize
    if bp = 0 then
      let (heap, bp) := grow mmap heap asize
      if bp = 0 then some (heap, 0) else some (place heap bp asize)
    else some (place heap bp asize)

def bfree (heap : Heap) (ptr : Nat) : Heap :=
  if ptr = 0 then heap
  else
    let size := blkSize heap.mem (hdrp ptr)
    let stats := { heap.gStats with
      bytesInUse := sub heap.gStats.bytesInUse (sub size DSIZE)
      blocksInUse := sub heap.gStats.blocksInUse 1 }
    let mem := heap.mem.store64 (hdrp ptr) (pack size 0)
    let mem := mem.store64 (ftrp mem ptr) (pack size 0)
    let (heap, bp) := coalesce { heap with mem, gStats := stats } ptr
    let heap := listInsert heap bp (blkSize heap.mem (hdrp bp))
    { heap with gStats :=
      { heap.gStats with
        bytesFree := add heap.gStats.bytesFree (sub (blkSize heap.mem (hdrp bp)) DSIZE)
        blocksFree := add heap.gStats.blocksFree 1 } }

def bcalloc (fuel : Nat) (mmap : Nat → Option Nat) (heap : Heap) (nmemb size : Nat) :
    Option (Heap × Nat) :=
  if nmemb ≠ 0 ∧ (2 ^ 64 - 1) / nmemb < size then some (heap, 0)
  else do
    let total := mul nmemb size
    let (heap, p) ← balloc fuel mmap heap total
    if p = 0 then some (heap, 0) else some ({ heap with mem := heap.mem.fill p 0 total }, p)

def brealloc (fuel : Nat) (mmap : Nat → Option Nat) (heap : Heap) (ptr size : Nat) :
    Option (Heap × Nat) :=
  if ptr = 0 then balloc fuel mmap heap size
  else if size = 0 then some (bfree heap ptr, 0)
  else
    let oldPayload := sub (blkSize heap.mem (hdrp ptr)) DSIZE
    if size ≤ oldPayload then some (heap, ptr)
    else do
      let (heap, np) ← balloc fuel mmap heap size
      if np = 0 then some (heap, 0)
      else some (bfree { heap with mem := heap.mem.copy np ptr oldPayload } ptr, np)

/-! ## The checker -/

/-- The inner loop of `onFreeList`. -/
def onList (mem : Memory) (bp : Nat) : (fuel n : Nat) → Option Bool
  | 0, _ => none
  | fuel + 1, n =>
      if n = 0 then some false
      else if n = bp then some true
      else onList mem bp fuel (mem.load64 (nodeNext n))

def onFreeListFrom (fuel : Nat) (heap : Heap) (bp : Nat) : (rest c : Nat) → Option Bool
  | 0, _ => some false
  | rest + 1, c => do
      if ← onList heap.mem bp fuel (heap.gClass c) then some true
      else onFreeListFrom fuel heap bp rest (c + 1)

def onFreeList (fuel : Nat) (heap : Heap) (bp : Nat) : Option Bool :=
  onFreeListFrom fuel heap bp NCLASS 0

/-- The walk over the blocks of one chunk, from `bp` with the block `prev` before it. -/
def checkBlocks (listFuel : Nat) (heap : Heap) : (fuel bp prev : Nat) → Option Int
  | 0, _, _ => none
  | fuel + 1, bp, prev =>
      if blkSize heap.mem (hdrp bp) = 0 then some 0
      else if bp % DSIZE ≠ 0 then some (-1)
      else if heap.mem.load64 (hdrp bp) ≠ heap.mem.load64 (ftrp heap.mem bp) then some (-2)
      else if blkSize heap.mem (hdrp bp) < MIN_BLOCK then some (-3)
      else if blkAlloc heap.mem (hdrp bp) = 0 then do
        if ← onFreeList listFuel heap bp then
          if prev ≠ 0 ∧ blkAlloc heap.mem (hdrp prev) = 0 then some (-5)
          else checkBlocks listFuel heap fuel (nextBlkp heap.mem bp) bp
        else some (-4)
      else checkBlocks listFuel heap fuel (nextBlkp heap.mem bp) bp

def checkChunks (blockFuel : Nat) (heap : Heap) : (fuel ch : Nat) → Option Int
  | 0, _ => none
  | fuel + 1, ch =>
      if ch = 0 then some 0
      else do
        let firstPayload := alignUp (ch + sizeofChunk + WSIZE + WSIZE) DSIZE
        let code ← checkBlocks blockFuel heap blockFuel firstPayload 0
        if code = 0 then checkChunks blockFuel heap fuel (heap.mem.load64 (chunkNext ch))
        else some code

def checkList (mem : Memory) : (fuel n : Nat) → Option Int
  | 0, _ => none
  | fuel + 1, n =>
      if n = 0 then some 0
      else if blkAlloc mem (hdrp n) ≠ 0 then some (-6)
      else checkList mem fuel (mem.load64 (nodeNext n))

def checkListsFrom (fuel : Nat) (heap : Heap) : (rest c : Nat) → Option Int
  | 0, _ => some 0
  | rest + 1, c => do
      let code ← checkList heap.mem fuel (heap.gClass c)
      if code = 0 then checkListsFrom fuel heap rest (c + 1) else some code

/-- Every walk gets the same fuel. -/
def ballocCheck (fuel : Nat) (heap : Heap) : Option Int := do
  let code ← checkChunks fuel heap fuel heap.gChunks
  if code = 0 then checkListsFrom fuel heap NCLASS 0 else some code

end FoundationsLab.Balloc
