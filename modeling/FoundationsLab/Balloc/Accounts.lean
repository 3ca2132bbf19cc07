import FoundationsLab.Balloc.Layout

/-! # The accounts

The statistics against the blocks of a layout. `loseFree`, `gainFree`, `loseUsed` and
`gainUsed` are the adjustments that the functions make for one block. The counters
are words, so the accounts are kept modulo `2 ^ 64` here. -/

namespace FoundationsLab.Balloc

open Foundation
open Foundation.Word64

/-! ## Adjustments -/

namespace Stats

def loseFree (stats : Stats) (size : Nat) : Stats :=
  { stats with
    blocksFree := sub stats.blocksFree 1
    bytesFree := sub stats.bytesFree (sub size DSIZE) }

def gainFree (stats : Stats) (size : Nat) : Stats :=
  { stats with
    bytesFree := add stats.bytesFree (sub size DSIZE)
    blocksFree := add stats.blocksFree 1 }

def loseUsed (stats : Stats) (size : Nat) : Stats :=
  { stats with
    bytesInUse := sub stats.bytesInUse (sub size DSIZE)
    blocksInUse := sub stats.blocksInUse 1 }

def gainUsed (stats : Stats) (size : Nat) : Stats :=
  { stats with
    bytesInUse := add stats.bytesInUse (sub size DSIZE)
    blocksInUse := add stats.blocksInUse 1 }

def gainChunk (stats : Stats) (total : Nat) : Stats :=
  { stats with
    chunks := add stats.chunks 1
    heapBytes := add stats.heapBytes total }

section

variable (bytesInUse bytesFree heapBytes blocksInUse blocksFree chunks size : Nat)

@[simp] theorem loseFree_mk :
    loseFree ⟨bytesInUse, bytesFree, heapBytes, blocksInUse, blocksFree, chunks⟩ size =
      ⟨bytesInUse, sub bytesFree (sub size DSIZE), heapBytes, blocksInUse, sub blocksFree 1,
        chunks⟩ := rfl

@[simp] theorem gainFree_mk :
    gainFree ⟨bytesInUse, bytesFree, heapBytes, blocksInUse, blocksFree, chunks⟩ size =
      ⟨bytesInUse, add bytesFree (sub size DSIZE), heapBytes, blocksInUse, add blocksFree 1,
        chunks⟩ := rfl

@[simp] theorem loseUsed_mk :
    loseUsed ⟨bytesInUse, bytesFree, heapBytes, blocksInUse, blocksFree, chunks⟩ size =
      ⟨sub bytesInUse (sub size DSIZE), bytesFree, heapBytes, sub blocksInUse 1, blocksFree,
        chunks⟩ := rfl

@[simp] theorem gainUsed_mk :
    gainUsed ⟨bytesInUse, bytesFree, heapBytes, blocksInUse, blocksFree, chunks⟩ size =
      ⟨add bytesInUse (sub size DSIZE), bytesFree, heapBytes, add blocksInUse 1, blocksFree,
        chunks⟩ := rfl

@[simp] theorem gainChunk_mk :
    gainChunk ⟨bytesInUse, bytesFree, heapBytes, blocksInUse, blocksFree, chunks⟩ size =
      ⟨bytesInUse, bytesFree, add heapBytes size, blocksInUse, blocksFree, add chunks 1⟩ := rfl

end

end Stats

/-! ## Sums over blocks -/

namespace Block

def usedBytes (block : Block) : Nat := if block.allocated then block.size - 16 else 0
def usedCount (block : Block) : Nat := if block.allocated then 1 else 0
def freeBytes (block : Block) : Nat := if block.allocated then 0 else block.size - 16
def freeCount (block : Block) : Nat := if block.allocated then 0 else 1

end Block

def sumOver (weight : Block → Nat) : List Block → Nat
  | [] => 0
  | block :: blocks => weight block + sumOver weight blocks

theorem sumOver_append (weight : Block → Nat) (front back : List Block) :
    sumOver weight (front ++ back) = sumOver weight front + sumOver weight back := by
  induction front with
  | nil => simp [sumOver]
  | cons block front induction => simp [sumOver, induction, Nat.add_assoc]

/-- The bytes obtained from the system. -/
def sumTotals : List Region → Nat
  | [] => 0
  | region :: regions => region.total + sumTotals regions

theorem sumTotals_append (before after : List Region) :
    sumTotals (before ++ after) = sumTotals before + sumTotals after := by
  induction before with
  | nil => simp [sumTotals]
  | cons region before induction => simp [sumTotals, induction, Nat.add_assoc]

section Focus

variable {before after : List Region} {base total : Nat} {front mid mid' back : List Block}

theorem sumOver_focus (weight : Block → Nat) :
    sumOver weight (allBlocks (before ++ ⟨base, total, front ++ mid ++ back⟩ :: after)) =
      sumOver weight (allBlocks before ++ front ++ back ++ allBlocks after) +
        sumOver weight mid := by
  simp only [allBlocks, List.flatMap_append, List.flatMap_cons, sumOver_append]
  omega

theorem sumTotals_focus (blocks blocks' : List Block) :
    sumTotals (before ++ ⟨base, total, blocks⟩ :: after) =
      sumTotals (before ++ ⟨base, total, blocks'⟩ :: after) := by
  simp [sumTotals_append, sumTotals]

end Focus

/-! ## The accounts of a layout -/

structure Accounts (regions : List Region) (stats : Stats) : Prop where
  bytesInUse : stats.bytesInUse = sumOver Block.usedBytes (allBlocks regions) % 2 ^ 64
  blocksInUse : stats.blocksInUse = sumOver Block.usedCount (allBlocks regions) % 2 ^ 64
  bytesFree : stats.bytesFree = sumOver Block.freeBytes (allBlocks regions) % 2 ^ 64
  blocksFree : stats.blocksFree = sumOver Block.freeCount (allBlocks regions) % 2 ^ 64
  heapBytes : stats.heapBytes = sumTotals regions % 2 ^ 64
  chunks : stats.chunks = regions.length % 2 ^ 64

/-! ## Counters -/

/-- A counter follows its sum: whatever the other blocks add, it is right after the
change if it was right before it. -/
def Follows (counter counter' old new : Nat) : Prop :=
  ∀ others, counter = (others + old) % 2 ^ 64 → counter' = (others + new) % 2 ^ 64

namespace Follows

theorem refl (counter sum : Nat) : Follows counter counter sum sum :=
  fun _ isSum => isSum

theorem trans {counter counter' counter'' old new : Nat} (middle : Nat)
    (first : Follows counter counter' old middle) (second : Follows counter' counter'' middle new) :
    Follows counter counter'' old new :=
  fun others isSum => second others (first others isSum)

theorem gain (counter : Nat) {amount old new : Nat} (isNew : new = old + amount) :
    Follows counter (add counter amount) old new := by
  intro others isSum
  unfold add
  omega

theorem lose (counter : Nat) {amount old new : Nat} (isOld : old = new + amount)
    (bound : amount ≤ 2 ^ 64) : Follows counter (sub counter amount) old new := by
  intro others isSum
  unfold sub
  omega

/-- What was gained last is replaced, together with what is lost. -/
theorem replace (counter : Nat) {gained lost old new : Nat} (isOld : old = gained + lost)
    (bound : lost ≤ 2 ^ 64) :
    Follows (add counter gained) (add (sub counter lost) new) old new := by
  intro others isSum
  unfold add sub at *
  omega

end Follows

section

variable {before after : List Region} {base total : Nat} {front mid mid' back : List Block}
  {bytesInUse bytesInUse' bytesFree bytesFree' heapBytes blocksInUse blocksInUse' blocksFree
    blocksFree' chunks : Nat}

/-- The blocks of one region change, and the counters follow. -/
theorem Accounts.retile
    (accounts : Accounts (before ++ ⟨base, total, front ++ mid ++ back⟩ :: after)
      ⟨bytesInUse, bytesFree, heapBytes, blocksInUse, blocksFree, chunks⟩)
    (usedBytes : Follows bytesInUse bytesInUse' (sumOver Block.usedBytes mid)
      (sumOver Block.usedBytes mid'))
    (usedCount : Follows blocksInUse blocksInUse' (sumOver Block.usedCount mid)
      (sumOver Block.usedCount mid'))
    (freeBytes : Follows bytesFree bytesFree' (sumOver Block.freeBytes mid)
      (sumOver Block.freeBytes mid'))
    (freeCount : Follows blocksFree blocksFree' (sumOver Block.freeCount mid)
      (sumOver Block.freeCount mid')) :
    Accounts (before ++ ⟨base, total, front ++ mid' ++ back⟩ :: after)
      ⟨bytesInUse', bytesFree', heapBytes, blocksInUse', blocksFree', chunks⟩ := by
  constructor
  · rw [sumOver_focus]
    exact usedBytes _ (sumOver_focus Block.usedBytes ▸ accounts.bytesInUse)
  · rw [sumOver_focus]
    exact usedCount _ (sumOver_focus Block.usedCount ▸ accounts.blocksInUse)
  · rw [sumOver_focus]
    exact freeBytes _ (sumOver_focus Block.freeBytes ▸ accounts.bytesFree)
  · rw [sumOver_focus]
    exact freeCount _ (sumOver_focus Block.freeCount ▸ accounts.blocksFree)
  · rw [accounts.heapBytes, sumTotals_focus]
  · rw [accounts.chunks]
    simp

end

/-! ## What the functions do to the accounts -/

theorem sub_dsize {size : Nat} (minimum : 32 ≤ size) (bound : size < 2 ^ 64) :
    sub size DSIZE = size - 16 :=
  sub_of_le bound (by unfold DSIZE; omega)

section

variable {before after : List Region} {base total : Nat} {front mid back : List Block}
  {stats : Stats} {block : Block} {size : Nat}

/-- A free block is handed out, and what is behind `size` bytes of it stays free. -/
theorem Accounts.split
    (accounts : Accounts (before ++ ⟨base, total, front ++ [block] ++ back⟩ :: after) stats)
    (isFree : block.allocated = false) (minimum : 32 ≤ size) (fits : size + 32 ≤ block.size)
    (bound : block.size < 2 ^ 64) {taken rest : Block}
    (isTaken : taken = ⟨block.payload, size, true⟩)
    (isRest : rest = ⟨block.payload + size, block.size - size, false⟩) :
    Accounts (before ++ ⟨base, total, front ++ [taken, rest] ++ back⟩ :: after)
      (((stats.loseFree block.size).gainFree (block.size - size)).gainUsed size) := by
  subst isTaken isRest
  have lost := sub_dsize (by omega : 32 ≤ block.size) bound
  have gained := sub_dsize (by omega : 32 ≤ block.size - size) (by omega)
  have used := sub_dsize minimum (by omega)
  obtain ⟨bytesInUse, bytesFree, heapBytes, blocksInUse, blocksFree, chunks⟩ := stats
  rw [Stats.loseFree_mk, Stats.gainFree_mk, Stats.gainUsed_mk]
  apply accounts.retile
  · exact .gain _ (by simp [sumOver, Block.usedBytes, isFree, used])
  · exact .gain _ (by simp [sumOver, Block.usedCount, isFree])
  · refine .trans 0 (.lose _ ?_ ?_) (.gain _ ?_)
    · simp [sumOver, Block.freeBytes, isFree, lost]
    · omega
    · simp [sumOver, Block.freeBytes, gained]
  · refine .trans 0 (.lose _ ?_ (by omega)) (.gain _ ?_)
    · simp [sumOver, Block.freeCount, isFree]
    · simp [sumOver, Block.freeCount]

theorem Accounts.whole
    (accounts : Accounts (before ++ ⟨base, total, front ++ [block] ++ back⟩ :: after) stats)
    (isFree : block.allocated = false) (minimum : 32 ≤ block.size) (bound : block.size < 2 ^ 64)
    {taken : Block} (isTaken : taken = ⟨block.payload, block.size, true⟩) :
    Accounts (before ++ ⟨base, total, front ++ [taken] ++ back⟩ :: after)
      ((stats.loseFree block.size).gainUsed block.size) := by
  subst isTaken
  have payload := sub_dsize minimum bound
  obtain ⟨bytesInUse, bytesFree, heapBytes, blocksInUse, blocksFree, chunks⟩ := stats
  rw [Stats.loseFree_mk, Stats.gainUsed_mk]
  apply accounts.retile
  · exact .gain _ (by simp [sumOver, Block.usedBytes, isFree, payload])
  · exact .gain _ (by simp [sumOver, Block.usedCount, isFree])
  · exact .lose _ (by simp [sumOver, Block.freeBytes, isFree, payload]) (by omega)
  · exact .lose _ (by simp [sumOver, Block.freeCount, isFree]) (by omega)

theorem Accounts.release
    (accounts : Accounts (before ++ ⟨base, total, front ++ [block] ++ back⟩ :: after) stats)
    (isAllocated : block.allocated = true) (minimum : 32 ≤ block.size)
    (bound : block.size < 2 ^ 64) {freed : Block}
    (isFreed : freed = ⟨block.payload, block.size, false⟩) :
    Accounts (before ++ ⟨base, total, front ++ [freed] ++ back⟩ :: after)
      ((stats.loseUsed block.size).gainFree block.size) := by
  subst isFreed
  have payload := sub_dsize minimum bound
  obtain ⟨bytesInUse, bytesFree, heapBytes, blocksInUse, blocksFree, chunks⟩ := stats
  rw [Stats.loseUsed_mk, Stats.gainFree_mk]
  apply accounts.retile
  · exact .lose _ (by simp [sumOver, Block.usedBytes, isAllocated, payload]) (by omega)
  · exact .lose _ (by simp [sumOver, Block.usedCount, isAllocated]) (by omega)
  · exact .gain _ (by simp [sumOver, Block.freeBytes, isAllocated, payload])
  · exact .gain _ (by simp [sumOver, Block.freeCount, isAllocated])

/-- Two free neighbours, one of them counted last, become one block. -/
theorem Accounts.join {other : Block} (merged : Block)
    (accounts : Accounts (before ++ ⟨base, total, front ++ mid ++ back⟩ :: after)
      (stats.gainFree block.size))
    (both : mid = [block, other] ∨ mid = [other, block])
    (isFree : block.allocated = false) (otherFree : other.allocated = false)
    (mergedFree : merged.allocated = false) (minimum : 32 ≤ block.size)
    (otherMinimum : 32 ≤ other.size) (bound : block.size + other.size < 2 ^ 64)
    (isSize : merged.size = block.size + other.size) :
    Accounts (before ++ ⟨base, total, front ++ [merged] ++ back⟩ :: after)
      ((stats.loseFree other.size).gainFree merged.size) := by
  have payload := sub_dsize minimum (by omega)
  have otherPayload := sub_dsize otherMinimum (by omega)
  have mergedPayload := sub_dsize (by omega : 32 ≤ merged.size) (by omega)
  have used : sumOver Block.usedBytes mid = 0 ∧ sumOver Block.usedCount mid = 0 := by
    rcases both with rfl | rfl <;>
      simp [sumOver, Block.usedBytes, Block.usedCount, isFree, otherFree]
  have free : sumOver Block.freeBytes mid = (block.size - 16) + (other.size - 16) ∧
      sumOver Block.freeCount mid = 2 := by
    rcases both with rfl | rfl
    · simp [sumOver, Block.freeBytes, Block.freeCount, isFree, otherFree]
    · simp [sumOver, Block.freeBytes, Block.freeCount, isFree, otherFree, Nat.add_comm]
  have merge : sumOver Block.freeBytes [merged] = merged.size - 16 ∧
      sumOver Block.freeCount [merged] = 1 := by
    simp [sumOver, Block.freeBytes, Block.freeCount, mergedFree]
  obtain ⟨bytesInUse, bytesFree, heapBytes, blocksInUse, blocksFree, chunks⟩ := stats
  rw [Stats.gainFree_mk] at accounts
  rw [Stats.loseFree_mk, Stats.gainFree_mk]
  apply accounts.retile
  · rw [used.1]
    simpa [sumOver, Block.usedBytes, mergedFree] using Follows.refl _ 0
  · rw [used.2]
    simpa [sumOver, Block.usedCount, mergedFree] using Follows.refl _ 0
  · rw [free.1, merge.1, payload, otherPayload, mergedPayload]
    exact .replace _ rfl (by omega)
  · rw [free.2, merge.2]
    exact .replace _ rfl (by omega)

/-- A new chunk with one free block. -/
theorem Accounts.extend {regions : List Region} (accounts : Accounts regions stats)
    (isFree : block.allocated = false) (minimum : 32 ≤ block.size) (bound : block.size < 2 ^ 64) :
    Accounts (⟨base, total, [block]⟩ :: regions) ((stats.gainChunk total).gainFree block.size) := by
  have payload := sub_dsize minimum bound
  have blocks (weight : Block → Nat) : sumOver weight (allBlocks (⟨base, total, [block]⟩ :: regions)) =
      sumOver weight (allBlocks regions) + weight block := by
    simp [allBlocks, sumOver, Nat.add_comm]
  obtain ⟨bytesInUse, bytesFree, heapBytes, blocksInUse, blocksFree, chunks⟩ := stats
  rw [Stats.gainChunk_mk, Stats.gainFree_mk]
  constructor
  · simpa [blocks, Block.usedBytes, isFree] using accounts.bytesInUse
  · simpa [blocks, Block.usedCount, isFree] using accounts.blocksInUse
  · have weight : block.freeBytes = block.size - 16 := by simp [Block.freeBytes, isFree]
    rw [blocks, weight, payload]
    exact Follows.gain bytesFree (Nat.zero_add _).symm _ accounts.bytesFree
  · have weight : block.freeCount = 1 := by simp [Block.freeCount, isFree]
    rw [blocks, weight]
    exact Follows.gain blocksFree (Nat.zero_add _).symm _ accounts.blocksFree
  · rw [sumTotals, Nat.add_comm]
    exact Follows.gain heapBytes (Nat.zero_add _).symm _ accounts.heapBytes
  · exact Follows.gain chunks (Nat.zero_add _).symm _ accounts.chunks

end

end FoundationsLab.Balloc
