import FoundationsLab.Foundation.Spans
import FoundationsLab.Balloc.Isolation

/-! # Exact accounting

The statistics count the blocks of the heap, and together with the overhead of blocks
and chunks they make up the memory obtained from the system. When everything has been
given back, each chunk is one free block. -/

namespace FoundationsLab.Balloc

open Foundation
open Foundation.Word64

/-- The statistics are the sums over the blocks, and add up to the size of the heap. -/
structure Exact (regions : List Region) (stats : Stats) : Prop where
  bytesInUse : stats.bytesInUse = sumOver Block.usedBytes (allBlocks regions)
  blocksInUse : stats.blocksInUse = sumOver Block.usedCount (allBlocks regions)
  bytesFree : stats.bytesFree = sumOver Block.freeBytes (allBlocks regions)
  blocksFree : stats.blocksFree = sumOver Block.freeCount (allBlocks regions)
  heapBytes : stats.heapBytes = sumTotals regions
  chunks : stats.chunks = regions.length
  balance : stats.bytesInUse + stats.bytesFree + 16 * (stats.blocksInUse + stats.blocksFree) +
    32 * stats.chunks = stats.heapBytes

/-- Nothing is in use, and no chunk is in pieces. -/
structure AllFree (regions : List Region) (stats : Stats) : Prop where
  bytesInUse : stats.bytesInUse = 0
  oneBlock : ∀ region ∈ regions, ∃ block, region.blocks = [block] ∧ block.allocated = false

/-! ## The sums of a layout -/

section

variable {regions : List Region} {region : Region} {blocks : List Block} {start stop : Nat}

/-- The overhead of a block is its header and its footer. -/
theorem Block.Sized.parts {block : Block} (sized : block.Sized) :
    block.usedBytes + block.freeBytes + 16 * (block.usedCount + block.freeCount) = block.size := by
  have minimum := sized.minimum
  unfold Block.usedBytes Block.freeBytes Block.usedCount Block.freeCount
  cases block.allocated
  · simp only [Bool.false_eq_true, if_false]
    omega
  · simp only [if_true]
    omega

theorem Tiles.sum (tiles : Tiles start blocks stop) (sized : ∀ block ∈ blocks, block.Sized) :
    start + (sumOver Block.usedBytes blocks + sumOver Block.freeBytes blocks +
      16 * (sumOver Block.usedCount blocks + sumOver Block.freeCount blocks)) = stop := by
  induction blocks generalizing start with
  | nil =>
      have same : start = stop := tiles
      simpa [sumOver] using same
  | cons block rest induction =>
      have later := induction tiles.2 fun other member =>
        sized other (List.mem_cons_of_mem _ member)
      have parts := (sized block List.mem_cons_self).parts
      simp only [sumOver]
      omega

theorem allBlocks_cons (region : Region) (regions : List Region) :
    allBlocks (region :: regions) = region.blocks ++ allBlocks regions := rfl

/-- The overhead of a chunk is its header, its prologue and its epilogue. -/
theorem sum_regions (shaped : ∀ region ∈ regions, region.Shaped) :
    sumOver Block.usedBytes (allBlocks regions) + sumOver Block.freeBytes (allBlocks regions) +
      16 * (sumOver Block.usedCount (allBlocks regions) +
        sumOver Block.freeCount (allBlocks regions)) + 32 * regions.length = sumTotals regions := by
  induction regions with
  | nil => rfl
  | cons region regions induction =>
      have later := induction fun other member => shaped other (List.mem_cons_of_mem _ member)
      have here := shaped region List.mem_cons_self
      have sum := here.tiles.sum here.sized
      have room := here.room
      simp only [Region.start, Region.epilogue] at sum
      simp only [allBlocks_cons, sumOver_append, sumTotals, List.length_cons]
      omega

theorem total_spans (regions : List Region) : Spans.total (spans regions) = sumTotals regions := by
  induction regions with
  | nil => rfl
  | cons region regions induction =>
      have unfolded : Spans.total (spans (region :: regions)) =
          region.total + Spans.total (spans regions) := rfl
      rw [unfolded, induction, sumTotals]

theorem Layout.sumTotals_lt (layout : Layout regions) : sumTotals regions < 2 ^ 64 := by
  have apart : (spans regions).Pairwise Spans.Apart := by
    rw [spans, List.pairwise_map]
    exact layout.apart
  have inside : ∀ span ∈ spans regions, 1 ≤ span.1 ∧ span.1 + span.2 ≤ 2 ^ 64 := by
    intro span member
    obtain ⟨region, isRegion, rfl⟩ := List.mem_map.mp member
    have shaped := layout.shaped region isRegion
    exact ⟨shaped.nonzero, shaped.bounded⟩
  have bound := Spans.total_le apart inside
  rw [total_spans] at bound
  omega

/-- Nothing overflows, since the heap fits into the address space. -/
theorem AtRest.exact {heap : Heap} (atRest : AtRest regions heap) : Exact regions heap.gStats := by
  obtain ⟨⟨lists, consistent⟩, -, -, accounts⟩ := atRest
  have bound := consistent.layout.sumTotals_lt
  have sums := sum_regions consistent.layout.shaped
  have bytesInUse := accounts.bytesInUse
  have blocksInUse := accounts.blocksInUse
  have bytesFree := accounts.bytesFree
  have blocksFree := accounts.blocksFree
  have heapBytes := accounts.heapBytes
  have chunks := accounts.chunks
  rw [Nat.mod_eq_of_lt (by omega)] at bytesInUse blocksInUse bytesFree blocksFree heapBytes chunks
  exact ⟨bytesInUse, blocksInUse, bytesFree, blocksFree, heapBytes, chunks, by omega⟩

/-! ## Everything given back -/

theorem sumOver_eq_zero {weight : Block → Nat} (zero : ∀ block ∈ blocks, weight block = 0) :
    sumOver weight blocks = 0 := by
  induction blocks with
  | nil => rfl
  | cons block rest induction =>
      rw [sumOver, zero block List.mem_cons_self,
        induction fun other member => zero other (List.mem_cons_of_mem _ member)]

/-- Free blocks that have no free neighbour do not follow each other. -/
theorem Separated.eq_singleton (separated : Separated blocks) (nonempty : blocks ≠ [])
    (free : ∀ block ∈ blocks, block.allocated = false) : ∃ block, blocks = [block] := by
  cases blocks with
  | nil => exact absurd rfl nonempty
  | cons block rest =>
      cases rest with
      | nil => exact ⟨block, rfl⟩
      | cons next rest =>
          have first := (List.isChain_cons_cons.mp separated).1
          have blockFree := free block (by simp)
          have nextFree := free next (by simp)
          rw [blockFree, nextFree] at first
          exact absurd first (by decide)

theorem Region.Shaped.nonempty (shaped : region.Shaped) : region.blocks ≠ [] := by
  intro empty
  have tiles := shaped.tiles
  have room := shaped.room
  rw [empty] at tiles
  have same : region.start = region.epilogue := tiles
  simp only [Region.start, Region.epilogue] at same
  omega

theorem Serves.allFree {program : Program} (serves : Serves regions program)
    (empty : program.live = []) : AllFree regions program.heap.gStats := by
  obtain ⟨lists, consistent⟩ := serves.atRest.consistent
  have free : ∀ block ∈ allBlocks regions, block.allocated = false := by
    intro block member
    cases isAllocated : block.allocated with
    | false => rfl
    | true =>
        obtain ⟨size, isLive⟩ := serves.known block member isAllocated
        rw [empty] at isLive
        exact absurd isLive List.not_mem_nil
  constructor
  · rw [serves.atRest.exact.bytesInUse]
    apply sumOver_eq_zero
    intro block member
    rw [Block.usedBytes, free block member]
    rfl
  · intro region isRegion
    have freeHere : ∀ block ∈ region.blocks, block.allocated = false := fun block member =>
      free block (mem_allBlocks.mpr ⟨region, isRegion, member⟩)
    obtain ⟨block, isBlocks⟩ := (serves.atRest.separated region isRegion).eq_singleton
      (consistent.layout.shaped region isRegion).nonempty freeHere
    exact ⟨block, isBlocks, freeHere block (by simp [isBlocks])⟩

end

/-! ## Freeing in any order -/

/-- A call of `bfree` for each of the pointers. -/
def Program.freeAll (program : Program) (order : List Nat) : Program :=
  order.foldl (fun program ptr => ⟨bfree program.heap ptr, forget program.live ptr⟩) program

theorem Reachable.free {program : Program} (reachable : Reachable program) {ptr : Nat}
    (valid : Valid program.live ptr) :
    Reachable ⟨bfree program.heap ptr, forget program.live ptr⟩ := by
  have fresh : Fresh program.heap.mapped fun _ => none := fun _ _ obtained =>
    absurd obtained (by simp)
  exact @Reachable.call program _ 0 (fun _ => none) (.bfree ptr) reachable fresh valid rfl

/-- Every order of the live pointers is an order in which they can be freed. -/
theorem freeAll_reachable {order : List Nat} : ∀ {program : Program}, Reachable program →
    order.Nodup → (∀ ptr, ptr ∈ order ↔ ptr ∈ program.live.map Prod.fst) →
      Reachable (program.freeAll order) ∧ (program.freeAll order).live = [] := by
  induction order with
  | nil =>
      intro program reachable _ same
      refine ⟨reachable, List.eq_nil_iff_forall_not_mem.mpr fun entry member => ?_⟩
      exact absurd ((same entry.1).mpr (List.mem_map_of_mem member)) List.not_mem_nil
  | cons ptr order induction =>
      intro program reachable distinct same
      obtain ⟨notLater, distinctLater⟩ := List.nodup_cons.mp distinct
      obtain ⟨entry, isLive, isPtr⟩ := List.mem_map.mp ((same ptr).mp List.mem_cons_self)
      have valid : Valid program.live ptr := .inr ⟨entry.2, by rw [← isPtr]; exact isLive⟩
      refine induction (reachable.free valid) distinctLater fun other => ?_
      have before := same other
      simp only [List.mem_cons, List.mem_map] at before
      simp only [List.mem_map, mem_forget]
      constructor
      · intro isLater
        obtain ⟨found, isFound, rfl⟩ := before.mp (.inr isLater)
        exact ⟨found, ⟨isFound, fun equal => notLater (equal ▸ isLater)⟩, rfl⟩
      · rintro ⟨found, ⟨isFound, different⟩, rfl⟩
        exact (before.mpr ⟨found, isFound, rfl⟩).resolve_left different

/-- In every reachable state the statistics are exact, and once all live pointers have
been freed, in any order, every chunk is one free block. -/
theorem accounting_exact {program : Program} (reachable : Reachable program) :
    (∃ regions lists, HeapInvariant program.heap regions lists ∧
      Exact regions program.heap.gStats ∧
      (program.live = [] → AllFree regions program.heap.gStats)) ∧
    ∀ order : List Nat, order.Perm (program.live.map Prod.fst) →
      Reachable (program.freeAll order) ∧ (program.freeAll order).live = [] ∧
        ∃ regions lists, HeapInvariant (program.freeAll order).heap regions lists ∧
          Exact regions (program.freeAll order).heap.gStats ∧
          AllFree regions (program.freeAll order).heap.gStats := by
  constructor
  · obtain ⟨regions, serves⟩ := reachable_serves reachable
    obtain ⟨lists, invariant⟩ := serves.atRest.heapInvariant
    exact ⟨regions, lists, invariant, serves.atRest.exact, serves.allFree⟩
  · intro order permutation
    have distinct : (program.live.map Prod.fst).Nodup :=
      List.pairwise_map.mpr (reachable_distinct reachable)
    obtain ⟨freed, empty⟩ := freeAll_reachable reachable (permutation.nodup_iff.mpr distinct)
      fun ptr => permutation.mem_iff
    obtain ⟨regions, serves⟩ := reachable_serves freed
    obtain ⟨lists, invariant⟩ := serves.atRest.heapInvariant
    exact ⟨freed, empty, regions, lists, invariant, serves.atRest.exact, serves.allFree empty⟩

theorem accounting_exact_once : ∃ program : Program, program.live = [(4128, 100)] ∧
    (∃ regions lists, HeapInvariant program.heap regions lists ∧
      Exact regions program.heap.gStats) ∧
    ∃ regions, AllFree regions (program.freeAll [4128]).heap.gStats := by
  obtain ⟨program, isLive, reachable⟩ := reachable_once
  have order : [4128].Perm (program.live.map Prod.fst) := by rw [isLive]; exact .refl _
  obtain ⟨⟨regions, lists, invariant, isExact, -⟩, free⟩ := accounting_exact reachable
  obtain ⟨-, -, regions', -, -, -, allFree⟩ := free [4128] order
  exact ⟨program, isLive, ⟨regions, lists, invariant, isExact⟩, regions', allFree⟩

end FoundationsLab.Balloc
