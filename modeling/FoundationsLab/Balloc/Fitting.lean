import FoundationsLab.Balloc.Program

/-! # When the heap grows

`findFit` begins at the class of the request. Classes grow with sizes, so the
lists that it leaves out hold no block that is large enough, and it fails only
where no free block of the heap fits. -/

namespace FoundationsLab.Balloc

open Foundation
open Foundation.Word64
open Foundation.DoublyLinked

/-! ## Classes grow with sizes -/

theorem sizeClassLoop_mono (rest : Nat) :
    ∀ {size size' : Nat}, size ≤ size' → sizeClassLoop rest size ≤ sizeClassLoop rest size' := by
  induction rest with
  | zero => intro size size' _; exact Nat.le_refl 0
  | succ rest induction =>
      intro size size' below
      rw [sizeClassLoop, sizeClassLoop]
      by_cases isZero : size = 0
      · rw [if_pos isZero]
        exact Nat.zero_le _
      · have halves : size >>> 1 ≤ size' >>> 1 := by
          rw [Nat.shiftRight_eq_div_pow, Nat.shiftRight_eq_div_pow]
          exact Nat.div_le_div_right below
        rw [if_neg isZero, if_neg (by omega)]
        exact Nat.succ_le_succ (induction halves)

theorem sizeClass_mono {size size' : Nat} (below : size ≤ size') :
    sizeClass size ≤ sizeClass size' := by
  apply sizeClassLoop_mono
  rw [Nat.shiftRight_eq_div_pow, Nat.shiftRight_eq_div_pow]
  exact Nat.div_le_div_right below

/-! ## A search that fails -/

/-- A walk that ends without a node has seen every one of them. -/
theorem findFitList_none {mem : Memory} {asize : Nat} :
    ∀ {fuel prev : Nat} {nodes : List Nat}, Segment mem prev nodes 0 → (∀ n ∈ nodes, n ≠ 0) →
      findFitList mem asize fuel (nodes.headD 0) = some 0 →
      ∀ n ∈ nodes, blkSize mem (hdrp n) < asize
  | 0, _, _, _, _, found => by simp [findFitList] at found
  | _ + 1, _, [], _, _, _ => fun _ member => absurd member List.not_mem_nil
  | fuel + 1, _, head :: nodes, segment, nonzero, found => by
      have headNonzero := nonzero head List.mem_cons_self
      rw [List.headD_cons, findFitList, if_neg headNonzero] at found
      split at found
      · exact absurd (Option.some.inj found) headNonzero
      · rename_i small
        rw [nodeNext, segment.1] at found
        intro n member
        rcases List.mem_cons.mp member with rfl | member
        · exact Nat.not_le.mp small
        · exact findFitList_none segment.2.2
            (fun other isOther => nonzero other (List.mem_cons_of_mem _ isOther)) found n member

/-- Some free block of the regions has at least that size. -/
def Fitting (regions : List Region) (asize : Nat) : Prop :=
  ∃ block ∈ allBlocks regions, block.allocated = false ∧ asize ≤ block.size

section Search

variable {regions : List Region} {lists : Nat → List Nat} {heap : Heap} {fuel asize : Nat}

theorem HeapInvariant.payload_ne_zero (invariant : HeapInvariant heap regions lists)
    {block : Block} (member : block ∈ allBlocks regions) : block.payload ≠ 0 := by
  obtain ⟨region, isRegion, inRegion⟩ := mem_allBlocks.mp member
  obtain ⟨front, back, isBlocks⟩ := List.append_of_mem inRegion
  have tiled := invariant.tiled region isRegion
  rw [isBlocks, tiles_append] at tiled
  obtain ⟨middle, _, isPayload, _⟩ := tiled
  omega

theorem HeapInvariant.sizeAt (invariant : HeapInvariant heap regions lists) {block : Block}
    (member : block ∈ allBlocks regions) : blkSize heap.mem (hdrp block.payload) = block.size := by
  have multiple := invariant.multiple block member
  have flag := toNat_le_one block.allocated
  apply blkSize_of_load (by omega) flag
  exact (invariant.header block member).trans (pack_eq multiple flag)

theorem HeapInvariant.node_ne_zero (invariant : HeapInvariant heap regions lists) {c n : Nat}
    (member : n ∈ lists c) : n ≠ 0 := by
  obtain ⟨block, isBlock, -, rfl⟩ := invariant.nodes c n member
  exact invariant.payload_ne_zero isBlock

theorem HeapInvariant.listed (invariant : HeapInvariant heap regions lists) {block : Block}
    (member : block ∈ allBlocks regions) (isFree : block.allocated = false) :
    block.payload ∈ lists (sizeClass block.size) := by
  have once := invariant.listedOnce block member isFree (sizeClass block.size)
  rw [if_pos rfl] at once
  exact List.count_pos_iff.mp (by omega)

theorem HeapInvariant.findFitFrom_none (invariant : HeapInvariant heap regions lists) :
    ∀ {rest c : Nat}, findFitFrom fuel heap asize rest c = some 0 →
      ∀ c', c ≤ c' → c' < c + rest → ∀ n ∈ lists c', blkSize heap.mem (hdrp n) < asize
  | 0, _, _ => fun _ lower upper => absurd upper (by omega)
  | rest + 1, c, found => by
      rw [findFitFrom, invariant.heads] at found
      obtain ⟨m, inClass, found⟩ := Option.bind_eq_some_iff.mp found
      intro c' lower upper
      by_cases isNone : m = 0
      · rw [if_pos isNone] at found
        rcases Nat.eq_or_lt_of_le lower with rfl | later
        · exact findFitList_none (invariant.linked c)
            (fun n member => invariant.node_ne_zero member) (isNone ▸ inClass)
        · exact invariant.findFitFrom_none found c' later (by omega)
      · rw [if_neg isNone] at found
        exact absurd (Option.some.inj found) isNone

theorem HeapInvariant.findFitFrom_sound (invariant : HeapInvariant heap regions lists)
    {rest c n : Nat} (found : findFitFrom fuel heap asize rest c = some n) (nonzero : n ≠ 0) :
    Fitting regions asize := by
  rcases findFitFrom_member invariant.heads invariant.linked found with isZero | ⟨c, member, fits⟩
  · exact absurd isZero nonzero
  · obtain ⟨block, isBlock, isFree, rfl⟩ := invariant.nodes c n member
    rw [invariant.sizeAt isBlock] at fits
    exact ⟨block, isBlock, isFree, fits⟩

/-- `findFit` fails if and only if no free block of the heap fits. -/
theorem HeapInvariant.findFit_none_iff (invariant : HeapInvariant heap regions lists) {n : Nat}
    (found : findFit fuel heap asize = some n) : n = 0 ↔ ¬ Fitting regions asize := by
  constructor
  · rintro rfl ⟨block, member, isFree, fits⟩
    have isClass := sizeClass_mono fits
    have classBound := sizeClass_lt block.size
    have small := invariant.findFitFrom_none found (sizeClass block.size) isClass (by omega)
      block.payload (invariant.listed member isFree)
    rw [invariant.sizeAt member] at small
    omega
  · intro noFit
    by_contra nonzero
    exact noFit (invariant.findFitFrom_sound found nonzero)

end Search

/-! ## What `balloc` asks the system for -/

/-- `balloc`, with the lengths that it asks the system for. -/
def ballocAsking (fuel : Nat) (mmap : Nat → Option Nat) (heap : Heap) (size : Nat) :
    Option (List Nat × Heap × Nat) :=
  if size = 0 then some ([], heap, 0)
  else do
    let asize := blockSize size
    let bp ← findFit fuel heap asize
    if bp = 0 then
      let (heap, bp) := grow mmap heap asize
      if bp = 0 then some ([growTotal asize], heap, 0)
      else some ([growTotal asize], place heap bp asize)
    else some ([], place heap bp asize)

theorem ballocAsking_map (fuel : Nat) (mmap : Nat → Option Nat) (heap : Heap) (size : Nat) :
    (ballocAsking fuel mmap heap size).map (·.2) = balloc fuel mmap heap size := by
  rw [ballocAsking, balloc]
  by_cases isZero : size = 0
  · rw [if_pos isZero, if_pos isZero]
    rfl
  · rw [if_neg isZero, if_neg isZero]
    cases found : findFit fuel heap (blockSize size) with
    | none =>
        simp only [found, Option.bind_eq_bind, Option.bind_none]
        rfl
    | some bp =>
        simp only [found, Option.bind_eq_bind, Option.bind_some]
        by_cases isNone : bp = 0
        · rw [if_pos isNone, if_pos isNone]
          by_cases refused : (grow mmap heap (blockSize size)).2 = 0
          · rw [if_pos refused, if_pos refused]
            rfl
          · rw [if_neg refused, if_neg refused]
            rfl
        · rw [if_neg isNone, if_neg isNone]
          rfl

/-- The system is asked for one chunk where the search fails, and for none where
it succeeds. -/
theorem ballocAsking_requests {fuel size ptr : Nat} {mmap : Nat → Option Nat} {heap heap' : Heap}
    {requests : List Nat} (positive : 0 < size)
    (returned : ballocAsking fuel mmap heap size = some (requests, heap', ptr)) :
    ∃ bp, findFit fuel heap (blockSize size) = some bp ∧
      requests = if bp = 0 then [growTotal (blockSize size)] else [] := by
  rw [ballocAsking, if_neg (by omega)] at returned
  obtain ⟨bp, found, returned⟩ := Option.bind_eq_some_iff.mp returned
  refine ⟨bp, found, ?_⟩
  by_cases isNone : bp = 0
  · rw [if_pos isNone] at returned ⊢
    dsimp only at returned
    split at returned
    · exact (congrArg Prod.fst (Option.some.inj returned)).symm
    · exact (congrArg Prod.fst (Option.some.inj returned)).symm
  · rw [if_neg isNone] at returned ⊢
    exact (congrArg Prod.fst (Option.some.inj returned)).symm

/-- For every heap of a program and every request, `balloc` returns; it asks the
system for a chunk if and only if no free block is as large as the block for the
request, and the free block of a chunk that it gets is as large. -/
theorem balloc_asks_only_when_nothing_fits {program : Program} (reachable : Reachable program)
    {size : Nat} (positive : 0 < size) (bound : size ≤ 2 ^ 62) :
    (∃ regions lists, HeapInvariant program.heap regions lists) ∧
      (∃ enough, ∀ fuel, enough ≤ fuel → ∀ mmap,
        ∃ outcome, ballocAsking fuel mmap program.heap size = some outcome) ∧
      (∀ regions lists, HeapInvariant program.heap regions lists →
        ∀ fuel mmap requests heap' ptr,
          ballocAsking fuel mmap program.heap size = some (requests, heap', ptr) →
          (requests = [] ∨ requests = [growTotal (blockSize size)]) ∧
            (requests ≠ [] ↔ ¬ Fitting regions (blockSize size))) ∧
      ∀ mmap, Fresh program.heap.mapped mmap →
        ∀ base, mmap (growTotal (blockSize size)) = some base →
          (grow mmap program.heap (blockSize size)).2 ≠ 0 ∧
            blockSize size ≤ blkSize (grow mmap program.heap (blockSize size)).1.mem
              (hdrp (grow mmap program.heap (blockSize size)).2) := by
  obtain ⟨regions, serves⟩ := reachable_serves reachable
  have atRest := serves.atRest
  obtain ⟨lists, invariant⟩ := atRest.heapInvariant
  obtain ⟨_, upper, aligned, minimum⟩ := blockSize_spec bound
  have small : blockSize size + 64 ≤ 2 ^ 63 := by omega
  have room := growTotal_spec small
  refine ⟨⟨regions, lists, invariant⟩, ?_, ?_, ?_⟩
  · obtain ⟨lists, consistent⟩ := atRest.consistent
    obtain ⟨enough, holds⟩ := exists_enough lists
    refine ⟨enough, fun fuel above mmap => ?_⟩
    obtain ⟨result, returned⟩ := balloc_total consistent (holds fuel above) mmap size
    rw [← ballocAsking_map] at returned
    obtain ⟨outcome, isOutcome, -⟩ := Option.map_eq_some_iff.mp returned
    exact ⟨outcome, isOutcome⟩
  · intro regions lists invariant fuel mmap requests heap' ptr returned
    obtain ⟨bp, found, isRequests⟩ := ballocAsking_requests positive returned
    have isFit := invariant.findFit_none_iff found
    by_cases isNone : bp = 0
    · rw [if_pos isNone] at isRequests
      constructor
      · exact .inr isRequests
      · rw [isRequests]
        exact iff_of_true (List.cons_ne_nil _ _) (isFit.mp isNone)
    · rw [if_neg isNone] at isRequests
      constructor
      · exact .inl isRequests
      · exact iff_of_false (fun nonempty => nonempty isRequests) fun noFit => isNone (isFit.mpr noFit)
  · intro mmap fresh base obtained
    obtain ⟨grown, regions', block, isGrown, atRest', member, -, fits, -, -⟩ :=
      grow_spec atRest (atRest.mapped ▸ fresh) minimum (by omega) obtained
    obtain ⟨lists', consistent'⟩ := atRest'.consistent
    rw [isGrown]
    constructor
    · exact atRest'.payload_ne_zero member
    · rw [consistent'.sizeAt member]
      exact fits

/-- Where a block of a first chunk is live, a request larger than the rest of it
needs another chunk. -/
theorem balloc_asks_when_nothing_fits_once :
    ∃ program : Program, program.live = [(4128, 100)] ∧
      (∃ regions lists, HeapInvariant program.heap regions lists) ∧
      (∃ enough, ∀ fuel, enough ≤ fuel → ∀ mmap,
        ∃ outcome, ballocAsking fuel mmap program.heap (2 ^ 21) = some outcome) ∧
      (∀ regions lists, HeapInvariant program.heap regions lists →
        ∀ fuel mmap requests heap' ptr,
          ballocAsking fuel mmap program.heap (2 ^ 21) = some (requests, heap', ptr) →
          (requests = [] ∨ requests = [growTotal (blockSize (2 ^ 21))]) ∧
            (requests ≠ [] ↔ ¬ Fitting regions (blockSize (2 ^ 21)))) ∧
      ∀ mmap, Fresh program.heap.mapped mmap →
        ∀ base, mmap (growTotal (blockSize (2 ^ 21))) = some base →
          (grow mmap program.heap (blockSize (2 ^ 21))).2 ≠ 0 ∧
            blockSize (2 ^ 21) ≤ blkSize (grow mmap program.heap (blockSize (2 ^ 21))).1.mem
              (hdrp (grow mmap program.heap (blockSize (2 ^ 21))).2) := by
  obtain ⟨program, isLive, reachable⟩ := reachable_once
  exact ⟨program, isLive,
    balloc_asks_only_when_nothing_fits reachable (by decide) (by decide)⟩

end FoundationsLab.Balloc
