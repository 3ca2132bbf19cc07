import FoundationsLab.Balloc.Fitting

/-! # Requests of any size

The rounding of a request and the length of a chunk are computed in 64-bit words.
Both wrap around: a request within 31 bytes of `SIZE_MAX` gets the smallest block,
and one above half the range of a word gets a chunk that is shorter than it. -/

namespace FoundationsLab.Balloc

open Foundation
open Foundation.Word64

/-! ## Where the sizes wrap around -/

/-- Below half the range of a word the length of a chunk is zero or has room for the block
and the words around it. -/
theorem growTotal_half {need : Nat} (bound : need + 16 ≤ 2 ^ 63) (aligned : 16 ∣ need) :
    growTotal need = 0 ∨ need + 32 ≤ growTotal need := by
  by_cases small : need + 64 ≤ 2 ^ 63
  · have room := growTotal_spec small
    exact .inr (by omega)
  · have few : need = 2 ^ 63 - 48 ∨ need = 2 ^ 63 - 32 ∨ need = 2 ^ 63 - 16 := by omega
    rcases few with rfl | rfl | rfl <;> exact .inl (by decide)

/-- From half the range of a word on, the length of a chunk is below the size of
the block. -/
theorem growTotal_le_half {need : Nat} (large : 2 ^ 63 ≤ need) (word : need < 2 ^ 64) :
    growTotal need ≤ 2 ^ 63 := by
  have notSmall : ¬ need < CHUNK := by
    have chunk : CHUNK = 2 ^ 20 := rfl
    omega
  have rounded : alignUp need 4096 = (need + 4095) % 2 ^ 64 / 4096 * 4096 := by
    have sum : sub (add need 4096) 1 = (need + 4095) % 2 ^ 64 := by
      unfold sub add
      omega
    rw [alignUp, sum]
    exact land_lnot_low (k := 12) (Nat.mod_lt _ (Nat.two_pow_pos 64)) (by decide)
  have alignment : alignUp need 4096 = 0 ∨ 2 ^ 63 ≤ alignUp need 4096 := by
    rw [rounded]
    omega
  have word := alignUp_lt_word need 4096
  have mask : lnot (sub (alignUp need 4096) 1) ≤ 2 ^ 63 := by
    unfold lnot sub
    omega
  rw [growTotal, if_neg notSmall]
  exact Nat.le_trans Nat.and_le_right mask

/-! ## What the functions do to the chunks -/

theorem coalesce_mapped (heap : Heap) (bp : Nat) : (coalesce heap bp).1.mapped = heap.mapped := by
  simp only [coalesce, apply_ite Prod.fst, apply_ite Heap.mapped, absorb_mapped, ite_self]

theorem bfree_mapped (heap : Heap) (ptr : Nat) : (bfree heap ptr).mapped = heap.mapped := by
  simp only [bfree, listInsert, apply_ite Heap.mapped, coalesce_mapped, ite_self]

theorem place_mapped (heap : Heap) (bp asize : Nat) :
    (place heap bp asize).1.mapped = heap.mapped := by
  simp only [place, listInsert, listRemove_eq, apply_ite Heap.mapped, ite_self]

theorem place_snd (heap : Heap) (bp asize : Nat) : (place heap bp asize).2 = bp := by
  simp only [place]

/-- The pointer and the chunks that a placed block comes with. -/
theorem place_result {heap heap' : Heap} {bp asize ptr : Nat}
    (placed : place heap bp asize = (heap', ptr)) : ptr = bp ∧ heap'.mapped = heap.mapped := by
  have payload := place_snd heap bp asize
  have chunks := place_mapped heap bp asize
  rw [placed] at payload chunks
  exact ⟨payload, chunks⟩

/-! ## Requests that get what they ask for -/

/-- Some free block of the heap has at least that size. -/
def Heap.Fits (heap : Heap) (asize : Nat) : Prop :=
  ∃ regions lists, HeapInvariant heap regions lists ∧ Fitting regions asize

/-- The arithmetic of the request does not wrap around, or there is a block for
it, or there is nothing that it could get. -/
def Honest (mmap : Nat → Option Nat) (heap : Heap) (size : Nat) : Prop :=
  size ≤ 2 ^ 63 - 32 ∨ (size ≤ 2 ^ 64 - 32 ∧ heap.Fits (blockSize size)) ∨
    (¬ heap.Fits (blockSize size) ∧ mmap (growTotal (blockSize size)) = none)

/-- The bytes from `ptr` on are inside a chunk that the system has mapped. -/
def Heap.Maps (heap : Heap) (ptr size : Nat) : Prop :=
  ∃ chunk ∈ heap.mapped, chunk.1 ≤ ptr ∧ ptr + size ≤ chunk.1 + chunk.2

/-- A result of an allocation: `NULL`, or a payload of at least `size` bytes
inside a mapped chunk. -/
def HasRoom (heap : Heap) (ptr size : Nat) : Prop :=
  ptr = 0 ∨ (size + 16 ≤ blkSize heap.mem (hdrp ptr) ∧ heap.Maps ptr size)

section Room

variable {regions : List Region} {heap heap' : Heap} {fuel size ptr : Nat} {mmap : Nat → Option Nat}

theorem AtRest.findFit_none_iff (atRest : AtRest regions heap) {asize n : Nat}
    (found : findFit fuel heap asize = some n) : n = 0 ↔ ¬ heap.Fits asize := by
  obtain ⟨lists, invariant⟩ := atRest.heapInvariant
  constructor
  · rintro isNone ⟨regions', lists', invariant', fitting⟩
    exact (invariant'.findFit_none_iff found).mp isNone fitting
  · intro noFit
    exact (invariant.findFit_none_iff found).mpr fun fitting =>
      noFit ⟨regions, lists, invariant, fitting⟩

theorem AtRest.hasRoom (atRest : AtRest regions heap) {block : Block}
    (member : block ∈ allBlocks regions) (room : size + 16 ≤ block.size) :
    HasRoom heap block.payload size := by
  obtain ⟨lists, consistent⟩ := atRest.consistent
  obtain ⟨region, isRegion, inRegion⟩ := mem_allBlocks.mp member
  have inside := (consistent.layout.shaped region isRegion).inside inRegion
  right
  constructor
  · rw [consistent.sizeAt member]
    exact room
  · refine ⟨(region.base, region.total), ?_, ?_⟩
    · rw [atRest.mapped]
      exact List.mem_map_of_mem isRegion
    · dsimp only
      omega

theorem Honest.ample (atRest : AtRest regions heap) (honest : Honest mmap heap size)
    (empty : mmap 0 = none) : Ample fuel mmap heap size := by
  constructor
  · intro bp found nonzero
    have fits : heap.Fits (blockSize size) := by
      by_contra noFit
      exact nonzero ((atRest.findFit_none_iff found).mpr noFit)
    rcases honest with small | ⟨small, _⟩ | ⟨noFit, _⟩
    · exact (blockSize_bounds (by omega)).1
    · exact (blockSize_bounds (by omega)).1
    · exact absurd fits noFit
  · intro found base obtained
    have noFit := (atRest.findFit_none_iff found).mp rfl
    rcases honest with small | ⟨_, fits⟩ | ⟨_, refused⟩
    · have inWord : size + 32 ≤ 2 ^ 64 := by omega
      have bounds := blockSize_bounds inWord
      have shape := blockSize_shape size
      constructor
      · exact bounds.1
      · have below : blockSize size + 16 ≤ 2 ^ 63 := by omega
        rcases growTotal_half below shape.2 with isZero | room
        · rw [isZero, empty] at obtained
          cases obtained
        · exact room
    · exact absurd fits noFit
    · rw [refused] at obtained
      cases obtained

theorem balloc_hasRoom (atRest : AtRest regions heap) (fresh : Fresh heap.mapped mmap)
    (ample : Ample fuel mmap heap size)
    (returned : balloc fuel mmap heap size = some (heap', ptr)) : HasRoom heap' ptr size := by
  rcases balloc_spec atRest fresh ample returned with ⟨rfl, rfl⟩ | ⟨regions', taken, rfl, room, granted⟩
  · exact .inl rfl
  · exact granted.atRest.hasRoom granted.member room

/-! ## Requests that do not -/

theorem AtRest.chunk_bounds (atRest : AtRest regions heap) {chunk : Nat × Nat}
    (member : chunk ∈ heap.mapped) : 4096 ≤ chunk.1 ∧ chunk.1 + chunk.2 ≤ 2 ^ 64 := by
  obtain ⟨lists, consistent⟩ := atRest.consistent
  rw [atRest.mapped] at member
  obtain ⟨region, isRegion, rfl⟩ := List.mem_map.mp member
  have shaped := consistent.layout.shaped region isRegion
  obtain ⟨pages, isPages⟩ := shaped.aligned
  have nonzero := shaped.nonzero
  have bounded := shaped.bounded
  dsimp only
  omega

/-- The chunk that a failed search obtained, and the block in it. -/
theorem grow_payload {need base : Nat} (fresh : Fresh heap.mapped mmap) (empty : mmap 0 = none)
    (obtained : mmap (growTotal need) = some base) :
    (grow mmap heap need).2 = base + 32 ∧
      (grow mmap heap need).1.mapped = (base, growTotal need) :: heap.mapped ∧
      4096 ≤ growTotal need := by
  obtain ⟨aligned, -, bounded, -⟩ := fresh _ base obtained
  obtain ⟨-, pages⟩ := growTotal_pages need
  have nonzero : growTotal need ≠ 0 := by
    intro isZero
    rw [isZero, empty] at obtained
    cases obtained
  obtain ⟨framed, -, -, -, isMapped, -, isGrown⟩ :=
    grow_eq heap rfl obtained aligned pages (by omega) bounded rfl
  rw [isGrown]
  exact ⟨rfl, isMapped, by omega⟩

/-- What comes out of `balloc`: nothing, a block of the heap, or a block of a new
chunk. -/
theorem balloc_cases (nonzero : size ≠ 0)
    (returned : balloc fuel mmap heap size = some (heap', ptr)) :
    ∃ bp, findFit fuel heap (blockSize size) = some bp ∧
      ((bp ≠ 0 ∧ ptr = bp ∧ heap'.mapped = heap.mapped) ∨
        (bp = 0 ∧ ((ptr = 0 ∧ (grow mmap heap (blockSize size)).2 = 0) ∨
          ((grow mmap heap (blockSize size)).2 ≠ 0 ∧ ptr = (grow mmap heap (blockSize size)).2 ∧
            heap'.mapped = (grow mmap heap (blockSize size)).1.mapped)))) := by
  rw [balloc, if_neg nonzero] at returned
  obtain ⟨bp, found, returned⟩ := Option.bind_eq_some_iff.mp returned
  refine ⟨bp, found, ?_⟩
  by_cases isNone : bp = 0
  · rw [if_pos isNone] at returned
    refine .inr ⟨isNone, ?_⟩
    by_cases refused : (grow mmap heap (blockSize size)).2 = 0
    · simp only [refused, if_true, Option.some.injEq, Prod.mk.injEq] at returned
      exact .inl ⟨returned.2.symm, refused⟩
    · simp only [refused, if_false, Option.some.injEq] at returned
      obtain ⟨isPtr, sameChunks⟩ := place_result returned
      exact .inr ⟨refused, isPtr, sameChunks⟩
  · rw [if_neg isNone] at returned
    obtain ⟨isPtr, sameChunks⟩ := place_result (Option.some.inj returned)
    exact .inl ⟨isNone, isPtr, sameChunks⟩

/-- A request that is not honest gets a pointer, and not the bytes after it. -/
theorem balloc_wrapped (atRest : AtRest regions heap) (fresh : Fresh heap.mapped mmap)
    (empty : mmap 0 = none) (wrapped : ¬ Honest mmap heap size)
    (returned : balloc fuel mmap heap size = some (heap', ptr)) :
    ptr ≠ 0 ∧ ¬ heap'.Maps ptr size := by
  have large : 2 ^ 63 - 32 < size := by
    by_contra small
    exact wrapped (.inl (Nat.not_lt.mp small))
  have shape := blockSize_shape size
  obtain ⟨bp, found, outcome⟩ := balloc_cases (by omega) returned
  have isFit := atRest.findFit_none_iff found
  rcases outcome with ⟨isFound, rfl, sameChunks⟩ | ⟨rfl, outcome⟩
  · -- A block was found for a request that was rounded to the smallest size.
    have fits : heap.Fits (blockSize size) := by
      by_contra noFit
      exact isFound (isFit.mpr noFit)
    have huge : 2 ^ 64 - 32 < size := by
      by_contra small
      exact wrapped (.inr (.inl ⟨Nat.not_lt.mp small, fits⟩))
    refine ⟨isFound, ?_⟩
    rintro ⟨chunk, member, lower, upper⟩
    have bounds := atRest.chunk_bounds (sameChunks ▸ member)
    omega
  · have noFit := isFit.mp rfl
    obtain ⟨base, obtained⟩ : ∃ base, mmap (growTotal (blockSize size)) = some base := by
      cases isAnswer : mmap (growTotal (blockSize size)) with
      | none => exact absurd (.inr (.inr ⟨noFit, isAnswer⟩)) wrapped
      | some base => exact ⟨base, rfl⟩
    obtain ⟨isPayload, newChunks, pages⟩ := grow_payload fresh empty obtained
    obtain ⟨aligned, nonzero, bounded, apart⟩ := fresh _ base obtained
    rw [isPayload, newChunks] at outcome
    rcases outcome with ⟨-, isZero⟩ | ⟨isSome, rfl, isMapped⟩
    · omega
    · refine ⟨isSome, ?_⟩
      rintro ⟨chunk, member, lower, upper⟩
      rw [isMapped] at member
      rcases List.mem_cons.mp member with rfl | isOld
      · -- The chunk is shorter than the request.
        dsimp only at upper
        rcases Nat.lt_or_ge (2 ^ 64 - 32) size with huge | small
        · omega
        · have inWord : size + 32 ≤ 2 ^ 64 := by omega
          have bounds := blockSize_bounds inWord
          have word : blockSize size < 2 ^ 64 := by
            by_contra outside
            omega
          have short := growTotal_le_half (by omega) word
          omega
      · have away := apart chunk isOld
        have bounds := atRest.chunk_bounds isOld
        omega

/-! ## The three functions -/

theorem balloc_hasRoom_iff (atRest : AtRest regions heap) (fresh : Fresh heap.mapped mmap)
    (empty : mmap 0 = none) (returned : balloc fuel mmap heap size = some (heap', ptr)) :
    HasRoom heap' ptr size ↔ Honest mmap heap size := by
  constructor
  · intro room
    by_contra wrapped
    obtain ⟨isSome, outside⟩ := balloc_wrapped atRest fresh empty wrapped returned
    rcases room with isNone | ⟨-, maps⟩
    · exact isSome isNone
    · exact outside maps
  · intro honest
    exact balloc_hasRoom atRest fresh (honest.ample atRest empty) returned

/-- A block that `brealloc` keeps has room; one that it asks for is as `balloc`
returns it. -/
theorem brealloc_hasRoom_iff {block : Block} (atRest : AtRest regions heap)
    (fresh : Fresh heap.mapped mmap) (empty : mmap 0 = none)
    (member : block ∈ allBlocks regions) (isAllocated : block.allocated = true)
    (returned : brealloc fuel mmap heap block.payload size = some (heap', ptr)) :
    HasRoom heap' ptr size ↔
      size ≤ sub (blkSize heap.mem (hdrp block.payload)) DSIZE ∨ Honest mmap heap size := by
  have payload := atRest.payload_room member
  by_cases isZero : size = 0
  · rw [brealloc, if_neg (atRest.payload_ne_zero member), if_pos isZero] at returned
    have isNone : ptr = 0 := (congrArg Prod.snd (Option.some.inj returned)).symm
    exact iff_of_true (.inl isNone) (.inl (by omega))
  · by_cases kept : size ≤ sub (blkSize heap.mem (hdrp block.payload)) DSIZE
    · refine iff_of_true ?_ (.inl kept)
      rw [brealloc, if_neg (atRest.payload_ne_zero member), if_neg isZero] at returned
      dsimp only at returned
      rw [if_pos kept] at returned
      obtain ⟨rfl, rfl⟩ := Prod.mk.inj (Option.some.inj returned)
      exact atRest.hasRoom member (by omega)
    · rw [or_iff_right kept]
      constructor
      · intro room
        by_contra wrapped
        rw [brealloc, if_neg (atRest.payload_ne_zero member), if_neg isZero] at returned
        dsimp only at returned
        rw [if_neg kept] at returned
        obtain ⟨⟨heap₁, np⟩, isGranted, result⟩ := Option.bind_eq_some_iff.mp returned
        obtain ⟨isSome, outside⟩ := balloc_wrapped atRest fresh empty wrapped isGranted
        dsimp only at result
        rw [if_neg isSome] at result
        obtain ⟨rfl, rfl⟩ := Prod.mk.inj (Option.some.inj result)
        rcases room with isNone | ⟨-, maps⟩
        · exact isSome isNone
        · rw [Heap.Maps, bfree_mapped] at maps
          exact outside maps
      · intro honest
        rcases brealloc_spec atRest fresh member isAllocated
            (fun _ => honest.ample atRest empty) isZero returned with
          ⟨rfl, rfl | ⟨rfl, room⟩⟩ | ⟨regions', taken, rfl, room, elsewhere, moved⟩
        · exact .inl rfl
        · exact atRest.hasRoom member room
        · have isNew : taken ≠ block := fun same => elsewhere (congrArg Block.payload same)
          have isMember : taken ∈ allBlocks regions' :=
            (moved.blocks taken moved.isAllocated).mpr ⟨.inl rfl, isNew⟩
          exact moved.atRest.hasRoom isMember room

/-- The bytes that `bcalloc` clears are in the block that it returns. -/
theorem bcalloc_hasRoom_iff {nmemb : Nat} (atRest : AtRest regions heap)
    (fresh : Fresh heap.mapped mmap) (empty : mmap 0 = none)
    (returned : bcalloc fuel mmap heap nmemb size = some (heap', ptr)) :
    HasRoom heap' ptr (mul nmemb size) ↔
      2 ^ 64 ≤ nmemb * size ∨ Honest mmap heap (nmemb * size) := by
  by_cases overflows : nmemb ≠ 0 ∧ (2 ^ 64 - 1) / nmemb < size
  · have large : 2 ^ 64 ≤ nmemb * size := by
      have quotient := (Nat.div_lt_iff_lt_mul (Nat.pos_of_ne_zero overflows.1)).mp overflows.2
      rw [Nat.mul_comm] at quotient
      omega
    rw [bcalloc, if_pos overflows] at returned
    have isNone : ptr = 0 := (congrArg Prod.snd (Option.some.inj returned)).symm
    exact iff_of_true (.inl isNone) (.inl large)
  · have fits := product_lt_of_check overflows
    rw [mul_of_lt fits, or_iff_right (Nat.not_le.mpr fits)]
    constructor
    · intro room
      by_contra wrapped
      rw [bcalloc, if_neg overflows] at returned
      dsimp only at returned
      rw [mul_of_lt fits] at returned
      obtain ⟨⟨heap₁, np⟩, isGranted, result⟩ := Option.bind_eq_some_iff.mp returned
      obtain ⟨isSome, outside⟩ := balloc_wrapped atRest fresh empty wrapped isGranted
      dsimp only at result
      rw [if_neg isSome] at result
      obtain ⟨rfl, rfl⟩ := Prod.mk.inj (Option.some.inj result)
      rcases room with isNone | ⟨-, maps⟩
      · exact isSome isNone
      · exact outside maps
    · intro honest
      rcases bcalloc_spec atRest fresh (fun _ => honest.ample atRest empty) returned with
        ⟨rfl, rfl⟩ | ⟨regions', taken, rfl, room, granted⟩
      · exact .inl rfl
      · exact granted.atRest.hasRoom granted.member room

end Room

/-! ## Programs with requests of any size -/

/-- What a program promises whose requests need not be small. -/
def Call.Honest (mmap : Nat → Option Nat) (program : Program) : Call → Prop
  | .balloc size => Balloc.Honest mmap program.heap size
  | .bfree ptr => Valid program.live ptr
  | .bcalloc nmemb size =>
      2 ^ 64 ≤ nmemb * size ∨ Balloc.Honest mmap program.heap (nmemb * size)
  | .brealloc ptr size => Valid program.live ptr ∧
      ((ptr ≠ 0 ∧ size ≤ sub (blkSize program.heap.mem (hdrp ptr)) DSIZE) ∨
        Balloc.Honest mmap program.heap size)
  | .write address _ => ∃ entry ∈ program.live, entry.1 ≤ address ∧ address < entry.1 + entry.2

/-- The states of a program whose requests are honest, on a system that maps
nothing for a request of no bytes. -/
inductive HonestRun : Program → Prop
  | initial (mem : Memory) : HonestRun (Program.initial mem)
  | call {program next : Program} {fuel : Nat} {mmap : Nat → Option Nat} {call : Call}
      (run : HonestRun program) (fresh : Fresh program.heap.mapped mmap) (empty : mmap 0 = none)
      (honest : call.Honest mmap program) (stepped : program.step fuel mmap call = some next) :
      HonestRun next

theorem Call.Honest.sound {regions : List Region} {program : Program} {mmap : Nat → Option Nat}
    {call : Call} (honest : call.Honest mmap program) (atRest : AtRest regions program.heap)
    (empty : mmap 0 = none) (fuel : Nat) : call.Sound fuel mmap program := by
  cases call with
  | balloc size => exact Balloc.Honest.ample atRest honest empty
  | bfree ptr => exact honest
  | bcalloc nmemb size =>
      intro fits
      exact Balloc.Honest.ample atRest (honest.resolve_left (Nat.not_le.mpr fits)) empty
  | brealloc ptr size =>
      refine ⟨honest.1, fun asks => ?_⟩
      rcases honest.2 with ⟨nonzero, kept⟩ | honest
      · rcases asks with isNull | larger
        · exact absurd isNull nonzero
        · exact absurd kept (Nat.not_le.mpr larger)
      · exact Balloc.Honest.ample atRest honest empty
  | write address byte => exact honest

theorem HonestRun.serves {program : Program} (run : HonestRun program) :
    ∃ regions, Serves regions program := by
  induction run with
  | initial mem => exact ⟨[], initial_serves mem⟩
  | call _ fresh empty honest stepped induction =>
      obtain ⟨regions, serves⟩ := induction
      exact step_serves serves fresh (honest.sound serves.atRest empty _) stepped

/-- In every state of a program whose requests were honest, every call returns,
and a request gets `NULL` or the bytes that it asked for, inside one mapped chunk,
if and only if it is honest. -/
theorem allocations_have_room_iff {program : Program} (run : HonestRun program)
    {mmap : Nat → Option Nat} (fresh : Fresh program.heap.mapped mmap) (empty : mmap 0 = none) :
    (∃ enough, ∀ fuel, enough ≤ fuel → ∀ call, ∃ next, program.step fuel mmap call = some next) ∧
      (∀ fuel size heap' ptr, balloc fuel mmap program.heap size = some (heap', ptr) →
        (HasRoom heap' ptr size ↔ Honest mmap program.heap size)) ∧
      (∀ old live, (live, old) ∈ program.live → ∀ fuel size heap' ptr,
        brealloc fuel mmap program.heap live size = some (heap', ptr) →
        (HasRoom heap' ptr size ↔ size ≤ sub (blkSize program.heap.mem (hdrp live)) DSIZE ∨
          Honest mmap program.heap size)) ∧
      ∀ fuel nmemb size heap' ptr,
        bcalloc fuel mmap program.heap nmemb size = some (heap', ptr) →
        (HasRoom heap' ptr (mul nmemb size) ↔
          2 ^ 64 ≤ nmemb * size ∨ Honest mmap program.heap (nmemb * size)) := by
  obtain ⟨regions, serves⟩ := run.serves
  have atRest := serves.atRest
  refine ⟨?_, ?_, ?_, ?_⟩
  · obtain ⟨enough, returns⟩ := step_total serves
    exact ⟨enough, fun fuel above call => returns fuel above mmap call⟩
  · intro fuel size heap' ptr returned
    exact balloc_hasRoom_iff atRest fresh empty returned
  · intro old live isLive fuel size heap' ptr returned
    obtain ⟨block, member, isAllocated, isPayload, -⟩ := serves.backed (live, old) isLive
    obtain rfl : block.payload = live := isPayload
    exact brealloc_hasRoom_iff atRest fresh empty member isAllocated returned
  · intro fuel nmemb size heap' ptr returned
    exact bcalloc_hasRoom_iff atRest fresh empty returned

/-- A system that refuses everything, and a request of the largest size. -/
theorem allocations_have_room_initially :
    ∃ heap' ptr, balloc 1 (fun _ => none) (Heap.initial fun _ => 0) (2 ^ 64 - 1) = some (heap', ptr) ∧
      (HasRoom heap' ptr (2 ^ 64 - 1) ↔
        Honest (fun _ => none) (Heap.initial fun _ => 0) (2 ^ 64 - 1)) := by
  have returns : (balloc 1 (fun _ => none) (Heap.initial fun _ => 0) (2 ^ 64 - 1)).isSome = true := by
    decide +kernel
  obtain ⟨⟨heap', ptr⟩, returned⟩ := Option.isSome_iff_exists.mp returns
  have refuses : Fresh (Program.initial fun _ => 0).heap.mapped fun _ => none :=
    fun _ _ obtained => by simp at obtained
  have rooms := allocations_have_room_iff (.initial fun _ => 0) refuses rfl
  exact ⟨heap', ptr, returned, rooms.2.1 1 (2 ^ 64 - 1) heap' ptr returned⟩

/-- The largest request gets a block of 32 bytes in a chunk of a mebibyte. -/
theorem largest_request_gets_smallest_block :
    ∃ heap', balloc 1 onePage (Heap.initial fun _ => 0) (2 ^ 64 - 1) = some (heap', 4128) ∧
      blkSize heap'.mem (hdrp 4128) = 32 ∧ heap'.mapped = [(4096, 2 ^ 20)] ∧
      ¬ HasRoom heap' 4128 (2 ^ 64 - 1) := by
  have returned : (balloc 1 onePage (Heap.initial fun _ => 0) (2 ^ 64 - 1)).map
      (fun result => (result.2, blkSize result.1.mem (hdrp 4128), result.1.mapped)) =
      some (4128, 32, [(4096, 2 ^ 20)]) := by decide +kernel
  obtain ⟨⟨heap', ptr⟩, isResult, isOutcome⟩ := Option.map_eq_some_iff.mp returned
  obtain ⟨isPtr, isSize, isMapped⟩ : ptr = 4128 ∧ blkSize heap'.mem (hdrp 4128) = 32 ∧
      heap'.mapped = [(4096, 2 ^ 20)] := by
    simpa using isOutcome
  obtain rfl := isPtr
  refine ⟨heap', isResult, isSize, isMapped, ?_⟩
  rintro (isNull | ⟨room, -⟩)
  · omega
  · omega

end FoundationsLab.Balloc
