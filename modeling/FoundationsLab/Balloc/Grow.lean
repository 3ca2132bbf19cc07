import FoundationsLab.Balloc.Operations

/-! # Getting memory from the system

`grow` frames a fresh piece of memory as a region with one free block. -/

namespace FoundationsLab.Balloc

open Foundation
open Foundation.Word64

/-- What the system promises about the pieces of memory it hands out: they are
page-aligned, do not wrap around and do not overlap the `obtained` ones. -/
def Fresh (obtained : List (Nat × Nat)) (mmap : Nat → Option Nat) : Prop :=
  ∀ total base, mmap total = some base →
    4096 ∣ base ∧ 0 < base ∧ base + total ≤ 2 ^ 64 ∧
      ∀ span ∈ obtained, base + total ≤ span.1 ∨ span.1 + span.2 ≤ base

/-- The lengths requested from the system are words and whole pages, also where
their computation wraps around. -/
theorem growTotal_pages (need : Nat) : growTotal need < 2 ^ 64 ∧ 4096 ∣ growTotal need := by
  have page : 2 ^ 12 ∣ 4096 := by decide
  constructor
  · exact alignUp_lt_word _ _
  · apply dvd_alignUp (k := 12) (by decide)
    · split
      · decide
      · exact alignUp_lt_word _ _
    · split
      · decide
      · exact dvd_alignUp (by decide) (by decide) page

/-- The sum whose rounding `growTotal` is. -/
theorem growTotal_eq {need : Nat} (bound : need + 56 < 2 ^ 64) :
    growTotal need = alignUp (need + 56) (if need < CHUNK then CHUNK else alignUp need 4096) := by
  have sum : add (add (add need sizeofChunk) (3 * WSIZE)) DSIZE = need + 56 := by
    simp only [sizeofChunk, WSIZE, DSIZE]
    rw [add_of_lt (by omega : need + 16 < 2 ^ 64), add_of_lt (by omega : need + 16 + 3 * 8 < 2 ^ 64),
      add_of_lt (by omega)]
  rw [growTotal, sum]

/-- The length requested for a block size holds the block and its frame. -/
theorem growTotal_spec {need : Nat} (bound : need + 64 ≤ 2 ^ 63) :
    need + 56 ≤ growTotal need := by
  have aligned : 0 < (if need < CHUNK then CHUNK else alignUp need 4096) ∧
      need + 56 + (if need < CHUNK then CHUNK else alignUp need 4096) < 2 ^ 64 := by
    split
    · rename_i small
      have chunk : CHUNK = 2 ^ 20 := rfl
      omega
    · rename_i large
      have chunk : 0 < CHUNK := by decide
      have lower := le_alignUp (n := need) (by decide : 0 < 4096) (by omega)
      have pages : 2 ^ 12 ∣ alignUp need 4096 := dvd_alignUp (by decide) (by decide) (by decide)
      have upper := alignUp_lt (n := need) (by decide : 0 < 4096) (by omega)
      omega
  rw [growTotal_eq (by omega)]
  exact le_alignUp aligned.1 aligned.2

variable {regions : List Region} {lists : Nat → List Nat} {heap : Heap}

/-- A new region in front of the others, with free blocks that are on no list. -/
theorem Consistent.extend {mem mem' : Memory} {gClass : Nat → Nat} {gChunks : Nat}
    {region : Region} {block : Block}
    (consistent : Consistent regions lists [] mem gClass gChunks) (shaped : region.Shaped)
    (apart : ∀ other ∈ regions, region.Apart other) (isBlocks : region.blocks = [block])
    (isFree : block.allocated = false)
    (same : ∀ a, a < region.base ∨ region.base + region.total ≤ a → mem' a = mem a)
    (tagged : RegionTagged mem' region) (next : mem'.load64 (chunkNext region.base) = gChunks)
    (size : mem'.load64 (chunkSize region.base) = region.total) :
    Consistent (region :: regions) lists [block.payload] mem' gClass region.base ∧
      Keeps regions mem (region :: regions) mem' := by
  have layout := consistent.layout
  have inRegion : block ∈ region.blocks := by simp [isBlocks]
  have inside := shaped.inside inRegion
  have keepsRegion : ∀ other ∈ regions, ∀ a, other.base ≤ a → a < other.base + other.total →
      mem' a = mem a := by
    intro other member a lower upper
    exact same a (by rcases apart other member with below | above <;> omega)
  have allNew : ∀ other, other ∈ allBlocks (region :: regions) ↔
      other = block ∨ other ∈ allBlocks regions := by
    intro other
    simp [allBlocks, isBlocks]
  have old : ∀ other ∈ allBlocks regions, other.payload ≠ block.payload := by
    intro other member
    obtain ⟨home, isHome, inHome⟩ := mem_allBlocks.mp member
    have homeInside := (layout.shaped home isHome).inside inHome
    have minimum := ((layout.shaped home isHome).sized other inHome).minimum
    have blockMinimum := (shaped.sized block inRegion).minimum
    rcases apart home isHome with below | above <;> omega
  constructor
  · refine ⟨⟨?_, ?_⟩, ?_, ⟨rfl, size, ?_⟩, ?_, consistent.nodup, consistent.heads, ?_⟩
    · exact List.forall_mem_cons.mpr ⟨shaped, layout.shaped⟩
    · exact List.pairwise_cons.mpr ⟨apart, layout.apart⟩
    · refine List.forall_mem_cons.mpr ⟨tagged, fun other member => ?_⟩
      have otherShaped := layout.shaped other member
      have room := otherShaped.room
      have otherTagged := consistent.tagged other member
      constructor
      · refine (Memory.load64_congr fun a lower upper => ?_).trans otherTagged.prologue
        simp only [Region.prologue] at lower upper
        exact keepsRegion other member a (by omega) (by omega)
      · refine (Memory.load64_congr fun a lower upper => ?_).trans otherTagged.epilogue
        simp only [Region.epilogue] at lower upper
        exact keepsRegion other member a (by omega) (by omega)
      · intro inner inOther
        have innerInside := otherShaped.inside inOther
        exact (otherTagged.blocks inner inOther).congr (otherShaped.sized inner inOther) (by omega)
          fun a lower upper _ => keepsRegion other member a (by omega) (by omega)
    · rw [next]
      refine consistent.chunked.congr fun other member a lower upper => ?_
      have room := (layout.shaped other member).room
      exact keepsRegion other member a lower (by omega)
    · intro c n
      rw [consistent.listed c n]
      constructor
      · rintro ⟨-, other, member, otherFree, rfl, isClass⟩
        exact ⟨by simpa using old other member, other, (allNew other).mpr (.inr member), otherFree,
          rfl, isClass⟩
      · rintro ⟨notBlock, other, member, otherFree, rfl, isClass⟩
        rcases (allNew other).mp member with rfl | member
        · simp at notBlock
        · exact ⟨by simp, other, member, otherFree, rfl, isClass⟩
    · intro c
      refine (consistent.linked c).congr fun n member a lower upper => ?_
      obtain ⟨other, isOther, -, rfl, -⟩ := consistent.block_of_member member
      obtain ⟨home, isHome, inHome⟩ := mem_allBlocks.mp isOther
      have homeInside := (layout.shaped home isHome).inside inHome
      have minimum := ((layout.shaped home isHome).sized other inHome).minimum
      exact keepsRegion home isHome a (by omega) (by omega)
  · constructor
    · intro other isAllocated
      rw [allNew]
      refine or_iff_right_of_imp ?_
      rintro rfl
      simp [isFree] at isAllocated
    · rintro a ⟨other, isOther, -, lower, upper⟩
      obtain ⟨home, isHome, inHome⟩ := mem_allBlocks.mp isOther
      have homeInside := (layout.shaped home isHome).inside inHome
      exact keepsRegion home isHome a (by omega) (by omega)

/-- The memory after `grow` has framed a region. -/
def frameRegion (mem : Memory) (gChunks base total : Nat) (block : Block) : Memory :=
  (writeTags (((mem.store64 (chunkSize base) total).store64 (chunkNext base) gChunks).store64
    (base + 16) (pack WSIZE 1)) block).store64 (base + total - 8) (pack 0 1)

section Frame

variable {mem : Memory} {gChunks base total : Nat} {block : Block}

theorem frameRegion_outside (placed : block.Placed) (room : 64 ≤ total)
    (isPayload : block.payload = base + 32) (isSize : block.size = total - 32) {a : Nat}
    (outside : a < base ∨ base + total ≤ a) : frameRegion mem gChunks base total block a = mem a := by
  rw [frameRegion, Memory.store64_outside _ _ (by omega), writeTags_outside placed (by omega),
    Memory.store64_outside _ _ (by omega),
    Memory.store64_outside _ _ (by simp only [chunkNext]; omega),
    Memory.store64_outside _ _ (by simp only [chunkSize]; omega)]

theorem frameRegion_tagged (placed : block.Placed) (room : 64 ≤ total)
    (isPayload : block.payload = base + 32) (isSize : block.size = total - 32) :
    RegionTagged (frameRegion mem gChunks base total block) ⟨base, total, [block]⟩ := by
  constructor
  · simp only [Region.prologue, frameRegion]
    rw [Memory.load64_store64_disjoint _ _ (by omega),
      Memory.load64_congr fun a lower upper => writeTags_outside placed (by omega),
      Memory.load64_store64]
    decide
  · simp only [Region.epilogue, frameRegion]
    rw [Memory.load64_store64]
    decide
  · intro other member
    obtain rfl : other = block := by simpa using member
    exact (writeTags_tagged placed).congr placed.toSized placed.positive
      fun a lower upper _ => Memory.store64_outside _ _ (by omega)

theorem frameRegion_header (mem : Memory) (placed : block.Placed) (room : 64 ≤ total)
    (isPayload : block.payload = base + 32)
    (chunksBound : gChunks < 2 ^ 64) (totalBound : total < 2 ^ 64) :
    (frameRegion mem gChunks base total block).load64 (chunkNext base) = gChunks ∧
      (frameRegion mem gChunks base total block).load64 (chunkSize base) = total := by
  simp only [frameRegion, chunkNext, chunkSize]
  constructor
  · rw [Memory.load64_store64_disjoint _ _ (by omega),
      Memory.load64_congr fun a lower upper => writeTags_outside placed (by omega),
      Memory.load64_store64_disjoint _ _ (by omega), Memory.load64_store64,
      Nat.mod_eq_of_lt chunksBound]
  · rw [Memory.load64_store64_disjoint _ _ (by omega),
      Memory.load64_congr fun a lower upper => writeTags_outside placed (by omega),
      Memory.load64_store64_disjoint _ _ (by omega), Memory.load64_store64_disjoint _ _ (by omega),
      Memory.load64_store64, Nat.mod_eq_of_lt totalBound]

end Frame

theorem grow_eq (heap : Heap) {mmap : Nat → Option Nat} {need base total : Nat} {block : Block}
    (isTotal : growTotal need = total) (obtained : mmap total = some base)
    (aligned : 4096 ∣ base) (pages : 4096 ∣ total) (room : 64 ≤ total)
    (bounded : base + total ≤ 2 ^ 64) (isBlock : block = ⟨base + 32, total - 32, false⟩) :
    ∃ framed, framed.mem = frameRegion heap.mem heap.gChunks base total block ∧
      framed.gClass = heap.gClass ∧ framed.gChunks = base ∧
      framed.mapped = (base, total) :: heap.mapped ∧
      framed.gStats = heap.gStats.gainChunk total ∧
      grow mmap heap need =
        ({ listInsert framed block.payload block.size with
            gStats := framed.gStats.gainFree block.size }, block.payload) := by
  subst isBlock
  have first : alignUp (base + sizeofChunk + WSIZE + WSIZE) DSIZE = base + 32 := by
    simp only [sizeofChunk, WSIZE, DSIZE]
    exact alignUp_of_dvd (k := 4) (by decide) (by omega) (by omega)
  have header : base + 32 - WSIZE = base + 24 := by unfold WSIZE; omega
  have prologue : base + 24 - WSIZE = base + 16 := by unfold WSIZE; omega
  have epilogue : base + total - WSIZE = base + total - 8 := rfl
  have size : sub (base + total - 8) (base + 24) &&& lnot 7 = total - 32 := by
    have difference : sub (base + total - 8) (base + 24) = total - 32 := by
      rw [sub_of_le (by omega) (by omega)]
      omega
    have cleared : (total - 32) &&& lnot 7 = (total - 32) / 8 * 8 :=
      land_lnot_low (k := 3) (by omega) (by decide)
    rw [difference, cleared]
    omega
  have footer : base + 24 + (total - 32) - WSIZE = base + 32 + (total - 32) - 16 := by
    unfold WSIZE; omega
  have payload : base + 24 + WSIZE = base + 32 := rfl
  refine ⟨{ heap with
    mem := frameRegion heap.mem heap.gChunks base total ⟨base + 32, total - 32, false⟩
    gChunks := base
    gStats := heap.gStats.gainChunk total
    mapped := (base, total) :: heap.mapped }, rfl, rfl, rfl, rfl, rfl, ?_⟩
  simp only [grow, isTotal, obtained, first, header, prologue, epilogue, size, footer, payload]
  rfl

/-- Where `grow` succeeds, the heap is at rest again, with a free block that is
large enough for the request. -/
theorem grow_spec {mmap : Nat → Option Nat} {need base : Nat} (atRest : AtRest regions heap)
    (fresh : Fresh (spans regions) mmap) (minimum : 32 ≤ need) (room : need + 32 ≤ growTotal need)
    (obtained : mmap (growTotal need) = some base) :
    ∃ heap' regions' block, grow mmap heap need = (heap', block.payload) ∧
      AtRest regions' heap' ∧ block ∈ allBlocks regions' ∧ block.allocated = false ∧
      need ≤ block.size ∧ Keeps regions heap.mem regions' heap'.mem ∧
      spans regions' = (base, growTotal need) :: spans regions := by
  obtain ⟨⟨lists, consistent⟩, separated, mapped, accounts⟩ := atRest
  obtain ⟨totalBound, pages⟩ := growTotal_pages need
  obtain ⟨aligned, nonzero, bounded, apart⟩ := fresh _ base obtained
  obtain ⟨total, isTotal⟩ : ∃ total, growTotal need = total := ⟨_, rfl⟩
  rw [isTotal] at room totalBound pages obtained bounded apart ⊢
  obtain ⟨block, isBlock⟩ : ∃ block : Block, block = ⟨base + 32, total - 32, false⟩ := ⟨_, rfl⟩
  have isPayload : block.payload = base + 32 := by rw [isBlock]
  have isSize : block.size = total - 32 := by rw [isBlock]
  have isFree : block.allocated = false := by rw [isBlock]
  have placed : block.Placed := ⟨⟨by omega, by omega⟩, by omega, by omega⟩
  obtain ⟨framed, isMem, isClass, isChunks, isMapped, isStats, isGrown⟩ :=
    grow_eq heap isTotal obtained aligned pages (by omega) bounded isBlock
  have shaped : Region.Shaped ⟨base, total, [block]⟩ := by
    refine ⟨aligned, nonzero, by simp only; omega, bounded, ?_, by simpa using placed.toSized⟩
    have isEnd : base + 24 + block.size = base + total - 8 := by omega
    exact ⟨by simp only [Region.start]; omega, isEnd⟩
  have regionApart : ∀ other ∈ regions, Region.Apart ⟨base, total, [block]⟩ other := by
    intro other member
    exact apart (other.base, other.total) (List.mem_map_of_mem member)
  have chunksBound : heap.gChunks < 2 ^ 64 := by
    have chunked := consistent.chunked
    cases regions with
    | nil =>
        have none : heap.gChunks = 0 := chunked
        omega
    | cons region rest =>
        have atHead : heap.gChunks = region.base := chunked.1
        have headShaped := consistent.layout.shaped region List.mem_cons_self
        have headBound := headShaped.bounded
        have headRoom := headShaped.room
        omega
  obtain ⟨next, size⟩ := frameRegion_header heap.mem placed (by omega) isPayload chunksBound
    totalBound
  obtain ⟨extended, keeps⟩ := consistent.extend shaped regionApart rfl isFree
    (fun a outside => frameRegion_outside placed (by omega) isPayload isSize outside)
    (frameRegion_tagged placed (by omega) isPayload isSize) next size
  have framedKeeps : Keeps regions heap.mem (⟨base, total, [block]⟩ :: regions) framed.mem := by
    rw [isMem]
    exact keeps
  have framedConsistent : Consistent (⟨base, total, [block]⟩ :: regions) lists [block.payload]
      framed.mem framed.gClass framed.gChunks := by
    rw [isMem, isClass, isChunks]
    exact extended
  have member : block ∈ allBlocks (⟨base, total, [block]⟩ :: regions) := by simp [allBlocks]
  obtain ⟨lists', inserted, keeps'⟩ :=
    Consistent.insert [] framedConsistent member isFree (by simp) (by simp) (by simp)
  refine ⟨_, ⟨base, total, [block]⟩ :: regions, block, isGrown,
    ⟨⟨lists', inserted⟩, ?_, ?_, ?_⟩, member, isFree, by omega, framedKeeps.trans keeps', rfl⟩
  · exact List.forall_mem_cons.mpr ⟨List.isChain_singleton block, separated⟩
  · exact isMapped.trans (congrArg ((base, total) :: ·) mapped)
  · dsimp only
    rw [isStats]
    exact accounts.extend isFree placed.minimum (by omega)

end FoundationsLab.Balloc
