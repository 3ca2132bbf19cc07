import FoundationsLab.Balloc.Check
import FoundationsLab.Balloc.Program

/-! # What the checker sees of an overrun

A program that writes past the end of a block comes to its footer first, one that writes
before its beginning to the header. The checker compares the two, and follows the header. -/

namespace FoundationsLab.Balloc

open Foundation
open Foundation.Word64
open Foundation.DoublyLinked

/-! ## Walks over a part of the heap -/

/-- The walk gets over these blocks. -/
structure Passable (fuel : Nat) (heap : Heap) (blocks : List Block) : Prop where
  tagged : ∀ block ∈ blocks, BlockTagged heap.mem block
  sized : ∀ block ∈ blocks, block.Sized
  listed : ∀ block ∈ blocks, block.allocated = false →
    onFreeList fuel heap block.payload = some true
  separated : Separated blocks

section Walks

variable {heap : Heap} {fuel : Nat}

theorem Passable.tail {block : Block} {blocks : List Block}
    (passable : Passable fuel heap (block :: blocks)) : Passable fuel heap blocks where
  tagged other member := passable.tagged other (List.mem_cons_of_mem _ member)
  sized other member := passable.sized other (List.mem_cons_of_mem _ member)
  listed other member := passable.listed other (List.mem_cons_of_mem _ member)
  separated := (List.isChain_cons.mp passable.separated).2

/-- From the first block on, the walk comes to what follows the last one. -/
theorem checkBlocks_passable (blocks : List Block) : ∀ (start stop prev blockFuel : Nat),
    Tiles start blocks stop → 16 ∣ start + 8 → Passable fuel heap blocks →
    (∀ first ∈ blocks.head?, first.allocated = false →
      prev = 0 ∨ blkAlloc heap.mem (hdrp prev) ≠ 0) →
    ∃ prev', checkBlocks fuel heap (blocks.length + blockFuel) (start + 8) prev =
      checkBlocks fuel heap blockFuel (stop + 8) prev' := by
  induction blocks with
  | nil =>
      intro start stop prev blockFuel tiles _ _ _
      obtain rfl : start = stop := tiles
      exact ⟨prev, by rw [List.length_nil, Nat.zero_add]⟩
  | cons block blocks induction =>
      intro start stop prev blockFuel tiles aligned passable behind
      have sized := passable.sized block List.mem_cons_self
      have tags := passable.tagged block List.mem_cons_self
      have minimum := sized.minimum
      have isMultiple := sized.aligned
      have isPayload : block.payload = start + 8 := tiles.1
      have size : blkSize heap.mem (hdrp block.payload) = block.size := sized.blkSize_eq tags.header
      have alloc : blkAlloc heap.mem (hdrp block.payload) = block.allocated.toNat :=
        sized.blkAlloc_eq tags.header
      have onMultiple : block.payload % DSIZE = 0 :=
        Nat.mod_eq_zero_of_dvd (isPayload ▸ aligned)
      have sameTags : heap.mem.load64 (hdrp block.payload) =
          heap.mem.load64 (ftrp heap.mem block.payload) := by
        rw [ftrp, size]
        exact tags.header.trans tags.footer.symm
      have next : nextBlkp heap.mem block.payload = start + block.size + 8 := by
        rw [nextBlkp, size]
        omega
      have chain := List.isChain_cons.mp passable.separated
      obtain ⟨prev', continued⟩ := induction (start + block.size) stop block.payload blockFuel
        tiles.2 (by omega) passable.tail
        (fun first isFirst firstFree => by
          rw [alloc]
          rcases chain.1 first isFirst with isAllocated | isAllocated
          · exact .inr (by simp [isAllocated])
          · simp [firstFree] at isAllocated)
      refine ⟨prev', ?_⟩
      have isSucc : (block :: blocks).length + blockFuel = blocks.length + blockFuel + 1 := by
        rw [List.length_cons]
        omega
      rw [isSucc, ← isPayload, checkBlocks, next, continued, if_neg (by omega), if_neg (by omega),
        if_neg (by simpa using sameTags), if_neg (by rw [size, MIN_BLOCK]; omega), alloc]
      cases isAllocated : block.allocated with
      | true => rfl
      | false =>
          rw [passable.listed block List.mem_cons_self isAllocated]
          have apart : ¬(prev ≠ 0 ∧ blkAlloc heap.mem (hdrp prev) = 0) := by
            rintro ⟨isBlock, isFree⟩
            exact (behind block rfl isAllocated).elim isBlock (fun taken => taken isFree)
          simp [apart]

theorem checkChunks_cons {region : Region} (shaped : region.Shaped) {code : Int}
    (walked : checkBlocks fuel heap fuel (region.start + 8) 0 = some code) (chunkFuel : Nat) :
    checkChunks fuel heap (chunkFuel + 1) region.base =
      if code = 0 then checkChunks fuel heap chunkFuel (heap.mem.load64 (chunkNext region.base))
      else some code := by
  have nonzero := shaped.nonzero
  rw [checkChunks, if_neg (by omega)]
  simp only [firstPayload_eq shaped, walked, Option.bind_eq_bind, Option.bind_some]

/-- Chunks without a complaint are passed. -/
theorem checkChunks_skip {rest : List Region} : ∀ {before : List Region} {ch : Nat} (chunkFuel : Nat),
    Chunked heap.mem ch (before ++ rest) →
    (∀ region ∈ before, region.Shaped ∧
      checkBlocks fuel heap fuel (region.start + 8) 0 = some 0) →
    ∃ ch', Chunked heap.mem ch' rest ∧
      checkChunks fuel heap (before.length + chunkFuel) ch = checkChunks fuel heap chunkFuel ch'
  | [], ch, chunkFuel, chunked, _ => ⟨ch, chunked, by rw [List.length_nil, Nat.zero_add]⟩
  | region :: before, ch, chunkFuel, chunked, passed => by
      obtain ⟨rfl, -, chunked⟩ := chunked
      obtain ⟨shaped, walked⟩ := passed region List.mem_cons_self
      obtain ⟨ch', chunked', later⟩ := checkChunks_skip chunkFuel chunked
        fun other member => passed other (List.mem_cons_of_mem _ member)
      refine ⟨ch', chunked', ?_⟩
      have isSucc : (region :: before).length + chunkFuel = before.length + chunkFuel + 1 := by
        rw [List.length_cons]
        omega
      rw [isSucc, checkChunks_cons shaped walked, if_pos rfl]
      exact later

theorem checkChunks_all {regions : List Region} {ch chunkFuel : Nat}
    (chunked : Chunked heap.mem ch regions)
    (passed : ∀ region ∈ regions, region.Shaped ∧
      checkBlocks fuel heap fuel (region.start + 8) 0 = some 0)
    (room : regions.length < chunkFuel) : checkChunks fuel heap chunkFuel ch = some 0 := by
  rw [← List.append_nil regions] at chunked
  obtain ⟨rest, isFuel⟩ : ∃ rest, chunkFuel = regions.length + (rest + 1) :=
    ⟨chunkFuel - regions.length - 1, by omega⟩
  obtain ⟨ch', isEnd, skipped⟩ := checkChunks_skip (rest + 1) chunked passed
  have isZero : ch' = 0 := isEnd
  rw [isFuel, skipped, checkChunks, if_pos isZero]

end Walks

/-! ## Damage around one block -/

/-- Memory has changed at most from the header of a block to the header behind it. -/
def Damaged (block : Block) (mem mem' : Memory) : Prop :=
  ∀ a, a + 8 < block.payload ∨ block.payload + block.size ≤ a → mem' a = mem a

section Damage

theorem mem_focus {α : Type} {x focus : α} {before after : List α}
    (member : x ∈ before ++ focus :: after) : x ∈ before ++ after ∨ x = focus := by
  simp only [List.mem_append, List.mem_cons] at member ⊢
  tauto

theorem mem_of_others {α : Type} {x : α} {before after : List α} (member : x ∈ before ++ after)
    (focus : α) : x ∈ before ++ focus :: after := by
  simp only [List.mem_append, List.mem_cons] at member ⊢
  tauto

variable {before after : List Region} {base total : Nat} {front back : List Block}
  {block : Block} {lists : Nat → List Nat} {heap : Heap} {mem' : Memory} {fuel : Nat}

/-- Other regions are as they were. -/
theorem Damaged.otherRegion (damaged : Damaged block heap.mem mem')
    (layout : Layout (before ++ ⟨base, total, front ++ [block] ++ back⟩ :: after))
    {region : Region} (isOther : region ∈ before ++ after) {a : Nat} (lower : region.base ≤ a)
    (upper : a < region.base + region.total) : mem' a = heap.mem a := by
  have inside := layout.focus.inside (by simp : block ∈ front ++ [block] ++ back)
  have parts := List.pairwise_append.mp layout.apart
  have apart : region.Apart ⟨base, total, front ++ [block] ++ back⟩ := by
    rcases List.mem_append.mp isOther with inBefore | inAfter
    · exact parts.2.2 region inBefore _ List.mem_cons_self
    · exact ((List.pairwise_cons.mp parts.2.1).1 region inAfter).symm
  apply damaged
  rcases apart with below | above
  · simp only at below inside
    omega
  · simp only at above inside
    omega

theorem Damaged.otherTagged (damaged : Damaged block heap.mem mem')
    (consistent : Consistent (before ++ ⟨base, total, front ++ [block] ++ back⟩ :: after) lists []
      heap.mem heap.gClass heap.gChunks)
    {region : Region} (isOther : region ∈ before ++ after) : RegionTagged mem' region := by
  have layout := consistent.layout
  have isRegion := mem_of_others isOther (⟨base, total, front ++ [block] ++ back⟩ : Region)
  have shaped := layout.shaped region isRegion
  have room := shaped.room
  have tagged := consistent.tagged region isRegion
  have same : ∀ a, region.base ≤ a → a < region.base + region.total → mem' a = heap.mem a :=
    fun a lower upper => damaged.otherRegion layout isOther lower upper
  constructor
  · refine (Memory.load64_congr fun a lower upper => ?_).trans tagged.prologue
    simp only [Region.prologue] at lower upper
    exact same a (by omega) (by omega)
  · refine (Memory.load64_congr fun a lower upper => ?_).trans tagged.epilogue
    simp only [Region.epilogue] at lower upper
    exact same a (by omega) (by omega)
  · intro other member
    have inside := shaped.inside member
    apply (tagged.blocks other member).congr (shaped.sized other member) (by omega)
    intro a lower upper _
    exact same a (by omega) (by omega)

/-- The blocks before the damaged one are as they were. -/
theorem Damaged.frontTagged (damaged : Damaged block heap.mem mem')
    (consistent : Consistent (before ++ ⟨base, total, front ++ [block] ++ back⟩ :: after) lists []
      heap.mem heap.gClass heap.gChunks) :
    ∀ other ∈ front, BlockTagged mem' other := by
  intro other member
  have shaped := consistent.layout.focus
  have inBlocks : other ∈ front ++ [block] ++ back := by simp [member]
  have inside := shaped.inside inBlocks
  have tagged := (consistent.tagged ⟨base, total, front ++ [block] ++ back⟩ (by simp)).blocks
    other inBlocks
  obtain ⟨start, stop, onFront, onMid, -⟩ := consistent.layout.focus_tiles
  have below := (onFront.bounds other member).2
  have isPayload : block.payload = start + 8 := onMid.1
  apply tagged.congr (shaped.sized other inBlocks) (by omega)
  intro a lower upper _
  apply damaged
  omega

/-- The nodes of the free lists are in the payloads of other blocks. -/
theorem Damaged.linked (damaged : Damaged block heap.mem mem')
    (consistent : Consistent (before ++ ⟨base, total, front ++ [block] ++ back⟩ :: after) lists []
      heap.mem heap.gClass heap.gChunks) (isAllocated : block.allocated = true) (c : Nat) :
    Segment mem' 0 (lists c) 0 := by
  refine (consistent.linked c).congr fun n member a lower upper => ?_
  obtain ⟨free, isFree, notAllocated, rfl, -⟩ := consistent.block_of_member member
  have isBlock : block ∈ allBlocks (before ++ ⟨base, total, front ++ [block] ++ back⟩ :: after) :=
    mem_allBlocks_focus.mpr (.inl List.mem_cons_self)
  have minimum := (consistent.layout.sized isFree).minimum
  apply damaged
  rcases consistent.layout.blocks_apart isFree isBlock with rfl | below | above
  · rw [isAllocated] at notAllocated
    cases notAllocated
  · omega
  · omega

theorem Damaged.onFreeListFrom (damaged : Damaged block heap.mem mem')
    (consistent : Consistent (before ++ ⟨base, total, front ++ [block] ++ back⟩ :: after) lists []
      heap.mem heap.gClass heap.gChunks) (isAllocated : block.allocated = true)
    (enough : Enough lists fuel) (bp : Nat) : ∀ {rest c : Nat}, c + rest ≤ NCLASS →
      onFreeListFrom fuel { heap with mem := mem' } bp rest c = onFreeListFrom fuel heap bp rest c
  | 0, _, _ => rfl
  | rest + 1, c, inside => by
      have nonzero := (consistent.cells c).nonzero
      have isEnough := enough c (by omega)
      have walked := onList_eq bp (consistent.linked c) nonzero isEnough
      have walked' := onList_eq bp (damaged.linked consistent isAllocated c) nonzero isEnough
      have later := damaged.onFreeListFrom consistent isAllocated enough bp
        (by omega : c + 1 + rest ≤ NCLASS)
      rw [Balloc.onFreeListFrom, Balloc.onFreeListFrom, later]
      dsimp only
      rw [consistent.heads, walked, walked']

theorem Damaged.onFreeList (damaged : Damaged block heap.mem mem')
    (consistent : Consistent (before ++ ⟨base, total, front ++ [block] ++ back⟩ :: after) lists []
      heap.mem heap.gClass heap.gChunks) (isAllocated : block.allocated = true)
    (enough : Enough lists fuel) {free : Block}
    (isFree : free ∈ allBlocks (before ++ ⟨base, total, front ++ [block] ++ back⟩ :: after))
    (notAllocated : free.allocated = false) :
    onFreeList fuel { heap with mem := mem' } free.payload = some true := by
  have same := damaged.onFreeListFrom consistent isAllocated enough free.payload
    (Nat.le_of_eq (Nat.zero_add NCLASS))
  exact same.trans (onFreeList_free consistent enough isFree notAllocated)

/-- Other regions are walked over. -/
theorem Damaged.walkOther (damaged : Damaged block heap.mem mem')
    (consistent : Consistent (before ++ ⟨base, total, front ++ [block] ++ back⟩ :: after) lists []
      heap.mem heap.gClass heap.gChunks) (isAllocated : block.allocated = true)
    (separated : AllSeparated (before ++ ⟨base, total, front ++ [block] ++ back⟩ :: after))
    (enough : Enough lists fuel) {region : Region} (isOther : region ∈ before ++ after)
    (short : region.blocks.length < fuel) :
    region.Shaped ∧ checkBlocks fuel { heap with mem := mem' } fuel (region.start + 8) 0 = some 0 := by
  have isRegion := mem_of_others isOther (⟨base, total, front ++ [block] ++ back⟩ : Region)
  have shaped := consistent.layout.shaped region isRegion
  have tagged := damaged.otherTagged consistent isOther
  have aligned := shaped.aligned
  have passable : Passable fuel { heap with mem := mem' } region.blocks := by
    refine ⟨tagged.blocks, shaped.sized, ?_, separated region isRegion⟩
    intro free member notAllocated
    apply damaged.onFreeList consistent isAllocated enough _ notAllocated
    exact mem_allBlocks.mpr ⟨region, isRegion, member⟩
  obtain ⟨rest, isFuel⟩ : ∃ rest, fuel = region.blocks.length + (rest + 1) :=
    ⟨fuel - region.blocks.length - 1, by omega⟩
  obtain ⟨prev, walked⟩ := checkBlocks_passable region.blocks region.start region.epilogue 0
    (rest + 1) shaped.tiles (by simp only [Region.start]; omega) passable
    (fun _ _ _ => .inl rfl)
  have atEnd : blkSize mem' (hdrp (region.epilogue + 8)) = 0 :=
    blkSize_of_load (by decide) (le_refl 1) tagged.epilogue
  refine ⟨shaped, ?_⟩
  rw [← isFuel] at walked
  rw [walked, checkBlocks, if_pos atEnd]

/-- The walk over the damaged region comes to the damaged block. -/
theorem Damaged.walkTo (damaged : Damaged block heap.mem mem')
    (consistent : Consistent (before ++ ⟨base, total, front ++ [block] ++ back⟩ :: after) lists []
      heap.mem heap.gClass heap.gChunks) (isAllocated : block.allocated = true)
    (separated : AllSeparated (before ++ ⟨base, total, front ++ [block] ++ back⟩ :: after))
    (enough : Enough lists fuel) (short : (front ++ [block] ++ back).length < fuel) :
    ∃ rest prev, checkBlocks fuel { heap with mem := mem' } fuel (base + 24 + 8) 0 =
      checkBlocks fuel { heap with mem := mem' } (rest + 1) block.payload prev := by
  have shaped := consistent.layout.focus
  have aligned : 4096 ∣ base := shaped.aligned
  obtain ⟨start, stop, onFront, onMid, -⟩ := consistent.layout.focus_tiles
  have isPayload : block.payload = start + 8 := onMid.1
  have passable : Passable fuel { heap with mem := mem' } front := by
    refine ⟨damaged.frontTagged consistent, ?_, ?_, ?_⟩
    · intro other member
      exact shaped.sized other (by simp [member])
    · intro free member notAllocated
      apply damaged.onFreeList consistent isAllocated enough _ notAllocated
      exact mem_allBlocks_focus.mpr (.inr (by simp [member]))
    · exact (separated_parts (allSeparated_others separated).1).1
  have isFuel : fuel = front.length + (fuel - front.length - 1 + 1) := by
    simp only [List.length_append] at short
    omega
  obtain ⟨prev, walked⟩ := checkBlocks_passable front (base + 24) start 0
    (fuel - front.length - 1 + 1) onFront (by omega) passable (fun _ _ _ => .inl rfl)
  rw [← isFuel, ← isPayload] at walked
  exact ⟨_, prev, walked⟩

/-- A footer that differs from its header is found. -/
theorem Damaged.footerFound (damaged : Damaged block heap.mem mem')
    (consistent : Consistent (before ++ ⟨base, total, front ++ [block] ++ back⟩ :: after) lists []
      heap.mem heap.gClass heap.gChunks) (isAllocated : block.allocated = true)
    (separated : AllSeparated (before ++ ⟨base, total, front ++ [block] ++ back⟩ :: after))
    (enough : Enough lists fuel) (short : (front ++ [block] ++ back).length < fuel)
    (sameHeader : mem'.load64 block.header = block.tag)
    (changed : mem'.load64 block.footer ≠ block.tag) :
    checkBlocks fuel { heap with mem := mem' } fuel (base + 24 + 8) 0 = some (-2) := by
  have isBlock : block ∈ allBlocks (before ++ ⟨base, total, front ++ [block] ++ back⟩ :: after) :=
    mem_allBlocks_focus.mpr (.inl List.mem_cons_self)
  have sized := consistent.layout.sized isBlock
  have minimum := sized.minimum
  have spec := consistent.layout.payload_spec isBlock
  have aligned : block.payload % DSIZE = 0 := Nat.mod_eq_zero_of_dvd spec.1
  have size : blkSize mem' (hdrp block.payload) = block.size := sized.blkSize_eq sameHeader
  have different : mem'.load64 (hdrp block.payload) ≠ mem'.load64 (ftrp mem' block.payload) := by
    rw [ftrp, size]
    intro same
    exact changed (same.symm.trans sameHeader)
  obtain ⟨rest, prev, walked⟩ := damaged.walkTo consistent isAllocated separated enough short
  rw [walked, checkBlocks, if_neg (by rw [size]; omega), if_neg (by omega), if_pos different]

/-- A header without a size looks like the end of the chunk. -/
theorem Damaged.headerMissed (damaged : Damaged block heap.mem mem')
    (consistent : Consistent (before ++ ⟨base, total, front ++ [block] ++ back⟩ :: after) lists []
      heap.mem heap.gClass heap.gChunks) (isAllocated : block.allocated = true)
    (separated : AllSeparated (before ++ ⟨base, total, front ++ [block] ++ back⟩ :: after))
    (enough : Enough lists fuel) (short : (front ++ [block] ++ back).length < fuel)
    (wiped : mem'.load64 block.header < 8) :
    checkBlocks fuel { heap with mem := mem' } fuel (base + 24 + 8) 0 = some 0 := by
  have atEnd : blkSize mem' (hdrp block.payload) = 0 := by
    have cleared : mem'.load64 block.header &&& lnot 7 = mem'.load64 block.header / 8 * 8 :=
      land_lnot_low (k := 3) (mem'.load64_lt block.header) (by decide)
    have isHeader : hdrp block.payload = block.header := rfl
    rw [blkSize, isHeader]
    omega
  obtain ⟨rest, prev, walked⟩ := damaged.walkTo consistent isAllocated separated enough short
  rw [walked, checkBlocks, if_pos atEnd]

/-- The walk over the lists comes to its end, if the header behind the block is as it was. -/
theorem Damaged.checkListsFrom (damaged : Damaged block heap.mem mem')
    (consistent : Consistent (before ++ ⟨base, total, front ++ [block] ++ back⟩ :: after) lists []
      heap.mem heap.gClass heap.gChunks) (isAllocated : block.allocated = true)
    (sameNext : mem'.load64 (block.payload + block.size - 8) =
      heap.mem.load64 (block.payload + block.size - 8))
    (enough : Enough lists fuel) : ∀ {rest c : Nat}, c + rest ≤ NCLASS →
      checkListsFrom fuel { heap with mem := mem' } rest c = some 0
  | 0, _, _ => rfl
  | rest + 1, c, inside => by
      have isBlock : block ∈ allBlocks (before ++ ⟨base, total, front ++ [block] ++ back⟩ :: after) :=
        mem_allBlocks_focus.mpr (.inl List.mem_cons_self)
      have spec := consistent.layout.payload_spec isBlock
      have isMultiple := (consistent.layout.sized isBlock).aligned
      have free : ∀ n ∈ lists c, blkAlloc mem' (hdrp n) = 0 := by
        intro n member
        obtain ⟨other, isOther, isFree, rfl, -⟩ := consistent.block_of_member member
        have otherSpec := consistent.layout.payload_spec isOther
        have otherMinimum := (consistent.layout.sized isOther).minimum
        have sameHeader : mem'.load64 (hdrp other.payload) = heap.mem.load64 (hdrp other.payload) := by
          rcases consistent.layout.blocks_apart isOther isBlock with rfl | below | above
          · rw [isAllocated] at isFree
            cases isFree
          · apply Memory.load64_congr
            intro a lower upper
            rw [hdrp, WSIZE] at upper
            apply damaged
            omega
          · by_cases behind : other.payload = block.payload + block.size
            · rw [hdrp, behind]
              exact sameNext
            · apply Memory.load64_congr
              intro a lower upper
              rw [hdrp, WSIZE] at lower
              apply damaged
              omega
        have alloc := consistent.allocAt isOther
        rw [blkAlloc] at alloc ⊢
        rw [sameHeader, alloc, isFree]
        rfl
      have walked := checkList_eq_zero (damaged.linked consistent isAllocated c) free
        (enough c (by omega))
      have later := damaged.checkListsFrom consistent isAllocated sameNext enough
        (by omega : c + 1 + rest ≤ NCLASS)
      rw [Balloc.checkListsFrom]
      dsimp only
      rw [consistent.heads, walked]
      exact later

end Damage

/-- What the checker finds out about writes around a live block, from its header to the header
behind it. If they changed the footer but not the header, it reports the block, whatever else
they changed. If they wiped out the size in the header, it takes the block for the end of the
chunk: it reports nothing, and nothing of what lies behind is looked at. -/
theorem checker_sees_footers {program : Program} (reachable : Reachable program)
    {ptr size : Nat} (isLive : (ptr, size) ∈ program.live) {mem' : Memory}
    (around : ∀ a, a + 8 < ptr ∨ nextBlkp program.heap.mem ptr ≤ a →
      mem' a = program.heap.mem a) :
    (mem'.load64 (hdrp ptr) = program.heap.mem.load64 (hdrp ptr) →
      mem'.load64 (ftrp program.heap.mem ptr) ≠
        program.heap.mem.load64 (ftrp program.heap.mem ptr) →
      ∃ bound, ∀ fuel, bound ≤ fuel →
        ballocCheck fuel { program.heap with mem := mem' } = some (-2)) ∧
    (mem'.load64 (hdrp ptr) < 8 →
      mem'.load64 (hdrp (nextBlkp program.heap.mem ptr)) =
        program.heap.mem.load64 (hdrp (nextBlkp program.heap.mem ptr)) →
      ∃ bound, ∀ fuel, bound ≤ fuel →
        ballocCheck fuel { program.heap with mem := mem' } = some 0) := by
  obtain ⟨regions, serves⟩ := reachable_serves reachable
  obtain ⟨block, isBlock, isAllocated, rfl, -⟩ := serves.backed _ isLive
  obtain ⟨before, base, total, front, back, after, rfl⟩ := exists_focus isBlock
  obtain ⟨lists, consistent⟩ := serves.atRest.consistent
  have separated := serves.atRest.separated
  have isSize := consistent.sizeAt isBlock
  have tags := consistent.blockTagged isBlock
  have isHeader : hdrp block.payload = block.header := rfl
  have isFooter : ftrp program.heap.mem block.payload = block.footer := by
    rw [ftrp, isSize]
    rfl
  have isNext : nextBlkp program.heap.mem block.payload = block.payload + block.size := by
    rw [nextBlkp, isSize]
  have damaged : Damaged block program.heap.mem mem' := by
    rw [isNext] at around
    exact around
  have chunked : Chunked mem' program.heap.gChunks
      (before ++ ⟨base, total, front ++ [block] ++ back⟩ :: after) := by
    apply Chunked.congr _ consistent.chunked
    intro region isRegion a lower upper
    have room := (consistent.layout.shaped region isRegion).room
    rcases mem_focus isRegion with isOther | rfl
    · exact damaged.otherRegion consistent.layout isOther lower (by omega)
    · have inside := consistent.layout.focus.inside (by simp : block ∈ front ++ [block] ++ back)
      apply damaged
      simp only at upper inside
      omega
  have nonzero := consistent.layout.focus.nonzero
  obtain ⟨bound, enough⟩ := exists_enough lists
  obtain ⟨bound', room⟩ := exists_room (before ++ ⟨base, total, front ++ [block] ++ back⟩ :: after)
  constructor
  · intro sameHeader changed
    rw [isHeader, tags.header] at sameHeader
    rw [isFooter, tags.footer] at changed
    refine ⟨bound + bound', fun fuel large => ?_⟩
    have enough := enough fuel (by omega)
    obtain ⟨chunkRoom, blockRoom⟩ := room fuel (by omega)
    have found := damaged.footerFound consistent isAllocated separated enough
      (blockRoom ⟨base, total, front ++ [block] ++ back⟩ (by simp)) sameHeader changed
    have passed : ∀ region ∈ before, region.Shaped ∧
        checkBlocks fuel { program.heap with mem := mem' } fuel (region.start + 8) 0 = some 0 := by
      intro region member
      apply damaged.walkOther consistent isAllocated separated enough
      · exact List.mem_append_left _ member
      · exact blockRoom region (List.mem_append_left _ member)
    have isFuel : fuel = before.length + (fuel - before.length - 1 + 1) := by
      simp only [List.length_append, List.length_cons] at chunkRoom
      omega
    obtain ⟨ch, ⟨rfl, -⟩, skipped⟩ := checkChunks_skip
      (fuel - before.length - 1 + 1) chunked passed
    have reported := checkChunks_cons consistent.layout.focus found (fuel - before.length - 1)
    rw [if_neg (by decide)] at reported
    rw [← isFuel, reported] at skipped
    simp [ballocCheck, skipped]
  · intro wiped sameNext
    rw [isHeader] at wiped
    rw [isNext] at sameNext
    refine ⟨bound + bound', fun fuel large => ?_⟩
    have enough := enough fuel (by omega)
    obtain ⟨chunkRoom, blockRoom⟩ := room fuel (by omega)
    have missed := damaged.headerMissed consistent isAllocated separated enough
      (blockRoom ⟨base, total, front ++ [block] ++ back⟩ (by simp)) wiped
    have passed : ∀ region ∈ before ++ ⟨base, total, front ++ [block] ++ back⟩ :: after,
        region.Shaped ∧
          checkBlocks fuel { program.heap with mem := mem' } fuel (region.start + 8) 0 = some 0 := by
      intro region member
      rcases mem_focus member with isOther | rfl
      · exact damaged.walkOther consistent isAllocated separated enough isOther
          (blockRoom region member)
      · exact ⟨consistent.layout.focus, missed⟩
    have chunks := checkChunks_all chunked passed chunkRoom
    have freeLists := damaged.checkListsFrom consistent isAllocated sameNext enough
      (Nat.le_of_eq (Nat.zero_add NCLASS))
    simp [ballocCheck, chunks, freeLists]

/-- The footer of the only block is overwritten with zeros. -/
theorem checker_sees_footers_once : ∃ (program : Program) (mem' : Memory),
    program.live = [(4128, 100)] ∧ ∃ bound, ∀ fuel, bound ≤ fuel →
      ballocCheck fuel { program.heap with mem := mem' } = some (-2) := by
  obtain ⟨program, isLive, reachable⟩ := reachable_once
  have member : (4128, 100) ∈ program.live := isLive ▸ List.mem_singleton_self _
  obtain ⟨regions, serves⟩ := reachable_serves reachable
  obtain ⟨block, isBlock, -, isPayload, fits⟩ := serves.backed _ member
  obtain ⟨lists, consistent⟩ := serves.atRest.consistent
  simp only at isPayload fits
  have sized := consistent.layout.sized isBlock
  have tags := consistent.blockTagged isBlock
  have isSize := consistent.sizeAt isBlock
  have isTag := sized.tag_eq
  rw [isPayload] at isSize
  have isFooter : ftrp program.heap.mem 4128 = block.footer := by
    rw [ftrp, isSize, Block.footer, isPayload, DSIZE]
  have inside : block.footer = 4128 + block.size - 16 := by rw [Block.footer, isPayload]
  let mem' : Memory := program.heap.mem.store64 block.footer 0
  refine ⟨program, mem', isLive, (checker_sees_footers reachable member ?_).1 ?_ ?_⟩
  · intro a outside
    rw [nextBlkp, isSize] at outside
    apply Memory.store64_outside
    omega
  · apply Memory.load64_congr
    intro a lower upper
    rw [hdrp, WSIZE] at upper
    apply Memory.store64_outside
    omega
  · rw [isFooter, tags.footer, Memory.load64_store64]
    omega

end FoundationsLab.Balloc
