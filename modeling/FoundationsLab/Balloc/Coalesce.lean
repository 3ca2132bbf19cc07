import FoundationsLab.Balloc.Accounts
import FoundationsLab.Balloc.FreeLists
import Mathlib.Data.List.Chain

/-! # Boundary tags and coalescing

A block reads the tags on both sides of it to find its physical neighbours; free
neighbours are taken off their lists and merged into it. -/

namespace FoundationsLab.Balloc

open Foundation
open Foundation.Word64

/-! ## Writing tags -/

/-- Write the tags of a block. -/
def writeTags (mem : Memory) (block : Block) : Memory :=
  (mem.store64 block.header block.tag).store64 block.footer block.tag

/-- What is known of a block before its tags are written. -/
structure Block.Placed (block : Block) : Prop extends block.Sized where
  positive : 8 ≤ block.payload
  bounded : block.payload + block.size ≤ 2 ^ 64

section WriteTags

variable {mem : Memory} {block : Block}

theorem Block.Placed.tag_lt (placed : block.Placed) : block.tag < 2 ^ 64 := by
  have flag := toNat_le_one block.allocated
  have bounded := placed.bounded
  have positive := placed.positive
  rw [placed.toSized.tag_eq]
  omega

theorem writeTags_tagged (placed : block.Placed) : BlockTagged (writeTags mem block) block := by
  have minimum := placed.minimum
  have positive := placed.positive
  have bound := placed.tag_lt
  constructor
  · rw [writeTags, Memory.load64_store64_disjoint _ _ (by simp only [Block.header, Block.footer]; omega),
      Memory.load64_store64, Nat.mod_eq_of_lt bound]
  · rw [writeTags, Memory.load64_store64, Nat.mod_eq_of_lt bound]

theorem writeTags_outside (placed : block.Placed) {a : Nat}
    (outside : a + 8 < block.payload ∨ block.payload + block.size ≤ a + 8) :
    writeTags mem block a = mem a := by
  have minimum := placed.minimum
  have positive := placed.positive
  rw [writeTags, Memory.store64_outside _ _ (by simp only [Block.footer]; omega),
    Memory.store64_outside _ _ (by simp only [Block.header]; omega)]

/-- The second tag may be written first. -/
theorem writeTags_swap (placed : block.Placed) :
    (mem.store64 block.footer block.tag).store64 block.header block.tag = writeTags mem block := by
  have minimum := placed.minimum
  have positive := placed.positive
  funext a
  by_cases atHeader : block.header ≤ a ∧ a < block.header + 8
  · have notFooter : a < block.footer ∨ block.footer + 8 ≤ a := by
      simp only [Block.header, Block.footer] at atHeader ⊢
      omega
    rw [writeTags, Memory.store64_outside _ _ notFooter]
    simp only [Memory.store64, if_pos atHeader]
  · have notHeader : a < block.header ∨ block.header + 8 ≤ a := by omega
    rw [writeTags, Memory.store64_outside _ _ notHeader]
    by_cases atFooter : block.footer ≤ a ∧ a < block.footer + 8
    · simp only [Memory.store64, if_pos atFooter]
    · have notFooter : a < block.footer ∨ block.footer + 8 ≤ a := by omega
      rw [Memory.store64_outside _ _ notFooter, Memory.store64_outside _ _ notFooter,
        Memory.store64_outside _ _ notHeader]

/-- Once the header is written, it locates the footer. -/
theorem ftrp_of_header {size alloc : Nat} (placed : block.Placed) (isSize : size = block.size)
    (isAlloc : alloc = block.allocated.toNat) :
    ftrp (mem.store64 (hdrp block.payload) (pack size alloc)) block.payload = block.footer := by
  subst isSize isAlloc
  have loaded : (mem.store64 block.header block.tag).load64 block.header = block.tag := by
    rw [Memory.load64_store64, Nat.mod_eq_of_lt placed.tag_lt]
  have isSize := placed.toSized.blkSize_eq loaded
  unfold ftrp
  exact congrArg (block.payload + · - DSIZE) isSize

/-- The pair of writes that gives a block its tags. -/
theorem retag_eq (mem : Memory) {size alloc : Nat} (placed : block.Placed) (isSize : size = block.size)
    (isAlloc : alloc = block.allocated.toNat) :
    (mem.store64 (hdrp block.payload) (pack size alloc)).store64
        (ftrp (mem.store64 (hdrp block.payload) (pack size alloc)) block.payload)
        (pack size alloc) = writeTags mem block := by
  rw [ftrp_of_header placed isSize isAlloc, isSize, isAlloc]
  rfl

end WriteTags

/-! ## Neighbours -/

/-- Two blocks in a row are not both free. -/
def Separated (blocks : List Block) : Prop :=
  blocks.IsChain fun block next => block.allocated = true ∨ next.allocated = true

def AllSeparated (regions : List Region) : Prop :=
  ∀ region ∈ regions, Separated region.blocks

section Focus

variable {before after : List Region} {base total : Nat} {front back : List Block} {block : Block}
  {lists : Nat → List Nat} {skip : List Nat} {mem : Memory} {gClass : Nat → Nat} {gChunks : Nat}

/-- The tag in front of a block: of the block before it, or the prologue. -/
theorem prevTag
    (consistent : Consistent (before ++ ⟨base, total, front ++ [block] ++ back⟩ :: after) lists skip
      mem gClass gChunks) :
    (front = [] ∧ blkAlloc mem (ftrp mem (prevBlkp mem block.payload)) = 1) ∨
      ∃ early prev, front = early ++ [prev] ∧ prevBlkp mem block.payload = prev.payload ∧
        blkAlloc mem (ftrp mem (prevBlkp mem block.payload)) = prev.allocated.toNat ∧
        prev.payload + prev.size = block.payload := by
  have layout := consistent.layout
  obtain ⟨start, stop, onFront, onMid, onBack⟩ := layout.focus_tiles
  have focusTagged := consistent.tagged ⟨base, total, front ++ [block] ++ back⟩ (by simp)
  have isStart : block.payload = start + 8 := onMid.1
  rcases List.eq_nil_or_concat' front with rfl | ⟨early, prev, rfl⟩
  · refine .inl ⟨rfl, ?_⟩
    have atBase : base + 24 = start := onFront
    have isPrologue : mem.load64 (base + 16) = 8 + 1 :=
      focusTagged.prologue.trans (by decide)
    have size : blkSize mem (base + 16) = 8 := blkSize_of_load (by decide) le_rfl isPrologue
    have before16 : block.payload - DSIZE = base + 16 := by unfold DSIZE; omega
    have prev : prevBlkp mem block.payload = base + 24 := by
      rw [prevBlkp, before16, size]
      omega
    have footer : ftrp mem (base + 24) = base + 16 := by
      unfold ftrp hdrp WSIZE DSIZE
      rw [show base + 24 - 8 = base + 16 by omega, size]
      omega
    rw [prev, footer]
    exact blkAlloc_of_load (by decide) le_rfl isPrologue
  · refine .inr ⟨early, prev, rfl, ?_⟩
    have member : prev ∈ allBlocks (before ++ ⟨base, total, early ++ [prev] ++ [block] ++ back⟩ ::
        after) := mem_allBlocks_focus.mpr (.inr (by simp))
    obtain ⟨middle, onEarly, isPrev, isEnd⟩ := tiles_append.mp onFront
    have touching : prev.payload + prev.size = block.payload := by
      have ends : middle + prev.size = start := isEnd
      omega
    have sized := layout.sized member
    have minimum := sized.minimum
    have tags := consistent.blockTagged member
    have before16 : block.payload - DSIZE = prev.footer := by
      unfold DSIZE Block.footer
      omega
    have prevIs : prevBlkp mem block.payload = prev.payload := by
      rw [prevBlkp, before16, sized.blkSize_eq tags.footer]
      omega
    have footer : ftrp mem prev.payload = prev.footer := by
      rw [ftrp, consistent.sizeAt member]
      rfl
    exact ⟨prevIs, by rw [prevIs, footer, sized.blkAlloc_eq tags.footer], touching⟩

/-- The tag behind a block: of the block after it, or the epilogue. -/
theorem nextTag
    (consistent : Consistent (before ++ ⟨base, total, front ++ [block] ++ back⟩ :: after) lists skip
      mem gClass gChunks) :
    (back = [] ∧ blkAlloc mem (hdrp (nextBlkp mem block.payload)) = 1) ∨
      ∃ next late, back = next :: late ∧ nextBlkp mem block.payload = next.payload ∧
        blkAlloc mem (hdrp (nextBlkp mem block.payload)) = next.allocated.toNat ∧
        block.payload + block.size = next.payload := by
  have layout := consistent.layout
  obtain ⟨start, stop, onFront, onMid, onBack⟩ := layout.focus_tiles
  have focusTagged := consistent.tagged ⟨base, total, front ++ [block] ++ back⟩ (by simp)
  have member : block ∈ allBlocks (before ++ ⟨base, total, front ++ [block] ++ back⟩ :: after) :=
    mem_allBlocks_focus.mpr (.inl (by simp))
  have isStart : block.payload = start + 8 := onMid.1
  have isStop : start + block.size = stop := onMid.2
  have nextIs : nextBlkp mem block.payload = block.payload + block.size := by
    rw [nextBlkp, consistent.sizeAt member]
  cases back with
  | nil =>
      refine .inl ⟨rfl, ?_⟩
      have atEnd : stop = base + total - 8 := onBack
      have isEpilogue : mem.load64 (base + total - 8) = 0 + 1 := focusTagged.epilogue.trans (by decide)
      have address : hdrp (block.payload + block.size) = base + total - 8 := by
        unfold hdrp WSIZE
        omega
      rw [nextIs, address]
      exact blkAlloc_of_load (by decide) le_rfl isEpilogue
  | cons next late =>
      have nextMember : next ∈ allBlocks
          (before ++ ⟨base, total, front ++ [block] ++ next :: late⟩ :: after) :=
        mem_allBlocks_focus.mpr (.inr (by simp))
      have touching : block.payload + block.size = next.payload := by
        have isNext : next.payload = stop + 8 := onBack.1
        omega
      exact .inr ⟨next, late, rfl, nextIs.trans touching, by
        rw [nextIs, touching, consistent.allocAt nextMember], touching⟩

/-! ## Separation -/

theorem separated_around (onFront : Separated front) (onBack : Separated back)
    (left : ∀ prev ∈ front.getLast?, prev.allocated = true)
    (right : ∀ next ∈ back.head?, next.allocated = true) :
    Separated (front ++ [block] ++ back) := by
  rw [Separated, List.append_assoc]
  refine List.isChain_append.mpr ⟨onFront, ?_, ?_⟩
  · refine List.isChain_cons.mpr ⟨fun next isNext => .inr (right next ?_), onBack⟩
    simpa using isNext
  · intro prev isPrev _ _
    exact .inl (left prev isPrev)

theorem separated_left {early : List Block} {prev : Block} (onFront : Separated (early ++ [prev]))
    (isFree : prev.allocated = false) :
    Separated early ∧ ∀ other ∈ early.getLast?, other.allocated = true := by
  have parts := List.isChain_append.mp onFront
  refine ⟨parts.1, fun other isLast => ?_⟩
  exact (parts.2.2 other isLast prev rfl).resolve_right (by simp [isFree])

theorem separated_right {late : List Block} {next : Block} (onBack : Separated (next :: late))
    (isFree : next.allocated = false) :
    Separated late ∧ ∀ other ∈ late.head?, other.allocated = true := by
  have parts := List.isChain_cons.mp onBack
  refine ⟨parts.2, fun other isHead => ?_⟩
  exact (parts.1 other isHead).resolve_left (by simp [isFree])

/-- What `coalesce` finds in front of the block. -/
theorem prevCases
    (consistent : Consistent (before ++ ⟨base, total, front ++ [block] ++ back⟩ :: after) lists skip
      mem gClass gChunks) :
    (blkAlloc mem (ftrp mem (prevBlkp mem block.payload)) ≠ 0 ∧
        ∀ prev ∈ front.getLast?, prev.allocated = true) ∨
      ∃ early prev, front = early ++ [prev] ∧ prevBlkp mem block.payload = prev.payload ∧
        prev.allocated = false ∧ blkAlloc mem (ftrp mem (prevBlkp mem block.payload)) = 0 ∧
        prev.payload + prev.size = block.payload := by
  rcases prevTag consistent with ⟨rfl, tag⟩ | ⟨early, prev, rfl, isPrev, tag, touching⟩
  · exact .inl ⟨by simp [tag], by simp⟩
  · cases isAllocated : prev.allocated with
    | true => exact .inl ⟨by simp [tag, isAllocated], by simp [isAllocated]⟩
    | false => exact .inr ⟨early, prev, rfl, isPrev, isAllocated, by simp [tag, isAllocated], touching⟩

theorem nextCases
    (consistent : Consistent (before ++ ⟨base, total, front ++ [block] ++ back⟩ :: after) lists skip
      mem gClass gChunks) :
    (blkAlloc mem (hdrp (nextBlkp mem block.payload)) ≠ 0 ∧
        ∀ next ∈ back.head?, next.allocated = true) ∨
      ∃ next late, back = next :: late ∧ nextBlkp mem block.payload = next.payload ∧
        next.allocated = false ∧ blkAlloc mem (hdrp (nextBlkp mem block.payload)) = 0 ∧
        block.payload + block.size = next.payload := by
  rcases nextTag consistent with ⟨rfl, tag⟩ | ⟨next, late, rfl, isNext, tag, touching⟩
  · exact .inl ⟨by simp [tag], by simp⟩
  · cases isAllocated : next.allocated with
    | true => exact .inl ⟨by simp [tag, isAllocated], by simp [isAllocated]⟩
    | false => exact .inr ⟨next, late, rfl, isNext, isAllocated, by simp [tag, isAllocated], touching⟩

/-! ## Merging -/

/-- The pieces of memory obtained from the system. -/
def spans (regions : List Region) : List (Nat × Nat) :=
  regions.map fun region => (region.base, region.total)

theorem spans_focus {blocks blocks' : List Block} :
    spans (before ++ ⟨base, total, blocks⟩ :: after) =
      spans (before ++ ⟨base, total, blocks'⟩ :: after) := by
  simp [spans]

/-- A stretch of free blocks, none of them on a list, becomes one block. -/
theorem Consistent.fuse {mid : List Block} {merged : Block}
    (consistent : Consistent (before ++ ⟨base, total, front ++ mid ++ back⟩ :: after) lists skip
      mem gClass gChunks)
    (nonempty : mid ≠ []) (isFree : merged.allocated = false)
    (spansMid : ∀ start stop, Tiles start mid stop →
      merged.payload = start + 8 ∧ start + merged.size = stop)
    (midFree : ∀ block ∈ mid, block.allocated = false)
    (isSkip : skip.Perm (mid.map Block.payload)) :
    Consistent (before ++ ⟨base, total, front ++ [merged] ++ back⟩ :: after) lists [merged.payload]
        (writeTags mem merged) gClass gChunks ∧
      Keeps (before ++ ⟨base, total, front ++ mid ++ back⟩ :: after) mem
        (before ++ ⟨base, total, front ++ [merged] ++ back⟩ :: after) (writeTags mem merged) := by
  have layout := consistent.layout
  obtain ⟨start, stop, onFront, onMid, onBack⟩ := layout.focus_tiles
  obtain ⟨isPayload, isStop⟩ := spansMid start stop onMid
  obtain ⟨some, others, rfl⟩ := List.exists_cons_of_ne_nil nonempty
  have member : some ∈ allBlocks (before ++ ⟨base, total, front ++ some :: others ++ back⟩ :: after) :=
    mem_allBlocks_focus.mpr (.inl List.mem_cons_self)
  have minimum := (layout.sized member).minimum
  have spec := layout.payload_spec member
  have isFirst : some.payload = start + 8 := onMid.1
  have rest := onMid.2.le
  have shaped := layout.focus
  have bounded : base + total ≤ 2 ^ 64 := shaped.bounded
  have room : 64 ≤ total := shaped.room
  have upper := onBack.le
  have alignedStop := (onMid.aligned (by omega) fun block inMid =>
    layout.sized (mem_allBlocks_focus.mpr (.inl inMid))).2
  have placed : merged.Placed := ⟨⟨by omega, by omega⟩, by omega, by omega⟩
  have outside : ∀ a, a < start ∨ stop ≤ a → writeTags mem merged a = mem a :=
    fun a away => writeTags_outside placed (by omega)
  constructor
  · refine consistent.replace onFront onMid onBack ⟨isPayload, isStop⟩ ?_ outside ?_ ?_ ?_ ?_
    · intro block inNew
      obtain rfl := List.mem_singleton.mp inNew
      exact placed.toSized
    · intro block inNew
      obtain rfl := List.mem_singleton.mp inNew
      exact writeTags_tagged placed
    · intro block inMid _
      exact isSkip.mem_iff.mpr (List.mem_map_of_mem inMid)
    · intro block inNew _
      obtain rfl := List.mem_singleton.mp inNew
      exact List.mem_singleton_self _
    · intro n away
      constructor
      · intro isMerged
        have atMerged := List.mem_singleton.mp isMerged
        omega
      · intro isSkipped
        obtain ⟨block, inMid, rfl⟩ := List.mem_map.mp (isSkip.mem_iff.mp isSkipped)
        have inside := onMid.bounds block inMid
        have size := (layout.sized (mem_allBlocks_focus.mpr (.inl inMid))).minimum
        omega
  · constructor
    · intro block isAllocated
      rw [mem_allBlocks_focus, mem_allBlocks_focus]
      constructor
      · rintro (inNew | elsewhere)
        · obtain rfl := List.mem_singleton.mp inNew
          simp [isFree] at isAllocated
        · exact .inr elsewhere
      · rintro (inMid | elsewhere)
        · simp [midFree block inMid] at isAllocated
        · exact .inr elsewhere
    · rintro a ⟨block, isBlock, isAllocated, low, high⟩
      apply outside
      rcases mem_allBlocks_focus.mp isBlock with inMid | away
      · simp [midFree block inMid] at isAllocated
      · have apart := layout.elsewhere onFront onMid onBack block away
        unfold Elsewhere at apart
        omega

end Focus

/-! ## `absorb` and `coalesce` -/

theorem absorb_spec {regions : List Region} {lists : Nat → List Nat} {skip : List Nat} {heap : Heap}
    {nb : Block} (consistent : Consistent regions lists skip heap.mem heap.gClass heap.gChunks)
    (member : nb ∈ allBlocks regions) (isFree : nb.allocated = false)
    (notSkipped : nb.payload ∉ skip) :
    ∃ lists', Consistent regions lists' (nb.payload :: skip) (absorb heap nb.payload).mem
        (absorb heap nb.payload).gClass (absorb heap nb.payload).gChunks ∧
      Keeps regions heap.mem regions (absorb heap nb.payload).mem := by
  obtain ⟨lists', removed, keeps⟩ := consistent.remove member isFree notSkipped
  refine ⟨lists', ?_, ?_⟩
  · simp only [absorb, consistent.sizeAt member]
    rw [listRemove_eq] at removed ⊢
    exact removed
  · simpa only [absorb, consistent.sizeAt member] using keeps

theorem absorb_mapped (heap : Heap) (nb : Nat) : (absorb heap nb).mapped = heap.mapped := by
  simp only [absorb, listRemove_eq]

theorem absorb_gStats (heap : Heap) (nb : Nat) :
    (absorb heap nb).gStats = heap.gStats.loseFree (blkSize heap.mem (hdrp nb)) := by
  simp only [absorb, listRemove_eq, Stats.loseFree]

/-- The heap after a free block has been merged with its free neighbours: one
free block is left that is on no list, and it has no free neighbour. -/
structure Coalesced (regions : List Region) (heap : Heap) (regions' : List Region) (heap' : Heap)
    (merged : Block) : Prop where
  consistent : ∃ lists', Consistent regions' lists' [merged.payload] heap'.mem heap'.gClass
    heap'.gChunks
  separated : AllSeparated regions'
  member : merged ∈ allBlocks regions'
  isFree : merged.allocated = false
  keeps : Keeps regions heap.mem regions' heap'.mem
  spans : spans regions' = spans regions
  mapped : heap'.mapped = heap.mapped

theorem Coalesced.after {regions regions' : List Region} {heap heap₁ heap' : Heap} {merged : Block}
    (keeps : Keeps regions heap.mem regions heap₁.mem) (mapped : heap₁.mapped = heap.mapped)
    (coalesced : Coalesced regions heap₁ regions' heap' merged) :
    Coalesced regions heap regions' heap' merged where
  consistent := coalesced.consistent
  separated := coalesced.separated
  member := coalesced.member
  isFree := coalesced.isFree
  keeps := keeps.trans coalesced.keeps
  spans := coalesced.spans
  mapped := coalesced.mapped.trans mapped

section Coalesce

variable {before after : List Region} {base total : Nat} {front mid back : List Block}
  {block : Block} {lists : Nat → List Nat} {skip : List Nat} {heap : Heap}

theorem allSeparated_focus (onOthers : AllSeparated (before ++ after)) {blocks : List Block}
    (separated : Separated blocks) : AllSeparated (before ++ ⟨base, total, blocks⟩ :: after) := by
  intro region isRegion
  rcases List.mem_append.mp isRegion with inBefore | inRest
  · exact onOthers region (List.mem_append_left _ inBefore)
  · rcases List.mem_cons.mp inRest with rfl | inAfter
    · exact separated
    · exact onOthers region (List.mem_append_right _ inAfter)

/-- The last step of every merge. -/
theorem Consistent.coalesced (merged : Block)
    (consistent : Consistent (before ++ ⟨base, total, front ++ mid ++ back⟩ :: after) lists skip
      heap.mem heap.gClass heap.gChunks)
    (nonempty : mid ≠ []) (isFree : merged.allocated = false)
    (spansMid : ∀ start stop, Tiles start mid stop →
      merged.payload = start + 8 ∧ start + merged.size = stop)
    (midFree : ∀ block ∈ mid, block.allocated = false)
    (isSkip : skip.Perm (mid.map Block.payload))
    (onFront : Separated front) (onBack : Separated back)
    (left : ∀ prev ∈ front.getLast?, prev.allocated = true)
    (right : ∀ next ∈ back.head?, next.allocated = true)
    (onOthers : AllSeparated (before ++ after)) :
    Coalesced (before ++ ⟨base, total, front ++ mid ++ back⟩ :: after) heap
      (before ++ ⟨base, total, front ++ [merged] ++ back⟩ :: after)
      { heap with mem := writeTags heap.mem merged } merged := by
  obtain ⟨fused, keeps⟩ := consistent.fuse nonempty isFree spansMid midFree isSkip
  exact
    { consistent := ⟨lists, fused⟩
      separated := allSeparated_focus onOthers (separated_around onFront onBack left right)
      member := mem_allBlocks_focus.mpr (.inl (List.mem_singleton_self _))
      isFree := isFree
      keeps := keeps
      spans := spans_focus
      mapped := rfl }

/-- The merged block can take tags. -/
theorem Consistent.placed_merged {first : Block} {size : Nat}
    (consistent : Consistent (before ++ ⟨base, total, front ++ first :: mid ++ back⟩ :: after) lists
      skip heap.mem heap.gClass heap.gChunks)
    (spansMid : ∀ start stop, Tiles start (first :: mid) stop → start + size = stop)
    (aligned : 16 ∣ size) :
    Block.Placed ⟨first.payload, size, false⟩ ∧ first.payload + size < 2 ^ 64 + 8 := by
  have layout := consistent.layout
  obtain ⟨start, stop, onFront, onMid, onBack⟩ := layout.focus_tiles
  have isStop := spansMid start stop onMid
  have member : first ∈ allBlocks
      (before ++ ⟨base, total, front ++ first :: mid ++ back⟩ :: after) :=
    mem_allBlocks_focus.mpr (.inl List.mem_cons_self)
  have minimum := (layout.sized member).minimum
  have spec := layout.payload_spec member
  have isFirst : first.payload = start + 8 := onMid.1
  have rest := onMid.2.le
  have bounded : base + total ≤ 2 ^ 64 := layout.focus.bounded
  have room : 64 ≤ total := layout.focus.room
  have upper := onBack.le
  exact ⟨⟨⟨by simp only; omega, aligned⟩, by simp only; omega, by simp only; omega⟩, by omega⟩

theorem coalesce_next {next : Block} {late : List Block}
    (consistent : Consistent (before ++ ⟨base, total, front ++ [block] ++ next :: late⟩ :: after)
      lists [block.payload] heap.mem heap.gClass heap.gChunks)
    (isFree : block.allocated = false) (nextFree : next.allocated = false)
    (onFront : Separated front) (onBack : Separated (next :: late))
    (onOthers : AllSeparated (before ++ after))
    (prevTaken : blkAlloc heap.mem (ftrp heap.mem (prevBlkp heap.mem block.payload)) ≠ 0)
    (left : ∀ prev ∈ front.getLast?, prev.allocated = true)
    (nextIs : nextBlkp heap.mem block.payload = next.payload)
    (nextTag : blkAlloc heap.mem (hdrp (nextBlkp heap.mem block.payload)) = 0)
    (touching : block.payload + block.size = next.payload) :
    ∃ heap' merged regions', coalesce heap block.payload = (heap', merged.payload) ∧
      Coalesced (before ++ ⟨base, total, front ++ [block] ++ next :: late⟩ :: after) heap regions'
        heap' merged ∧
      (Accounts (before ++ ⟨base, total, front ++ [block] ++ next :: late⟩ :: after)
        (heap.gStats.gainFree block.size) →
          Accounts regions' (heap'.gStats.gainFree merged.size)) := by
  have layout := consistent.layout
  obtain ⟨onLate, right⟩ := separated_right onBack nextFree
  have member : block ∈ allBlocks (before ++ ⟨base, total, front ++ [block] ++ next :: late⟩ :: after) :=
    mem_allBlocks_focus.mpr (.inl (by simp))
  have nextMember : next ∈ allBlocks
      (before ++ ⟨base, total, front ++ [block] ++ next :: late⟩ :: after) :=
    mem_allBlocks_focus.mpr (.inr (by simp))
  have sized := layout.sized member
  have minimum := sized.minimum
  have nextSized := layout.sized nextMember
  have different : next.payload ≠ block.payload := by omega
  obtain ⟨lists', absorbed, keeps⟩ := absorb_spec consistent nextMember nextFree (by simpa using different)
  have nextSize := absorbed.sizeAt nextMember
  have joined : front ++ [block] ++ next :: late = front ++ [block, next] ++ late := by simp
  rw [joined] at absorbed keeps ⊢
  have spansMid : ∀ start stop, Tiles start [block, next] stop →
      block.payload = start + 8 ∧ start + (block.size + next.size) = stop := by
    intro start stop onMid
    obtain ⟨isBlock, isNext, isStop⟩ := onMid
    exact ⟨isBlock, by rw [← isStop, Nat.add_assoc]⟩
  obtain ⟨placed, bound⟩ := absorbed.placed_merged (fun start stop onMid => (spansMid start stop onMid).2)
    (Nat.dvd_add sized.aligned nextSized.aligned)
  have sum : add block.size next.size = block.size + next.size := by
    have spec := layout.payload_spec member
    exact add_of_lt (by omega)
  have done := absorbed.coalesced ⟨block.payload, block.size + next.size, false⟩ (by simp) rfl
    spansMid (by simp [isFree, nextFree]) (List.Perm.swap _ _ _) onFront onLate left right onOthers
  refine ⟨_, ⟨block.payload, block.size + next.size, false⟩, _, ?_,
    done.after keeps (absorb_mapped _ _), fun accounts => ?_⟩
  · simp only [coalesce]
    rw [if_neg fun taken => taken.2 nextTag, if_pos ⟨prevTaken, nextTag⟩, nextIs,
      consistent.sizeAt member, nextSize, sum]
    exact congrArg (fun mem => ({ absorb heap next.payload with mem }, block.payload))
      (retag_eq _ placed rfl rfl)
  · have spec := layout.payload_spec member
    dsimp only
    rw [absorb_gStats, consistent.sizeAt nextMember]
    exact accounts.join _ (.inl rfl) isFree nextFree rfl minimum nextSized.minimum (by omega) rfl

theorem coalesce_prev {early : List Block} {prev : Block}
    (consistent : Consistent (before ++ ⟨base, total, early ++ [prev] ++ [block] ++ back⟩ :: after)
      lists [block.payload] heap.mem heap.gClass heap.gChunks)
    (isFree : block.allocated = false) (prevFree : prev.allocated = false)
    (onFront : Separated (early ++ [prev])) (onBack : Separated back)
    (onOthers : AllSeparated (before ++ after))
    (nextTaken : blkAlloc heap.mem (hdrp (nextBlkp heap.mem block.payload)) ≠ 0)
    (right : ∀ next ∈ back.head?, next.allocated = true)
    (prevIs : prevBlkp heap.mem block.payload = prev.payload)
    (prevTag : blkAlloc heap.mem (ftrp heap.mem (prevBlkp heap.mem block.payload)) = 0)
    (touching : prev.payload + prev.size = block.payload) :
    ∃ heap' merged regions', coalesce heap block.payload = (heap', merged.payload) ∧
      Coalesced (before ++ ⟨base, total, early ++ [prev] ++ [block] ++ back⟩ :: after) heap regions'
        heap' merged ∧
      (Accounts (before ++ ⟨base, total, early ++ [prev] ++ [block] ++ back⟩ :: after)
        (heap.gStats.gainFree block.size) →
          Accounts regions' (heap'.gStats.gainFree merged.size)) := by
  have layout := consistent.layout
  obtain ⟨onEarly, left⟩ := separated_left onFront prevFree
  have member : block ∈ allBlocks
      (before ++ ⟨base, total, early ++ [prev] ++ [block] ++ back⟩ :: after) :=
    mem_allBlocks_focus.mpr (.inl (by simp))
  have prevMember : prev ∈ allBlocks
      (before ++ ⟨base, total, early ++ [prev] ++ [block] ++ back⟩ :: after) :=
    mem_allBlocks_focus.mpr (.inr (by simp))
  have sized := layout.sized member
  have prevSized := layout.sized prevMember
  have minimum := prevSized.minimum
  have different : prev.payload ≠ block.payload := by omega
  obtain ⟨lists', absorbed, keeps⟩ := absorb_spec consistent prevMember prevFree (by simpa using different)
  have prevSize := absorbed.sizeAt prevMember
  have footer : ftrp (absorb heap prev.payload).mem block.payload =
      Block.footer ⟨prev.payload, block.size + prev.size, false⟩ := by
    rw [ftrp, absorbed.sizeAt member]
    simp only [Block.footer, DSIZE]
    omega
  have joined : early ++ [prev] ++ [block] ++ back = early ++ [prev, block] ++ back := by simp
  rw [joined] at absorbed keeps ⊢
  have spansMid : ∀ start stop, Tiles start [prev, block] stop →
      prev.payload = start + 8 ∧ start + (block.size + prev.size) = stop := by
    intro start stop onMid
    obtain ⟨isPrev, isBlock, isStop⟩ := onMid
    exact ⟨isPrev, by rw [← isStop]; omega⟩
  obtain ⟨placed, bound⟩ := absorbed.placed_merged (fun start stop onMid => (spansMid start stop onMid).2)
    (Nat.dvd_add sized.aligned prevSized.aligned)
  have sum : add block.size prev.size = block.size + prev.size := by
    have spec := layout.payload_spec prevMember
    exact add_of_lt (by omega)
  have done := absorbed.coalesced ⟨prev.payload, block.size + prev.size, false⟩ (by simp) rfl
    spansMid (by simp [isFree, prevFree]) (List.Perm.refl _) onEarly onBack left right onOthers
  refine ⟨_, ⟨prev.payload, block.size + prev.size, false⟩, _, ?_,
    done.after keeps (absorb_mapped _ _), fun accounts => ?_⟩
  · simp only [coalesce]
    rw [if_neg fun taken => taken.1 prevTag, if_neg fun taken => taken.1 prevTag,
      if_pos ⟨prevTag, nextTaken⟩, prevIs, consistent.sizeAt member, prevSize, sum, footer]
    exact congrArg (fun mem => ({ absorb heap prev.payload with mem }, prev.payload))
      (writeTags_swap placed)
  · have spec := layout.payload_spec prevMember
    dsimp only
    rw [absorb_gStats, consistent.sizeAt prevMember]
    exact accounts.join _ (.inr rfl) isFree prevFree rfl sized.minimum minimum (by omega) rfl

theorem coalesce_both {early late : List Block} {prev next : Block}
    (consistent : Consistent
      (before ++ ⟨base, total, early ++ [prev] ++ [block] ++ next :: late⟩ :: after) lists
      [block.payload] heap.mem heap.gClass heap.gChunks)
    (isFree : block.allocated = false) (prevFree : prev.allocated = false)
    (nextFree : next.allocated = false) (onFront : Separated (early ++ [prev]))
    (onBack : Separated (next :: late)) (onOthers : AllSeparated (before ++ after))
    (prevIs : prevBlkp heap.mem block.payload = prev.payload)
    (prevTag : blkAlloc heap.mem (ftrp heap.mem (prevBlkp heap.mem block.payload)) = 0)
    (nextIs : nextBlkp heap.mem block.payload = next.payload)
    (nextTag : blkAlloc heap.mem (hdrp (nextBlkp heap.mem block.payload)) = 0)
    (touchPrev : prev.payload + prev.size = block.payload)
    (touchNext : block.payload + block.size = next.payload) :
    ∃ heap' merged regions', coalesce heap block.payload = (heap', merged.payload) ∧
      Coalesced (before ++ ⟨base, total, early ++ [prev] ++ [block] ++ next :: late⟩ :: after) heap
        regions' heap' merged ∧
      (Accounts (before ++ ⟨base, total, early ++ [prev] ++ [block] ++ next :: late⟩ :: after)
        (heap.gStats.gainFree block.size) →
          Accounts regions' (heap'.gStats.gainFree merged.size)) := by
  have layout := consistent.layout
  obtain ⟨onEarly, left⟩ := separated_left onFront prevFree
  obtain ⟨onLate, right⟩ := separated_right onBack nextFree
  have member : block ∈ allBlocks
      (before ++ ⟨base, total, early ++ [prev] ++ [block] ++ next :: late⟩ :: after) :=
    mem_allBlocks_focus.mpr (.inl (by simp))
  have prevMember : prev ∈ allBlocks
      (before ++ ⟨base, total, early ++ [prev] ++ [block] ++ next :: late⟩ :: after) :=
    mem_allBlocks_focus.mpr (.inr (by simp))
  have nextMember : next ∈ allBlocks
      (before ++ ⟨base, total, early ++ [prev] ++ [block] ++ next :: late⟩ :: after) :=
    mem_allBlocks_focus.mpr (.inr (by simp))
  have sized := layout.sized member
  have prevSized := layout.sized prevMember
  have nextSized := layout.sized nextMember
  have minimum := sized.minimum
  have prevMinimum := prevSized.minimum
  have nextMinimum := nextSized.minimum
  have prevSpec := layout.payload_spec prevMember
  have different : prev.payload ≠ block.payload := by omega
  obtain ⟨lists', absorbed, keeps⟩ := absorb_spec consistent prevMember prevFree (by simpa using different)
  have notPrev : next.payload ≠ prev.payload := by omega
  have notBlock : next.payload ≠ block.payload := by omega
  obtain ⟨lists'', absorbed', keeps'⟩ := absorb_spec absorbed nextMember nextFree
    (by simpa using ⟨notPrev, notBlock⟩)
  have prevSize := absorbed'.sizeAt prevMember
  have nextSize := absorbed'.sizeAt nextMember
  have absorbedNextSize := absorbed.sizeAt nextMember
  have footer : ∀ value, ftrp ((absorb (absorb heap prev.payload) next.payload).mem.store64
      (hdrp prev.payload) value) next.payload =
        Block.footer ⟨prev.payload, block.size + (prev.size + next.size), false⟩ := by
    intro value
    have kept : blkSize ((absorb (absorb heap prev.payload) next.payload).mem.store64
        (hdrp prev.payload) value) (hdrp next.payload) = next.size := by
      rw [blkSize, Memory.load64_store64_disjoint _ _ (by unfold hdrp WSIZE; omega)]
      exact nextSize
    rw [ftrp, kept]
    simp only [Block.footer, DSIZE]
    omega
  have joined : early ++ [prev] ++ [block] ++ next :: late = early ++ [prev, block, next] ++ late := by
    simp
  rw [joined] at absorbed' keeps keeps' ⊢
  have spansMid : ∀ start stop, Tiles start [prev, block, next] stop →
      prev.payload = start + 8 ∧ start + (block.size + (prev.size + next.size)) = stop := by
    intro start stop onMid
    obtain ⟨isPrev, isBlock, isNext, isStop⟩ := onMid
    exact ⟨isPrev, by rw [← isStop]; omega⟩
  obtain ⟨placed, bound⟩ := absorbed'.placed_merged
    (fun start stop onMid => (spansMid start stop onMid).2)
    (Nat.dvd_add sized.aligned (Nat.dvd_add prevSized.aligned nextSized.aligned))
  have inner : add prev.size next.size = prev.size + next.size := add_of_lt (by omega)
  have sum : add block.size (prev.size + next.size) = block.size + (prev.size + next.size) :=
    add_of_lt (by omega)
  have isSkip : [next.payload, prev.payload, block.payload].Perm
      ([prev, block, next].map Block.payload) :=
    (List.perm_append_singleton next.payload [prev.payload, block.payload]).symm
  have done := absorbed'.coalesced ⟨prev.payload, block.size + (prev.size + next.size), false⟩
    (by simp) rfl spansMid (by simp [isFree, prevFree, nextFree]) isSkip onEarly onLate left right
    onOthers
  refine ⟨_, ⟨prev.payload, block.size + (prev.size + next.size), false⟩, _, ?_,
    (done.after keeps' (absorb_mapped _ _)).after keeps (absorb_mapped _ _), fun accounts => ?_⟩
  · simp only [coalesce]
    rw [if_neg fun taken => taken.1 prevTag, if_neg fun taken => taken.1 prevTag,
      if_neg fun taken => taken.2 nextTag, prevIs, nextIs, consistent.sizeAt member, prevSize,
      nextSize, inner, sum, footer]
    rfl
  · dsimp only
    rw [absorb_gStats, absorb_gStats, consistent.sizeAt prevMember, absorbedNextSize]
    have joinedPrev : early ++ [prev, block, next] ++ late =
        early ++ [prev, block] ++ (next :: late) := by simp
    rw [joinedPrev] at accounts
    obtain ⟨pair, isPair⟩ : ∃ pair : Block, pair = ⟨prev.payload, block.size + prev.size, false⟩ :=
      ⟨_, rfl⟩
    have pairSize : pair.size = block.size + prev.size := by rw [isPair]
    have pairFree : pair.allocated = false := by rw [isPair]
    have first := accounts.join pair (.inr rfl) isFree prevFree pairFree minimum
      prevMinimum (by omega) pairSize
    have joinedNext : early ++ [pair] ++ next :: late = early ++ [pair, next] ++ late := by simp
    rw [joinedNext] at first
    exact first.join _ (.inl rfl) pairFree nextFree rfl (by omega) nextMinimum (by omega)
      (by simp only; omega)

theorem coalesce_spec
    (consistent : Consistent (before ++ ⟨base, total, front ++ [block] ++ back⟩ :: after) lists
      [block.payload] heap.mem heap.gClass heap.gChunks)
    (isFree : block.allocated = false) (onFront : Separated front) (onBack : Separated back)
    (onOthers : AllSeparated (before ++ after)) :
    ∃ heap' merged regions', coalesce heap block.payload = (heap', merged.payload) ∧
      Coalesced (before ++ ⟨base, total, front ++ [block] ++ back⟩ :: after) heap regions' heap'
        merged ∧
      (Accounts (before ++ ⟨base, total, front ++ [block] ++ back⟩ :: after)
        (heap.gStats.gainFree block.size) →
          Accounts regions' (heap'.gStats.gainFree merged.size)) := by
  rcases prevCases consistent with
    ⟨prevTaken, left⟩ | ⟨early, prev, rfl, prevIs, prevFree, prevTag, touchPrev⟩
  · rcases nextCases consistent with
      ⟨nextTaken, right⟩ | ⟨next, late, rfl, nextIs, nextFree, nextTag, touchNext⟩
    · refine ⟨heap, block, _, by simp [coalesce, prevTaken, nextTaken], ⟨⟨lists, consistent⟩, ?_,
        mem_allBlocks_focus.mpr (.inl (by simp)), isFree, Keeps.refl _ _, rfl, rfl⟩, id⟩
      exact allSeparated_focus onOthers (separated_around onFront onBack left right)
    · exact coalesce_next consistent isFree nextFree onFront onBack onOthers prevTaken left nextIs
        nextTag touchNext
  · rcases nextCases consistent with
      ⟨nextTaken, right⟩ | ⟨next, late, rfl, nextIs, nextFree, nextTag, touchNext⟩
    · exact coalesce_prev consistent isFree prevFree onFront onBack onOthers nextTaken right prevIs
        prevTag touchPrev
    · exact coalesce_both consistent isFree prevFree nextFree onFront onBack onOthers prevIs prevTag
        nextIs nextTag touchPrev touchNext

end Coalesce

end FoundationsLab.Balloc
