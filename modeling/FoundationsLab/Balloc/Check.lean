import FoundationsLab.Balloc.Requests

/-! # The checker

`ballocCheck` walks over every chunk and every free list. On a heap at rest each
walk comes to its end and finds nothing to report. -/

namespace FoundationsLab.Balloc

open Foundation
open Foundation.Word64
open Foundation.DoublyLinked

/-! ## Walks along the free lists -/

theorem onList_eq {mem : Memory} (bp : Nat) : ∀ {fuel prev : Nat} {nodes : List Nat},
    Segment mem prev nodes 0 → (∀ n ∈ nodes, n ≠ 0) → nodes.length < fuel →
    onList mem bp fuel (nodes.headD 0) = some (decide (bp ∈ nodes))
  | 0, _, _, _, _, enough => absurd enough (Nat.not_lt_zero _)
  | fuel + 1, _, [], _, _, _ => by simp [onList]
  | fuel + 1, _, m :: nodes, segment, nonzero, enough => by
      have later := onList_eq bp segment.2.2 (fun n member => nonzero n (List.mem_cons_of_mem _ member))
        (by simpa using enough : nodes.length < fuel)
      have isNode : m ≠ 0 := nonzero m List.mem_cons_self
      rw [List.headD_cons, onList, if_neg isNode, nodeNext, segment.1, later]
      by_cases found : m = bp
      · simp [found]
      · simp [found, Ne.symm found]

theorem checkList_eq_zero {mem : Memory} : ∀ {fuel prev : Nat} {nodes : List Nat},
    Segment mem prev nodes 0 → (∀ n ∈ nodes, blkAlloc mem (hdrp n) = 0) → nodes.length < fuel →
    checkList mem fuel (nodes.headD 0) = some 0
  | 0, _, _, _, _, enough => absurd enough (Nat.not_lt_zero _)
  | fuel + 1, _, [], _, _, _ => rfl
  | fuel + 1, _, m :: nodes, segment, free, enough => by
      have later := checkList_eq_zero segment.2.2
        (fun n member => free n (List.mem_cons_of_mem _ member))
        (by simpa using enough : nodes.length < fuel)
      have isFree := free m List.mem_cons_self
      rw [List.headD_cons, checkList, nodeNext, segment.1, later]
      simp [isFree]

section Walks

variable {regions : List Region} {lists : Nat → List Nat} {heap : Heap} {fuel : Nat}

theorem onFreeListFrom_eq
    (consistent : Consistent regions lists [] heap.mem heap.gClass heap.gChunks)
    (enough : Enough lists fuel) {bp class' : Nat} (listed : bp ∈ lists class') :
    ∀ {rest c : Nat}, c ≤ class' → class' < c + rest → c + rest ≤ NCLASS →
      onFreeListFrom fuel heap bp rest c = some true
  | 0, c, lower, upper, _ => absurd upper (by omega)
  | rest + 1, c, lower, upper, inside => by
      have walked := onList_eq bp (consistent.linked c) (consistent.cells c).nonzero
        (enough c (by omega))
      rw [onFreeListFrom, consistent.heads, walked]
      by_cases here : bp ∈ lists c
      · simp [here]
      · have later : c ≠ class' := fun equal => here (equal ▸ listed)
        have found := onFreeListFrom_eq consistent enough listed
          (by omega : c + 1 ≤ class') (by omega : class' < c + 1 + rest) (by omega)
        simpa [here] using found

theorem onFreeList_free
    (consistent : Consistent regions lists [] heap.mem heap.gClass heap.gChunks)
    (enough : Enough lists fuel) {block : Block} (member : block ∈ allBlocks regions)
    (isFree : block.allocated = false) : onFreeList fuel heap block.payload = some true := by
  have listed : block.payload ∈ lists (sizeClass block.size) :=
    (consistent.listed _ _).mpr ⟨List.not_mem_nil, block, member, isFree, rfl, rfl⟩
  have bound := sizeClass_lt block.size
  exact onFreeListFrom_eq consistent enough listed (Nat.zero_le _) (by omega) (by omega)

theorem checkListsFrom_eq_zero
    (consistent : Consistent regions lists [] heap.mem heap.gClass heap.gChunks)
    (enough : Enough lists fuel) : ∀ {rest c : Nat}, c + rest ≤ NCLASS →
      checkListsFrom fuel heap rest c = some 0
  | 0, _, _ => rfl
  | rest + 1, c, inside => by
      have free : ∀ n ∈ lists c, blkAlloc heap.mem (hdrp n) = 0 := by
        intro n member
        obtain ⟨block, isBlock, isFree, rfl, -⟩ := consistent.block_of_member member
        rw [consistent.allocAt isBlock, isFree]
        rfl
      have walked := checkList_eq_zero (consistent.linked c) free (enough c (by omega))
      have later := checkListsFrom_eq_zero consistent enough (by omega : c + 1 + rest ≤ NCLASS)
      rw [checkListsFrom, consistent.heads, walked]
      exact later

/-! ## Walks over the blocks -/

/-- The walk over the blocks that remain of a chunk, behind an allocated block or
before an allocated one. -/
theorem checkBlocks_eq_zero {region : Region}
    (consistent : Consistent regions lists [] heap.mem heap.gClass heap.gChunks)
    (enough : Enough lists fuel) (isRegion : region ∈ regions) (blocks : List Block) :
    ∀ (start prev blockFuel : Nat), Tiles start blocks region.epilogue →
      (∀ block ∈ blocks, block ∈ region.blocks) → Separated blocks →
      (∀ first ∈ blocks.head?, first.allocated = false →
        prev = 0 ∨ blkAlloc heap.mem (hdrp prev) ≠ 0) → blocks.length < blockFuel →
      checkBlocks fuel heap blockFuel (start + 8) prev = some 0 := by
  induction blocks with
  | nil =>
      intro start prev blockFuel tiles _ _ _ room
      obtain ⟨blockFuel, rfl⟩ : ∃ less, blockFuel = less + 1 := ⟨blockFuel - 1, by simp at room; omega⟩
      obtain rfl : start = region.epilogue := tiles
      have atEnd : blkSize heap.mem (hdrp (region.epilogue + 8)) = 0 :=
        blkSize_of_load (by decide) (le_refl 1) (consistent.tagged region isRegion).epilogue
      rw [checkBlocks, if_pos atEnd]
  | cons block blocks induction =>
      intro start prev blockFuel tiles inRegion separated behind room
      obtain ⟨blockFuel, rfl⟩ : ∃ less, blockFuel = less + 1 := ⟨blockFuel - 1, by simp at room; omega⟩
      have member : block ∈ allBlocks regions :=
        mem_allBlocks.mpr ⟨region, isRegion, inRegion block List.mem_cons_self⟩
      have isPayload : block.payload = start + 8 := tiles.1
      have minimum := (consistent.layout.sized member).minimum
      have size := consistent.sizeAt member
      have alloc := consistent.allocAt member
      have tags := consistent.blockTagged member
      have spec := consistent.layout.payload_spec member
      have aligned : block.payload % DSIZE = 0 := Nat.mod_eq_zero_of_dvd spec.1
      have sameTags : heap.mem.load64 (hdrp block.payload) =
          heap.mem.load64 (ftrp heap.mem block.payload) := by
        rw [ftrp, size]
        exact tags.header.trans tags.footer.symm
      have next : nextBlkp heap.mem block.payload = start + block.size + 8 := by
        rw [nextBlkp, size]
        omega
      have chain := List.isChain_cons.mp separated
      have continued := induction (start + block.size) block.payload blockFuel tiles.2
        (fun other later => inRegion other (List.mem_cons_of_mem _ later)) chain.2
        (fun first isFirst firstFree => by
          rw [alloc]
          rcases chain.1 first isFirst with isAllocated | isAllocated
          · exact .inr (by simp [isAllocated])
          · simp [firstFree] at isAllocated)
        (by simpa using room)
      rw [← isPayload, checkBlocks, next, continued, if_neg (by omega), if_neg (by omega),
        if_neg (by simpa using sameTags), if_neg (by rw [size, MIN_BLOCK]; omega), alloc]
      cases isAllocated : block.allocated with
      | true => rfl
      | false =>
          rw [onFreeList_free consistent enough member isAllocated]
          have apart : ¬(prev ≠ 0 ∧ blkAlloc heap.mem (hdrp prev) = 0) := by
            rintro ⟨isBlock, isFree⟩
            exact (behind block rfl isAllocated).elim isBlock (fun taken => taken isFree)
          simp [apart]

theorem firstPayload_eq {region : Region} (shaped : region.Shaped) :
    alignUp (region.base + sizeofChunk + WSIZE + WSIZE) DSIZE = region.start + 8 := by
  have aligned := shaped.aligned
  have bounded := shaped.bounded
  have room := shaped.room
  have isMultiple : 16 ∣ region.base + 32 := by omega
  have fits : region.base + 32 + 2 ^ 4 < 2 ^ 64 := by omega
  exact alignUp_of_dvd (k := 4) (by decide) isMultiple fits

theorem checkChunks_eq_zero
    (consistent : Consistent regions lists [] heap.mem heap.gClass heap.gChunks)
    (separated : AllSeparated regions) (enough : Enough lists fuel) :
    ∀ {chunkFuel ch : Nat} {rest : List Region}, Chunked heap.mem ch rest →
      (∀ region ∈ rest, region ∈ regions ∧ region.blocks.length < fuel) → rest.length < chunkFuel →
      checkChunks fuel heap chunkFuel ch = some 0
  | 0, _, _, _, _, room => absurd room (Nat.not_lt_zero _)
  | chunkFuel + 1, _, [], chunked, _, _ => by
      obtain rfl := chunked
      rfl
  | chunkFuel + 1, _, region :: rest, chunked, inRegions, room => by
      obtain ⟨rfl, -, chunked⟩ := chunked
      obtain ⟨isRegion, short⟩ := inRegions region List.mem_cons_self
      have shaped := consistent.layout.shaped region isRegion
      have nonzero := shaped.nonzero
      have walked := checkBlocks_eq_zero consistent enough isRegion region.blocks region.start 0 fuel
        shaped.tiles (fun _ member => member) (separated region isRegion)
        (fun _ _ _ => .inl rfl) short
      have later := checkChunks_eq_zero consistent separated enough chunked
        (fun other member => inRegions other (List.mem_cons_of_mem _ member))
        (by simpa using room : rest.length < chunkFuel)
      rw [checkChunks, if_neg (by omega)]
      simp only [firstPayload_eq shaped, walked, Option.bind_eq_bind, Option.bind_some, if_true]
      exact later

end Walks

/-- Fuel for the walk over the chunks and over the blocks of each chunk. -/
theorem exists_room (regions : List Region) : ∃ bound, ∀ fuel, bound ≤ fuel →
    regions.length < fuel ∧ ∀ region ∈ regions, region.blocks.length < fuel := by
  refine ⟨regions.length + (allBlocks regions).length + 1, fun fuel enough => ⟨by omega, ?_⟩⟩
  intro region isRegion
  have part : region.blocks.length ≤ (allBlocks regions).length :=
    (List.sublist_flatten_of_mem (List.mem_map_of_mem isRegion)).length_le
  omega

/-- The checker accepts every heap at rest. -/
theorem AtRest.ballocCheck {regions : List Region} {heap : Heap} (atRest : AtRest regions heap) :
    ∃ bound, ∀ fuel, bound ≤ fuel → ballocCheck fuel heap = some 0 := by
  obtain ⟨lists, consistent⟩ := atRest.consistent
  obtain ⟨bound, enough⟩ := exists_enough lists
  obtain ⟨bound', room⟩ := exists_room regions
  refine ⟨bound + bound', fun fuel large => ?_⟩
  have enough := enough fuel (by omega)
  obtain ⟨chunkRoom, blockRoom⟩ := room fuel (by omega)
  have chunks := checkChunks_eq_zero consistent atRest.separated enough consistent.chunked
    (fun region isRegion => ⟨isRegion, blockRoom region isRegion⟩) chunkRoom
  have freeLists := checkListsFrom_eq_zero consistent enough (Nat.le_of_eq (Nat.zero_add NCLASS))
  simp [Balloc.ballocCheck, chunks, freeLists]

end FoundationsLab.Balloc
