import FoundationsLab.Balloc.Coalesce

/-! # Placing, growing and freeing

The contracts of the internal operations between two states at rest. -/

namespace FoundationsLab.Balloc

open Foundation
open Foundation.Word64

/-- Between two calls every free block is on its list and has no free neighbour, and the
statistics are right. -/
structure AtRest (regions : List Region) (heap : Heap) : Prop where
  consistent : ∃ lists, Consistent regions lists [] heap.mem heap.gClass heap.gChunks
  separated : AllSeparated regions
  mapped : heap.mapped = spans regions
  accounts : Accounts regions heap.gStats

/-- One more block is allocated; all others and their payloads are as before. -/
structure Granted (regions : List Region) (mem : Memory) (regions' : List Region) (heap' : Heap)
    (taken : Block) : Prop where
  atRest : AtRest regions' heap'
  member : taken ∈ allBlocks regions'
  isAllocated : taken.allocated = true
  fresh : taken ∉ allBlocks regions
  blocks : ∀ block, block.allocated = true →
    (block ∈ allBlocks regions' ↔ block = taken ∨ block ∈ allBlocks regions)
  bytes : ∀ a, InPayload regions a → heap'.mem a = mem a

/-- One allocated block is given back; all others and their payloads are as before. -/
structure Released (regions : List Region) (mem : Memory) (regions' : List Region) (heap' : Heap)
    (released : Block) : Prop where
  atRest : AtRest regions' heap'
  blocks : ∀ block, block.allocated = true →
    (block ∈ allBlocks regions' ↔ block ∈ allBlocks regions ∧ block ≠ released)
  bytes : ∀ a, InPayload regions' a → heap'.mem a = mem a
  spans : spans regions' = spans regions

/-- Bring a block into focus. -/
theorem exists_focus {regions : List Region} {block : Block} (member : block ∈ allBlocks regions) :
    ∃ before base total front back after,
      regions = before ++ ⟨base, total, front ++ [block] ++ back⟩ :: after := by
  obtain ⟨⟨base, total, blocks⟩, isRegion, inRegion⟩ := mem_allBlocks.mp member
  obtain ⟨before, after, rfl⟩ := List.append_of_mem isRegion
  obtain ⟨front, back, isBlocks⟩ := List.append_of_mem inRegion
  refine ⟨before, base, total, front, back, after, ?_⟩
  simp only at isBlocks
  rw [isBlocks, List.append_assoc, List.singleton_append]

section Focus

variable {before after : List Region} {base total : Nat} {front mid back : List Block}
  {block : Block} {lists : Nat → List Nat} {heap : Heap}

theorem allSeparated_others {blocks : List Block}
    (separated : AllSeparated (before ++ ⟨base, total, blocks⟩ :: after)) :
    Separated blocks ∧ AllSeparated (before ++ after) := by
  refine ⟨separated ⟨base, total, blocks⟩ (by simp), fun region isRegion => separated region ?_⟩
  rcases List.mem_append.mp isRegion with inBefore | inAfter
  · exact List.mem_append_left _ inBefore
  · exact List.mem_append_right _ (List.mem_cons_of_mem _ inAfter)

theorem separated_parts (separated : Separated (front ++ [block] ++ back)) :
    Separated front ∧ Separated back ∧
      (block.allocated = false → (∀ prev ∈ front.getLast?, prev.allocated = true) ∧
        ∀ next ∈ back.head?, next.allocated = true) := by
  rw [Separated, List.append_assoc, List.singleton_append] at separated
  have parts := List.isChain_append.mp separated
  have tail := List.isChain_cons.mp parts.2.1
  refine ⟨parts.1, tail.2, fun isFree => ⟨fun prev isLast => ?_, fun next isHead => ?_⟩⟩
  · exact (parts.2.2 prev isLast block rfl).resolve_right (by simp [isFree])
  · exact (tail.1 next isHead).resolve_left (by simp [isFree])

/-! ## Placing -/

/-- Taking a free block that is on no list. -/
theorem Consistent.take {mem : Memory} {gClass : Nat → Nat} {gChunks : Nat}
    (taken : Block) (rest : List Block) (skip : List Nat) (mem' : Memory)
    (consistent : Consistent (before ++ ⟨base, total, front ++ [block] ++ back⟩ :: after) lists
      [block.payload] mem gClass gChunks)
    (isFree : block.allocated = false) (isTaken : taken.allocated = true)
    (restFree : ∀ other ∈ rest, other.allocated = false)
    (retiled : ∀ start stop, Tiles start [block] stop → Tiles start (taken :: rest) stop)
    (sized : ∀ other ∈ taken :: rest, other.Sized)
    (same : ∀ a, a + 8 < block.payload ∨ block.payload + block.size ≤ a + 8 → mem' a = mem a)
    (tagged : ∀ other ∈ taken :: rest, BlockTagged mem' other)
    (inSkip : ∀ n ∈ skip, ∃ other ∈ rest, other.payload = n)
    (skipped : ∀ other ∈ rest, other.payload ∈ skip) :
    Consistent (before ++ ⟨base, total, front ++ (taken :: rest) ++ back⟩ :: after) lists skip
        mem' gClass gChunks ∧
      (∀ other, other.allocated = true →
        (other ∈ allBlocks (before ++ ⟨base, total, front ++ (taken :: rest) ++ back⟩ :: after) ↔
          other = taken ∨
            other ∈ allBlocks (before ++ ⟨base, total, front ++ [block] ++ back⟩ :: after))) ∧
      ∀ a, InPayload (before ++ ⟨base, total, front ++ [block] ++ back⟩ :: after) a →
        mem' a = mem a := by
  have layout := consistent.layout
  obtain ⟨start, stop, onFront, onMid, onBack⟩ := layout.focus_tiles
  have onMid' := retiled start stop onMid
  have isPayload : block.payload = start + 8 := onMid.1
  have isStop : start + block.size = stop := onMid.2
  have elsewhere := layout.elsewhere onFront onMid onBack
  refine ⟨consistent.replace onFront onMid onBack onMid' sized (fun a away => same a (by omega))
    tagged ?_ ?_ ?_, ?_, ?_⟩
  · intro other inMid _
    obtain rfl := List.mem_singleton.mp inMid
    exact List.mem_singleton_self _
  · intro other inNew otherFree
    rcases List.mem_cons.mp inNew with rfl | inRest
    · simp [isTaken] at otherFree
    · exact skipped other inRest
  · intro n away
    constructor
    · intro isSkipped
      obtain ⟨other, inRest, rfl⟩ := inSkip n isSkipped
      have inside := onMid'.bounds other (List.mem_cons_of_mem _ inRest)
      have minimum := (sized other (List.mem_cons_of_mem _ inRest)).minimum
      omega
    · intro isBlock
      have minimum := (layout.sized (mem_allBlocks_focus.mpr (.inl (List.mem_singleton_self block)))).minimum
      have atBlock := List.mem_singleton.mp isBlock
      omega
  · intro other isAllocated
    rw [mem_allBlocks_focus, mem_allBlocks_focus]
    constructor
    · rintro (inNew | away)
      · rcases List.mem_cons.mp inNew with rfl | inRest
        · exact .inl rfl
        · simp [restFree other inRest] at isAllocated
      · exact .inr (.inr away)
    · rintro (rfl | inMid | away)
      · exact .inl List.mem_cons_self
      · obtain rfl := List.mem_singleton.mp inMid
        simp [isFree] at isAllocated
      · exact .inr away
  · rintro a ⟨other, isBlock, isAllocated, low, high⟩
    rcases mem_allBlocks_focus.mp isBlock with inMid | away
    · obtain rfl := List.mem_singleton.mp inMid
      simp [isFree] at isAllocated
    · have apart := elsewhere other away
      unfold Elsewhere at apart
      exact same a (by omega)

/-- What `place` writes when it splits a block. -/
theorem Consistent.split {mem : Memory} {gClass : Nat → Nat} {gChunks asize : Nat}
    (consistent : Consistent (before ++ ⟨base, total, front ++ [block] ++ back⟩ :: after) lists
      [block.payload] mem gClass gChunks)
    (isFree : block.allocated = false) (minimum : 32 ≤ asize) (aligned : 16 ∣ asize)
    (fits : asize + 32 ≤ block.size) {taken rest : Block}
    (isTaken : taken = ⟨block.payload, asize, true⟩)
    (isRest : rest = ⟨block.payload + asize, block.size - asize, false⟩) :
    taken.Placed ∧ rest.Placed ∧
      Consistent (before ++ ⟨base, total, front ++ [taken, rest] ++ back⟩ :: after) lists
        [rest.payload] (writeTags (writeTags mem taken) rest) gClass gChunks ∧
      (∀ other, other.allocated = true →
        (other ∈ allBlocks (before ++ ⟨base, total, front ++ [taken, rest] ++ back⟩ :: after) ↔
          other = taken ∨
            other ∈ allBlocks (before ++ ⟨base, total, front ++ [block] ++ back⟩ :: after))) ∧
      ∀ a, InPayload (before ++ ⟨base, total, front ++ [block] ++ back⟩ :: after) a →
        writeTags (writeTags mem taken) rest a = mem a := by
  have layout := consistent.layout
  have member : block ∈ allBlocks (before ++ ⟨base, total, front ++ [block] ++ back⟩ :: after) :=
    mem_allBlocks_focus.mpr (.inl (List.mem_singleton_self block))
  have blockAligned := (layout.sized member).aligned
  have spec := layout.payload_spec member
  have takenPayload : taken.payload = block.payload := by rw [isTaken]
  have takenSize : taken.size = asize := by rw [isTaken]
  have takenAllocated : taken.allocated = true := by rw [isTaken]
  have restPayload : rest.payload = block.payload + asize := by rw [isRest]
  have restSize : rest.size = block.size - asize := by rw [isRest]
  have restFree : rest.allocated = false := by rw [isRest]
  have takenPlaced : taken.Placed := ⟨⟨by omega, by omega⟩, by omega, by omega⟩
  have restPlaced : rest.Placed := ⟨⟨by omega, by omega⟩, by omega, by omega⟩
  have takenTagged : BlockTagged (writeTags mem taken) taken := writeTags_tagged takenPlaced
  have bothSized : ∀ other ∈ [taken, rest], other.Sized :=
    List.forall_mem_cons.mpr ⟨takenPlaced.toSized, by simpa using restPlaced.toSized⟩
  have bothTagged : ∀ other ∈ [taken, rest],
      BlockTagged (writeTags (writeTags mem taken) rest) other := by
    refine List.forall_mem_cons.mpr ⟨?_, by simpa using writeTags_tagged restPlaced⟩
    exact takenTagged.congr takenPlaced.toSized takenPlaced.positive
      fun a lower upper _ => writeTags_outside restPlaced (by omega)
  have outside : ∀ a, a + 8 < block.payload ∨ block.payload + block.size ≤ a + 8 →
      writeTags (writeTags mem taken) rest a = mem a := by
    intro a away
    exact (writeTags_outside restPlaced (by omega)).trans (writeTags_outside takenPlaced (by omega))
  have retiled : ∀ start stop, Tiles start [block] stop → Tiles start [taken, rest] stop := by
    intro start stop onMid
    have isBlock : block.payload = start + 8 := onMid.1
    have isStop : start + block.size = stop := onMid.2
    have isEnd : start + taken.size + rest.size = stop := by omega
    exact ⟨by omega, by omega, isEnd⟩
  exact ⟨takenPlaced, restPlaced, consistent.take taken [rest] [rest.payload] _ isFree
    takenAllocated (by simpa using restFree) retiled bothSized outside bothTagged (by simp) (by simp)⟩

/-- What `place` writes when it hands out the whole block. -/
theorem Consistent.whole {mem : Memory} {gClass : Nat → Nat} {gChunks : Nat}
    (consistent : Consistent (before ++ ⟨base, total, front ++ [block] ++ back⟩ :: after) lists
      [block.payload] mem gClass gChunks)
    (isFree : block.allocated = false) {taken : Block}
    (isTaken : taken = ⟨block.payload, block.size, true⟩) :
    taken.Placed ∧
      Consistent (before ++ ⟨base, total, front ++ [taken] ++ back⟩ :: after) lists []
        (writeTags mem taken) gClass gChunks ∧
      (∀ other, other.allocated = true →
        (other ∈ allBlocks (before ++ ⟨base, total, front ++ [taken] ++ back⟩ :: after) ↔
          other = taken ∨
            other ∈ allBlocks (before ++ ⟨base, total, front ++ [block] ++ back⟩ :: after))) ∧
      ∀ a, InPayload (before ++ ⟨base, total, front ++ [block] ++ back⟩ :: after) a →
        writeTags mem taken a = mem a := by
  have layout := consistent.layout
  have member : block ∈ allBlocks (before ++ ⟨base, total, front ++ [block] ++ back⟩ :: after) :=
    mem_allBlocks_focus.mpr (.inl (List.mem_singleton_self block))
  have sized := layout.sized member
  have minimum := sized.minimum
  have aligned := sized.aligned
  have spec := layout.payload_spec member
  have takenPayload : taken.payload = block.payload := by rw [isTaken]
  have takenSize : taken.size = block.size := by rw [isTaken]
  have takenAllocated : taken.allocated = true := by rw [isTaken]
  have takenPlaced : taken.Placed := ⟨⟨by omega, by omega⟩, by omega, by omega⟩
  have retiled : ∀ start stop, Tiles start [block] stop → Tiles start [taken] stop := by
    intro start stop onMid
    have isBlock : block.payload = start + 8 := onMid.1
    have isStop : start + block.size = stop := onMid.2
    have isEnd : start + taken.size = stop := by omega
    exact ⟨by omega, isEnd⟩
  exact ⟨takenPlaced, consistent.take taken [] [] _ isFree takenAllocated (by simp) retiled
    (by simpa using takenPlaced.toSized) (fun a away => writeTags_outside takenPlaced (by omega))
    (by simpa using writeTags_tagged takenPlaced) (by simp) (by simp)⟩

theorem listInsert_gStats (heap : Heap) (n size : Nat) :
    (listInsert heap n size).gStats = heap.gStats := rfl

theorem listRemove_gStats (heap : Heap) (n size : Nat) :
    (listRemove heap n size).gStats = heap.gStats := by
  rw [listRemove_eq]

/-- The part of `place` that writes the tags. -/
def placeTags (heap : Heap) (bp asize csize : Nat) : Heap :=
  if MIN_BLOCK ≤ sub csize asize then
    let mem := heap.mem.store64 (hdrp bp) (pack asize 1)
    let mem := mem.store64 (ftrp mem bp) (pack asize 1)
    let rem := nextBlkp mem bp
    let rsize := sub csize asize
    let mem := mem.store64 (hdrp rem) (pack rsize 0)
    let mem := mem.store64 (ftrp mem rem) (pack rsize 0)
    let heap := listInsert { heap with mem } rem rsize
    { heap with gStats := heap.gStats.gainFree rsize }
  else
    let mem := heap.mem.store64 (hdrp bp) (pack csize 1)
    let mem := mem.store64 (ftrp mem bp) (pack csize 1)
    { heap with mem }

theorem place_eq {heap tagged : Heap} {bp asize csize : Nat}
    (isSize : blkSize heap.mem (hdrp bp) = csize)
    (isTagged : tagged = placeTags { listRemove heap bp csize with
      gStats := (listRemove heap bp csize).gStats.loseFree csize } bp asize csize) :
    place heap bp asize =
      ({ tagged with gStats := tagged.gStats.gainUsed (blkSize tagged.mem (hdrp bp)) }, bp) := by
  subst isSize isTagged
  rfl

theorem placeTags_gStats (heap : Heap) (bp asize csize : Nat) :
    (placeTags heap bp asize csize).gStats =
      if MIN_BLOCK ≤ sub csize asize then heap.gStats.gainFree (sub csize asize)
      else heap.gStats := by
  unfold placeTags
  split
  · dsimp only
    rw [listInsert_gStats]
  · dsimp only

/-- The statistics after `place`, with the size that it reads back at the end. -/
theorem place_gStats {heap heap' : Heap} {bp asize csize : Nat}
    (isSize : blkSize heap.mem (hdrp bp) = csize) (isPlaced : place heap bp asize = (heap', bp)) :
    heap'.gStats =
      (if MIN_BLOCK ≤ sub csize asize then
        (heap.gStats.loseFree csize).gainFree (sub csize asize)
      else heap.gStats.loseFree csize).gainUsed (blkSize heap'.mem (hdrp bp)) := by
  obtain ⟨tagged, isTagged⟩ : ∃ tagged, tagged = placeTags { listRemove heap bp csize with
    gStats := (listRemove heap bp csize).gStats.loseFree csize } bp asize csize := ⟨_, rfl⟩
  have tags := congrArg Heap.gStats isTagged
  rw [placeTags_gStats, listRemove_gStats] at tags
  rw [place_eq isSize isTagged] at isPlaced
  obtain rfl := (Prod.mk.inj isPlaced).1
  rw [← tags]

theorem place_split_eq {heap : Heap} {bp asize csize : Nat}
    (isSize : blkSize heap.mem (hdrp bp) = csize) (splits : MIN_BLOCK ≤ sub csize asize)
    {taken rest : Block} (isTaken : taken = ⟨bp, asize, true⟩)
    (isRest : rest = ⟨bp + asize, sub csize asize, false⟩)
    (takenPlaced : taken.Placed) (restPlaced : rest.Placed) :
    ∃ prepared stats, prepared.mem =
        writeTags (writeTags (listRemove heap bp csize).mem taken) rest ∧
      prepared.gClass = (listRemove heap bp csize).gClass ∧ prepared.gChunks = heap.gChunks ∧
      prepared.mapped = heap.mapped ∧
      place heap bp asize =
        ({ listInsert prepared rest.payload rest.size with gStats := stats }, bp) := by
  subst isTaken isRest
  have writeTaken := retag_eq (listRemove heap bp csize).mem takenPlaced rfl rfl
  have next : nextBlkp (writeTags (listRemove heap bp csize).mem ⟨bp, asize, true⟩) bp =
      bp + asize :=
    congrArg (bp + ·) (takenPlaced.toSized.blkSize_eq (writeTags_tagged takenPlaced).header)
  have writeRest := retag_eq (writeTags (listRemove heap bp csize).mem ⟨bp, asize, true⟩)
    restPlaced rfl rfl
  have chunks : (listRemove heap bp csize).gChunks = heap.gChunks := by
    rw [listRemove_eq]
  have mapped : (listRemove heap bp csize).mapped = heap.mapped := by
    rw [listRemove_eq]
  simp only [Bool.toNat_true, Bool.toNat_false] at writeTaken writeRest
  have isPlaced : ∃ stats' stats, place heap bp asize =
      ({ listInsert
          { listRemove heap bp csize with
            mem := writeTags (writeTags (listRemove heap bp csize).mem ⟨bp, asize, true⟩)
              ⟨bp + asize, sub csize asize, false⟩
            gStats := stats' }
          (bp + asize) (sub csize asize) with gStats := stats }, bp) := by
    simp only [place, isSize, if_pos splits, writeTaken, next, writeRest]
    exact ⟨_, _, rfl⟩
  obtain ⟨stats', stats, isPlaced⟩ := isPlaced
  refine ⟨_, stats, ?_, ?_, ?_, ?_, isPlaced⟩
  · dsimp only
  · dsimp only
  · dsimp only
    exact chunks
  · dsimp only
    exact mapped

theorem place_whole_eq {heap : Heap} {bp csize : Nat} (asize : Nat)
    (isSize : blkSize heap.mem (hdrp bp) = csize) (splits : ¬ MIN_BLOCK ≤ sub csize asize)
    {taken : Block} (isTaken : taken = ⟨bp, csize, true⟩) (takenPlaced : taken.Placed) :
    ∃ heap', heap'.mem = writeTags (listRemove heap bp csize).mem taken ∧
      heap'.gClass = (listRemove heap bp csize).gClass ∧ heap'.gChunks = heap.gChunks ∧
      heap'.mapped = heap.mapped ∧ place heap bp asize = (heap', bp) := by
  subst isTaken
  have writeTaken := retag_eq (listRemove heap bp csize).mem takenPlaced rfl rfl
  have chunks : (listRemove heap bp csize).gChunks = heap.gChunks := by
    rw [listRemove_eq]
  have mapped : (listRemove heap bp csize).mapped = heap.mapped := by
    rw [listRemove_eq]
  simp only [Bool.toNat_true] at writeTaken
  have isPlaced : ∃ stats, place heap bp asize =
      ({ listRemove heap bp csize with
          mem := writeTags (listRemove heap bp csize).mem ⟨bp, csize, true⟩
          gStats := stats }, bp) := by
    simp only [place, isSize, if_neg splits, writeTaken]
    exact ⟨_, rfl⟩
  obtain ⟨stats, isPlaced⟩ := isPlaced
  refine ⟨_, ?_, ?_, ?_, ?_, isPlaced⟩
  · dsimp only
  · dsimp only
  · dsimp only
    exact chunks
  · dsimp only
    exact mapped

theorem place_spec {asize : Nat}
    (atRest : AtRest (before ++ ⟨base, total, front ++ [block] ++ back⟩ :: after) heap)
    (isFree : block.allocated = false) (minimum : 32 ≤ asize) (aligned : 16 ∣ asize)
    (fits : asize ≤ block.size) :
    ∃ heap' regions' taken, place heap block.payload asize = (heap', block.payload) ∧
      taken.payload = block.payload ∧ asize ≤ taken.size ∧
      spans regions' = spans (before ++ ⟨base, total, front ++ [block] ++ back⟩ :: after) ∧
      Granted (before ++ ⟨base, total, front ++ [block] ++ back⟩ :: after) heap.mem regions' heap'
        taken := by
  obtain ⟨⟨lists, consistent⟩, separated, mapped, accounts⟩ := atRest
  obtain ⟨onRegion, onOthers⟩ := allSeparated_others separated
  obtain ⟨onFront, onBack, around⟩ := separated_parts onRegion
  obtain ⟨left, right⟩ := around isFree
  have layout := consistent.layout
  have member : block ∈ allBlocks (before ++ ⟨base, total, front ++ [block] ++ back⟩ :: after) :=
    mem_allBlocks_focus.mpr (.inl (List.mem_singleton_self block))
  have spec := layout.payload_spec member
  have rounded : sub block.size asize = block.size - asize := sub_of_le (by omega) fits
  have notThere : ∀ taken : Block, taken.allocated = true → taken.payload = block.payload →
      taken ∉ allBlocks (before ++ ⟨base, total, front ++ [block] ++ back⟩ :: after) := by
    intro taken isTaken samePayload isOld
    rw [layout.eq_of_payload isOld member samePayload, isFree] at isTaken
    exact Bool.noConfusion isTaken
  obtain ⟨lists₁, removed, keeps⟩ := consistent.remove member isFree List.not_mem_nil
  by_cases splits : asize + 32 ≤ block.size
  · obtain ⟨taken, isTaken⟩ : ∃ taken : Block, taken = ⟨block.payload, asize, true⟩ := ⟨_, rfl⟩
    obtain ⟨rest, isRest⟩ : ∃ rest : Block, rest =
      ⟨block.payload + asize, block.size - asize, false⟩ := ⟨_, rfl⟩
    obtain ⟨takenPlaced, restPlaced, split, blocks, bytes⟩ :=
      removed.split isFree minimum aligned splits isTaken isRest
    obtain ⟨prepared, stats, isMem, isClass, isChunks, isMapped, isPlaced⟩ := place_split_eq
      (consistent.sizeAt member) (by rw [rounded, MIN_BLOCK]; omega) isTaken
      (by rw [rounded]; exact isRest) takenPlaced restPlaced
    rw [← isMem, ← isClass, ← isChunks] at split
    have takenPayload : taken.payload = block.payload := by rw [isTaken]
    have takenSize : taken.size = asize := by rw [isTaken]
    have takenAllocated : taken.allocated = true := by rw [isTaken]
    have restFree : rest.allocated = false := by rw [isRest]
    have restMember : rest ∈
        allBlocks (before ++ ⟨base, total, front ++ [taken, rest] ++ back⟩ :: after) :=
      mem_allBlocks_focus.mpr (.inl (by simp))
    obtain ⟨lists₂, inserted, keeps'⟩ := Consistent.insert [] split restMember restFree (by simp)
      (by simp) (by simp)
    have stats' := place_gStats (consistent.sizeAt member) isPlaced
    have readBack := inserted.sizeAt (mem_allBlocks_focus.mpr (.inl List.mem_cons_self))
    rw [takenPayload, takenSize] at readBack
    rw [rounded, if_pos (by rw [MIN_BLOCK]; omega), readBack] at stats'
    have accounts' := accounts.split isFree minimum splits (by omega) isTaken isRest
    rw [← stats'] at accounts'
    refine ⟨_, before ++ ⟨base, total, front ++ [taken, rest] ++ back⟩ :: after, taken, isPlaced,
      takenPayload, takenSize.ge, spans_focus, ?_⟩
    refine ⟨⟨⟨lists₂, inserted⟩, ?_, isMapped.trans (mapped.trans spans_focus), accounts'⟩,
      mem_allBlocks_focus.mpr (.inl List.mem_cons_self),
      takenAllocated, notThere taken takenAllocated takenPayload, blocks, fun a inside => ?_⟩
    · refine allSeparated_focus onOthers ?_
      have onBack' : Separated (rest :: back) :=
        List.isChain_cons.mpr ⟨fun next isHead => .inr (right next isHead), onBack⟩
      have onRest : Separated (taken :: rest :: back) :=
        List.isChain_cons.mpr ⟨fun _ _ => .inl takenAllocated, onBack'⟩
      rw [List.append_assoc]
      exact List.isChain_append.mpr ⟨onFront, onRest, fun prev isLast _ _ => .inl (left prev isLast)⟩
    · have inside' : InPayload
          (before ++ ⟨base, total, front ++ [taken, rest] ++ back⟩ :: after) a := by
        obtain ⟨other, isOther, isAllocated, low, high⟩ := inside
        exact ⟨other, (blocks other isAllocated).mpr (.inr isOther), isAllocated, low, high⟩
      exact (keeps'.bytes a inside').trans
        ((congrFun isMem a).trans ((bytes a inside).trans (keeps.bytes a inside)))
  · obtain ⟨taken, isTaken⟩ : ∃ taken : Block, taken = ⟨block.payload, block.size, true⟩ := ⟨_, rfl⟩
    obtain ⟨takenPlaced, whole, blocks, bytes⟩ := removed.whole isFree isTaken
    obtain ⟨heap', isMem, isClass, isChunks, isMapped, isPlaced⟩ := place_whole_eq asize
      (consistent.sizeAt member) (by rw [rounded, MIN_BLOCK]; omega) isTaken takenPlaced
    rw [← isMem, ← isClass, ← isChunks] at whole
    have takenPayload : taken.payload = block.payload := by rw [isTaken]
    have takenSize : taken.size = block.size := by rw [isTaken]
    have takenAllocated : taken.allocated = true := by rw [isTaken]
    have stats' := place_gStats (consistent.sizeAt member) isPlaced
    have readBack := whole.sizeAt (mem_allBlocks_focus.mpr (.inl List.mem_cons_self))
    rw [takenPayload, takenSize] at readBack
    rw [rounded, if_neg (by rw [MIN_BLOCK]; omega), readBack] at stats'
    have accounts' := accounts.whole isFree (layout.sized member).minimum (by omega) isTaken
    rw [← stats'] at accounts'
    refine ⟨heap', before ++ ⟨base, total, front ++ [taken] ++ back⟩ :: after, taken, isPlaced,
      takenPayload, by omega, spans_focus, ?_⟩
    refine ⟨⟨⟨lists₁, whole⟩, ?_, isMapped.trans (mapped.trans spans_focus), accounts'⟩,
      mem_allBlocks_focus.mpr (.inl List.mem_cons_self),
      takenAllocated, notThere taken takenAllocated takenPayload, blocks, fun a inside => ?_⟩
    · exact allSeparated_focus onOthers (separated_around onFront onBack left right)
    · exact (congrFun isMem a).trans ((bytes a inside).trans (keeps.bytes a inside))

/-! ## Freeing -/

/-- The retagging at the start of `bfree`. -/
theorem Consistent.release {mem : Memory} {gClass : Nat → Nat} {gChunks : Nat}
    (consistent : Consistent (before ++ ⟨base, total, front ++ [block] ++ back⟩ :: after) lists []
      mem gClass gChunks)
    (isAllocated : block.allocated = true) {freed : Block}
    (isFreed : freed = ⟨block.payload, block.size, false⟩) :
    freed.Placed ∧
      Consistent (before ++ ⟨base, total, front ++ [freed] ++ back⟩ :: after) lists
        [freed.payload] (writeTags mem freed) gClass gChunks ∧
      (∀ other, other.allocated = true →
        (other ∈ allBlocks (before ++ ⟨base, total, front ++ [freed] ++ back⟩ :: after) ↔
          other ∈ allBlocks (before ++ ⟨base, total, front ++ [block] ++ back⟩ :: after) ∧
            other ≠ block)) ∧
      ∀ a, InPayload (before ++ ⟨base, total, front ++ [freed] ++ back⟩ :: after) a →
        writeTags mem freed a = mem a := by
  have layout := consistent.layout
  obtain ⟨start, stop, onFront, onMid, onBack⟩ := layout.focus_tiles
  have isBlock : block.payload = start + 8 := onMid.1
  have isStop : start + block.size = stop := onMid.2
  have elsewhere := layout.elsewhere onFront onMid onBack
  have member : block ∈ allBlocks (before ++ ⟨base, total, front ++ [block] ++ back⟩ :: after) :=
    mem_allBlocks_focus.mpr (.inl (List.mem_singleton_self block))
  have sized := layout.sized member
  have minimum := sized.minimum
  have aligned := sized.aligned
  have spec := layout.payload_spec member
  have freedPayload : freed.payload = block.payload := by rw [isFreed]
  have freedSize : freed.size = block.size := by rw [isFreed]
  have freedFree : freed.allocated = false := by rw [isFreed]
  have freedPlaced : freed.Placed := ⟨⟨by omega, by omega⟩, by omega, by omega⟩
  have onMid' : Tiles start [freed] stop := by
    have isEnd : start + freed.size = stop := by omega
    exact ⟨by omega, isEnd⟩
  refine ⟨freedPlaced, consistent.replace onFront onMid onBack onMid' ?_ ?_ ?_ ?_ ?_ ?_, ?_, ?_⟩
  · simpa using freedPlaced.toSized
  · exact fun a away => writeTags_outside freedPlaced (by omega)
  · simpa using writeTags_tagged freedPlaced
  · simp [isAllocated]
  · simp
  · intro n away
    simp only [List.mem_singleton, List.not_mem_nil, iff_false]
    omega
  · intro other otherAllocated
    rw [mem_allBlocks_focus, mem_allBlocks_focus]
    constructor
    · rintro (inNew | away)
      · obtain rfl := List.mem_singleton.mp inNew
        simp [freedFree] at otherAllocated
      · refine ⟨.inr away, ?_⟩
        rintro rfl
        have apart := elsewhere other away
        unfold Elsewhere at apart
        omega
    · rintro ⟨inMid | away, different⟩
      · exact absurd (List.mem_singleton.mp inMid) different
      · exact .inr away
  · rintro a ⟨other, isOther, otherAllocated, low, high⟩
    rcases mem_allBlocks_focus.mp isOther with inNew | away
    · obtain rfl := List.mem_singleton.mp inNew
      simp [freedFree] at otherAllocated
    · have apart := elsewhere other away
      unfold Elsewhere at apart
      exact writeTags_outside freedPlaced (by omega)

theorem bfree_eq {heap : Heap} {ptr size : Nat} {freed : Block} (nonzero : ptr ≠ 0)
    (isSize : blkSize heap.mem (hdrp ptr) = size) (isFreed : freed = ⟨ptr, size, false⟩)
    (freedPlaced : freed.Placed) :
    ∃ retagged : Heap, retagged.mem = writeTags heap.mem freed ∧ retagged.gClass = heap.gClass ∧
      retagged.gChunks = heap.gChunks ∧ retagged.mapped = heap.mapped ∧
      retagged.gStats = heap.gStats.loseUsed size ∧
      ∀ heap' bp size', coalesce retagged ptr = (heap', bp) →
        blkSize (listInsert heap' bp (blkSize heap'.mem (hdrp bp))).mem (hdrp bp) = size' →
          bfree heap ptr = { listInsert heap' bp (blkSize heap'.mem (hdrp bp)) with
            gStats := heap'.gStats.gainFree size' } := by
  subst isFreed
  have writeFreed := retag_eq heap.mem freedPlaced rfl rfl
  simp only [Bool.toNat_false] at writeFreed
  refine ⟨{ heap with
    mem := writeTags heap.mem ⟨ptr, size, false⟩
    gStats := heap.gStats.loseUsed size }, rfl, rfl, rfl, rfl, rfl, ?_⟩
  intro heap' bp size' isCoalesced readBack
  subst readBack
  rw [Stats.loseUsed] at isCoalesced
  simp only [bfree, if_neg nonzero, isSize, writeFreed, isCoalesced]
  rw [listInsert_gStats]
  rfl

theorem bfree_spec
    (atRest : AtRest (before ++ ⟨base, total, front ++ [block] ++ back⟩ :: after) heap)
    (isAllocated : block.allocated = true) :
    ∃ regions', Released (before ++ ⟨base, total, front ++ [block] ++ back⟩ :: after) heap.mem
      regions' (bfree heap block.payload) block := by
  obtain ⟨⟨lists, consistent⟩, separated, mapped, accounts⟩ := atRest
  obtain ⟨onRegion, onOthers⟩ := allSeparated_others separated
  obtain ⟨onFront, onBack, -⟩ := separated_parts onRegion
  have member : block ∈ allBlocks (before ++ ⟨base, total, front ++ [block] ++ back⟩ :: after) :=
    mem_allBlocks_focus.mpr (.inl (List.mem_singleton_self block))
  have spec := consistent.layout.payload_spec member
  obtain ⟨freed, isFreed⟩ : ∃ freed : Block, freed = ⟨block.payload, block.size, false⟩ := ⟨_, rfl⟩
  have freedPayload : freed.payload = block.payload := by rw [isFreed]
  have freedFree : freed.allocated = false := by rw [isFreed]
  obtain ⟨freedPlaced, released, blocks, bytes⟩ := consistent.release isAllocated isFreed
  obtain ⟨retagged, isMem, isClass, isChunks, isMapped, isStats, isBfree⟩ :=
    bfree_eq (by omega) (consistent.sizeAt member) isFreed freedPlaced
  rw [← isMem, ← isClass, ← isChunks] at released
  obtain ⟨heap', merged, regions', isCoalesced, coalesced, keepsAccounts⟩ :=
    coalesce_spec released freedFree onFront onBack onOthers
  rw [freedPayload] at isCoalesced
  obtain ⟨lists', merging⟩ := coalesced.consistent
  obtain ⟨lists'', inserted, keeps⟩ :=
    Consistent.insert [] merging coalesced.member coalesced.isFree (by simp) (by simp) (by simp)
  have isDone := isBfree heap' merged.payload merged.size isCoalesced
    (by rw [merging.sizeAt coalesced.member]; exact inserted.sizeAt coalesced.member)
  rw [merging.sizeAt coalesced.member] at isDone
  have sized := consistent.layout.sized member
  have freedSize : freed.size = block.size := by rw [isFreed]
  have accounts' := accounts.release isAllocated sized.minimum (by omega) isFreed
  rw [← isStats, ← freedSize] at accounts'
  have mapped' : heap'.mapped = heap.mapped := coalesced.mapped.trans isMapped
  refine ⟨regions', ⟨⟨lists'', ?_⟩, coalesced.separated, ?_, ?_⟩, fun other otherAllocated => ?_,
    fun a inside => ?_, coalesced.spans.trans spans_focus⟩
  · rw [isDone]
    exact inserted
  · rw [isDone]
    exact mapped'.trans (mapped.trans (spans_focus.trans coalesced.spans.symm))
  · rw [isDone]
    exact keepsAccounts accounts'
  · rw [coalesced.keeps.blocks other otherAllocated]
    exact blocks other otherAllocated
  · have inside' := (coalesced.keeps.inPayload a).mp inside
    rw [isDone]
    exact (keeps.bytes a inside).trans ((coalesced.keeps.bytes a inside').trans
      ((congrFun isMem a).trans (bytes a inside')))

end Focus

end FoundationsLab.Balloc
