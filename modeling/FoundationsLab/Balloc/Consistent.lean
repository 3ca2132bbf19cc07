import FoundationsLab.Balloc.Layout
import FoundationsLab.Foundation.DoublyLinked

/-! # Consistency of memory with a layout

`Consistent` says that the memory and the static variables represent a list of
regions and the members of the free lists. In the middle of an operation some
free blocks are not on a list; their payloads are collected in `skip`. -/

namespace FoundationsLab.Balloc

open Foundation
open Foundation.Word64
open Foundation.DoublyLinked

/-- Header and footer hold the same tag. -/
structure BlockTagged (mem : Memory) (block : Block) : Prop where
  header : mem.load64 block.header = block.tag
  footer : mem.load64 block.footer = block.tag

structure RegionTagged (mem : Memory) (region : Region) : Prop where
  prologue : mem.load64 region.prologue = pack WSIZE 1
  epilogue : mem.load64 region.epilogue = pack 0 1
  blocks : ∀ block ∈ region.blocks, BlockTagged mem block

/-- The list of chunks, from the address of its first element. -/
def Chunked (mem : Memory) : Nat → List Region → Prop
  | ch, [] => ch = 0
  | ch, region :: regions =>
      ch = region.base ∧ mem.load64 (chunkSize region.base) = region.total ∧
        Chunked mem (mem.load64 (chunkNext region.base)) regions

/-- The members of the free lists are the free blocks, each in its class. -/
def Listed (regions : List Region) (lists : Nat → List Nat) (skip : List Nat) : Prop :=
  ∀ c n, n ∈ lists c ↔ n ∉ skip ∧ ∃ block ∈ allBlocks regions,
    block.allocated = false ∧ block.payload = n ∧ sizeClass block.size = c

structure Consistent (regions : List Region) (lists : Nat → List Nat) (skip : List Nat)
    (mem : Memory) (gClass : Nat → Nat) (gChunks : Nat) : Prop where
  layout : Layout regions
  tagged : ∀ region ∈ regions, RegionTagged mem region
  chunked : Chunked mem gChunks regions
  listed : Listed regions lists skip
  nodup : ∀ c, (lists c).Nodup
  heads : ∀ c, gClass c = (lists c).headD 0
  linked : ∀ c, Segment mem 0 (lists c) 0

/-! ## Words that do not change -/

theorem BlockTagged.congr {mem mem' : Memory} {block : Block} (sized : block.Sized)
    (positive : 8 ≤ block.payload) (tagged : BlockTagged mem block)
    (same : ∀ a, block.payload ≤ a + 8 → a + 8 < block.payload + block.size →
      a < block.payload ∨ block.payload + 16 ≤ a → mem' a = mem a) : BlockTagged mem' block := by
  have minimum := sized.minimum
  constructor
  · refine (Memory.load64_congr fun a lower upper => ?_).trans tagged.header
    simp only [Block.header] at lower upper
    exact same a (by omega) (by omega) (by omega)
  · refine (Memory.load64_congr fun a lower upper => ?_).trans tagged.footer
    simp only [Block.footer] at lower upper
    exact same a (by omega) (by omega) (by omega)

theorem Chunked.congr {mem mem' : Memory} : ∀ {ch : Nat} {regions : List Region},
    (∀ region ∈ regions, ∀ a, region.base ≤ a → a < region.base + 16 → mem' a = mem a) →
    Chunked mem ch regions → Chunked mem' ch regions
  | _, [], _, chunked => chunked
  | ch, region :: regions, same, chunked => by
      have here := same region List.mem_cons_self
      have sameNext : mem'.load64 (chunkNext region.base) = mem.load64 (chunkNext region.base) :=
        Memory.load64_congr fun a lower upper => here a lower (by simp only [chunkNext] at upper; omega)
      have sameSize : mem'.load64 (chunkSize region.base) = mem.load64 (chunkSize region.base) :=
        Memory.load64_congr fun a lower upper => by
          simp only [chunkSize] at lower upper
          exact here a (by omega) (by omega)
      refine ⟨chunked.1, sameSize.trans chunked.2.1, ?_⟩
      rw [sameNext]
      exact chunked.2.2.congr fun other member => same other (List.mem_cons_of_mem _ member)

theorem Chunked.sameBases {mem : Memory} {base total : Nat} {blocks blocks' : List Block} :
    ∀ {ch : Nat} {before after : List Region},
      Chunked mem ch (before ++ ⟨base, total, blocks⟩ :: after) →
      Chunked mem ch (before ++ ⟨base, total, blocks'⟩ :: after)
  | _, [], _, chunked => chunked
  | _, _ :: _, _, chunked => ⟨chunked.1, chunked.2.1, chunked.2.2.sameBases⟩

namespace Consistent

variable {regions : List Region} {lists : Nat → List Nat} {skip : List Nat}
  {mem : Memory} {gClass : Nat → Nat} {gChunks : Nat}

/-- The block behind a member of a list. -/
theorem block_of_member (consistent : Consistent regions lists skip mem gClass gChunks)
    {c n : Nat} (member : n ∈ lists c) :
    ∃ block ∈ allBlocks regions, block.allocated = false ∧ block.payload = n ∧
      sizeClass block.size = c :=
  ((consistent.listed c n).mp member).2

theorem cells (consistent : Consistent regions lists skip mem gClass gChunks) (c : Nat) :
    Cells (lists c) := by
  have each : ∀ n ∈ lists c, 16 ∣ n ∧ n ≠ 0 ∧ n < 2 ^ 64 := by
    intro n member
    obtain ⟨block, isBlock, -, rfl, -⟩ := consistent.block_of_member member
    have spec := consistent.layout.payload_spec isBlock
    have minimum := (consistent.layout.sized isBlock).minimum
    exact ⟨spec.1, by omega, by omega⟩
  exact ⟨consistent.nodup c, fun n member => (each n member).1, fun n member => (each n member).2.1,
    fun n member => (each n member).2.2⟩

/-- A payload is on no list but that of its class. -/
theorem not_member_of_ne (consistent : Consistent regions lists skip mem gClass gChunks)
    {c c' n : Nat} (member : n ∈ lists c) (different : c' ≠ c) : n ∉ lists c' := by
  intro member'
  obtain ⟨block, isBlock, -, payload, isClass⟩ := consistent.block_of_member member
  obtain ⟨block', isBlock', -, payload', isClass'⟩ := consistent.block_of_member member'
  have same := consistent.layout.eq_of_payload isBlock isBlock' (payload.trans payload'.symm)
  exact different (isClass'.symm.trans ((congrArg (fun b => sizeClass b.size) same).symm.trans isClass))

theorem blockTagged (consistent : Consistent regions lists skip mem gClass gChunks)
    {block : Block} (member : block ∈ allBlocks regions) : BlockTagged mem block := by
  obtain ⟨region, isRegion, inRegion⟩ := mem_allBlocks.mp member
  exact (consistent.tagged region isRegion).blocks block inRegion

theorem sizeAt (consistent : Consistent regions lists skip mem gClass gChunks)
    {block : Block} (member : block ∈ allBlocks regions) :
    blkSize mem (hdrp block.payload) = block.size :=
  (consistent.layout.sized member).blkSize_eq (consistent.blockTagged member).header

theorem allocAt (consistent : Consistent regions lists skip mem gClass gChunks)
    {block : Block} (member : block ∈ allBlocks regions) :
    blkAlloc mem (hdrp block.payload) = block.allocated.toNat :=
  (consistent.layout.sized member).blkAlloc_eq (consistent.blockTagged member).header

/-! ## Writing links -/

/-- Memory may change in the cells of the free blocks. -/
theorem relink (consistent : Consistent regions lists skip mem gClass gChunks) {mem' : Memory}
    (same : ∀ a, (∀ block ∈ allBlocks regions, block.allocated = false →
      a < block.payload ∨ block.payload + 16 ≤ a) → mem' a = mem a) :
    (∀ region ∈ regions, RegionTagged mem' region) ∧ Chunked mem' gChunks regions := by
  have layout := consistent.layout
  -- words between the blocks of a region, and the words around them
  have frame : ∀ region ∈ regions, ∀ a, region.base ≤ a → a < region.base + region.total →
      a < region.base + 24 ∨ region.base + region.total ≤ a + 8 → mem' a = mem a := by
    intro region isRegion a lower upper edge
    apply same
    intro block member _
    obtain ⟨other, isOther, inOther⟩ := mem_allBlocks.mp member
    have shaped := layout.shaped other isOther
    have inside := shaped.inside inOther
    have minimum := (shaped.sized block inOther).minimum
    rcases layout.apart_of_ne isRegion isOther with rfl | apart
    · have bounds := shaped.tiles.bounds block inOther
      have room := shaped.room
      simp only [Region.start, Region.epilogue] at bounds
      omega
    · rcases apart with below | above <;> omega
  constructor
  · intro region isRegion
    have shaped := layout.shaped region isRegion
    have room := shaped.room
    have tagged := consistent.tagged region isRegion
    constructor
    · refine (Memory.load64_congr fun a lower upper => ?_).trans tagged.prologue
      simp only [Region.prologue] at lower upper
      exact frame region isRegion a (by omega) (by omega) (by omega)
    · refine (Memory.load64_congr fun a lower upper => ?_).trans tagged.epilogue
      simp only [Region.epilogue] at lower upper
      exact frame region isRegion a (by omega) (by omega) (by omega)
    · intro block inRegion
      have member : block ∈ allBlocks regions := mem_allBlocks.mpr ⟨region, isRegion, inRegion⟩
      have spec := layout.payload_spec member
      refine (tagged.blocks block inRegion).congr (layout.sized member) (by omega) ?_
      intro a lower upper outside
      apply same
      intro other otherMember _
      have minimum := (layout.sized otherMember).minimum
      have otherSpec := layout.payload_spec otherMember
      rcases layout.blocks_apart member otherMember with rfl | below | above <;> omega
  · refine consistent.chunked.congr fun region isRegion a lower upper => ?_
    have room := (layout.shaped region isRegion).room
    exact frame region isRegion a lower (by omega) (by omega)

/-! ## Writing one block -/

section Replace

variable {before after : List Region} {base total : Nat} {front mid mid' back : List Block}
  {start stop : Nat} {skip' : List Nat} {mem' : Memory}

/-- The middle of a region is retiled, and memory changes only there. Its free
blocks are not on any list before or after. -/
theorem replace
    (consistent : Consistent (before ++ ⟨base, total, front ++ mid ++ back⟩ :: after) lists skip
      mem gClass gChunks)
    (onFront : Tiles (base + 24) front start) (onMid : Tiles start mid stop)
    (onBack : Tiles stop back (base + total - 8)) (onMid' : Tiles start mid' stop)
    (sized : ∀ block ∈ mid', block.Sized)
    (same : ∀ a, a < start ∨ stop ≤ a → mem' a = mem a)
    (tagged : ∀ block ∈ mid', BlockTagged mem' block)
    (skipped : ∀ block ∈ mid, block.allocated = false → block.payload ∈ skip)
    (skipped' : ∀ block ∈ mid', block.allocated = false → block.payload ∈ skip')
    (sameSkip : ∀ n, n < start ∨ stop ≤ n → (n ∈ skip' ↔ n ∈ skip)) :
    Consistent (before ++ ⟨base, total, front ++ mid' ++ back⟩ :: after) lists skip'
      mem' gClass gChunks := by
  have layout := consistent.layout
  have layout' := layout.replace onFront onMid' onBack sized
  have elsewhere := layout.elsewhere onFront onMid onBack
  have shaped := layout.focus
  have room : 64 ≤ total := shaped.room
  have lower := onFront.le
  have middle := onMid.le
  have upper := onBack.le
  have parts := List.pairwise_append.mp layout.apart
  have cons := List.pairwise_cons.mp parts.2.1
  -- a block outside the focus keeps its words
  have keeps : ∀ block ∈ allBlocks before ++ front ++ back ++ allBlocks after,
      ∀ a, block.payload ≤ a + 8 → a + 8 < block.payload + block.size → mem' a = mem a := by
    intro block member a low high
    have apart := elsewhere block member
    unfold Elsewhere at apart
    exact same a (by omega)
  have keepsTags : ∀ block ∈ allBlocks before ++ front ++ back ++ allBlocks after,
      BlockTagged mem' block := by
    intro block member
    have isOld : block ∈ allBlocks (before ++ ⟨base, total, front ++ mid ++ back⟩ :: after) :=
      mem_allBlocks_focus.mpr (.inr member)
    have spec := layout.payload_spec isOld
    exact (consistent.blockTagged isOld).congr (layout.sized isOld) (by omega)
      fun a low high _ => keeps block member a low high
  -- a region outside the focus keeps all its words
  have otherRegion : ∀ region ∈ before ++ after, ∀ a, region.base ≤ a →
      a < region.base + region.total → mem' a = mem a := by
    intro region isRegion a low high
    have apart : region.Apart ⟨base, total, front ++ mid ++ back⟩ := by
      rcases List.mem_append.mp isRegion with inBefore | inAfter
      · exact parts.2.2 region inBefore _ List.mem_cons_self
      · exact (cons.1 region inAfter).symm
    rcases apart with below | above
    · exact same a (by simp only at below; omega)
    · exact same a (by simp only at above; omega)
  have otherTagged : ∀ region ∈ before ++ after, region.Shaped → RegionTagged mem region →
      (∀ block ∈ region.blocks, BlockTagged mem' block) → RegionTagged mem' region := by
    intro region isRegion regionShaped regionTagged blocksTagged
    have regionRoom := regionShaped.room
    refine ⟨?_, ?_, blocksTagged⟩
    · refine (Memory.load64_congr fun a low high => ?_).trans regionTagged.prologue
      simp only [Region.prologue] at low high
      exact otherRegion region isRegion a (by omega) (by omega)
    · refine (Memory.load64_congr fun a low high => ?_).trans regionTagged.epilogue
      simp only [Region.epilogue] at low high
      exact otherRegion region isRegion a (by omega) (by omega)
  refine ⟨layout', ?_, ?_, ?_, consistent.nodup, consistent.heads, ?_⟩
  · intro region member
    rcases List.mem_append.mp member with inBefore | inRest
    · have isOld : region ∈ before ++ ⟨base, total, front ++ mid ++ back⟩ :: after :=
        List.mem_append_left _ inBefore
      refine otherTagged region (List.mem_append_left _ inBefore) (layout.shaped region isOld)
        (consistent.tagged region isOld) fun block inRegion => keepsTags block ?_
      simp only [List.mem_append]
      exact .inl (.inl (.inl (mem_allBlocks.mpr ⟨region, inBefore, inRegion⟩)))
    · rcases List.mem_cons.mp inRest with rfl | inAfter
      · have focusTagged := consistent.tagged ⟨base, total, front ++ mid ++ back⟩ (by simp)
        have isPrologue := focusTagged.prologue
        have isEpilogue := focusTagged.epilogue
        simp only [Region.prologue, Region.epilogue] at isPrologue isEpilogue
        constructor
        · simp only [Region.prologue]
          exact (Memory.load64_congr fun a low high => same a (by omega)).trans isPrologue
        · simp only [Region.epilogue]
          exact (Memory.load64_congr fun a low high => same a (by omega)).trans isEpilogue
        · intro block inBlocks
          simp only [List.mem_append] at inBlocks
          rcases inBlocks with (inFront | inMid) | inBack
          · exact keepsTags block (by simp [inFront])
          · exact tagged block inMid
          · exact keepsTags block (by simp [inBack])
      · have isOld : region ∈ before ++ ⟨base, total, front ++ mid ++ back⟩ :: after :=
          List.mem_append_right _ (List.mem_cons_of_mem _ inAfter)
        refine otherTagged region (List.mem_append_right _ inAfter) (layout.shaped region isOld)
          (consistent.tagged region isOld) fun block inRegion => keepsTags block ?_
        simp only [List.mem_append]
        exact .inr (mem_allBlocks.mpr ⟨region, inAfter, inRegion⟩)
  · refine Chunked.sameBases (consistent.chunked.congr fun region member a low high => ?_)
    rcases List.mem_append.mp member with inBefore | inRest
    · have regionRoom := (layout.shaped region member).room
      exact otherRegion region (List.mem_append_left _ inBefore) a low (by omega)
    · rcases List.mem_cons.mp inRest with rfl | inAfter
      · simp only at low high
        exact same a (by omega)
      · have regionRoom := (layout.shaped region member).room
        exact otherRegion region (List.mem_append_right _ inAfter) a low (by omega)
  · intro c n
    have away : ∀ block ∈ allBlocks before ++ front ++ back ++ allBlocks after,
        block.payload = n → (n ∈ skip' ↔ n ∈ skip) := by
      intro block member isPayload
      have isOld : block ∈ allBlocks (before ++ ⟨base, total, front ++ mid ++ back⟩ :: after) :=
        mem_allBlocks_focus.mpr (.inr member)
      have apart := elsewhere block member
      have minimum := (layout.sized isOld).minimum
      unfold Elsewhere at apart
      exact sameSkip n (by omega)
    rw [consistent.listed c n]
    constructor
    · rintro ⟨notSkipped, block, member, isFree, isPayload, isClass⟩
      rcases mem_allBlocks_focus.mp member with inMid | outside
      · exact absurd (isPayload ▸ skipped block inMid isFree) notSkipped
      · exact ⟨fun isSkipped => notSkipped ((away block outside isPayload).mp isSkipped), block,
          mem_allBlocks_focus.mpr (.inr outside), isFree, isPayload, isClass⟩
    · rintro ⟨notSkipped, block, member, isFree, isPayload, isClass⟩
      rcases mem_allBlocks_focus.mp member with inMid | outside
      · exact absurd (isPayload ▸ skipped' block inMid isFree) notSkipped
      · exact ⟨fun isSkipped => notSkipped ((away block outside isPayload).mpr isSkipped), block,
          mem_allBlocks_focus.mpr (.inr outside), isFree, isPayload, isClass⟩
  · intro c
    refine (consistent.linked c).congr fun n member a low high => ?_
    obtain ⟨notSkipped, block, isBlock, isFree, rfl, -⟩ := (consistent.listed c n).mp member
    have minimum := (layout.sized isBlock).minimum
    rcases mem_allBlocks_focus.mp isBlock with inMid | outside
    · exact absurd (skipped block inMid isFree) notSkipped
    · exact keeps block outside a (by omega) (by omega)

end Replace

end Consistent

end FoundationsLab.Balloc
