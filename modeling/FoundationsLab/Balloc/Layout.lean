import FoundationsLab.Balloc.Allocator

/-! # Blocks and regions

What the bytes of the heap mean: regions obtained from the system, tiled by
blocks between a prologue and an epilogue. -/

namespace FoundationsLab.Balloc

open Foundation
open Foundation.Word64

/-- A block by the address of its payload. Its header is the word before the
payload, and `size` counts header and footer. -/
structure Block where
  payload : Nat
  size : Nat
  allocated : Bool

namespace Block

def tag (block : Block) : Nat := pack block.size block.allocated.toNat

def header (block : Block) : Nat := block.payload - 8

def footer (block : Block) : Nat := block.payload + block.size - 16

structure Sized (block : Block) : Prop where
  minimum : 32 ≤ block.size
  aligned : 16 ∣ block.size

end Block

/-- The blocks follow each other without a gap from the header address `start`
to the address `stop`. -/
def Tiles : Nat → List Block → Nat → Prop
  | start, [], stop => start = stop
  | start, block :: blocks, stop =>
      block.payload = start + 8 ∧ Tiles (start + block.size) blocks stop

/-- A piece of memory obtained from the system, with the blocks in it. -/
structure Region where
  base : Nat
  total : Nat
  blocks : List Block

namespace Region

/-- The header of the first block comes after the chunk header and the prologue. -/
def start (region : Region) : Nat := region.base + 24

def prologue (region : Region) : Nat := region.base + 16

def epilogue (region : Region) : Nat := region.base + region.total - 8

structure Shaped (region : Region) : Prop where
  aligned : 4096 ∣ region.base
  nonzero : 0 < region.base
  room : 64 ≤ region.total
  bounded : region.base + region.total ≤ 2 ^ 64
  tiles : Tiles region.start region.blocks region.epilogue
  sized : ∀ block ∈ region.blocks, block.Sized

def Apart (region other : Region) : Prop :=
  region.base + region.total ≤ other.base ∨ other.base + other.total ≤ region.base

end Region

structure Layout (regions : List Region) : Prop where
  shaped : ∀ region ∈ regions, region.Shaped
  apart : regions.Pairwise Region.Apart

def allBlocks (regions : List Region) : List Block := regions.flatMap (·.blocks)

/-! ## Tags -/

theorem pack_eq {size alloc : Nat} (aligned : 16 ∣ size) (flag : alloc ≤ 1) :
    pack size alloc = size + alloc := by
  have disjoint : size &&& alloc = 0 := by
    rcases Nat.le_one_iff_eq_zero_or_eq_one.mp flag with rfl | rfl
    · exact Nat.and_zero size
    · rw [Nat.and_one_is_mod]
      omega
  exact (add_eq_lor disjoint).symm

theorem blkSize_of_load {mem : Memory} {p size alloc : Nat} (aligned : 8 ∣ size)
    (flag : alloc ≤ 1) (loaded : mem.load64 p = size + alloc) : blkSize mem p = size := by
  have cleared : mem.load64 p &&& lnot 7 = mem.load64 p / 8 * 8 :=
    land_lnot_low (k := 3) (mem.load64_lt p) (by decide)
  rw [blkSize, cleared, loaded]
  omega

theorem blkAlloc_of_load {mem : Memory} {p size alloc : Nat} (aligned : 8 ∣ size)
    (flag : alloc ≤ 1) (loaded : mem.load64 p = size + alloc) : blkAlloc mem p = alloc := by
  rw [blkAlloc, Nat.and_one_is_mod, loaded]
  omega

theorem toNat_le_one (flag : Bool) : flag.toNat ≤ 1 := by
  cases flag <;> decide

namespace Block.Sized

variable {block : Block} {mem : Memory} {p : Nat}

theorem tag_eq (sized : block.Sized) : block.tag = block.size + block.allocated.toNat :=
  pack_eq sized.aligned (toNat_le_one _)

theorem blkSize_eq (sized : block.Sized) (loaded : mem.load64 p = block.tag) :
    blkSize mem p = block.size := by
  have aligned := sized.aligned
  exact blkSize_of_load (by omega) (toNat_le_one _) (loaded.trans sized.tag_eq)

theorem blkAlloc_eq (sized : block.Sized) (loaded : mem.load64 p = block.tag) :
    blkAlloc mem p = block.allocated.toNat := by
  have aligned := sized.aligned
  exact blkAlloc_of_load (by omega) (toNat_le_one _) (loaded.trans sized.tag_eq)

end Block.Sized

/-! ## Tilings -/

theorem tiles_append : ∀ {start : Nat} {front back : List Block} {stop : Nat},
    Tiles start (front ++ back) stop ↔
      ∃ middle, Tiles start front middle ∧ Tiles middle back stop
  | start, [], back, stop => by simp [Tiles]
  | start, block :: front, back, stop => by
      simp only [List.cons_append, Tiles, tiles_append, and_assoc, exists_and_left]

theorem Tiles.le : ∀ {start : Nat} {blocks : List Block} {stop : Nat},
    Tiles start blocks stop → start ≤ stop
  | _, [], _, tiles => Nat.le_of_eq tiles
  | _, _ :: _, _, tiles => by
      have rest := tiles.2.le
      omega

theorem Tiles.bounds : ∀ {start : Nat} {blocks : List Block} {stop : Nat},
    Tiles start blocks stop → ∀ block ∈ blocks,
      start + 8 ≤ block.payload ∧ block.payload + block.size ≤ stop + 8
  | start, first :: blocks, stop, tiles, block, member => by
      obtain ⟨isFirst, rest⟩ := tiles
      rcases List.mem_cons.mp member with rfl | later
      · have below := rest.le
        omega
      · have inside := rest.bounds block later
        omega

theorem Tiles.aligned : ∀ {start : Nat} {blocks : List Block} {stop : Nat},
    Tiles start blocks stop → 16 ∣ start + 8 → (∀ block ∈ blocks, block.Sized) →
      (∀ block ∈ blocks, 16 ∣ block.payload) ∧ 16 ∣ stop + 8
  | start, [], stop, tiles, startAligned, _ => ⟨by simp, tiles ▸ startAligned⟩
  | start, first :: blocks, stop, tiles, startAligned, sized => by
      obtain ⟨isFirst, rest⟩ := tiles
      have firstAligned := (sized first List.mem_cons_self).aligned
      obtain ⟨each, last⟩ := rest.aligned (by omega)
        fun block member => sized block (List.mem_cons_of_mem _ member)
      refine ⟨fun block member => ?_, last⟩
      rcases List.mem_cons.mp member with rfl | later
      · omega
      · exact each block later

/-- Two blocks of a tiling are the same or do not overlap. -/
theorem Tiles.apart {start stop : Nat} {blocks : List Block} (tiles : Tiles start blocks stop)
    {block other : Block} (member : block ∈ blocks) (otherMember : other ∈ blocks) :
    block = other ∨ block.payload + block.size ≤ other.payload ∨
      other.payload + other.size ≤ block.payload := by
  obtain ⟨front, back, rfl⟩ := List.append_of_mem member
  obtain ⟨middle, onFront, isBlock, onBack⟩ := tiles_append.mp tiles
  rcases List.mem_append.mp otherMember with inFront | inRest
  · have inside := onFront.bounds other inFront
    exact .inr (.inr (by omega))
  · rcases List.mem_cons.mp inRest with rfl | inBack
    · exact .inl rfl
    · have inside := onBack.bounds other inBack
      exact .inr (.inl (by omega))

/-! ## Layouts -/

theorem mem_allBlocks {regions : List Region} {block : Block} :
    block ∈ allBlocks regions ↔ ∃ region ∈ regions, block ∈ region.blocks :=
  List.mem_flatMap

theorem Region.Shaped.inside {region : Region} (shaped : region.Shaped) {block : Block}
    (member : block ∈ region.blocks) :
    region.base + 32 ≤ block.payload ∧ block.payload + block.size ≤ region.base + region.total := by
  have bounds := shaped.tiles.bounds block member
  have room := shaped.room
  simp only [Region.start, Region.epilogue] at bounds
  omega

theorem Region.Shaped.payload_aligned {region : Region} (shaped : region.Shaped) :
    ∀ block ∈ region.blocks, 16 ∣ block.payload := by
  have aligned := shaped.aligned
  exact (shaped.tiles.aligned (by simp only [Region.start]; omega) shaped.sized).1

namespace Layout

variable {regions : List Region}

theorem apart_of_ne (layout : Layout regions) {region other : Region} (member : region ∈ regions)
    (otherMember : other ∈ regions) : region = other ∨ region.Apart other := by
  obtain ⟨before, after, rfl⟩ := List.append_of_mem member
  have parts := List.pairwise_append.mp layout.apart
  rcases List.mem_append.mp otherMember with inBefore | inRest
  · exact .inr (parts.2.2 other inBefore region List.mem_cons_self).symm
  · rcases List.mem_cons.mp inRest with rfl | inAfter
    · exact .inl rfl
    · exact .inr ((List.pairwise_cons.mp parts.2.1).1 other inAfter)

theorem sized (layout : Layout regions) {block : Block} (member : block ∈ allBlocks regions) :
    block.Sized := by
  obtain ⟨region, isRegion, inRegion⟩ := mem_allBlocks.mp member
  exact (layout.shaped region isRegion).sized block inRegion

/-- Two blocks anywhere are the same or do not overlap. -/
theorem blocks_apart (layout : Layout regions) {block other : Block}
    (member : block ∈ allBlocks regions) (otherMember : other ∈ allBlocks regions) :
    block = other ∨ block.payload + block.size ≤ other.payload ∨
      other.payload + other.size ≤ block.payload := by
  obtain ⟨region, isRegion, inRegion⟩ := mem_allBlocks.mp member
  obtain ⟨region', isRegion', inRegion'⟩ := mem_allBlocks.mp otherMember
  have shaped := layout.shaped region isRegion
  have shaped' := layout.shaped region' isRegion'
  rcases layout.apart_of_ne isRegion isRegion' with rfl | apart
  · exact shaped.tiles.apart inRegion inRegion'
  · have inside := shaped.inside inRegion
    have inside' := shaped'.inside inRegion'
    rcases apart with below | above
    · exact .inr (.inl (by omega))
    · exact .inr (.inr (by omega))

theorem eq_of_payload (layout : Layout regions) {block other : Block}
    (member : block ∈ allBlocks regions) (otherMember : other ∈ allBlocks regions)
    (same : block.payload = other.payload) : block = other := by
  have minimum := (layout.sized member).minimum
  have minimum' := (layout.sized otherMember).minimum
  rcases layout.blocks_apart member otherMember with equal | below | above
  · exact equal
  · omega
  · omega

/-- What is known of the address of a payload. -/
theorem payload_spec (layout : Layout regions) {block : Block}
    (member : block ∈ allBlocks regions) :
    16 ∣ block.payload ∧ 4128 ≤ block.payload ∧ block.payload + block.size ≤ 2 ^ 64 := by
  obtain ⟨region, isRegion, inRegion⟩ := mem_allBlocks.mp member
  have shaped := layout.shaped region isRegion
  have inside := shaped.inside inRegion
  have aligned := shaped.aligned
  have nonzero := shaped.nonzero
  have bounded := shaped.bounded
  exact ⟨shaped.payload_aligned block inRegion, by omega, by omega⟩

end Layout

/-! ## One region in focus -/

/-- A block that does not overlap the addresses from `start` to `stop`. -/
def Elsewhere (start stop : Nat) (block : Block) : Prop :=
  block.payload + block.size ≤ start + 8 ∨ stop + 8 ≤ block.payload

section Focus

variable {before after : List Region} {base total : Nat} {front mid back : List Block}

theorem mem_allBlocks_focus {block : Block} :
    block ∈ allBlocks (before ++ ⟨base, total, front ++ mid ++ back⟩ :: after) ↔
      block ∈ mid ∨ block ∈ allBlocks before ++ front ++ back ++ allBlocks after := by
  simp only [allBlocks, List.flatMap_append, List.flatMap_cons, List.mem_append]
  tauto

theorem Layout.focus (layout : Layout (before ++ ⟨base, total, front ++ mid ++ back⟩ :: after)) :
    Region.Shaped ⟨base, total, front ++ mid ++ back⟩ :=
  layout.shaped _ (by simp)

theorem Layout.focus_tiles
    (layout : Layout (before ++ ⟨base, total, front ++ mid ++ back⟩ :: after)) :
    ∃ start stop, Tiles (base + 24) front start ∧ Tiles start mid stop ∧
      Tiles stop back (base + total - 8) := by
  have tiles := layout.focus.tiles
  simp only [Region.start, Region.epilogue] at tiles
  rw [List.append_assoc] at tiles
  obtain ⟨start, onFront, onRest⟩ := tiles_append.mp tiles
  obtain ⟨stop, onMid, onBack⟩ := tiles_append.mp onRest
  exact ⟨start, stop, onFront, onMid, onBack⟩

theorem Layout.elsewhere
    (layout : Layout (before ++ ⟨base, total, front ++ mid ++ back⟩ :: after)) {start stop : Nat}
    (onFront : Tiles (base + 24) front start) (onMid : Tiles start mid stop)
    (onBack : Tiles stop back (base + total - 8)) :
    ∀ block ∈ allBlocks before ++ front ++ back ++ allBlocks after, Elsewhere start stop block := by
  intro block member
  have shaped := layout.focus
  have room : 64 ≤ total := shaped.room
  have lower := onFront.le
  have upper := onBack.le
  have middle := onMid.le
  have parts := List.pairwise_append.mp layout.apart
  have otherRegion : ∀ region ∈ before ++ after, block ∈ region.blocks →
      Elsewhere start stop block := by
    intro region isRegion inRegion
    have isMember : region ∈ before ++ ⟨base, total, front ++ mid ++ back⟩ :: after := by
      rcases List.mem_append.mp isRegion with inBefore | inAfter
      · exact List.mem_append_left _ inBefore
      · exact List.mem_append_right _ (List.mem_cons_of_mem _ inAfter)
    have inside := (layout.shaped region isMember).inside inRegion
    have apart : region.Apart ⟨base, total, front ++ mid ++ back⟩ := by
      rcases List.mem_append.mp isRegion with inBefore | inAfter
      · exact parts.2.2 region inBefore _ List.mem_cons_self
      · exact ((List.pairwise_cons.mp parts.2.1).1 region inAfter).symm
    rcases apart with below | above
    · exact .inl (by simp only at below; omega)
    · exact .inr (by simp only at above; omega)
  simp only [List.mem_append] at member
  rcases member with ((inBefore | inFront) | inBack) | inAfter
  · obtain ⟨region, isRegion, inRegion⟩ := mem_allBlocks.mp inBefore
    exact otherRegion region (List.mem_append_left _ isRegion) inRegion
  · exact .inl (onFront.bounds block inFront).2
  · exact .inr (onBack.bounds block inBack).1
  · obtain ⟨region, isRegion, inRegion⟩ := mem_allBlocks.mp inAfter
    exact otherRegion region (List.mem_append_right _ isRegion) inRegion

/-- Retiling the middle of a region. -/
theorem Layout.replace {mid' : List Block}
    (layout : Layout (before ++ ⟨base, total, front ++ mid ++ back⟩ :: after)) {start stop : Nat}
    (onFront : Tiles (base + 24) front start) (onMid' : Tiles start mid' stop)
    (onBack : Tiles stop back (base + total - 8)) (sized : ∀ block ∈ mid', block.Sized) :
    Layout (before ++ ⟨base, total, front ++ mid' ++ back⟩ :: after) := by
  have shaped := layout.focus
  constructor
  · intro region member
    rcases List.mem_append.mp member with inBefore | inRest
    · exact layout.shaped region (List.mem_append_left _ inBefore)
    · rcases List.mem_cons.mp inRest with rfl | inAfter
      · refine ⟨shaped.aligned, shaped.nonzero, shaped.room, shaped.bounded, ?_, ?_⟩
        · rw [List.append_assoc]
          exact tiles_append.mpr ⟨start, onFront, tiles_append.mpr ⟨stop, onMid', onBack⟩⟩
        · intro block inBlocks
          simp only [List.mem_append] at inBlocks
          rcases inBlocks with (inFront | inMid) | inBack
          · exact shaped.sized block (by simp [inFront])
          · exact sized block inMid
          · exact shaped.sized block (by simp [inBack])
      · exact layout.shaped region (List.mem_append_right _ (List.mem_cons_of_mem _ inAfter))
  · have parts := List.pairwise_append.mp layout.apart
    have cons := List.pairwise_cons.mp parts.2.1
    refine List.pairwise_append.mpr ⟨parts.1, List.pairwise_cons.mpr ⟨cons.1, cons.2⟩, ?_⟩
    intro region inBefore other inRest
    rcases List.mem_cons.mp inRest with rfl | inAfter
    · exact parts.2.2 region inBefore ⟨base, total, front ++ mid ++ back⟩ List.mem_cons_self
    · exact parts.2.2 region inBefore other (List.mem_cons_of_mem _ inAfter)

end Focus

end FoundationsLab.Balloc
