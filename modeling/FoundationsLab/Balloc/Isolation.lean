import FoundationsLab.Balloc.Program

/-! # Isolation of live allocations

The payloads of the live pointers lie apart from each other and from everything
the allocator writes for itself, so a call changes no byte of a payload that it
was not given. -/

namespace FoundationsLab.Balloc

open Foundation
open Foundation.Word64

/-! ## Areas of memory -/

/-- Two areas, each an address and a length, without a common byte. -/
def AreasApart (area other : Nat × Nat) : Prop :=
  area.1 + area.2 ≤ other.1 ∨ other.1 + other.2 ≤ area.1

/-- The bytes of the block behind a pointer, without header and footer. -/
def payloadSize (heap : Heap) (ptr : Nat) : Nat := sub (blkSize heap.mem (hdrp ptr)) DSIZE

def payloadArea (heap : Heap) (ptr : Nat) : Nat × Nat := (ptr, payloadSize heap ptr)

/-- The areas that hold the data of the allocator. -/
inductive Bookkeeping (regions : List Region) (lists : Nat → List Nat) : Nat × Nat → Prop
  | chunk (region : Region) (member : region ∈ regions) :
      Bookkeeping regions lists (region.base, sizeofChunk)
  | prologue (region : Region) (member : region ∈ regions) :
      Bookkeeping regions lists (region.prologue, WSIZE)
  | epilogue (region : Region) (member : region ∈ regions) :
      Bookkeeping regions lists (region.epilogue, WSIZE)
  | header (block : Block) (member : block ∈ allBlocks regions) :
      Bookkeeping regions lists (block.header, WSIZE)
  | footer (block : Block) (member : block ∈ allBlocks regions) :
      Bookkeeping regions lists (block.footer, WSIZE)
  | link (c n : Nat) (member : n ∈ lists c) : Bookkeeping regions lists (n, 16)

structure Isolated (program : Program) (regions : List Region) (lists : Nat → List Nat) :
    Prop where
  aligned : ∀ entry ∈ program.live, 16 ∣ entry.1
  large : ∀ entry ∈ program.live, entry.2 ≤ payloadSize program.heap entry.1
  inside : ∀ entry ∈ program.live, ∃ span ∈ program.heap.mapped,
    span.1 ≤ entry.1 ∧ entry.1 + payloadSize program.heap entry.1 ≤ span.1 + span.2
  apart : program.live.Pairwise fun entry other =>
    AreasApart (payloadArea program.heap entry.1) (payloadArea program.heap other.1)
  bookkeeping : ∀ entry ∈ program.live, ∀ area, Bookkeeping regions lists area →
    AreasApart (payloadArea program.heap entry.1) area

/-! ## No pointer is handed out twice -/

def Distinct (live : List (Nat × Nat)) : Prop := live.Pairwise (·.1 ≠ ·.1)

theorem Distinct.forget {live : List (Nat × Nat)} (distinct : Distinct live) (ptr : Nat) :
    Distinct (forget live ptr) :=
  distinct.filter _

theorem Distinct.eq_of_same {live : List (Nat × Nat)} (distinct : Distinct live)
    {entry other : Nat × Nat} (isLive : entry ∈ live) (isOther : other ∈ live)
    (same : entry.1 = other.1) : entry = other :=
  List.inj_on_of_nodup_map (List.pairwise_map.mpr distinct) isLive isOther same

section Steps

variable {regions regions' : List Region} {program next : Program} {call : Call}

/-- A block that the heap did not have is behind no live pointer. -/
theorem Serves.fresh_ne (serves : Serves regions program) {heap' : Heap} {taken : Block}
    (atRest : AtRest regions' heap') (member : taken ∈ allBlocks regions')
    (fresh : taken ∉ allBlocks regions) {entry : Nat × Nat} (isLive : entry ∈ program.live)
    (kept : ∀ block ∈ allBlocks regions, block.allocated = true → block.payload = entry.1 →
      block ∈ allBlocks regions') : taken.payload ≠ entry.1 := by
  intro same
  obtain ⟨block, isBlock, isAllocated, isPayload, -⟩ := serves.backed entry isLive
  have isKept := kept block isBlock isAllocated isPayload
  have equal := atRest.eq_of_payload member isKept (same.trans isPayload.symm)
  exact fresh (equal ▸ isBlock)

theorem Effect.distinct (effect : Effect regions program call regions' next)
    (serves : Serves regions program) (distinct : Distinct program.live) :
    Distinct next.live := by
  cases effect with
  | idle sameRegions same => exact same ▸ distinct
  | granted taken size room live granted =>
      rw [live]
      refine List.pairwise_cons.mpr ⟨fun entry isLive => ?_, distinct⟩
      exact serves.fresh_ne granted.atRest granted.member granted.fresh isLive
        fun block isBlock isAllocated _ => (granted.blocks block isAllocated).mpr (.inr isBlock)
  | released block member passes live released =>
      rw [live]
      exact distinct.forget block.payload
  | kept block size member isAllocated room passes sameRegions same live =>
      rw [live]
      refine List.pairwise_cons.mpr ⟨fun entry isLive => ?_, distinct.forget block.payload⟩
      exact (mem_forget.mp isLive).2.symm
  | moved block taken size member room passes live moved =>
      rw [live]
      refine List.pairwise_cons.mpr ⟨fun entry isLive => ?_, distinct.forget block.payload⟩
      obtain ⟨isOld, different⟩ := mem_forget.mp isLive
      have isNot : taken ≠ block := fun equal => moved.fresh (equal ▸ member)
      have isMember := (moved.blocks taken moved.isAllocated).mpr ⟨.inl rfl, isNot⟩
      refine serves.fresh_ne moved.atRest isMember moved.fresh isOld ?_
      intro other isOther isAllocated isPayload
      refine (moved.blocks other isAllocated).mpr ⟨.inr isOther, ?_⟩
      rintro rfl
      exact different isPayload.symm
  | wrote block address byte isWrite member isAllocated lower upper sameRegions live isHeap =>
      rw [live]
      exact distinct

theorem reachable_distinct (reachable : Reachable program) : Distinct program.live := by
  induction reachable with
  | initial mem => exact List.Pairwise.nil
  | call reachable fresh allowed stepped induction =>
      obtain ⟨regions, serves⟩ := reachable_serves reachable
      obtain ⟨regions', effect⟩ := step_effect serves fresh (allowed.sound _ _) stepped
      exact effect.distinct serves induction

/-! ## Where the payloads are -/

theorem AtRest.payloadSize_eq {heap : Heap} (atRest : AtRest regions heap) {block : Block}
    (member : block ∈ allBlocks regions) :
    payloadSize heap block.payload = block.size - 16 := by
  obtain ⟨lists, consistent⟩ := atRest.consistent
  have spec := consistent.layout.payload_spec member
  have minimum := (consistent.layout.sized member).minimum
  rw [payloadSize, consistent.sizeAt member]
  exact sub_of_le (by omega) (by rw [DSIZE]; omega)

theorem Serves.isolated (serves : Serves regions program) (distinct : Distinct program.live)
    {lists : Nat → List Nat} (invariant : HeapInvariant program.heap regions lists) :
    Isolated program regions lists := by
  obtain ⟨lists', consistent⟩ := serves.atRest.consistent
  have layout := consistent.layout
  constructor
  · intro entry isLive
    obtain ⟨block, member, -, isPayload, -⟩ := serves.backed entry isLive
    exact isPayload ▸ (layout.payload_spec member).1
  · intro entry isLive
    obtain ⟨block, member, -, isPayload, room⟩ := serves.backed entry isLive
    rw [← isPayload, serves.atRest.payloadSize_eq member]
    omega
  · intro entry isLive
    obtain ⟨block, member, -, isPayload, -⟩ := serves.backed entry isLive
    obtain ⟨region, isRegion, inRegion⟩ := mem_allBlocks.mp member
    have inside := (layout.shaped region isRegion).inside inRegion
    refine ⟨(region.base, region.total), ?_, ?_⟩
    · rw [serves.atRest.mapped]
      exact List.mem_map_of_mem isRegion
    · rw [← isPayload, serves.atRest.payloadSize_eq member]
      dsimp only
      omega
  · refine distinct.imp_of_mem fun {entry other} isLive isOther different => ?_
    obtain ⟨block, member, -, isPayload, -⟩ := serves.backed entry isLive
    obtain ⟨block', member', -, isPayload', -⟩ := serves.backed other isOther
    rw [payloadArea, payloadArea, ← isPayload, ← isPayload',
      serves.atRest.payloadSize_eq member, serves.atRest.payloadSize_eq member', AreasApart]
    dsimp only
    rcases layout.blocks_apart member member' with rfl | below | above
    · exact absurd (isPayload.symm.trans isPayload') different
    · omega
    · omega
  · intro entry isLive area isBookkeeping
    obtain ⟨block, member, isAllocated, isPayload, -⟩ := serves.backed entry isLive
    obtain ⟨region, isRegion, inRegion⟩ := mem_allBlocks.mp member
    have inside := (layout.shaped region isRegion).inside inRegion
    have minimum := (layout.sized member).minimum
    -- A region frames its own blocks and lies apart from the other regions.
    have frame : ∀ other ∈ regions, 64 ≤ other.total ∧
        (block.payload + block.size ≤ other.base + other.total ∧ other.base + 32 ≤ block.payload ∨
          block.payload + block.size ≤ other.base ∨ other.base + other.total ≤ block.payload) := by
      intro other isOther
      refine ⟨(layout.shaped other isOther).room, ?_⟩
      rcases layout.apart_of_ne isRegion isOther with rfl | below | above
      · exact .inl ⟨inside.2, inside.1⟩
      · exact .inr (.inl (by omega))
      · exact .inr (.inr (by omega))
    have epilogue : ∀ other ∈ regions, block.payload + block.size ≤ other.epilogue + 8 ∨
        other.base + other.total ≤ block.payload := by
      intro other isOther
      have room := (layout.shaped other isOther).room
      have around := frame other isOther
      rw [Region.epilogue]
      omega
    rw [payloadArea, ← isPayload, serves.atRest.payloadSize_eq member, AreasApart]
    dsimp only
    cases isBookkeeping with
    | chunk other isOther =>
        have around := frame other isOther
        rw [sizeofChunk]
        omega
    | prologue other isOther =>
        have around := frame other isOther
        rw [Region.prologue, WSIZE]
        omega
    | epilogue other isOther =>
        have around := frame other isOther
        have upper := epilogue other isOther
        rw [Region.epilogue] at upper ⊢
        rw [WSIZE]
        omega
    | header other isOther =>
        have minimum' := (layout.sized isOther).minimum
        rw [Block.header, WSIZE]
        rcases layout.blocks_apart member isOther with rfl | below | above
        · omega
        · omega
        · omega
    | footer other isOther =>
        have minimum' := (layout.sized isOther).minimum
        rw [Block.footer, WSIZE]
        rcases layout.blocks_apart member isOther with rfl | below | above
        · omega
        · omega
        · omega
    | link c n listed =>
        obtain ⟨other, isOther, isFree, rfl⟩ := invariant.nodes c n listed
        have minimum' := (layout.sized isOther).minimum
        rcases layout.blocks_apart member isOther with rfl | below | above
        · rw [isAllocated] at isFree
          exact Bool.noConfusion isFree
        · omega
        · omega

/-! ## What a call leaves alone -/

/-- The call was given this allocation: its pointer, or an address that the program
writes to. -/
def Call.Concerns (entry : Nat × Nat) : Call → Prop
  | .write address _ => entry.1 ≤ address ∧ address < entry.1 + entry.2
  | call => call.Passes entry.1

/-- An allocation stays live, with the same bytes. -/
structure Untouched (program next : Program) (entry : Nat × Nat) : Prop where
  live : entry ∈ next.live
  size : payloadSize next.heap entry.1 = payloadSize program.heap entry.1
  bytes : ∀ a, entry.1 ≤ a → a < entry.1 + payloadSize program.heap entry.1 →
    next.heap.mem a = program.heap.mem a

/-- An allocation whose block is still there, with the same bytes. -/
theorem Serves.untouched (serves : Serves regions program) (serves' : Serves regions' next)
    {entry : Nat × Nat} {block : Block} (isPayload : block.payload = entry.1)
    (member : block ∈ allBlocks regions) (member' : block ∈ allBlocks regions')
    (live : entry ∈ next.live)
    (bytes : ∀ a, block.payload ≤ a → a + 16 < block.payload + block.size →
      next.heap.mem a = program.heap.mem a) : Untouched program next entry := by
  have size := serves.atRest.payloadSize_eq member
  have size' := serves'.atRest.payloadSize_eq member'
  rw [isPayload] at size size'
  refine ⟨live, size'.trans size.symm, fun a lower upper => bytes a ?_ ?_⟩
  · omega
  · omega

theorem Effect.untouched (effect : Effect regions program call regions' next)
    (serves : Serves regions program) (distinct : Distinct program.live)
    (allowed : call.Allowed program.live) {entry : Nat × Nat} (isLive : entry ∈ program.live)
    (unconcerned : ¬ call.Concerns entry) : Untouched program next entry := by
  have serves' := effect.serves serves
  obtain ⟨block, member, isAllocated, isPayload, room⟩ := serves.backed entry isLive
  -- The pointer that was passed is not this one.
  have notPassed : ∀ other : Block, call.Passes other.payload → other.payload ≠ entry.1 := by
    intro other passes same
    rw [same] at passes
    cases call with
    | balloc size => exact passes
    | bcalloc nmemb size => exact passes
    | write address byte => exact passes
    | bfree ptr => exact unconcerned passes
    | brealloc ptr size => exact unconcerned passes
  cases effect with
  | idle sameRegions same =>
      subst same sameRegions
      exact serves.untouched serves isPayload member member isLive fun _ _ _ => rfl
  | granted taken size room live granted =>
      refine serves.untouched serves' isPayload member
        ((granted.blocks block isAllocated).mpr (.inr member)) ?_ fun a lower upper => ?_
      · rw [live]
        exact List.mem_cons_of_mem _ isLive
      · exact granted.bytes a ⟨block, member, isAllocated, lower, upper⟩
  | released other isOther passes live released =>
      have different := notPassed other passes
      have isNot : block ≠ other := by
        rintro rfl
        exact different isPayload
      have member' := (released.blocks block isAllocated).mpr ⟨member, isNot⟩
      refine serves.untouched serves' isPayload member member' ?_ fun a lower upper => ?_
      · rw [live]
        exact mem_forget.mpr ⟨isLive, different.symm⟩
      · exact released.bytes a ⟨block, member', isAllocated, lower, upper⟩
  | kept other size isOther otherAllocated room passes sameRegions same live =>
      refine serves.untouched serves' isPayload member (sameRegions ▸ member) ?_ fun a _ _ => ?_
      · rw [live]
        exact List.mem_cons_of_mem _ (mem_forget.mpr ⟨isLive, (notPassed other passes).symm⟩)
      · rw [same]
  | moved other taken size isOther room passes live moved =>
      have different := notPassed other passes
      have isNot : block ≠ other := by
        rintro rfl
        exact different isPayload
      have member' := (moved.blocks block isAllocated).mpr ⟨.inr member, isNot⟩
      refine serves.untouched serves' isPayload member member' ?_ fun a lower upper => ?_
      · rw [live]
        exact List.mem_cons_of_mem _ (mem_forget.mpr ⟨isLive, different.symm⟩)
      · exact moved.bytes block member isAllocated isNot a lower upper
  | wrote other address byte isWrite isOther otherAllocated lower upper sameRegions live isHeap =>
      refine serves.untouched serves' isPayload member (sameRegions ▸ member) (live ▸ isLive) ?_
      intro a lower' upper'
      subst isWrite
      obtain ⟨target, isTarget, above, below⟩ := allowed
      rw [isHeap]
      refine if_neg ?_
      rintro rfl
      -- The byte belongs to the allocation that is written to.
      obtain ⟨lists, consistent⟩ := serves.atRest.consistent
      obtain ⟨block', member', -, isPayload', room'⟩ := serves.backed target isTarget
      rcases consistent.layout.blocks_apart member member' with rfl | before | behind
      · have same := distinct.eq_of_same isLive isTarget (isPayload.symm.trans isPayload')
        exact unconcerned (same ▸ ⟨above, below⟩)
      · omega
      · omega

end Steps

/-- In every reachable state the live payloads are aligned, large enough, inside
mapped memory, apart from each other and from all data of the allocator; and no
call changes a byte of a live payload that it was not given. -/
theorem live_allocations_isolated {program : Program} (reachable : Reachable program) :
    (∃ regions lists, HeapInvariant program.heap regions lists ∧
      Isolated program regions lists) ∧
      ∀ fuel mmap call next, Fresh program.heap.mapped mmap → call.Allowed program.live →
        program.step fuel mmap call = some next →
          ∀ entry ∈ program.live, ¬ call.Concerns entry → Untouched program next entry := by
  obtain ⟨regions, serves⟩ := reachable_serves reachable
  have distinct := reachable_distinct reachable
  constructor
  · obtain ⟨lists, invariant⟩ := serves.atRest.heapInvariant
    exact ⟨regions, lists, invariant, serves.isolated distinct invariant⟩
  · intro fuel mmap call next fresh allowed stepped entry isLive unconcerned
    obtain ⟨regions', effect⟩ := step_effect serves fresh (allowed.sound _ _) stepped
    exact effect.untouched serves distinct allowed isLive unconcerned

theorem live_allocations_isolated_once : ∃ program : Program, program.live = [(4128, 100)] ∧
    (∃ regions lists, HeapInvariant program.heap regions lists ∧
      Isolated program regions lists) ∧
      ∀ fuel mmap call next, Fresh program.heap.mapped mmap → call.Allowed program.live →
        program.step fuel mmap call = some next →
          ∀ entry ∈ program.live, ¬ call.Concerns entry → Untouched program next entry := by
  obtain ⟨program, isLive, reachable⟩ := reachable_once
  exact ⟨program, isLive, live_allocations_isolated reachable⟩

end FoundationsLab.Balloc
