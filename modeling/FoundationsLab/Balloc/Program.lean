import FoundationsLab.Balloc.Check

/-! # Programs that allocate

A program holds pointers, each with the size it asked for. It calls the public
functions and writes into the bytes it asked for. The heap is at rest after
every call. -/

namespace FoundationsLab.Balloc

open Foundation
open Foundation.Word64
open Foundation.DoublyLinked

/-! ## Calls -/

/-- The heap, and the live pointers with the sizes that were requested for them. -/
structure Program where
  heap : Heap
  live : List (Nat × Nat)

inductive Call where
  | balloc (size : Nat)
  | bfree (ptr : Nat)
  | bcalloc (nmemb size : Nat)
  | brealloc (ptr size : Nat)
  | write (address : Nat) (byte : UInt8)

/-- The pointer is `NULL` or live. -/
def Valid (live : List (Nat × Nat)) (ptr : Nat) : Prop :=
  ptr = 0 ∨ ∃ size, (ptr, size) ∈ live

/-- What a program promises. The product of a `bcalloc` that overflows is not a
request. -/
def Call.Allowed (live : List (Nat × Nat)) : Call → Prop
  | .balloc size => size ≤ 2 ^ 62
  | .bfree ptr => Valid live ptr
  | .bcalloc nmemb size => nmemb * size ≤ 2 ^ 62 ∨ 2 ^ 64 ≤ nmemb * size
  | .brealloc ptr size => Valid live ptr ∧ size ≤ 2 ^ 62
  | .write address _ => ∃ entry ∈ live, entry.1 ≤ address ∧ address < entry.1 + entry.2

def record (live : List (Nat × Nat)) (ptr size : Nat) : List (Nat × Nat) :=
  if ptr = 0 then live else (ptr, size) :: live

def forget (live : List (Nat × Nat)) (ptr : Nat) : List (Nat × Nat) :=
  live.filter (·.1 ≠ ptr)

/-- One call. A `brealloc` that returns `NULL` for a size to keep leaves the old
pointer live. -/
def Program.step (fuel : Nat) (mmap : Nat → Option Nat) (program : Program) :
    Call → Option Program
  | .balloc size => do
      let (heap, p) ← balloc fuel mmap program.heap size
      some ⟨heap, record program.live p size⟩
  | .bfree ptr => some ⟨bfree program.heap ptr, forget program.live ptr⟩
  | .bcalloc nmemb size => do
      let (heap, p) ← bcalloc fuel mmap program.heap nmemb size
      some ⟨heap, record program.live p (nmemb * size)⟩
  | .brealloc ptr size => do
      let (heap, p) ← brealloc fuel mmap program.heap ptr size
      if size = 0 ∨ p ≠ 0 then some ⟨heap, record (forget program.live ptr) p size⟩
      else some ⟨heap, program.live⟩
  | .write address byte =>
      some { program with heap :=
        { program.heap with mem := program.heap.mem.storeByte address byte } }

/-- What the heap needs of a call: a pointer that it knows, and a size that does
not wrap around where the call asks for a block. -/
def Call.Sound (fuel : Nat) (mmap : Nat → Option Nat) (program : Program) : Call → Prop
  | .balloc size => Ample fuel mmap program.heap size
  | .bfree ptr => Valid program.live ptr
  | .bcalloc nmemb size => nmemb * size < 2 ^ 64 → Ample fuel mmap program.heap (nmemb * size)
  | .brealloc ptr size => Valid program.live ptr ∧
      (ptr = 0 ∨ sub (blkSize program.heap.mem (hdrp ptr)) DSIZE < size →
        Ample fuel mmap program.heap size)
  | .write address _ => ∃ entry ∈ program.live, entry.1 ≤ address ∧ address < entry.1 + entry.2

/-- Sizes up to `2 ^ 62` do not wrap around. -/
theorem Call.Allowed.sound {program : Program} {call : Call} (allowed : call.Allowed program.live)
    (fuel : Nat) (mmap : Nat → Option Nat) : call.Sound fuel mmap program := by
  cases call with
  | balloc size => exact ample_of_le allowed fuel mmap _
  | bfree ptr => exact allowed
  | bcalloc nmemb size =>
      intro fits
      have bound : nmemb * size ≤ 2 ^ 62 := allowed.resolve_right (Nat.not_le.mpr fits)
      exact ample_of_le bound fuel mmap _
  | brealloc ptr size => exact ⟨allowed.1, fun _ => ample_of_le allowed.2 fuel mmap _⟩
  | write address byte => exact allowed

def Program.initial (mem : Memory) : Program where
  heap := Heap.initial mem
  live := []

/-- The states of a program that keeps its promises, on a system that keeps its own. -/
inductive Reachable : Program → Prop
  | initial (mem : Memory) : Reachable (Program.initial mem)
  | call {program next : Program} {fuel : Nat} {mmap : Nat → Option Nat} {call : Call}
      (reachable : Reachable program) (fresh : Fresh program.heap.mapped mmap)
      (allowed : call.Allowed program.live) (stepped : program.step fuel mmap call = some next) :
      Reachable next

/-! ## The heap at rest holds what the program asked for -/

/-- The live pointers are the allocated blocks, each with room for its request. -/
structure Serves (regions : List Region) (program : Program) : Prop where
  atRest : AtRest regions program.heap
  backed : ∀ entry ∈ program.live, ∃ block ∈ allBlocks regions, block.allocated = true ∧
    block.payload = entry.1 ∧ entry.2 + 16 ≤ block.size
  known : ∀ block ∈ allBlocks regions, block.allocated = true →
    ∃ size, (block.payload, size) ∈ program.live

theorem initial_serves (mem : Memory) : Serves [] (Program.initial mem) := by
  refine ⟨⟨⟨fun _ => [], ?_⟩, fun _ isRegion => absurd isRegion List.not_mem_nil, rfl,
      ⟨rfl, rfl, rfl, rfl, rfl, rfl⟩⟩,
    fun _ isLive => absurd isLive List.not_mem_nil, fun _ isBlock => absurd isBlock List.not_mem_nil⟩
  constructor
  · exact ⟨fun _ isRegion => absurd isRegion List.not_mem_nil, List.Pairwise.nil⟩
  · exact fun _ isRegion => absurd isRegion List.not_mem_nil
  · rfl
  · simp [Listed, allBlocks]
  · exact fun _ => List.nodup_nil
  · exact fun _ => rfl
  · exact fun _ => trivial

theorem mem_forget {live : List (Nat × Nat)} {ptr : Nat} {entry : Nat × Nat} :
    entry ∈ forget live ptr ↔ entry ∈ live ∧ entry.1 ≠ ptr := by
  simp [forget]

section Steps

variable {regions : List Region} {program : Program}

theorem Serves.block (serves : Serves regions program) {ptr : Nat} (valid : Valid program.live ptr)
    (nonzero : ptr ≠ 0) :
    ∃ block ∈ allBlocks regions, block.allocated = true ∧ block.payload = ptr := by
  obtain ⟨size, isLive⟩ := valid.resolve_left nonzero
  obtain ⟨block, member, isAllocated, isPayload, -⟩ := serves.backed (ptr, size) isLive
  exact ⟨block, member, isAllocated, isPayload⟩

theorem AtRest.payload_ne_zero {heap : Heap} (atRest : AtRest regions heap) {block : Block}
    (member : block ∈ allBlocks regions) : block.payload ≠ 0 := by
  obtain ⟨lists, consistent⟩ := atRest.consistent
  have spec := consistent.layout.payload_spec member
  omega

theorem AtRest.eq_of_payload {heap : Heap} (atRest : AtRest regions heap) {block other : Block}
    (member : block ∈ allBlocks regions) (otherMember : other ∈ allBlocks regions)
    (same : block.payload = other.payload) : block = other := by
  obtain ⟨lists, consistent⟩ := atRest.consistent
  exact consistent.layout.eq_of_payload member otherMember same

/-- The length of a payload, as `brealloc` computes it. -/
theorem AtRest.payload_room {heap : Heap} (atRest : AtRest regions heap) {block : Block}
    (member : block ∈ allBlocks regions) :
    sub (blkSize heap.mem (hdrp block.payload)) DSIZE = block.size - 16 := by
  obtain ⟨lists, consistent⟩ := atRest.consistent
  have spec := consistent.layout.payload_spec member
  have minimum := (consistent.layout.sized member).minimum
  rw [consistent.sizeAt member]
  exact sub_of_le (by omega) (by unfold DSIZE; omega)

theorem Serves.granted (serves : Serves regions program) {regions' : List Region} {heap' : Heap}
    {taken : Block} {size : Nat} (room : size + 16 ≤ taken.size)
    (granted : Granted regions program.heap.mem regions' heap' taken) :
    Serves regions' ⟨heap', (taken.payload, size) :: program.live⟩ := by
  refine ⟨granted.atRest, fun entry isLive => ?_, fun block member isAllocated => ?_⟩
  · rcases List.mem_cons.mp isLive with rfl | isOld
    · exact ⟨taken, granted.member, granted.isAllocated, rfl, room⟩
    · obtain ⟨block, member, isAllocated, isPayload, enough⟩ := serves.backed entry isOld
      exact ⟨block, (granted.blocks block isAllocated).mpr (.inr member), isAllocated, isPayload,
        enough⟩
  · rcases (granted.blocks block isAllocated).mp member with rfl | isOld
    · exact ⟨size, List.mem_cons_self⟩
    · obtain ⟨old, isLive⟩ := serves.known block isOld isAllocated
      exact ⟨old, List.mem_cons_of_mem _ isLive⟩

theorem Serves.released (serves : Serves regions program) {regions' : List Region} {heap' : Heap}
    {block : Block} (member : block ∈ allBlocks regions)
    (released : Released regions program.heap.mem regions' heap' block) :
    Serves regions' ⟨heap', forget program.live block.payload⟩ := by
  refine ⟨released.atRest, fun entry isLive => ?_, fun other isOther isAllocated => ?_⟩
  · obtain ⟨isLive, different⟩ := mem_forget.mp isLive
    obtain ⟨other, isOther, isAllocated, isPayload, enough⟩ := serves.backed entry isLive
    have isNot : other ≠ block := fun equal => different (by rw [← isPayload, equal])
    exact ⟨other, (released.blocks other isAllocated).mpr ⟨isOther, isNot⟩, isAllocated, isPayload,
      enough⟩
  · obtain ⟨isOld, isNot⟩ := (released.blocks other isAllocated).mp isOther
    obtain ⟨size, isLive⟩ := serves.known other isOld isAllocated
    refine ⟨size, mem_forget.mpr ⟨isLive, fun same => isNot ?_⟩⟩
    exact serves.atRest.eq_of_payload isOld member same

theorem Serves.forget_null (serves : Serves regions program) :
    forget program.live 0 = program.live := by
  refine List.filter_eq_self.mpr fun entry isLive => ?_
  obtain ⟨block, member, -, isPayload, -⟩ := serves.backed entry isLive
  simpa [← isPayload] using serves.atRest.payload_ne_zero member

/-- The pointer stays, or its block moves to a new one. -/
theorem Serves.moved (serves : Serves regions program) {regions' : List Region} {heap' : Heap}
    {block taken : Block} {size : Nat} (member : block ∈ allBlocks regions)
    (atRest : AtRest regions' heap') (isTaken : taken.allocated = true)
    (room : size + 16 ≤ taken.size)
    (blocks : ∀ other, other.allocated = true → (other ∈ allBlocks regions' ↔
      other = taken ∨ other ∈ allBlocks regions ∧ other ≠ block)) :
    Serves regions' ⟨heap', (taken.payload, size) :: forget program.live block.payload⟩ := by
  have isMember : taken ∈ allBlocks regions' := (blocks taken isTaken).mpr (.inl rfl)
  refine ⟨atRest, fun entry isLive => ?_, fun other isOther otherAllocated => ?_⟩
  · rcases List.mem_cons.mp isLive with rfl | isOld
    · exact ⟨taken, isMember, isTaken, rfl, room⟩
    · obtain ⟨isLive, different⟩ := mem_forget.mp isOld
      obtain ⟨other, isOther, otherAllocated, isPayload, enough⟩ := serves.backed entry isLive
      have isNot : other ≠ block := fun equal => different (by rw [← isPayload, equal])
      exact ⟨other, (blocks other otherAllocated).mpr (.inr ⟨isOther, isNot⟩), otherAllocated,
        isPayload, enough⟩
  · rcases (blocks other otherAllocated).mp isOther with rfl | ⟨isOld, isNot⟩
    · exact ⟨size, List.mem_cons_self⟩
    · obtain ⟨old, isLive⟩ := serves.known other isOld otherAllocated
      refine ⟨old, List.mem_cons_of_mem _ (mem_forget.mpr ⟨isLive, fun same => isNot ?_⟩)⟩
      exact serves.atRest.eq_of_payload isOld member same

/-! ## What a call does -/

/-- The pointer that a call was given. -/
def Call.Passes (ptr : Nat) : Call → Prop
  | .bfree passed => passed = ptr
  | .brealloc passed _ => passed = ptr
  | _ => False

/-- All that one call can do to the blocks of the heap and to the live pointers. -/
inductive Effect (regions : List Region) (program : Program) (call : Call)
    (regions' : List Region) (next : Program) : Prop
  | idle (sameRegions : regions' = regions) (same : next = program)
  | granted (taken : Block) (size : Nat) (room : size + 16 ≤ taken.size)
      (live : next.live = (taken.payload, size) :: program.live)
      (granted : Granted regions program.heap.mem regions' next.heap taken)
  | released (block : Block) (member : block ∈ allBlocks regions)
      (passes : call.Passes block.payload) (live : next.live = forget program.live block.payload)
      (released : Released regions program.heap.mem regions' next.heap block)
  | kept (block : Block) (size : Nat) (member : block ∈ allBlocks regions)
      (isAllocated : block.allocated = true) (room : size + 16 ≤ block.size)
      (passes : call.Passes block.payload) (sameRegions : regions' = regions)
      (same : next.heap = program.heap)
      (live : next.live = (block.payload, size) :: forget program.live block.payload)
  | moved (block taken : Block) (size : Nat) (member : block ∈ allBlocks regions)
      (room : size + 16 ≤ taken.size) (passes : call.Passes block.payload)
      (live : next.live = (taken.payload, size) :: forget program.live block.payload)
      (moved : Moved regions program.heap.mem regions' next.heap block taken)
  | wrote (block : Block) (address : Nat) (byte : UInt8) (isWrite : call = .write address byte)
      (member : block ∈ allBlocks regions) (isAllocated : block.allocated = true)
      (lower : block.payload ≤ address) (upper : address + 16 < block.payload + block.size)
      (sameRegions : regions' = regions) (live : next.live = program.live)
      (isHeap : next.heap =
        { program.heap with mem := program.heap.mem.storeByte address byte })

theorem record_of_ne {live : List (Nat × Nat)} {ptr size : Nat} (nonzero : ptr ≠ 0) :
    record live ptr size = (ptr, size) :: live :=
  if_neg nonzero

theorem Granted.payload_ne_zero {mem : Memory} {regions' : List Region} {heap' : Heap}
    {taken : Block} (granted : Granted regions mem regions' heap' taken) : taken.payload ≠ 0 :=
  granted.atRest.payload_ne_zero granted.member

/-- A call of `balloc` or `bcalloc`. -/
theorem requested_effect (call : Call) {heap' : Heap} {p size : Nat} (spec : (p = 0 ∧ heap' = program.heap) ∨ ∃ regions' taken, taken.payload = p ∧
      size + 16 ≤ taken.size ∧ Granted regions program.heap.mem regions' heap' taken) :
    ∃ regions', Effect regions program call regions' ⟨heap', record program.live p size⟩ := by
  rcases spec with ⟨rfl, rfl⟩ | ⟨regions', taken, rfl, room, granted⟩
  · exact ⟨regions, .idle rfl rfl⟩
  · exact ⟨regions', .granted taken size room (record_of_ne granted.payload_ne_zero) granted⟩

theorem bfree_effect {ptr : Nat} {call : Call} (serves : Serves regions program)
    (valid : Valid program.live ptr) (passes : call.Passes ptr) :
    ∃ regions', Effect regions program call regions'
      ⟨bfree program.heap ptr, forget program.live ptr⟩ := by
  by_cases isNull : ptr = 0
  · obtain rfl := isNull
    refine ⟨regions, .idle rfl ?_⟩
    rw [serves.forget_null, bfree, if_pos rfl]
  · obtain ⟨block, member, isAllocated, rfl⟩ := serves.block valid isNull
    obtain ⟨regions', released⟩ := bfree_released serves.atRest member isAllocated
    exact ⟨regions', .released block member passes rfl released⟩

theorem brealloc_effect {fuel ptr size p : Nat} {mmap : Nat → Option Nat} {heap' : Heap}
    (serves : Serves regions program) (fresh : Fresh program.heap.mapped mmap)
    (sound : (Call.brealloc ptr size).Sound fuel mmap program)
    (returned : brealloc fuel mmap program.heap ptr size = some (heap', p)) :
    ∃ regions', Effect regions program (.brealloc ptr size) regions'
      ⟨heap', if size = 0 ∨ p ≠ 0 then record (forget program.live ptr) p size
        else program.live⟩ := by
  obtain ⟨valid, ample⟩ := sound
  by_cases isNull : ptr = 0
  · obtain rfl := isNull
    rw [brealloc, if_pos rfl] at returned
    have spec := balloc_spec serves.atRest fresh (ample (.inl rfl)) returned
    rw [serves.forget_null]
    by_cases kept : size = 0 ∨ p ≠ 0
    · rw [if_pos kept]
      exact requested_effect _ spec
    · have failed : p = 0 := by omega
      have noRecord : record program.live p size = program.live := if_pos failed
      rw [if_neg kept, ← noRecord]
      exact requested_effect _ spec
  · by_cases isEmpty : size = 0
    · rw [brealloc, if_neg isNull, if_pos isEmpty] at returned
      obtain ⟨rfl, rfl⟩ := Prod.mk.inj (Option.some.inj returned)
      rw [if_pos (.inl isEmpty), record, if_pos rfl]
      exact bfree_effect serves valid rfl
    · obtain ⟨block, member, isAllocated, rfl⟩ := serves.block valid isNull
      have ample : block.size - 16 < size → Ample fuel mmap program.heap size := fun larger =>
        ample (.inr (by rwa [serves.atRest.payload_room member]))
      rcases brealloc_spec serves.atRest fresh member isAllocated ample isEmpty returned with
        ⟨rfl, rfl | ⟨rfl, room⟩⟩ | ⟨regions', taken, rfl, room, -, moved⟩
      · refine ⟨regions, .idle rfl ?_⟩
        rw [if_neg (by omega)]
      · refine ⟨regions, .kept block size member isAllocated room rfl rfl rfl ?_⟩
        exact (if_pos (.inr isNull)).trans (record_of_ne isNull)
      · have isBlock : taken ≠ block := fun equal => moved.fresh (equal ▸ member)
        have isMember : taken ∈ allBlocks regions' :=
          (moved.blocks taken moved.isAllocated).mpr ⟨.inl rfl, isBlock⟩
        have nonzero := moved.atRest.payload_ne_zero isMember
        refine ⟨regions', .moved block taken size member room rfl ?_ moved⟩
        exact (if_pos (.inr nonzero)).trans (record_of_ne nonzero)

theorem step_effect {fuel : Nat} {mmap : Nat → Option Nat} {call : Call} {next : Program}
    (serves : Serves regions program) (fresh : Fresh program.heap.mapped mmap)
    (sound : call.Sound fuel mmap program) (stepped : program.step fuel mmap call = some next) :
    ∃ regions', Effect regions program call regions' next := by
  cases call with
  | balloc size =>
      obtain ⟨⟨heap', p⟩, returned, result⟩ := Option.bind_eq_some_iff.mp stepped
      obtain rfl := Option.some.inj result
      exact requested_effect _ (balloc_spec serves.atRest fresh sound returned)
  | bfree ptr =>
      obtain rfl := Option.some.inj stepped
      exact bfree_effect serves sound rfl
  | bcalloc nmemb size =>
      obtain ⟨⟨heap', p⟩, returned, result⟩ := Option.bind_eq_some_iff.mp stepped
      obtain rfl := Option.some.inj result
      exact requested_effect _ (bcalloc_spec serves.atRest fresh sound returned)
  | brealloc ptr size =>
      obtain ⟨⟨heap', p⟩, returned, result⟩ := Option.bind_eq_some_iff.mp stepped
      obtain ⟨regions', effect⟩ := brealloc_effect serves fresh sound returned
      have isNext : next = ⟨heap', if size = 0 ∨ p ≠ 0 then record (forget program.live ptr) p size
          else program.live⟩ := by
        dsimp only at result
        split at result <;> rename_i kept <;> rw [← Option.some.inj result]
        · rw [if_pos kept]
        · rw [if_neg kept]
      exact ⟨regions', isNext ▸ effect⟩
  | write address byte =>
      obtain rfl := Option.some.inj stepped
      obtain ⟨entry, isLive, lower, upper⟩ := sound
      obtain ⟨block, member, isAllocated, isPayload, room⟩ := serves.backed entry isLive
      exact ⟨regions, .wrote block address byte rfl member isAllocated (by omega) (by omega) rfl rfl
        rfl⟩

/-! ## Every call keeps the service -/

theorem Effect.serves {regions' : List Region} {call : Call} {next : Program}
    (effect : Effect regions program call regions' next) (serves : Serves regions program) :
    Serves regions' next := by
  obtain ⟨heap', live'⟩ := next
  cases effect with
  | idle sameRegions same => exact sameRegions ▸ same ▸ serves
  | granted taken size room live granted =>
      obtain rfl : live' = _ := live
      exact serves.granted room granted
  | released block member passes live released =>
      obtain rfl : live' = _ := live
      exact serves.released member released
  | kept block size member isAllocated room passes sameRegions same live =>
      obtain rfl : live' = _ := live
      obtain rfl : heap' = _ := same
      obtain rfl := sameRegions
      refine serves.moved member serves.atRest isAllocated room fun other _ => ?_
      by_cases isBlock : other = block
      · simp [isBlock, member]
      · simp [isBlock]
  | moved block taken size member room passes live moved =>
      obtain rfl : live' = _ := live
      have isBlock : taken ≠ block := fun equal => moved.fresh (equal ▸ member)
      refine serves.moved member moved.atRest moved.isAllocated room fun other otherAllocated => ?_
      rw [moved.blocks other otherAllocated]
      by_cases same : other = taken
      · simp [same, isBlock]
      · simp [same]
  | wrote block address byte isWrite member isAllocated lower upper sameRegions live isHeap =>
      obtain rfl : live' = _ := live
      obtain rfl : heap' = _ := isHeap
      obtain rfl := sameRegions
      exact ⟨serves.atRest.write member isAllocated fun a away => if_neg (by omega),
        serves.backed, serves.known⟩

theorem step_serves {fuel : Nat} {mmap : Nat → Option Nat} {call : Call} {next : Program}
    (serves : Serves regions program) (fresh : Fresh program.heap.mapped mmap)
    (sound : call.Sound fuel mmap program) (stepped : program.step fuel mmap call = some next) :
    ∃ regions', Serves regions' next := by
  obtain ⟨regions', effect⟩ := step_effect serves fresh sound stepped
  exact ⟨regions', effect.serves serves⟩

/-- Every call returns when the walks along the free lists have enough fuel. -/
theorem step_total (serves : Serves regions program) :
    ∃ bound, ∀ fuel, bound ≤ fuel → ∀ mmap call, ∃ next, program.step fuel mmap call = some next := by
  obtain ⟨lists, consistent⟩ := serves.atRest.consistent
  obtain ⟨bound, enough⟩ := exists_enough lists
  refine ⟨bound, fun fuel large mmap call => ?_⟩
  have enough := enough fuel large
  cases call with
  | balloc size =>
      obtain ⟨⟨heap', p⟩, returned⟩ := balloc_total consistent enough mmap size
      exact ⟨_, by simp only [Program.step, returned]; rfl⟩
  | bfree ptr => exact ⟨_, rfl⟩
  | bcalloc nmemb size =>
      obtain ⟨⟨heap', p⟩, returned⟩ := bcalloc_total consistent enough mmap nmemb size
      exact ⟨_, by simp only [Program.step, returned]; rfl⟩
  | brealloc ptr size =>
      obtain ⟨⟨heap', p⟩, returned⟩ := brealloc_total consistent enough mmap ptr size
      simp only [Program.step, returned, Option.bind_eq_bind, Option.bind_some]
      split <;> exact ⟨_, rfl⟩
  | write address byte => exact ⟨_, rfl⟩

end Steps

theorem reachable_serves {program : Program} (reachable : Reachable program) :
    ∃ regions, Serves regions program := by
  induction reachable with
  | initial mem => exact ⟨[], initial_serves mem⟩
  | call _ fresh allowed stepped induction =>
      obtain ⟨regions, serves⟩ := induction
      exact step_serves serves fresh (allowed.sound _ _) stepped

/-! ## The heap invariant -/

/-- What holds of the heap between two calls, for the blocks of its chunks and
the nodes of its free lists. -/
structure HeapInvariant (heap : Heap) (regions : List Region) (lists : Nat → List Nat) : Prop where
  /-- The list of chunks. -/
  chunks : Chunked heap.mem heap.gChunks regions
  apart : regions.Pairwise Region.Apart
  prologue : ∀ region ∈ regions, heap.mem.load64 region.prologue = pack WSIZE 1
  epilogue : ∀ region ∈ regions, heap.mem.load64 region.epilogue = pack 0 1
  tiled : ∀ region ∈ regions, Tiles (region.prologue + WSIZE) region.blocks region.epilogue
  header : ∀ block ∈ allBlocks regions,
    heap.mem.load64 (hdrp block.payload) = pack block.size block.allocated.toNat
  footer : ∀ block ∈ allBlocks regions,
    heap.mem.load64 (ftrp heap.mem block.payload) = heap.mem.load64 (hdrp block.payload)
  aligned : ∀ block ∈ allBlocks regions, DSIZE ∣ block.payload
  multiple : ∀ block ∈ allBlocks regions, 16 ∣ block.size
  minimum : ∀ block ∈ allBlocks regions, MIN_BLOCK ≤ block.size
  separated : ∀ region ∈ regions,
    region.blocks.IsChain fun block next => block.allocated = true ∨ next.allocated = true
  /-- Each list starts at its head and is linked in both directions. -/
  heads : ∀ c, heap.gClass c = (lists c).headD 0
  linked : ∀ c, Segment heap.mem 0 (lists c) 0
  /-- A free block is once in the list of its class, and in no other list. -/
  listedOnce : ∀ block ∈ allBlocks regions, block.allocated = false →
    ∀ c, (lists c).count block.payload = if c = sizeClass block.size then 1 else 0
  unlisted : ∀ block ∈ allBlocks regions, block.allocated = true →
    ∀ c, block.payload ∉ lists c
  nodes : ∀ c, ∀ n ∈ lists c, ∃ block ∈ allBlocks regions, block.allocated = false ∧
    block.payload = n

theorem AtRest.heapInvariant {regions : List Region} {heap : Heap} (atRest : AtRest regions heap) :
    ∃ lists, HeapInvariant heap regions lists := by
  obtain ⟨lists, consistent⟩ := atRest.consistent
  have layout := consistent.layout
  refine ⟨lists, ?_⟩
  constructor
  · exact consistent.chunked
  · exact layout.apart
  · exact fun region isRegion => (consistent.tagged region isRegion).prologue
  · exact fun region isRegion => (consistent.tagged region isRegion).epilogue
  · exact fun region isRegion => (layout.shaped region isRegion).tiles
  · exact fun block member => (consistent.blockTagged member).header
  · intro block member
    have tags := consistent.blockTagged member
    rw [ftrp, consistent.sizeAt member]
    exact tags.footer.trans tags.header.symm
  · exact fun block member => (layout.payload_spec member).1
  · exact fun block member => (layout.sized member).aligned
  · exact fun block member => (layout.sized member).minimum
  · exact atRest.separated
  · exact consistent.heads
  · exact consistent.linked
  · intro block member isFree c
    have listed : block.payload ∈ lists (sizeClass block.size) :=
      (consistent.listed _ _).mpr ⟨List.not_mem_nil, block, member, isFree, rfl, rfl⟩
    by_cases isClass : c = sizeClass block.size
    · rw [if_pos isClass, isClass]
      exact List.count_eq_one_of_mem (consistent.nodup _) listed
    · rw [if_neg isClass]
      exact List.count_eq_zero_of_not_mem (consistent.not_member_of_ne listed isClass)
  · intro block member isAllocated c listed
    obtain ⟨other, isOther, isFree, isPayload, -⟩ := consistent.block_of_member listed
    rw [layout.eq_of_payload isOther member isPayload, isAllocated] at isFree
    exact Bool.noConfusion isFree
  · intro c n listed
    obtain ⟨block, member, isFree, isPayload, -⟩ := consistent.block_of_member listed
    exact ⟨block, member, isFree, isPayload⟩

/-- Every heap that a program can reach has the invariant, the checker accepts it,
and the next call returns. -/
theorem reachable_heap_invariant {program : Program} (reachable : Reachable program) :
    (∃ regions lists, HeapInvariant program.heap regions lists) ∧
      (∃ bound, ∀ fuel, bound ≤ fuel → ballocCheck fuel program.heap = some 0) ∧
      ∃ bound, ∀ fuel, bound ≤ fuel → ∀ mmap call, ∃ next,
        program.step fuel mmap call = some next := by
  obtain ⟨regions, serves⟩ := reachable_serves reachable
  exact ⟨⟨regions, serves.atRest.heapInvariant⟩, serves.atRest.ballocCheck, step_total serves⟩

/-- A page for the first request of a chunk, and nothing for any other. -/
def onePage (total : Nat) : Option Nat := if total = CHUNK then some 4096 else none

theorem reachable_once : ∃ program : Program, program.live = [(4128, 100)] ∧ Reachable program := by
  have returned : ((Program.initial fun _ => 0).step 1 onePage (.balloc 100)).map (·.live) =
      some [(4128, 100)] := by decide +kernel
  obtain ⟨program, stepped, isLive⟩ := Option.map_eq_some_iff.mp returned
  have fresh : Fresh (Program.initial fun _ => 0).heap.mapped onePage := by
    intro total base obtained
    rw [onePage] at obtained
    split at obtained
    · rename_i isChunk
      obtain rfl := Option.some.inj obtained
      rw [isChunk]
      exact ⟨by decide, by decide, by decide, fun _ isSpan => absurd isSpan List.not_mem_nil⟩
    · exact absurd obtained (by simp)
  have allowed : (Call.balloc 100).Allowed (Program.initial fun _ => 0).live := by
    show 100 ≤ 2 ^ 62
    decide
  exact ⟨program, isLive, .call (.initial fun _ => 0) fresh allowed stepped⟩

theorem reachable_heap_invariant_once : ∃ program : Program, program.live = [(4128, 100)] ∧
    (∃ regions lists, HeapInvariant program.heap regions lists) ∧
      (∃ bound, ∀ fuel, bound ≤ fuel → ballocCheck fuel program.heap = some 0) ∧
      ∃ bound, ∀ fuel, bound ≤ fuel → ∀ mmap call, ∃ next,
        program.step fuel mmap call = some next := by
  obtain ⟨program, isLive, reachable⟩ := reachable_once
  exact ⟨program, isLive, reachable_heap_invariant reachable⟩

end FoundationsLab.Balloc
