import FoundationsLab.Balloc.Program

/-! # Changing the size of a block

A `brealloc` that returns a pointer keeps the bytes that both sizes have in
common and gives the old block back, unless it returned that block. One that
fails changes nothing. -/

namespace FoundationsLab.Balloc

open Foundation
open Foundation.Word64

/-- The old block gave way to the one at `p`: the allocated blocks are the others
and a new one, which is elsewhere. -/
structure Replaced (heap heap' : Heap) (ptr p size : Nat) : Prop where
  different : p ≠ ptr
  blocks : ∃ regions lists regions' lists' taken, HeapInvariant heap regions lists ∧
    HeapInvariant heap' regions' lists' ∧ taken ∈ allBlocks regions' ∧
    taken.allocated = true ∧ taken.payload = p ∧ size + 16 ≤ taken.size ∧
    ∀ other, other.allocated = true → (other ∈ allBlocks regions' ↔
      other = taken ∨ other ∈ allBlocks regions ∧ other.payload ≠ ptr)

section Replace

variable {regions : List Region} {heap heap' : Heap} {block taken : Block} {regions' : List Region}
  {size : Nat}

theorem Moved.replaced (atRest : AtRest regions heap) (member : block ∈ allBlocks regions)
    (elsewhere : taken.payload ≠ block.payload) (room : size + 16 ≤ taken.size)
    (moved : Moved regions heap.mem regions' heap' block taken) :
    Replaced heap heap' block.payload taken.payload size := by
  obtain ⟨lists, invariant⟩ := atRest.heapInvariant
  obtain ⟨lists', invariant'⟩ := moved.atRest.heapInvariant
  have isNew : taken ≠ block := fun same => elsewhere (congrArg Block.payload same)
  have isMember : taken ∈ allBlocks regions' :=
    (moved.blocks taken moved.isAllocated).mpr ⟨.inl rfl, isNew⟩
  refine ⟨elsewhere, regions, lists, regions', lists', taken, invariant, invariant', isMember,
    moved.isAllocated, rfl, room, fun other isAllocated => ?_⟩
  rw [moved.blocks other isAllocated]
  constructor
  · rintro ⟨rfl | isOld, notBlock⟩
    · exact .inl rfl
    · exact .inr ⟨isOld, fun same => notBlock (atRest.eq_of_payload isOld member same)⟩
  · rintro (rfl | ⟨isOld, notThere⟩)
    · exact ⟨.inl rfl, isNew⟩
    · exact ⟨.inr isOld, fun same => notThere (congrArg Block.payload same)⟩

end Replace

/-- `brealloc` of a live pointer returns. With a pointer, it kept the bytes that
the old request and the new one have in common, and either returned the old block
of an unchanged heap or replaced it; without one, the heap is as before. -/
theorem brealloc_keeps_contents {program : Program} (reachable : Reachable program)
    {ptr old : Nat} (isLive : (ptr, old) ∈ program.live) {size : Nat} (positive : 1 ≤ size)
    (bound : size ≤ 2 ^ 62) {mmap : Nat → Option Nat} (fresh : Fresh program.heap.mapped mmap) :
    (∃ enough, ∀ fuel, enough ≤ fuel →
      ∃ outcome, brealloc fuel mmap program.heap ptr size = some outcome) ∧
    ∀ fuel heap' p, brealloc fuel mmap program.heap ptr size = some (heap', p) →
      (p ≠ 0 → (∀ i, i < min old size → heap'.mem (p + i) = program.heap.mem (ptr + i)) ∧
        (p = ptr ∧ heap' = program.heap ∨ Replaced program.heap heap' ptr p size)) ∧
      (p = 0 → heap' = program.heap) := by
  obtain ⟨regions, serves⟩ := reachable_serves reachable
  have atRest := serves.atRest
  obtain ⟨block, member, isAllocated, isPayload, kept⟩ := serves.backed (ptr, old) isLive
  obtain rfl : block.payload = ptr := isPayload
  constructor
  · obtain ⟨lists, consistent⟩ := atRest.consistent
    obtain ⟨enough, holds⟩ := exists_enough lists
    exact ⟨enough, fun fuel above => brealloc_total consistent (holds fuel above) mmap _ size⟩
  · intro fuel heap' p returned
    have nonzero : size ≠ 0 := by omega
    rcases brealloc_spec atRest fresh member isAllocated
        (fun _ => ample_of_le bound fuel mmap program.heap) nonzero returned with
      ⟨rfl, rfl | ⟨rfl, _⟩⟩ | ⟨regions', taken, rfl, room, elsewhere, moved⟩
    · exact ⟨fun isSome => absurd rfl isSome, fun _ => rfl⟩
    · exact ⟨fun _ => ⟨fun i _ => rfl, .inl ⟨rfl, rfl⟩⟩, fun _ => rfl⟩
    · have isMember : taken ∈ allBlocks regions' :=
        (moved.blocks taken moved.isAllocated).mpr
          ⟨.inl rfl, fun same => elsewhere (congrArg Block.payload same)⟩
      constructor
      · intro _
        constructor
        · intro i inBoth
          exact moved.contents i (by omega) (by omega)
        · exact .inr (moved.replaced atRest member elsewhere room)
      · exact fun isNone => absurd isNone (moved.atRest.payload_ne_zero isMember)

/-- The block of a reachable program, in a system that refuses to map anything. -/
theorem brealloc_keeps_contents_once :
    ∃ program : Program, program.live = [(4128, 100)] ∧
      (∃ enough, ∀ fuel, enough ≤ fuel →
        ∃ outcome, brealloc fuel (fun _ => none) program.heap 4128 500 = some outcome) ∧
      ∀ fuel heap' p, brealloc fuel (fun _ => none) program.heap 4128 500 = some (heap', p) →
        (p ≠ 0 →
          (∀ i, i < min 100 500 → heap'.mem (p + i) = program.heap.mem (4128 + i)) ∧
            (p = 4128 ∧ heap' = program.heap ∨ Replaced program.heap heap' 4128 p 500)) ∧
        (p = 0 → heap' = program.heap) := by
  obtain ⟨program, isLive, reachable⟩ := reachable_once
  have member : (4128, 100) ∈ program.live := isLive ▸ List.mem_singleton_self _
  exact ⟨program, isLive, brealloc_keeps_contents reachable member (by decide) (by decide)
    fun _ _ obtained => by simp at obtained⟩

end FoundationsLab.Balloc
