import FoundationsLab.Balloc.Consistent
import Mathlib.Data.List.Nodup

/-! # The segregated free lists

Putting a free block on its list, and taking one off. Neither touches the
payload of an allocated block. -/

namespace FoundationsLab.Balloc

open Foundation
open Foundation.Word64
open Foundation.DoublyLinked

/-! ## Classes -/

theorem sizeClassLoop_le : ∀ (rest size : Nat), sizeClassLoop rest size ≤ rest
  | 0, _ => le_rfl
  | rest + 1, size => by
      have shorter := sizeClassLoop_le rest (size >>> 1)
      simp only [sizeClassLoop]
      split <;> omega

theorem sizeClass_lt (size : Nat) : sizeClass size < NCLASS :=
  Nat.lt_succ_of_le (sizeClassLoop_le (NCLASS - 1) (size >>> 5))

/-! ## What allocated blocks keep -/

/-- An address in the payload of an allocated block. -/
def InPayload (regions : List Region) (a : Nat) : Prop :=
  ∃ block ∈ allBlocks regions, block.allocated = true ∧ block.payload ≤ a ∧
    a + 16 < block.payload + block.size

/-- The allocated blocks and the bytes in their payloads are the same. -/
structure Keeps (regions : List Region) (mem : Memory) (regions' : List Region) (mem' : Memory) :
    Prop where
  blocks : ∀ block, block.allocated = true →
    (block ∈ allBlocks regions' ↔ block ∈ allBlocks regions)
  bytes : ∀ a, InPayload regions a → mem' a = mem a

namespace Keeps

variable {regions regions' regions'' : List Region} {mem mem' mem'' : Memory}

theorem refl (regions : List Region) (mem : Memory) : Keeps regions mem regions mem :=
  ⟨fun _ _ => .rfl, fun _ _ => rfl⟩

theorem inPayload (keeps : Keeps regions mem regions' mem') (a : Nat) :
    InPayload regions' a ↔ InPayload regions a := by
  constructor
  · rintro ⟨block, member, isAllocated, inside⟩
    exact ⟨block, (keeps.blocks block isAllocated).mp member, isAllocated, inside⟩
  · rintro ⟨block, member, isAllocated, inside⟩
    exact ⟨block, (keeps.blocks block isAllocated).mpr member, isAllocated, inside⟩

theorem trans (left : Keeps regions mem regions' mem')
    (right : Keeps regions' mem' regions'' mem'') : Keeps regions mem regions'' mem'' where
  blocks block isAllocated :=
    (right.blocks block isAllocated).trans (left.blocks block isAllocated)
  bytes a inside := (right.bytes a ((left.inPayload a).mpr inside)).trans (left.bytes a inside)

end Keeps

/-- Cells of free blocks are not part of any payload. -/
theorem Layout.keeps_of_cells {regions : List Region} {mem mem' : Memory} (layout : Layout regions)
    (same : ∀ a, (∀ block ∈ allBlocks regions, block.allocated = false →
      a < block.payload ∨ block.payload + 16 ≤ a) → mem' a = mem a) :
    Keeps regions mem regions mem' where
  blocks _ _ := .rfl
  bytes a := by
    rintro ⟨block, member, isAllocated, lower, upper⟩
    apply same
    intro other otherMember isFree
    have minimum := (layout.sized otherMember).minimum
    rcases layout.blocks_apart member otherMember with rfl | below | above
    · exact absurd (isAllocated.symm.trans isFree) (by decide)
    · omega
    · omega

/-! ## The list operations on memory -/

theorem listInsert_mem (heap : Heap) (n size : Nat) :
    (listInsert heap n size).mem =
      pushFront heap.mem (heap.gClass (sizeClass size)) n := rfl

theorem listRemove_eq (heap : Heap) (n size : Nat) :
    listRemove heap n size =
      { heap with
        mem := unlink heap.mem n
        gClass := if heap.mem.load64 (n + 8) = 0 then
            Function.update heap.gClass (sizeClass size) (heap.mem.load64 n)
          else heap.gClass } := by
  unfold listRemove unlink nodePrev nodeNext
  by_cases noPrev : heap.mem.load64 (n + 8) = 0
  · simp only [if_pos noPrev]
    split <;> rfl
  · simp only [if_neg noPrev]
    split <;> rfl

theorem listRemove_mem (heap : Heap) (n size : Nat) :
    (listRemove heap n size).mem = unlink heap.mem n := by
  rw [listRemove_eq]

namespace Consistent

variable {regions : List Region} {lists : Nat → List Nat} {skip : List Nat} {heap : Heap}

/-! ## Inserting -/

theorem insert {block : Block} (skip' : List Nat)
    (consistent : Consistent regions lists skip heap.mem heap.gClass heap.gChunks)
    (member : block ∈ allBlocks regions) (isFree : block.allocated = false)
    (skipped : block.payload ∈ skip) (absent : block.payload ∉ skip')
    (others : ∀ n, n ≠ block.payload → (n ∈ skip' ↔ n ∈ skip)) :
    ∃ lists', Consistent regions lists' skip' (listInsert heap block.payload block.size).mem
        (listInsert heap block.payload block.size).gClass heap.gChunks ∧
      Keeps regions heap.mem regions (listInsert heap block.payload block.size).mem := by
  have layout := consistent.layout
  have spec := layout.payload_spec member
  have minimum := (layout.sized member).minimum
  obtain ⟨c, blockClass⟩ : ∃ c, sizeClass block.size = c := ⟨_, rfl⟩
  have notListed : ∀ c', block.payload ∉ lists c' := fun c' inList =>
    ((consistent.listed c' block.payload).mp inList).1 skipped
  have cells : Cells (block.payload :: lists c) := by
    have old := consistent.cells c
    refine ⟨List.nodup_cons.mpr ⟨notListed c, old.nodup⟩, ?_, ?_, ?_⟩
    · exact List.forall_mem_cons.mpr ⟨spec.1, old.aligned⟩
    · exact List.forall_mem_cons.mpr ⟨by omega, old.nonzero⟩
    · exact List.forall_mem_cons.mpr ⟨by omega, old.bounded⟩
  have written : (listInsert heap block.payload block.size).mem =
      pushFront heap.mem ((lists c).headD 0) block.payload := by
    rw [listInsert_mem, consistent.heads, blockClass]
  have same : ∀ a, (∀ other ∈ allBlocks regions, other.allocated = false →
      a < other.payload ∨ other.payload + 16 ≤ a) →
      (listInsert heap block.payload block.size).mem a = heap.mem a := by
    intro a outside
    rw [written]
    apply pushFront_outside
    intro n inCells
    rcases List.mem_cons.mp inCells with rfl | inList
    · exact outside block member isFree
    · obtain ⟨other, isOther, otherFree, rfl, -⟩ := consistent.block_of_member inList
      exact outside other isOther otherFree
  obtain ⟨tagged, chunked⟩ := consistent.relink same
  refine ⟨Function.update lists c (block.payload :: lists c), ?_, layout.keeps_of_cells same⟩
  refine ⟨layout, tagged, chunked, ?_, ?_, ?_, ?_⟩
  · intro c' n
    by_cases isPayload : n = block.payload
    · subst isPayload
      have onList : block.payload ∈ Function.update lists c (block.payload :: lists c) c' ↔
          c = c' := by
        by_cases equal : c' = c
        · subst equal
          simp
        · rw [Function.update_of_ne equal]
          exact iff_of_false (notListed c') (Ne.symm equal)
      rw [onList]
      constructor
      · intro isClass
        exact ⟨absent, block, member, isFree, rfl, blockClass.trans isClass⟩
      · rintro ⟨-, other, otherMember, -, samePayload, isClass⟩
        rw [layout.eq_of_payload otherMember member samePayload, blockClass] at isClass
        exact isClass
    · have onList : n ∈ Function.update lists c (block.payload :: lists c) c' ↔ n ∈ lists c' := by
        by_cases equal : c' = c
        · subst equal
          simp [isPayload]
        · rw [Function.update_of_ne equal]
      rw [onList, consistent.listed c' n, others n isPayload]
  · intro c'
    by_cases equal : c' = c
    · subst equal
      simpa using cells.nodup
    · rw [Function.update_of_ne equal]
      exact consistent.nodup c'
  · intro c'
    by_cases equal : c' = c
    · subst equal
      simp [listInsert, blockClass]
    · rw [Function.update_of_ne equal]
      simp only [listInsert, blockClass]
      exact (Function.update_of_ne equal _ _).trans (consistent.heads c')
  · intro c'
    rw [written]
    by_cases equal : c' = c
    · subst equal
      rw [Function.update_self]
      exact pushFront_segment cells (consistent.linked c')
    · rw [Function.update_of_ne equal]
      refine (consistent.linked c').congr fun n inList a lower upper => pushFront_outside ?_
      intro m inCells
      have alignedN := (consistent.cells c').aligned n inList
      have alignedM := cells.aligned m inCells
      have different : n ≠ m := by
        rintro rfl
        rcases List.mem_cons.mp inCells with rfl | inOther
        · exact notListed c' inList
        · exact consistent.not_member_of_ne inList (Ne.symm equal) inOther
      omega

/-! ## Removing -/

theorem remove {block : Block}
    (consistent : Consistent regions lists skip heap.mem heap.gClass heap.gChunks)
    (member : block ∈ allBlocks regions) (isFree : block.allocated = false)
    (notSkipped : block.payload ∉ skip) :
    ∃ lists', Consistent regions lists' (block.payload :: skip)
        (listRemove heap block.payload block.size).mem
        (listRemove heap block.payload block.size).gClass heap.gChunks ∧
      Keeps regions heap.mem regions (listRemove heap block.payload block.size).mem := by
  have layout := consistent.layout
  obtain ⟨c, blockClass⟩ : ∃ c, sizeClass block.size = c := ⟨_, rfl⟩
  have inList : block.payload ∈ lists c :=
    (consistent.listed c block.payload).mpr ⟨notSkipped, block, member, isFree, rfl, blockClass⟩
  obtain ⟨front, back, isList⟩ := List.append_of_mem inList
  have cells : Cells (front ++ block.payload :: back) := isList ▸ consistent.cells c
  have segment : Segment heap.mem 0 (front ++ block.payload :: back) 0 := isList ▸ consistent.linked c
  obtain ⟨isNext, isPrev⟩ := segment_links segment
  have stays : (front ++ back).Sublist (front ++ block.payload :: back) :=
    (List.sublist_cons_self block.payload back).append_left front
  have listedFree : ∀ n ∈ front ++ block.payload :: back, ∃ other ∈ allBlocks regions,
      other.allocated = false ∧ other.payload = n := by
    intro n inCells
    obtain ⟨other, isOther, otherFree, payload, -⟩ :=
      consistent.block_of_member (isList.symm ▸ inCells : n ∈ lists c)
    exact ⟨other, isOther, otherFree, payload⟩
  have same : ∀ a, (∀ other ∈ allBlocks regions, other.allocated = false →
      a < other.payload ∨ other.payload + 16 ≤ a) →
      (listRemove heap block.payload block.size).mem a = heap.mem a := by
    intro a outside
    rw [listRemove_mem]
    apply unlink_outside cells segment
    intro n inRest
    have inCells : n ∈ front ++ block.payload :: back := stays.subset inRest
    obtain ⟨other, isOther, otherFree, rfl⟩ := listedFree n inCells
    exact outside other isOther otherFree
  obtain ⟨tagged, chunked⟩ := consistent.relink same
  have notLeft : block.payload ∉ front ++ back := by
    have nodup := cells.nodup
    rw [List.nodup_middle] at nodup
    exact (List.nodup_cons.mp nodup).1
  have headsAfter : (listRemove heap block.payload block.size).gClass =
      Function.update heap.gClass c ((front ++ back).headD 0) := by
    rw [listRemove_eq, isNext, isPrev, blockClass]
    change (if front.getLastD 0 = 0 then Function.update heap.gClass c (back.headD 0)
      else heap.gClass) = _
    rcases List.eq_nil_or_concat' front with rfl | ⟨early, last, rfl⟩
    · exact if_pos rfl
    · have nonzero : last ≠ 0 := cells.nonzero last (by simp)
      have isHead : heap.gClass c = (early ++ [last] ++ back).headD 0 := by
        rw [consistent.heads c, isList]
        cases early <;> rfl
      rw [List.getLastD_concat, if_neg nonzero, ← isHead, Function.update_eq_self]
  refine ⟨Function.update lists c (front ++ back), ?_, layout.keeps_of_cells same⟩
  refine ⟨layout, tagged, chunked, ?_, ?_, ?_, ?_⟩
  · intro c' n
    have onList : n ∈ Function.update lists c (front ++ back) c' ↔
        n ≠ block.payload ∧ n ∈ lists c' := by
      by_cases equal : c' = c
      · subst equal
        rw [Function.update_self, isList]
        constructor
        · intro inRest
          exact ⟨fun isPayload => notLeft (isPayload ▸ inRest), stays.subset inRest⟩
        · rintro ⟨different, inCells⟩
          rcases List.mem_append.mp inCells with inFront | inTail
          · exact List.mem_append_left _ inFront
          · exact List.mem_append_right _ ((List.mem_cons.mp inTail).resolve_left different)
      · rw [Function.update_of_ne equal]
        refine (and_iff_right_of_imp fun inOther => ?_).symm
        rintro rfl
        exact consistent.not_member_of_ne inList equal inOther
    rw [onList, consistent.listed c' n, List.mem_cons, not_or, and_assoc]
  · intro c'
    by_cases equal : c' = c
    · subst equal
      rw [Function.update_self]
      have nodup := cells.nodup
      rw [List.nodup_middle] at nodup
      exact (List.nodup_cons.mp nodup).2
    · rw [Function.update_of_ne equal]
      exact consistent.nodup c'
  · intro c'
    rw [headsAfter]
    by_cases equal : c' = c
    · subst equal
      simp
    · rw [Function.update_of_ne equal, Function.update_of_ne equal]
      exact consistent.heads c'
  · intro c'
    rw [listRemove_mem]
    by_cases equal : c' = c
    · subst equal
      rw [Function.update_self]
      exact unlink_segment cells segment
    · rw [Function.update_of_ne equal]
      refine (consistent.linked c').congr fun n inOther a lower upper =>
        unlink_outside cells segment ?_
      intro m inRest
      have inCells : m ∈ front ++ block.payload :: back := stays.subset inRest
      have alignedN := (consistent.cells c').aligned n inOther
      have alignedM := cells.aligned m inCells
      have different : n ≠ m := by
        rintro rfl
        exact consistent.not_member_of_ne inOther (Ne.symm equal) (isList.symm ▸ inCells)
      omega

end Consistent

end FoundationsLab.Balloc
