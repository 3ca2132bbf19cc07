import FoundationsLab.Balloc.Grow

/-! # The public functions

The contracts of `balloc`, `bfree`, `bcalloc` and `brealloc` between two states
at rest. The walks along the free lists come to an end when they get more fuel
than the lists have nodes. -/

namespace FoundationsLab.Balloc

open Foundation
open Foundation.Word64
open Foundation.DoublyLinked

/-! ## Finding a fit -/

theorem findFitList_sound {mem : Memory} {asize : Nat} : ∀ {fuel prev : Nat} {nodes : List Nat} {n : Nat},
    Segment mem prev nodes 0 → findFitList mem asize fuel (nodes.headD 0) = some n →
    n = 0 ∨ n ∈ nodes ∧ asize ≤ blkSize mem (hdrp n)
  | 0, _, _, _, _, found => by simp [findFitList] at found
  | fuel + 1, _, [], _, _, found => by
      simp only [List.headD_nil, findFitList, if_true, Option.some.injEq] at found
      exact .inl found.symm
  | fuel + 1, _, m :: nodes, n, segment, found => by
      rw [List.headD_cons, findFitList] at found
      split at found
      · exact .inl (Option.some.inj found).symm
      · split at found
        · rename_i fits
          obtain rfl := Option.some.inj found
          exact .inr ⟨List.mem_cons_self, fits⟩
        · rw [nodeNext, segment.1] at found
          rcases findFitList_sound segment.2.2 found with isNone | ⟨member, fits⟩
          · exact .inl isNone
          · exact .inr ⟨List.mem_cons_of_mem _ member, fits⟩

theorem findFitList_total {mem : Memory} (asize : Nat) :
    ∀ {fuel prev : Nat} {nodes : List Nat}, Segment mem prev nodes 0 →
      nodes.length < fuel → ∃ n, findFitList mem asize fuel (nodes.headD 0) = some n
  | 0, _, _, _, enough => absurd enough (Nat.not_lt_zero _)
  | fuel + 1, _, [], _, _ => ⟨0, rfl⟩
  | fuel + 1, _, m :: nodes, segment, enough => by
      obtain ⟨n, found⟩ := findFitList_total asize segment.2.2
        (by simpa using enough : nodes.length < fuel)
      rw [List.headD_cons, findFitList, nodeNext, segment.1]
      split
      · exact ⟨0, rfl⟩
      · split
        · exact ⟨m, rfl⟩
        · exact ⟨n, found⟩

/-- A bound on the lengths of the free lists. -/
def Enough (lists : Nat → List Nat) (fuel : Nat) : Prop :=
  ∀ c, c < NCLASS → (lists c).length < fuel

theorem exists_enough (lists : Nat → List Nat) : ∃ bound, ∀ fuel, bound ≤ fuel → Enough lists fuel := by
  have below : ∀ count, ∃ bound, ∀ fuel, bound ≤ fuel → ∀ c, c < count → (lists c).length < fuel := by
    intro count
    induction count with
    | zero => exact ⟨0, fun _ _ c outside => absurd outside (Nat.not_lt_zero c)⟩
    | succ count induction =>
        obtain ⟨bound, holds⟩ := induction
        refine ⟨bound + (lists count).length + 1, fun fuel enough c inside => ?_⟩
        rcases Nat.lt_succ_iff_lt_or_eq.mp inside with earlier | rfl
        · exact holds fuel (by omega) c earlier
        · omega
  exact below NCLASS

section Find

variable {regions : List Region} {lists : Nat → List Nat} {skip : List Nat} {heap : Heap}
  {asize fuel : Nat}

/-- What the search finds is on one of the lists, and large enough. -/
theorem findFitFrom_member (heads : ∀ c, heap.gClass c = (lists c).headD 0)
    (linked : ∀ c, Segment heap.mem 0 (lists c) 0) :
    ∀ {rest c n : Nat}, findFitFrom fuel heap asize rest c = some n →
      n = 0 ∨ ∃ c, n ∈ lists c ∧ asize ≤ blkSize heap.mem (hdrp n)
  | 0, _, _, found => .inl (Option.some.inj found).symm
  | rest + 1, c, n, found => by
      rw [findFitFrom, heads] at found
      obtain ⟨m, inClass, found⟩ := Option.bind_eq_some_iff.mp found
      split at found
      · exact findFitFrom_member heads linked found
      · rename_i nonzero
        obtain rfl := Option.some.inj found
        rcases findFitList_sound (linked c) inClass with isNone | onList
        · exact absurd isNone nonzero
        · exact .inr ⟨c, onList⟩

theorem findFitFrom_sound
    (consistent : Consistent regions lists skip heap.mem heap.gClass heap.gChunks)
    {rest c n : Nat} (found : findFitFrom fuel heap asize rest c = some n) :
    n = 0 ∨ ∃ block ∈ allBlocks regions, block.allocated = false ∧ block.payload = n ∧
      asize ≤ block.size := by
  rcases findFitFrom_member consistent.heads consistent.linked found with isNone | ⟨c, member, fits⟩
  · exact .inl isNone
  · obtain ⟨block, isBlock, isFree, rfl, -⟩ := consistent.block_of_member member
    rw [consistent.sizeAt isBlock] at fits
    exact .inr ⟨block, isBlock, isFree, rfl, fits⟩

theorem findFitFrom_total
    (consistent : Consistent regions lists skip heap.mem heap.gClass heap.gChunks)
    (enough : Enough lists fuel) (asize : Nat) : ∀ {rest c : Nat}, c + rest ≤ NCLASS →
      ∃ n, findFitFrom fuel heap asize rest c = some n
  | 0, _, _ => ⟨0, rfl⟩
  | rest + 1, c, inside => by
      obtain ⟨m, inClass⟩ := findFitList_total asize (consistent.linked c) (enough c (by omega))
      obtain ⟨n, later⟩ := findFitFrom_total consistent enough asize (by omega : c + 1 + rest ≤ NCLASS)
      rw [findFitFrom, consistent.heads, inClass]
      by_cases isNone : m = 0
      · exact ⟨n, by simpa [isNone] using later⟩
      · exact ⟨m, by simp [isNone]⟩

end Find

/-! ## `balloc` -/

/-- The shape of every block size, also where its computation wraps around. -/
theorem blockSize_shape (size : Nat) : 32 ≤ blockSize size ∧ 16 ∣ blockSize size := by
  have aligned : 16 ∣ alignUp (add size DSIZE) DSIZE :=
    dvd_alignUp (k := 4) (by decide) (by decide) (by decide)
  rw [blockSize]
  split
  · exact ⟨Nat.le_refl 32, by decide⟩
  · rename_i large
    exact ⟨Nat.not_lt.mp large, aligned⟩

theorem blockSize_bounds {size : Nat} (bound : size + 32 ≤ 2 ^ 64) :
    size + 16 ≤ blockSize size ∧ blockSize size ≤ max 32 (size + 31) := by
  have sum : add size DSIZE = size + 16 := add_of_lt (by unfold DSIZE; omega)
  rw [blockSize, sum]
  rcases Nat.lt_or_ge (size + 32) (2 ^ 64) with fits | last
  · have lower : size + 16 ≤ alignUp (size + 16) DSIZE :=
      le_alignUp (by decide) (by unfold DSIZE; omega)
    have upper : alignUp (size + 16) DSIZE < size + 16 + 16 :=
      alignUp_lt (by decide) (by unfold DSIZE; omega)
    have minimum : MIN_BLOCK = 32 := rfl
    by_cases small : alignUp (size + 16) DSIZE < MIN_BLOCK
    · rw [if_pos small]
      omega
    · rw [if_neg small]
      omega
  · obtain rfl : size = 2 ^ 64 - 32 := by omega
    decide

theorem blockSize_spec {size : Nat} (bound : size ≤ 2 ^ 62) :
    size + 16 ≤ blockSize size ∧ blockSize size < size + 48 ∧ 16 ∣ blockSize size ∧
      32 ≤ blockSize size :=
  have inWord : size + 32 ≤ 2 ^ 64 := by omega
  have bounds := blockSize_bounds inWord
  have shape := blockSize_shape size
  ⟨bounds.1, by omega, shape.2, shape.1⟩

/-- A request that finds a block, or obtains a chunk, without a wrapped size. -/
structure Ample (fuel : Nat) (mmap : Nat → Option Nat) (heap : Heap) (size : Nat) : Prop where
  found : ∀ bp, findFit fuel heap (blockSize size) = some bp → bp ≠ 0 →
    size + 16 ≤ blockSize size
  grown : findFit fuel heap (blockSize size) = some 0 →
    ∀ base, mmap (growTotal (blockSize size)) = some base →
      size + 16 ≤ blockSize size ∧ blockSize size + 32 ≤ growTotal (blockSize size)

theorem ample_of_le {size : Nat} (bound : size ≤ 2 ^ 62) (fuel : Nat) (mmap : Nat → Option Nat)
    (heap : Heap) : Ample fuel mmap heap size := by
  obtain ⟨lower, upper, -, -⟩ := blockSize_spec bound
  have small : blockSize size + 64 ≤ 2 ^ 63 := by omega
  have room := growTotal_spec small
  exact ⟨fun _ _ _ => lower, fun _ _ _ => ⟨lower, by omega⟩⟩

variable {regions : List Region} {heap : Heap}

theorem Granted.after {regions' regions'' : List Region} {mem : Memory} {heap' heap'' : Heap}
    {taken : Block} (keeps : Keeps regions mem regions' heap'.mem)
    (granted : Granted regions' heap'.mem regions'' heap'' taken) :
    Granted regions mem regions'' heap'' taken where
  atRest := granted.atRest
  member := granted.member
  isAllocated := granted.isAllocated
  fresh isOld := granted.fresh ((keeps.blocks taken granted.isAllocated).mpr isOld)
  blocks block isAllocated := by
    rw [granted.blocks block isAllocated, keeps.blocks block isAllocated]
  bytes a inside := (granted.bytes a ((keeps.inPayload a).mpr inside)).trans (keeps.bytes a inside)

/-- A call of `balloc` that returns: either nothing happened, or one block was
granted with room for the request. -/
theorem balloc_spec {fuel size ptr : Nat} {mmap : Nat → Option Nat} {heap' : Heap}
    (atRest : AtRest regions heap) (fresh : Fresh heap.mapped mmap)
    (ample : Ample fuel mmap heap size)
    (returned : balloc fuel mmap heap size = some (heap', ptr)) :
    (ptr = 0 ∧ heap' = heap) ∨ ∃ regions' taken, taken.payload = ptr ∧ size + 16 ≤ taken.size ∧
      Granted regions heap.mem regions' heap' taken := by
  rw [balloc] at returned
  split at returned
  · obtain ⟨rfl, rfl⟩ := Prod.mk.inj (Option.some.inj returned)
    exact .inl ⟨rfl, rfl⟩
  · obtain ⟨minimum, aligned⟩ := blockSize_shape size
    obtain ⟨lists, consistent⟩ := atRest.consistent
    obtain ⟨bp, found, returned⟩ := Option.bind_eq_some_iff.mp returned
    split at returned
    · rename_i isNone
      obtain rfl := isNone
      cases obtained : mmap (growTotal (blockSize size)) with
      | none =>
          simp only [grow, obtained, if_true, Option.some.injEq, Prod.mk.injEq] at returned
          exact .inl ⟨returned.2.symm, returned.1.symm⟩
      | some base =>
          obtain ⟨enough, room⟩ := ample.grown found base obtained
          obtain ⟨grown, regions', block, isGrown, atRest', member, isFree, fits, keeps, -⟩ :=
            grow_spec atRest (atRest.mapped ▸ fresh) minimum room obtained
          obtain ⟨before, region, total, front, back, after, rfl⟩ := exists_focus member
          obtain ⟨lists', consistent'⟩ := atRest'.consistent
          have spec := consistent'.layout.payload_spec member
          have nonzero : block.payload ≠ 0 := by omega
          obtain ⟨placed, regions'', taken, isPlaced, isPayload, room, -, granted⟩ :=
            place_spec atRest' isFree minimum aligned fits
          simp only [isGrown, if_neg nonzero, isPlaced, Option.some.injEq, Prod.mk.injEq] at returned
          obtain ⟨rfl, rfl⟩ := returned
          exact .inr ⟨regions'', taken, isPayload, by omega, granted.after keeps⟩
    · rename_i isFound
      have enough := ample.found bp found isFound
      rcases findFitFrom_sound consistent found with isNone | ⟨block, member, isFree, rfl, fits⟩
      · exact absurd isNone isFound
      · obtain ⟨before, region, total, front, back, after, rfl⟩ := exists_focus member
        obtain ⟨placed, regions', taken, isPlaced, isPayload, room, -, granted⟩ :=
          place_spec atRest isFree minimum aligned fits
        simp only [isPlaced, Option.some.injEq, Prod.mk.injEq] at returned
        obtain ⟨rfl, rfl⟩ := returned
        exact .inr ⟨regions', taken, isPayload, by omega, granted⟩

theorem balloc_total {lists : Nat → List Nat} {fuel : Nat}
    (consistent : Consistent regions lists [] heap.mem heap.gClass heap.gChunks)
    (enough : Enough lists fuel) (mmap : Nat → Option Nat) (size : Nat) :
    ∃ result, balloc fuel mmap heap size = some result := by
  have inside : sizeClass (blockSize size) + (NCLASS - sizeClass (blockSize size)) ≤ NCLASS := by
    have bound := sizeClass_lt (blockSize size)
    omega
  obtain ⟨bp, found⟩ := findFitFrom_total consistent enough (blockSize size) inside
  have isFit : findFit fuel heap (blockSize size) = some bp := found
  rw [balloc]
  split
  · exact ⟨_, rfl⟩
  · simp only [isFit, Option.bind_eq_bind, Option.bind_some]
    split
    · split <;> exact ⟨_, rfl⟩
    · exact ⟨_, rfl⟩

/-! ## Writing payloads -/

/-- A write inside the payload of an allocated block. -/
theorem AtRest.write {block : Block} {mem' : Memory} (atRest : AtRest regions heap)
    (member : block ∈ allBlocks regions) (isAllocated : block.allocated = true)
    (same : ∀ a, a < block.payload ∨ block.payload + block.size ≤ a + 16 → mem' a = heap.mem a) :
    AtRest regions { heap with mem := mem' } := by
  obtain ⟨⟨lists, consistent⟩, separated, mapped, accounts⟩ := atRest
  obtain ⟨before, base, total, front, back, after, rfl⟩ := exists_focus member
  have layout := consistent.layout
  obtain ⟨start, stop, onFront, onMid, onBack⟩ := layout.focus_tiles
  have isBlock : block.payload = start + 8 := onMid.1
  have isStop : start + block.size = stop := onMid.2
  have sized := layout.sized member
  have spec := layout.payload_spec member
  have minimum := sized.minimum
  have tags := consistent.blockTagged member
  have tagged : BlockTagged mem' block := by
    constructor
    · refine (Memory.load64_congr fun a lower upper => same a ?_).trans tags.header
      simp only [Block.header] at upper
      omega
    · refine (Memory.load64_congr fun a lower upper => same a ?_).trans tags.footer
      simp only [Block.footer] at lower
      omega
  refine ⟨⟨lists, consistent.replace onFront onMid onBack onMid ?_ ?_ ?_ ?_ ?_ ?_⟩, separated, mapped,
    accounts⟩
  · simpa using sized
  · exact fun a away => same a (by omega)
  · simpa using tagged
  · simp [isAllocated]
  · simp [isAllocated]
  · exact fun _ _ => .rfl

/-! ## `bfree`, `bcalloc` and `brealloc` -/

theorem bfree_released {block : Block} (atRest : AtRest regions heap)
    (member : block ∈ allBlocks regions) (isAllocated : block.allocated = true) :
    ∃ regions', Released regions heap.mem regions' (bfree heap block.payload) block := by
  obtain ⟨before, base, total, front, back, after, rfl⟩ := exists_focus member
  exact bfree_spec atRest isAllocated

/-- The check for an overflow of the product. -/
theorem product_lt_of_check {nmemb size : Nat}
    (passed : ¬ (nmemb ≠ 0 ∧ (2 ^ 64 - 1) / nmemb < size)) : nmemb * size < 2 ^ 64 := by
  rcases Nat.eq_zero_or_pos nmemb with rfl | positive
  · omega
  · by_contra large
    apply passed
    constructor
    · omega
    · rw [Nat.div_lt_iff_lt_mul positive, Nat.mul_comm]
      omega

theorem bcalloc_spec {fuel nmemb size ptr : Nat} {mmap : Nat → Option Nat} {heap' : Heap}
    (atRest : AtRest regions heap) (fresh : Fresh heap.mapped mmap)
    (ample : nmemb * size < 2 ^ 64 → Ample fuel mmap heap (nmemb * size))
    (returned : bcalloc fuel mmap heap nmemb size = some (heap', ptr)) :
    (ptr = 0 ∧ heap' = heap) ∨ ∃ regions' taken, taken.payload = ptr ∧
      nmemb * size + 16 ≤ taken.size ∧ Granted regions heap.mem regions' heap' taken := by
  rw [bcalloc] at returned
  split at returned
  · obtain ⟨rfl, rfl⟩ := Prod.mk.inj (Option.some.inj returned)
    exact .inl ⟨rfl, rfl⟩
  · rename_i noOverflow
    have fits := product_lt_of_check noOverflow
    have product : mul nmemb size = nmemb * size := mul_of_lt fits
    rw [product] at returned
    obtain ⟨⟨heap₁, p⟩, isAllocated, result⟩ := Option.bind_eq_some_iff.mp returned
    rcases balloc_spec atRest fresh (ample fits) isAllocated with ⟨rfl, rfl⟩ | ⟨regions', taken, rfl, room, granted⟩
    · simp only [if_true, Option.some.injEq, Prod.mk.injEq] at result
      exact .inl ⟨result.2.symm, result.1.symm⟩
    · obtain ⟨lists, consistent⟩ := granted.atRest.consistent
      have spec := consistent.layout.payload_spec granted.member
      have nonzero : taken.payload ≠ 0 := by omega
      simp only [if_neg nonzero, Option.some.injEq, Prod.mk.injEq] at result
      obtain ⟨rfl, rfl⟩ := result
      have same : ∀ a, a < taken.payload ∨ taken.payload + taken.size ≤ a + 16 →
          heap₁.mem.fill taken.payload 0 (nmemb * size) a = heap₁.mem a :=
        fun a away => if_neg (by omega)
      refine .inr ⟨regions', taken, rfl, room, ?_⟩
      refine ⟨granted.atRest.write granted.member granted.isAllocated same, granted.member,
        granted.isAllocated, granted.fresh, granted.blocks, fun a inside => ?_⟩
      refine (same a ?_).trans (granted.bytes a inside)
      obtain ⟨other, isOther, otherAllocated, lower, upper⟩ := inside
      have isNew := (granted.blocks other otherAllocated).mpr (.inr isOther)
      rcases consistent.layout.blocks_apart isNew granted.member with rfl | below | above
      · exact absurd isOther granted.fresh
      · omega
      · omega

/-- An allocated block gives way to another one that starts with its bytes; all
others and their payloads are as before. -/
structure Moved (regions : List Region) (mem : Memory) (regions' : List Region) (heap' : Heap)
    (block taken : Block) : Prop where
  atRest : AtRest regions' heap'
  isAllocated : taken.allocated = true
  fresh : taken ∉ allBlocks regions
  blocks : ∀ other, other.allocated = true → (other ∈ allBlocks regions' ↔
    (other = taken ∨ other ∈ allBlocks regions) ∧ other ≠ block)
  bytes : ∀ other ∈ allBlocks regions, other.allocated = true → other ≠ block →
    ∀ a, other.payload ≤ a → a + 16 < other.payload + other.size → heap'.mem a = mem a
  contents : ∀ i, i + 16 < block.size → i + 16 < taken.size →
    heap'.mem (taken.payload + i) = mem (block.payload + i)

/-- A call of `brealloc` on a live block with a size to keep. The block may stay,
move to a larger one, or stay because there is no larger one. -/
theorem brealloc_spec {fuel size ptr : Nat} {mmap : Nat → Option Nat} {heap' : Heap} {block : Block}
    (atRest : AtRest regions heap) (fresh : Fresh heap.mapped mmap)
    (member : block ∈ allBlocks regions) (isAllocated : block.allocated = true)
    (ample : block.size - 16 < size → Ample fuel mmap heap size)
    (nonzero : size ≠ 0) (returned : brealloc fuel mmap heap block.payload size = some (heap', ptr)) :
    (heap' = heap ∧ (ptr = 0 ∨ ptr = block.payload ∧ size + 16 ≤ block.size)) ∨
      ∃ regions' taken, taken.payload = ptr ∧ size + 16 ≤ taken.size ∧
        taken.payload ≠ block.payload ∧ Moved regions heap.mem regions' heap' block taken := by
  obtain ⟨lists, consistent⟩ := atRest.consistent
  have spec := consistent.layout.payload_spec member
  have minimum := (consistent.layout.sized member).minimum
  have payload : sub block.size DSIZE = block.size - 16 := sub_of_le (by omega) (by unfold DSIZE; omega)
  rw [brealloc, if_neg (by omega), if_neg nonzero, consistent.sizeAt member, payload] at returned
  dsimp only at returned
  split at returned
  · obtain ⟨rfl, rfl⟩ := Prod.mk.inj (Option.some.inj returned)
    exact .inl ⟨rfl, .inr ⟨rfl, by omega⟩⟩
  · rename_i larger
    obtain ⟨⟨heap₁, np⟩, isGranted, result⟩ := Option.bind_eq_some_iff.mp returned
    rcases balloc_spec atRest fresh (ample (Nat.not_le.mp larger)) isGranted with ⟨rfl, rfl⟩ | ⟨regions₁, taken, rfl, room, granted⟩
    · simp only [if_true, Option.some.injEq, Prod.mk.injEq] at result
      exact .inl ⟨result.1.symm, .inl result.2.symm⟩
    · obtain ⟨lists₁, consistent₁⟩ := granted.atRest.consistent
      have takenSpec := consistent₁.layout.payload_spec granted.member
      simp only [if_neg (by omega : taken.payload ≠ 0), Option.some.injEq, Prod.mk.injEq] at result
      obtain ⟨rfl, rfl⟩ := result
      have member₁ : block ∈ allBlocks regions₁ :=
        (granted.blocks block isAllocated).mpr (.inr member)
      have different : taken ≠ block := fun equal => granted.fresh (equal ▸ member)
      have elsewhere : taken.payload ≠ block.payload := fun same =>
        different (consistent₁.layout.eq_of_payload granted.member member₁ same)
      have copied : AtRest regions₁
          { heap₁ with mem := heap₁.mem.copy taken.payload block.payload (block.size - 16) } :=
        granted.atRest.write granted.member granted.isAllocated fun a away => if_neg (by omega)
      obtain ⟨regions', released⟩ := bfree_released copied member₁ isAllocated
      have kept : ∀ other, other.allocated = true → (other ∈ allBlocks regions' ↔
          (other = taken ∨ other ∈ allBlocks regions) ∧ other ≠ block) := by
        intro other otherAllocated
        rw [released.blocks other otherAllocated, granted.blocks other otherAllocated]
      refine .inr ⟨regions', taken, rfl, room, elsewhere, released.atRest, granted.isAllocated, granted.fresh,
        kept, fun other isOther otherAllocated notBlock a lower upper => ?_, fun i inBlock inTaken => ?_⟩
      · have isNew := (granted.blocks other otherAllocated).mpr (.inr isOther)
        have outside : heap₁.mem.copy taken.payload block.payload (block.size - 16) a =
            heap₁.mem a := by
          rcases consistent₁.layout.blocks_apart isNew granted.member with rfl | below | above
          · exact absurd isOther granted.fresh
          · exact if_neg (by omega)
          · exact if_neg (by omega)
        have inNext := (kept other otherAllocated).mpr ⟨.inr isOther, notBlock⟩
        calc
          _ = heap₁.mem.copy taken.payload block.payload (block.size - 16) a :=
            released.bytes a ⟨other, inNext, otherAllocated, lower, upper⟩
          _ = heap₁.mem a := outside
          _ = heap.mem a := granted.bytes a ⟨other, isOther, otherAllocated, lower, upper⟩
      · have inNext := (kept taken granted.isAllocated).mpr ⟨.inl rfl, different⟩
        have inside : taken.payload ≤ taken.payload + i ∧
            taken.payload + i < taken.payload + (block.size - 16) := by omega
        calc
          _ = heap₁.mem.copy taken.payload block.payload (block.size - 16) (taken.payload + i) :=
            released.bytes _ ⟨taken, inNext, granted.isAllocated, by omega, by omega⟩
          _ = heap₁.mem (block.payload + i) := by
            rw [Memory.copy, if_pos inside, Nat.add_sub_cancel_left]
          _ = heap.mem (block.payload + i) :=
            granted.bytes _ ⟨block, member, isAllocated, by omega, by omega⟩

theorem brealloc_total {lists : Nat → List Nat} {fuel : Nat}
    (consistent : Consistent regions lists [] heap.mem heap.gClass heap.gChunks)
    (enough : Enough lists fuel) (mmap : Nat → Option Nat) (ptr size : Nat) :
    ∃ result, brealloc fuel mmap heap ptr size = some result := by
  obtain ⟨⟨heap', np⟩, isGranted⟩ := balloc_total consistent enough mmap size
  rw [brealloc]
  split
  · exact ⟨_, isGranted⟩
  · split
    · exact ⟨_, rfl⟩
    · dsimp only
      split
      · exact ⟨_, rfl⟩
      · simp only [isGranted, Option.bind_eq_bind, Option.bind_some]
        split <;> exact ⟨_, rfl⟩

theorem bcalloc_total {lists : Nat → List Nat} {fuel : Nat}
    (consistent : Consistent regions lists [] heap.mem heap.gClass heap.gChunks)
    (enough : Enough lists fuel) (mmap : Nat → Option Nat) (nmemb size : Nat) :
    ∃ result, bcalloc fuel mmap heap nmemb size = some result := by
  obtain ⟨⟨heap', p⟩, isGranted⟩ :=
    balloc_total consistent enough mmap (mul nmemb size)
  rw [bcalloc]
  split
  · exact ⟨_, rfl⟩
  · simp only [isGranted, Option.bind_eq_bind, Option.bind_some]
    split <;> exact ⟨_, rfl⟩

end FoundationsLab.Balloc
