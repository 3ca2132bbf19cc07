import FoundationsLab.Balloc.Program
import Mathlib.Algebra.GroupWithZero.Nat

/-! # `balloc_reset`

All chunks go back to the system, and the heap is as new. A program may do this at any
time; its pointers are gone then. -/

namespace FoundationsLab.Balloc

open Foundation

/-! ## The function -/

/-- A word can be read where nothing has been unmapped. -/
def Readable (unmapped : List (Nat × Nat)) (address : Nat) : Prop :=
  ∀ span ∈ unmapped, address + 8 ≤ span.1 ∨ span.1 + span.2 ≤ address

instance (unmapped : List (Nat × Nat)) (address : Nat) : Decidable (Readable unmapped address) :=
  inferInstanceAs (Decidable (∀ span ∈ unmapped, _))

/-- The loop over the chunks, with what has been unmapped so far. A read from an unmapped
chunk faults. -/
def resetLoop (mem : Memory) : (fuel c : Nat) → List (Nat × Nat) → Option (List (Nat × Nat))
  | 0, _, _ => none
  | fuel + 1, c, unmapped =>
      if c = 0 then some unmapped
      else if Readable unmapped (chunkNext c) ∧ Readable unmapped (chunkSize c) then
        resetLoop mem fuel (mem.load64 (chunkNext c))
          (unmapped ++ [(c, mem.load64 (chunkSize c))])
      else none

def ballocReset (fuel : Nat) (heap : Heap) : Option (Heap × List (Nat × Nat)) := do
  let unmapped ← resetLoop heap.mem fuel heap.gChunks []
  some ({ heap with
    gChunks := 0
    gClass := fun _ => 0
    gStats := ⟨0, 0, 0, 0, 0, 0⟩
    mapped := heap.mapped.filter (· ∉ unmapped) }, unmapped)

/-! ## The chunks -/

theorem readable_spans {regions : List Region} {address : Nat}
    (apart : ∀ region ∈ regions, address + 8 ≤ region.base ∨ region.base + region.total ≤ address) :
    Readable (spans regions) address := by
  intro span member
  obtain ⟨region, isRegion, rfl⟩ := List.mem_map.mp member
  exact apart region isRegion

/-- The loop unmaps the chunks that are left, one in each turn. -/
theorem resetLoop_spans {mem : Memory} (rest : List Region) : ∀ {fuel c : Nat} {past : List Region},
    Layout (past ++ rest) → Chunked mem c rest →
    resetLoop mem fuel c (spans past) =
      if rest.length < fuel then some (spans (past ++ rest)) else none := by
  induction rest with
  | nil =>
      intro fuel c past _ chunked
      have isEnd : c = 0 := chunked
      cases fuel with
      | zero => rfl
      | succ fuel => rw [resetLoop, if_pos isEnd, List.append_nil, List.length_nil,
          if_pos (Nat.succ_pos fuel)]
  | cons region rest induction =>
      intro fuel c past layout chunked
      cases fuel with
      | zero => rfl
      | succ fuel =>
          obtain ⟨rfl, isSize, chunked⟩ := chunked
          have isRegion : region ∈ past ++ region :: rest :=
            List.mem_append_right _ List.mem_cons_self
          have shaped := layout.shaped region isRegion
          have nonzero := shaped.nonzero
          have room := shaped.room
          have before : ∀ other ∈ past, other.Apart region := by
            intro other member
            exact (List.pairwise_append.mp layout.apart).2.2 other member region List.mem_cons_self
          have readable : ∀ offset, offset + 8 ≤ region.total →
              Readable (spans past) (region.base + offset) := by
            intro offset inside
            apply readable_spans
            intro other member
            rcases before other member with below | above
            · right
              omega
            · left
              omega
          have both : Readable (spans past) (chunkNext region.base) ∧
              Readable (spans past) (chunkSize region.base) :=
            ⟨readable 0 (by omega), readable 8 (by omega)⟩
          have grown : spans past ++ [(region.base, region.total)] = spans (past ++ [region]) := by
            rw [spans, spans, List.map_append]
            rfl
          have isSplit : past ++ region :: rest = past ++ [region] ++ rest := by
            rw [List.append_assoc, List.singleton_append]
          rw [isSplit] at layout ⊢
          rw [resetLoop, if_neg (by omega), if_pos both, isSize, grown, induction layout chunked,
            List.length_cons]
          simp only [Nat.add_lt_add_iff_right]

section Reset

variable {regions : List Region} {heap : Heap}

/-- The reset gives back what was mapped, and leaves a heap as at the beginning. -/
theorem AtRest.reset (atRest : AtRest regions heap) (fuel : Nat) :
    ballocReset fuel heap =
      if regions.length < fuel then some (Heap.initial heap.mem, heap.mapped) else none := by
  obtain ⟨lists, consistent⟩ := atRest.consistent
  have walked : resetLoop heap.mem fuel heap.gChunks [] =
      if regions.length < fuel then some (spans regions) else none :=
    @resetLoop_spans heap.mem regions fuel heap.gChunks [] consistent.layout consistent.chunked
  have nothing : heap.mapped.filter (· ∉ heap.mapped) = [] := by
    apply List.filter_eq_nil_iff.mpr
    intro span member
    simpa using member
  rw [← atRest.mapped] at walked
  rw [ballocReset, walked]
  by_cases enough : regions.length < fuel
  · rw [if_pos enough, if_pos enough]
    dsimp only [bind, Option.bind]
    rw [nothing]
    rfl
  · rw [if_neg enough, if_neg enough]
    rfl

theorem sumTotals_eq (regions : List Region) :
    sumTotals regions = ((spans regions).map Prod.snd).sum := by
  induction regions with
  | nil => rfl
  | cons region regions induction =>
      have isCons : spans (region :: regions) = (region.base, region.total) :: spans regions := rfl
      rw [sumTotals, induction, isCons, List.map_cons, List.sum_cons]

end Reset

/-! ## Programs that reset -/

/-- The states of a program that may also reset the heap. Its pointers are gone then. -/
inductive Session : Program → Prop
  | initial (mem : Memory) : Session (Program.initial mem)
  | call {program next : Program} {fuel : Nat} {mmap : Nat → Option Nat} {call : Call}
      (session : Session program) (fresh : Fresh program.heap.mapped mmap)
      (allowed : call.Allowed program.live) (stepped : program.step fuel mmap call = some next) :
      Session next
  | reset {program : Program} {unmapped : List (Nat × Nat)} {fuel : Nat} {heap : Heap}
      (session : Session program) (isReset : ballocReset fuel program.heap = some (heap, unmapped)) :
      Session ⟨heap, []⟩

theorem Session.reachable {program : Program} (session : Session program) :
    Reachable program := by
  induction session with
  | initial mem => exact .initial mem
  | call _ fresh allowed stepped induction => exact induction.call fresh allowed stepped
  | @reset program unmapped fuel heap _ isReset induction =>
      obtain ⟨regions, serves⟩ := reachable_serves induction
      rw [serves.atRest.reset] at isReset
      split at isReset
      · cases isReset
        exact .initial program.heap.mem
      · cases isReset

theorem Reachable.session {program : Program} (reachable : Reachable program) :
    Session program := by
  induction reachable with
  | initial mem => exact .initial mem
  | call _ fresh allowed stepped induction => exact induction.call fresh allowed stepped

/-- Resets lead to no other states, so whatever holds of every reachable state holds with
them, too. A reset comes to an end without a read from a chunk that it has unmapped, gives
every mapped chunk back to the system, once and with its length, as many bytes as the
statistics say, and leaves a heap as at the beginning. -/
theorem reset_gives_all_back {program : Program} (session : Session program) :
    Reachable program ∧
      (∃ bound, ∀ fuel, bound ≤ fuel → ballocReset fuel program.heap =
        some (Heap.initial program.heap.mem, program.heap.mapped)) ∧
      (program.heap.mapped.Pairwise fun span other =>
        span.1 + span.2 ≤ other.1 ∨ other.1 + other.2 ≤ span.1) ∧
      (program.heap.mapped.map Prod.snd).sum % 2 ^ 64 = program.heap.gStats.heapBytes := by
  have reachable := session.reachable
  obtain ⟨regions, serves⟩ := reachable_serves reachable
  obtain ⟨lists, consistent⟩ := serves.atRest.consistent
  refine ⟨reachable, ⟨regions.length + 1, ?_⟩, ?_, ?_⟩
  · intro fuel large
    rw [serves.atRest.reset, if_pos (Nat.lt_of_succ_le large)]
  · rw [serves.atRest.mapped, spans]
    exact List.pairwise_map.mpr consistent.layout.apart
  · rw [serves.atRest.accounts.heapBytes, sumTotals_eq, serves.atRest.mapped]

/-- One page is mapped for an allocation and given back. -/
theorem reset_gives_all_back_once : ∃ program : Program, program.live = [(4128, 100)] ∧
    ∃ bound, ∀ fuel, bound ≤ fuel → ballocReset fuel program.heap =
      some (Heap.initial program.heap.mem, program.heap.mapped) := by
  obtain ⟨program, isLive, reachable⟩ := reachable_once
  exact ⟨program, isLive, (reset_gives_all_back reachable.session).2.1⟩

end FoundationsLab.Balloc
