import FoundationsLab.Foundation.Memory
import Mathlib.Data.List.Basic

/-! # Intrusive doubly linked lists

Nodes are 16-byte cells of memory: the link to the next node, then the link to
the previous one, `0` for none. `Segment` describes a stretch of a list from the
addresses of its nodes. -/

namespace FoundationsLab.Foundation.DoublyLinked

open Memory

/-- Put node `n` in front of the list that starts with `first`. -/
def pushFront (mem : Memory) (first n : Nat) : Memory :=
  let mem := mem.store64 (n + 8) 0
  let mem := mem.store64 n first
  if first = 0 then mem else mem.store64 (first + 8) n

/-- Make the neighbours of node `n` point past it. -/
def unlink (mem : Memory) (n : Nat) : Memory :=
  let prev := mem.load64 (n + 8)
  let mem := if prev = 0 then mem else mem.store64 prev (mem.load64 n)
  let next := mem.load64 n
  if next = 0 then mem else mem.store64 (next + 8) (mem.load64 (n + 8))

/-- Distinct aligned cells, none of them `0`. -/
structure Cells (nodes : List Nat) : Prop where
  nodup : nodes.Nodup
  aligned : ∀ n ∈ nodes, 16 ∣ n
  nonzero : ∀ n ∈ nodes, n ≠ 0
  bounded : ∀ n ∈ nodes, n < 2 ^ 64

/-- The nodes are linked in order; `prev` and `next` are what the outer links of
the stretch hold. -/
def Segment (mem : Memory) : (prev : Nat) → (nodes : List Nat) → (next : Nat) → Prop
  | _, [], _ => True
  | prev, n :: nodes, next =>
      mem.load64 n = nodes.headD next ∧ mem.load64 (n + 8) = prev ∧ Segment mem n nodes next

/-! ## Cells -/

theorem Cells.head {n : Nat} {nodes : List Nat} (cells : Cells (n :: nodes)) : n ∉ nodes :=
  (List.nodup_cons.mp cells.nodup).1

theorem Cells.tail {n : Nat} {nodes : List Nat} (cells : Cells (n :: nodes)) : Cells nodes where
  nodup := (List.nodup_cons.mp cells.nodup).2
  aligned m member := cells.aligned m (List.mem_cons_of_mem _ member)
  nonzero m member := cells.nonzero m (List.mem_cons_of_mem _ member)
  bounded m member := cells.bounded m (List.mem_cons_of_mem _ member)

theorem Cells.perm {nodes nodes' : List Nat} (cells : Cells nodes) (perm : nodes.Perm nodes') :
    Cells nodes' where
  nodup := perm.nodup_iff.mp cells.nodup
  aligned m member := cells.aligned m (perm.mem_iff.mpr member)
  nonzero m member := cells.nonzero m (perm.mem_iff.mpr member)
  bounded m member := cells.bounded m (perm.mem_iff.mpr member)

theorem Cells.sublist {nodes nodes' : List Nat} (cells : Cells nodes)
    (part : nodes'.Sublist nodes) : Cells nodes' where
  nodup := part.nodup cells.nodup
  aligned m member := cells.aligned m (part.subset member)
  nonzero m member := cells.nonzero m (part.subset member)
  bounded m member := cells.bounded m (part.subset member)

theorem getLastD_lt {nodes : List Nat} (cells : Cells nodes) : nodes.getLastD 0 < 2 ^ 64 := by
  rcases List.eq_nil_or_concat' nodes with rfl | ⟨early, last, rfl⟩
  · simp
  · simpa using cells.bounded last (by simp)

/-! ## Segments -/

theorem segment_append (mem : Memory) : ∀ (prev : Nat) (front back : List Nat) (next : Nat),
    Segment mem prev (front ++ back) next ↔
      Segment mem prev front (back.headD next) ∧ Segment mem (front.getLastD prev) back next
  | _, [], back, next => by simp [Segment]
  | prev, n :: front, back, next => by
      have first : (front ++ back).headD next = front.headD (back.headD next) := by
        cases front <;> rfl
      have last : (n :: front).getLastD prev = front.getLastD n := by
        cases front <;> simp [List.getLastD]
      rw [List.cons_append, Segment, Segment, segment_append mem n front back next, first, last]
      simp only [and_assoc]

theorem Segment.congr {mem mem' : Memory} : ∀ {prev : Nat} {nodes : List Nat} {next : Nat},
    (∀ n ∈ nodes, ∀ a, n ≤ a → a < n + 16 → mem' a = mem a) → Segment mem prev nodes next →
    Segment mem' prev nodes next
  | _, [], _, _, _ => trivial
  | prev, n :: nodes, next, same, segment => by
      have here := same n List.mem_cons_self
      have sameNext : mem'.load64 n = mem.load64 n :=
        load64_congr fun a lower upper => here a lower (by omega)
      have samePrev : mem'.load64 (n + 8) = mem.load64 (n + 8) :=
        load64_congr fun a lower upper => here a (by omega) (by omega)
      exact ⟨sameNext.trans segment.1, samePrev.trans segment.2.1,
        segment.2.2.congr fun m member => same m (List.mem_cons_of_mem _ member)⟩

/-- Writing a cell that is not among the nodes. -/
theorem Segment.store {mem : Memory} {prev : Nat} {nodes : List Nat} {next cell offset : Nat}
    (value : Nat) (cells : Cells (cell :: nodes)) (inside : offset ≤ 8)
    (segment : Segment mem prev nodes next) :
    Segment (mem.store64 (cell + offset) value) prev nodes next := by
  refine segment.congr fun n member a lower upper => store64_outside mem value ?_
  have different : n ≠ cell := fun equal => cells.head (equal ▸ member)
  have alignedCell := cells.aligned cell List.mem_cons_self
  have alignedNode := cells.aligned n (List.mem_cons_of_mem _ member)
  omega

theorem Segment.setPrev {mem : Memory} {prev n next : Nat} {nodes : List Nat} {value : Nat}
    (bound : value < 2 ^ 64) (cells : Cells (n :: nodes))
    (segment : Segment mem prev (n :: nodes) next) :
    Segment (mem.store64 (n + 8) value) value (n :: nodes) next := by
  refine ⟨?_, ?_, segment.2.2.store value cells le_rfl⟩
  · rw [load64_store64_disjoint mem value (by omega)]
    exact segment.1
  · rw [load64_store64, Nat.mod_eq_of_lt bound]

theorem Segment.setNext {mem : Memory} {value : Nat} (bound : value < 2 ^ 64) :
    ∀ {prev : Nat} {front : List Nat} {last next : Nat}, Cells (front ++ [last]) →
      Segment mem prev (front ++ [last]) next →
      Segment (mem.store64 last value) prev (front ++ [last]) value := by
  intro prev front last next cells segment
  rw [segment_append] at segment ⊢
  obtain ⟨onFront, onLast⟩ := segment
  have around : Cells (last :: front) := cells.perm (List.perm_append_singleton last front)
  refine ⟨onFront.store value around (Nat.zero_le 8), ?_, ?_, trivial⟩
  · rw [load64_store64, Nat.mod_eq_of_lt bound]
    rfl
  · rw [load64_store64_disjoint mem value (by omega)]
    exact onLast.2.1

theorem headD_lt {nodes : List Nat} (cells : Cells nodes) : nodes.headD 0 < 2 ^ 64 := by
  cases nodes with
  | nil => simp
  | cons n nodes => exact cells.bounded n List.mem_cons_self

/-! ## Inserting -/

theorem pushFront_segment {mem : Memory} {n : Nat} {nodes : List Nat} (cells : Cells (n :: nodes))
    (segment : Segment mem 0 nodes 0) :
    Segment (pushFront mem (nodes.headD 0) n) 0 (n :: nodes) 0 := by
  have bound := cells.bounded n List.mem_cons_self
  have first := headD_lt cells.tail
  cases nodes with
  | nil =>
      have written : pushFront mem 0 n = (mem.store64 (n + 8) 0).store64 n 0 := rfl
      rw [List.headD_nil, written]
      refine ⟨?_, ?_, trivial⟩
      · rw [load64_store64]
        rfl
      · rw [load64_store64_disjoint _ _ (by omega), load64_store64]
        rfl
  | cons m nodes =>
      have nonzero := cells.nonzero m (by simp)
      have apart : n ≠ m := fun equal => cells.head (by simp [equal])
      have alignedN := cells.aligned n List.mem_cons_self
      have alignedM := cells.aligned m (by simp)
      have written : pushFront mem m n =
          ((mem.store64 (n + 8) 0).store64 n m).store64 (m + 8) n := if_neg nonzero
      rw [List.headD_cons] at first ⊢
      rw [written]
      refine ⟨?_, ?_, ?_⟩
      · rw [load64_store64_disjoint _ _ (by omega), load64_store64, Nat.mod_eq_of_lt first]
        rfl
      · rw [load64_store64_disjoint _ _ (by omega), load64_store64_disjoint _ _ (by omega),
          load64_store64]
        rfl
      · have kept := (segment.store 0 cells (le_refl 8)).store m cells (Nat.zero_le 8)
        exact kept.setPrev bound cells.tail

theorem pushFront_outside {mem : Memory} {n : Nat} {nodes : List Nat} {a : Nat}
    (outside : ∀ m ∈ n :: nodes, a < m ∨ m + 16 ≤ a) :
    pushFront mem (nodes.headD 0) n a = mem a := by
  have atN := outside n List.mem_cons_self
  have kept : ((mem.store64 (n + 8) 0).store64 n (nodes.headD 0)) a = mem a := by
    rw [store64_outside _ _ (by omega), store64_outside _ _ (by omega)]
  unfold pushFront
  cases nodes with
  | nil => exact kept
  | cons m nodes =>
      have atM := outside m (by simp)
      rw [List.headD_cons] at kept ⊢
      split
      · exact kept
      · rw [store64_outside _ _ (by omega)]
        exact kept

/-! ## Removing -/

section Unlink

variable {mem : Memory} {n : Nat} {front back : List Nat}

theorem segment_links (segment : Segment mem 0 (front ++ n :: back) 0) :
    mem.load64 n = back.headD 0 ∧ mem.load64 (n + 8) = front.getLastD 0 := by
  have parts := (segment_append mem 0 front (n :: back) 0).mp segment
  exact ⟨parts.2.1, parts.2.2.1⟩

/-- The memory after the first of the two writes. -/
theorem unlink_front (cells : Cells (front ++ n :: back))
    (segment : Segment mem 0 (front ++ n :: back) 0) :
    ∃ mem', (if mem.load64 (n + 8) = 0 then mem else
        mem.store64 (mem.load64 (n + 8)) (mem.load64 n)) = mem' ∧
      Segment mem' 0 front (back.headD 0) ∧ Segment mem' n back 0 ∧
      mem'.load64 n = back.headD 0 ∧ mem'.load64 (n + 8) = front.getLastD 0 ∧
      ∀ a, (∀ m ∈ front, a < m ∨ m + 16 ≤ a) → mem' a = mem a := by
  obtain ⟨isNext, isPrev⟩ := segment_links segment
  have parts := (segment_append mem 0 front (n :: back) 0).mp segment
  rw [isPrev, isNext]
  rcases List.eq_nil_or_concat' front with rfl | ⟨early, last, rfl⟩
  · exact ⟨mem, by simp, trivial, parts.2.2.2, isNext, isPrev, fun _ _ => rfl⟩
  · have member : last ∈ early ++ [last] := by simp
    have isLast : (early ++ [last]).getLastD 0 = last := by simp
    have cellsFront : Cells (early ++ [last]) := cells.sublist (List.sublist_append_left _ _)
    have cellsBack : Cells (last :: n :: back) := by
      rw [List.append_assoc] at cells
      exact cells.sublist (List.sublist_append_right _ _)
    have bound : back.headD 0 < 2 ^ 64 := headD_lt cellsBack.tail.tail
    have nonzero : last ≠ 0 := cellsFront.nonzero last member
    have apart : n ≠ last := fun equal => cellsBack.head (by simp [equal])
    have alignedN := cellsBack.aligned n (by simp)
    have alignedLast := cellsBack.aligned last (by simp)
    refine ⟨mem.store64 last (back.headD 0), by rw [isLast, if_neg nonzero],
      parts.1.setNext bound cellsFront, ?_, ?_, ?_, ?_⟩
    · exact parts.2.2.2.store _ (cellsBack.perm (List.Perm.swap n last back)).tail (Nat.zero_le 8)
    · rw [load64_store64_disjoint _ _ (by omega)]
      exact isNext
    · rw [load64_store64_disjoint _ _ (by omega)]
      exact isPrev
    · intro a outside
      have atLast := outside last member
      exact store64_outside _ _ (by omega)

theorem unlink_segment (cells : Cells (front ++ n :: back))
    (segment : Segment mem 0 (front ++ n :: back) 0) :
    Segment (unlink mem n) 0 (front ++ back) 0 := by
  obtain ⟨mem', isFirst, onFront, onBack, isNext, isPrev, _⟩ := unlink_front cells segment
  have written : unlink mem n = if back.headD 0 = 0 then mem' else
      mem'.store64 (back.headD 0 + 8) (front.getLastD 0) := by
    simp only [unlink, isFirst, isNext, isPrev]
  rw [written, segment_append]
  cases back with
  | nil => exact ⟨by simpa using onFront, trivial⟩
  | cons m back =>
      have nonzero : m ≠ 0 := cells.nonzero m (by simp)
      have around : Cells (front ++ m :: back) := by
        rw [← List.singleton_append, ← List.append_assoc] at cells
        exact cells.sublist ((List.sublist_append_left _ _).append_right _)
      have cellsBack : Cells (m :: back) := around.sublist (List.sublist_append_right _ _)
      have cellsFront : Cells (m :: front) := by
        rw [← List.singleton_append, ← List.append_assoc] at around
        exact (around.sublist (List.sublist_append_left _ _)).perm
          (List.perm_append_singleton m front)
      have bound : front.getLastD 0 < 2 ^ 64 := getLastD_lt cellsFront.tail
      rw [List.headD_cons, if_neg nonzero]
      exact ⟨onFront.store _ cellsFront le_rfl, onBack.setPrev bound cellsBack⟩

theorem unlink_outside {a : Nat} (cells : Cells (front ++ n :: back))
    (segment : Segment mem 0 (front ++ n :: back) 0)
    (outside : ∀ m ∈ front ++ back, a < m ∨ m + 16 ≤ a) : unlink mem n a = mem a := by
  obtain ⟨mem', isFirst, _, _, isNext, isPrev, kept⟩ := unlink_front cells segment
  have written : unlink mem n = if back.headD 0 = 0 then mem' else
      mem'.store64 (back.headD 0 + 8) (front.getLastD 0) := by
    simp only [unlink, isFirst, isNext, isPrev]
  have same := kept a fun m member => outside m (List.mem_append_left _ member)
  cases back with
  | nil =>
      rw [written, List.headD_nil, if_pos rfl]
      exact same
  | cons m back =>
      have atM := outside m (by simp)
      have nonzero : m ≠ 0 := cells.nonzero m (by simp)
      rw [written, List.headD_cons, if_neg nonzero, store64_outside _ _ (by omega)]
      exact same

end Unlink

end FoundationsLab.Foundation.DoublyLinked
