import FoundationsLab.BTree.Insert
import FoundationsLab.BTree.Scan

/-! # The invariant of a whole tree

`Balanced` collects what holds of a tree between two operations. Every operation
keeps it, and the queries of a balanced tree are those of the sorted map with
the same entries. -/

namespace FoundationsLab.BTree

open Foundation

variable {K V : Type} [LinearOrder K]

structure Balanced (tree : BPlusTree K V) : Prop where
  order : 3 ≤ tree.order
  shape : ∃ height, Shape tree.minKeys tree.maxKeys height none none tree.root ∧
    (0 < height → 0 < tree.root.keys.length)
  linked : Linked tree.root.leaves none
  first : firstId tree.root.leaves none = some tree.firstLeaf
  allocated : Allocated tree.fields.nextId tree.root.leaves
  size : tree.fields.size = tree.root.entries.length

variable {tree : BPlusTree K V}

namespace Balanced

theorem two (balanced : Balanced tree) : 2 ≤ tree.maxKeys := by
  have order := balanced.order
  unfold BPlusTree.maxKeys
  omega

theorem positive (balanced : Balanced tree) : 0 < tree.minKeys := by
  have order := balanced.order
  unfold BPlusTree.minKeys
  omega

theorem contents (balanced : Balanced tree) : Contents none none tree.root.entries := by
  obtain ⟨height, shape, _⟩ := balanced.shape
  exact shape.contents

/-- The sorted map that a balanced tree represents. -/
def map (balanced : Balanced tree) : SortedMap K V where
  entries := tree.root.entries
  ascending := balanced.contents.ascending

end Balanced

/-! ## Leaves of a balanced tree -/

theorem Shape.leaf_lengths {minKeys maxKeys : Nat} : ∀ {height : Nat} {lo hi : Option K}
    {node : Node K V}, Shape minKeys maxKeys height lo hi node →
    ∀ leaf ∈ node.leaves, leaf.values.length = leaf.keys.length
  | 0, _, _, .leaf leaf, shape, other, member => by
      obtain rfl : other = leaf := by simpa using member
      exact shape.lengths
  | height + 1, lo, hi, .internal keys children, shape, leaf, member => by
      rw [Node.leaves_internal, List.mem_flatMap] at member
      obtain ⟨child, isChild, below⟩ := member
      obtain ⟨front, back, rfl⟩ := List.append_of_mem isChild
      obtain ⟨_, _, _, _, _, _, childShape, _⟩ := shape.2.1.hole
      exact childShape.leaf_lengths leaf below

/-! ## Construction -/

theorem new_balanced {order : Nat} (bound : 3 ≤ order) :
    ∃ tree : BPlusTree K V, BPlusTree.new order = some tree ∧ Balanced tree ∧
      tree.root.entries = [] := by
  refine ⟨_, if_neg (by omega), ?_, by simp⟩
  constructor
  · exact bound
  · refine ⟨0, ?_, fun tall => absurd tall (lt_irrefl 0)⟩
    exact ⟨fun _ _ atLo => by simp at atLo, rfl, List.Pairwise.nil, by simp, Nat.zero_le _⟩
  · simp [Linked, firstId]
  · simp [firstId]
  · constructor <;> simp [leafIds]
  · simp

/-! ## Updates -/

theorem put_balanced (balanced : Balanced tree) (key : K) (value : V) :
    ∃ tree', tree.put key value = some (tree', tree.root.entries.lookup key) ∧ Balanced tree' ∧
      tree'.order = tree.order ∧ tree'.root.entries = putEntry key value tree.root.entries := by
  obtain ⟨height, shape, hasKeys⟩ := balanced.shape
  obtain ⟨node, split, fields, inserted, contract⟩ := insert_spec balanced.two rfl key value
    tree.fields shape (inRange_open key)
  have pieces := contract.pieces
  have sized : fields.size = (putEntry key value tree.root.entries).length := by
    have grown := contract.size
    have before := balanced.size
    omega
  have linked := pieces.leaves.linked none balanced.linked
  have first := (pieces.leaves.first none).trans balanced.first
  have allocated := pieces.leaves.allocated balanced.allocated
  cases split with
  | none =>
      refine ⟨{ tree with root := node, fields }, ?_, ?_, rfl, ?_⟩
      · simp [BPlusTree.put, inserted, contract.lastPut]
      · refine ⟨balanced.order, ⟨height, pieces.chain, fun tall => ?_⟩, ?_, ?_, ?_, ?_⟩
        · exact (hasKeys tall).trans_le (contract.grows.resolve_right (by simp))
        · simpa [siblings] using linked
        · simpa [siblings] using first
        · simpa [siblings] using allocated
        · simpa [siblings, ← pieces.entries] using sized
      · simpa [siblings] using pieces.entries
  | some split =>
      refine ⟨{ tree with root := .internal [split.key] [node, split.right], fields }, ?_, ?_, rfl,
        ?_⟩
      · simp [BPlusTree.put, inserted, contract.lastPut]
      · refine ⟨balanced.order, ⟨height + 1, ⟨?_, pieces.chain, pieces.filled rfl⟩, by simp⟩,
          ?_, ?_, ?_, ?_⟩
        · exact (Nat.le_succ 1).trans balanced.two
        · simpa [siblings] using linked
        · simpa [siblings] using first
        · simpa [siblings] using allocated
        · simpa [siblings, ← pieces.entries] using sized
      · simpa [siblings] using pieces.entries

/-- Shrinking the root keeps the leaves, and restores its occupancy. -/
theorem shrinkRoot_spec {minKeys maxKeys height : Nat} {node : Node K V} (positive : 0 < minKeys)
    (shape : Shape minKeys maxKeys height none none node) :
    (shrinkRoot node).leaves = node.leaves ∧
      ∃ height', Shape minKeys maxKeys height' none none (shrinkRoot node) ∧
        (0 < height' → 0 < (shrinkRoot node).keys.length) := by
  cases node with
  | leaf leaf =>
      cases height with
      | zero => exact ⟨rfl, 0, shape, fun tall => absurd tall (lt_irrefl 0)⟩
      | succ height => exact shape.elim
  | internal keys children =>
      cases height with
      | zero => exact shape.elim
      | succ height =>
          obtain ⟨notFull, chain, filled⟩ := shape
          have lengths := chain.length
          match keys, children, notFull, chain, filled, lengths with
          | [], [child], _, chain, filled, _ =>
              refine ⟨by simp [shrinkRoot], height, chain, fun _ => ?_⟩
              exact positive.trans_le (filled child List.mem_cons_self)
          | key :: keys, first :: second :: children, notFull, chain, filled, _ =>
              exact ⟨rfl, height + 1, ⟨notFull, chain, filled⟩, fun _ => by simp [shrinkRoot]⟩

theorem remove_balanced (balanced : Balanced tree) (key : K) :
    ∃ tree', tree.remove key = some (tree', tree.root.entries.lookup key) ∧ Balanced tree' ∧
      tree'.order = tree.order ∧ tree'.root.entries = removeEntry key tree.root.entries := by
  obtain ⟨height, shape, hasKeys⟩ := balanced.shape
  have half : 2 * tree.minKeys ≤ tree.maxKeys := by
    unfold BPlusTree.minKeys BPlusTree.maxKeys
    omega
  obtain ⟨node, fields, deleted, contract⟩ := delete_spec balanced.positive half key
    { tree.fields with lastRemoved := none } shape (inRange_open key) hasKeys
  obtain ⟨sameLeaves, height', shape', hasKeys'⟩ := shrinkRoot_spec balanced.positive contract.shape
  have sameEntries : (shrinkRoot node).entries = node.entries := by
    rw [Node.entries, sameLeaves, Node.entries]
  refine ⟨{ tree with root := shrinkRoot node, fields }, ?_, ?_, rfl, ?_⟩
  · simp [BPlusTree.remove, deleted, contract.lastRemoved]
  · refine ⟨balanced.order, ⟨height', shape', hasKeys'⟩, ?_, ?_, ?_, ?_⟩
    · simpa [sameLeaves] using contract.leaves.linked none balanced.linked
    · simpa [sameLeaves] using (contract.leaves.first none).trans balanced.first
    · simpa [sameLeaves, contract.sameNextId] using contract.leaves.allocated balanced.allocated
    · have shrunk := contract.size balanced.size.ge
      have before := balanced.size
      simp only [sameEntries] at shrunk ⊢
      omega
  · simp only [sameEntries, contract.entries]

/-! ## Queries -/

theorem get_balanced (balanced : Balanced tree) (key : K) :
    tree.get key = some (tree.root.entries.lookup key) := by
  obtain ⟨height, shape, _⟩ := balanced.shape
  obtain ⟨leaf, front, back, found, reached⟩ := leafFor_spec shape (inRange_open key)
  have same : tree.root.entries.lookup key = leaf.entries.lookup key := reached.lookup
  rw [BPlusTree.get, found, same]
  rcases leafIndex_lookup key reached.sorted reached.lengths with
    ⟨absent, missing⟩ | ⟨i, value, atIndex, isValue, isFound⟩
  · simp [absent, missing]
  · simp [atIndex, isValue, isFound]

theorem containsKey_balanced (balanced : Balanced tree) (key : K) :
    tree.containsKey key = some (tree.root.entries.lookup key).isSome := by
  obtain ⟨height, shape, _⟩ := balanced.shape
  obtain ⟨leaf, front, back, found, reached⟩ := leafFor_spec shape (inRange_open key)
  have same : tree.root.entries.lookup key = leaf.entries.lookup key := reached.lookup
  rw [BPlusTree.containsKey, found, same]
  rcases leafIndex_lookup key reached.sorted reached.lengths with
    ⟨absent, missing⟩ | ⟨i, value, atIndex, isValue, isFound⟩
  · simp [absent, missing]
  · simp [atIndex, isFound]

/-- The leaf from which `range` starts, with the leaves it skips. -/
theorem rangeStart_spec (balanced : Balanced tree) (fromKey : Option K) :
    ∃ visited rest, tree.root.leaves = visited ++ rest ∧
      tree.rangeStart fromKey = firstId rest none ∧
      (∃ id, firstId rest none = some id) ∧
      ∀ entry ∈ visited.flatMap Leaf.entries, ∃ key, fromKey = some key ∧ entry.1 < key := by
  cases fromKey with
  | none =>
      exact ⟨[], tree.root.leaves, rfl, balanced.first.symm, ⟨_, balanced.first⟩, by simp⟩
  | some key =>
      obtain ⟨height, shape, _⟩ := balanced.shape
      obtain ⟨leaf, front, back, found, reached⟩ := leafFor_spec shape (inRange_open key)
      refine ⟨front, leaf :: back, reached.parts, by simp [BPlusTree.rangeStart, found, firstId], ⟨leaf.id, rfl⟩, ?_⟩
      exact fun entry member => ⟨key, rfl, reached.below entry member⟩

theorem range_balanced (balanced : Balanced tree) (fromKey toKey : Option K) :
    tree.range fromKey toKey = some (entriesInRange fromKey toKey tree.root.entries) := by
  obtain ⟨height, shape, _⟩ := balanced.shape
  obtain ⟨visited, rest, parts, start, ⟨id, isId⟩, skipped⟩ := rangeStart_spec balanced fromKey
  have whole : tree.root.entries =
      visited.flatMap Leaf.entries ++ rest.flatMap Leaf.entries := by
    rw [Node.entries, parts, List.flatMap_append]
  have ascending := balanced.contents.ascending
  rw [whole] at ascending
  have nothing : entriesInRange fromKey toKey (visited.flatMap Leaf.entries) = [] := by
    apply List.filter_eq_nil_iff.mpr
    intro entry member inside
    have inRange : InRange fromKey toKey entry.1 := by simpa using inside
    obtain ⟨key, isFrom, before⟩ := skipped entry member
    exact absurd (inRange.1 key isFrom) (not_le.mpr before)
  have scanned := rangeLoop_spec fromKey toKey rest visited (tree.root.leaves.length + 1) []
    (parts ▸ balanced.allocated.nodup)
    ((linked_append visited rest none).mp (parts ▸ balanced.linked)).2
    (fun leaf member => shape.leaf_lengths leaf (parts ▸ List.mem_append_right _ member))
    (ascending_append.mp ascending).2.1 (by rw [parts, List.length_append]; omega)
  rw [BPlusTree.range, start, isId, whole, entriesInRange_append, nothing]
  rw [isId] at scanned
  simpa [parts] using scanned

theorem entries_balanced (balanced : Balanced tree) : tree.entries = some tree.root.entries := by
  rw [BPlusTree.entries, range_balanced balanced, entriesInRange_open]

end FoundationsLab.BTree
