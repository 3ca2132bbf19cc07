import FoundationsLab.BTree.Balanced
import FoundationsLab.Foundation.Machine

/-! # The tree is a sorted map

Runs of `put` and `remove` on a tree, against the same runs on a sorted map. -/

namespace FoundationsLab.BTree

open Foundation

variable {K V : Type} [LinearOrder K]

inductive Op (K V : Type) where
  | put (key : K) (value : V)
  | remove (key : K)

def BPlusTree.step (tree : BPlusTree K V) : Op K V → Option (BPlusTree K V × Option V)
  | .put key value => tree.put key value
  | .remove key => tree.remove key

/-- What an operation does to the map, and the previous value that it returns. -/
def mapStep (map : SortedMap K V) : Op K V → SortedMap K V × Option V
  | .put key value => (map.put key value, map.get key)
  | .remove key => (map.remove key, map.get key)

/-- A run on a freshly built tree. -/
def runTree (order : Nat) (ops : List (Op K V)) : Option (BPlusTree K V × List (Option V)) := do
  let tree ← BPlusTree.new order
  run BPlusTree.step tree ops

def runMap (ops : List (Op K V)) : SortedMap K V × List (Option V) :=
  runTotal mapStep SortedMap.empty ops

/-- Every query of the tree is answered as the map answers it. -/
structure Agrees (tree : BPlusTree K V) (map : SortedMap K V) : Prop where
  get : ∀ key, tree.get key = some (map.get key)
  containsKey : ∀ key, tree.containsKey key = some (map.containsKey key)
  size : tree.size = map.size
  entries : tree.entries = some map.entries
  range : ∀ fromKey toKey, tree.range fromKey toKey = some (map.range fromKey toKey)

/-- A balanced tree of the given order that represents a map. -/
structure Represents (order : Nat) (tree : BPlusTree K V) (map : SortedMap K V) : Prop where
  balanced : Balanced tree
  sameOrder : tree.order = order
  entries : tree.root.entries = map.entries

variable {order : Nat}

theorem Represents.agrees {tree : BPlusTree K V} {map : SortedMap K V}
    (represents : Represents order tree map) : Agrees tree map := by
  obtain ⟨balanced, -, same⟩ := represents
  constructor
  · intro key
    rw [get_balanced balanced, same]
    rfl
  · intro key
    rw [containsKey_balanced balanced, same]
    rfl
  · rw [BPlusTree.size, balanced.size, same]
    rfl
  · rw [entries_balanced balanced, same]
  · intro fromKey toKey
    rw [range_balanced balanced, same]
    rfl

theorem step_refines : Refines (Represents order) (BPlusTree.step (K := K) (V := V)) mapStep := by
  intro tree map represents op
  obtain ⟨balanced, sameOrder, same⟩ := represents
  cases op with
  | put key value =>
      obtain ⟨tree', isPut, balanced', order', entries⟩ := put_balanced balanced key value
      refine ⟨tree', ?_, balanced', order'.trans sameOrder, ?_⟩
      · rw [BPlusTree.step, isPut, same]
        rfl
      · rw [entries, same]
        rfl
  | remove key =>
      obtain ⟨tree', isRemoved, balanced', order', entries⟩ := remove_balanced balanced key
      refine ⟨tree', ?_, balanced', order'.trans sameOrder, ?_⟩
      · rw [BPlusTree.step, isRemoved, same]
        rfl
      · rw [entries, same]
        rfl

/-- A run never throws, returns the previous values, and ends in a tree that
represents the map. -/
theorem runTree_represents (bound : 3 ≤ order) (ops : List (Op K V)) :
    ∃ tree, runTree order ops = some (tree, (runMap ops).2) ∧
      Represents order tree (runMap ops).1 := by
  obtain ⟨empty, isNew, balanced, noEntries⟩ := new_balanced (K := K) (V := V) bound
  have sameOrder : empty.order = order := by
    rw [BPlusTree.new, if_neg (by omega)] at isNew
    exact congrArg BPlusTree.order (Option.some.inj isNew).symm
  obtain ⟨tree, ran, represents⟩ := step_refines.run ops
    (⟨balanced, sameOrder, noEntries⟩ : Represents order empty SortedMap.empty)
  exact ⟨tree, by simp only [runTree, isNew]; exact ran, represents⟩

/-- The tree refines the sorted map: over any run from the empty tree, `put` and
`remove` return what the map returns, and afterwards all queries agree. -/
theorem bPlusTree_refines_sortedMap (bound : 3 ≤ order) (ops : List (Op K V)) :
    ∃ tree, runTree order ops = some (tree, (runMap ops).2) ∧ Agrees tree (runMap ops).1 := by
  obtain ⟨tree, ran, represents⟩ := runTree_represents bound ops
  exact ⟨tree, ran, represents.agrees⟩

/-- An order-three tree in which a leaf splits and two leaves merge again. -/
theorem bPlusTree_refines_sortedMap_three :
    ∃ tree : BPlusTree Nat Nat,
      runTree 3 [.put 1 10, .put 2 20, .put 3 30, .put 2 21, .remove 1, .remove 3] =
        some (tree, [none, none, none, some 20, some 10, some 30]) ∧
      Agrees tree ⟨[(2, 21)], by simp [Ascending]⟩ :=
  bPlusTree_refines_sortedMap (by decide)
    [.put 1 10, .put 2 20, .put 3 30, .put 2 21, .remove 1, .remove 3]

end FoundationsLab.BTree
