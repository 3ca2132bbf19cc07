import FoundationsLab.Foundation.SortedMap
import FoundationsLab.Foundation.ArrayList

/-! # The B+ tree

The object graph of `BPlusTree` and its operations. Every node but a leaf is
referred to by its parent only, so internal nodes are values. A leaf is also
referred to by the leaf chain: it carries an identity, and `next` and
`firstLeaf` hold identities. A thrown exception is `none`. -/

namespace FoundationsLab.BTree

open Foundation

variable {K V : Type}

/-! ## Nodes -/

structure Leaf (K V : Type) where
  id : Nat
  keys : List K
  values : List V
  next : Option Nat

inductive Node (K V : Type) where
  | leaf (leaf : Leaf K V)
  | internal (keys : List K) (children : List (Node K V))

structure Split (K V : Type) where
  key : K
  right : Node K V

namespace Node

def keys : Node K V → List K
  | .leaf l => l.keys
  | .internal keys _ => keys

/-- The leaves below a node, from left to right: the objects that a reference
into the leaf chain can denote. -/
def leaves : Node K V → List (Leaf K V)
  | .leaf l => [l]
  | .internal _ children => children.flatMap leaves

theorem sizeOf_child_lt {keys : List K} {children : List (Node K V)} {child : Node K V}
    (member : child ∈ children) : sizeOf child < sizeOf (Node.internal keys children) := by
  have below := List.sizeOf_lt_of_mem member
  simp only [internal.sizeOf_spec]
  omega

end Node

/-- The mutable fields that an insertion or a deletion writes on its way, and
the identity that the next leaf allocated will get. -/
structure Fields (V : Type) where
  size : Nat
  nextId : Nat
  lastPut : Option V
  lastRemoved : Option V

structure BPlusTree (K V : Type) where
  order : Nat
  root : Node K V
  firstLeaf : Nat
  fields : Fields V

namespace BPlusTree

def maxKeys (tree : BPlusTree K V) : Nat := tree.order - 1

def minKeys (tree : BPlusTree K V) : Nat := (tree.order - 1) / 2

/-- The constructor rejects an order below three. -/
def new (order : Nat) : Option (BPlusTree K V) :=
  if order < 3 then none
  else some
    { order
      root := .leaf { id := 0, keys := [], values := [], next := none }
      firstLeaf := 0
      fields := { size := 0, nextId := 1, lastPut := none, lastRemoved := none } }

end BPlusTree

section Operations

variable [LinearOrder K]

/-! ## Search -/

/-- Child `i` covers the keys below `keys[i]`. -/
def childIndex : List K → K → Nat
  | [], _ => 0
  | separator :: keys, key => if separator ≤ key then childIndex keys key + 1 else 0

/-- The position of `key` among the leaf's keys, `none` standing for `-1`. -/
def leafIndex : List K → K → Option Nat
  | [], _ => none
  | head :: keys, key =>
      if key = head then some 0
      else if key < head then none
      else (leafIndex keys key).map (· + 1)

/-- The descent shared by `get`, `containsKey` and `leafFor`. -/
def leafFor : Node K V → K → Option (Leaf K V)
  | .leaf leaf, _ => some leaf
  | .internal keys children, key =>
      match _child : children[childIndex keys key]? with
      | none => none
      | some child => leafFor child key
termination_by node => node
decreasing_by exact Node.sizeOf_child_lt (List.mem_of_getElem? _child)

/-- The outer option is an exception, the inner one Java's `null`. -/
def BPlusTree.get (tree : BPlusTree K V) (key : K) : Option (Option V) := do
  let leaf ← leafFor tree.root key
  match leafIndex leaf.keys key with
  | none => some none
  | some i => leaf.values[i]?.map some

def BPlusTree.containsKey (tree : BPlusTree K V) (key : K) : Option Bool := do
  let leaf ← leafFor tree.root key
  some (leafIndex leaf.keys key).isSome

def BPlusTree.size (tree : BPlusTree K V) : Nat := tree.fields.size

/-! ## Insertion -/

def splitLeaf (leaf : Leaf K V) (fields : Fields V) :
    Option (Node K V × Option (Split K V) × Fields V) := do
  let mid := leaf.keys.length / 2
  let right : Leaf K V :=
    { id := fields.nextId
      keys := leaf.keys.drop mid
      values := leaf.values.drop mid
      next := leaf.next }
  let left : Leaf K V :=
    { leaf with
      keys := leaf.keys.take mid
      values := leaf.values.take mid
      next := some right.id }
  let separator ← right.keys[0]?
  some (.leaf left, some ⟨separator, .leaf right⟩, { fields with nextId := fields.nextId + 1 })

def splitInternal (keys : List K) (children : List (Node K V)) (fields : Fields V) :
    Option (Node K V × Option (Split K V) × Fields V) := do
  let mid := keys.length / 2
  let up ← keys[mid]?
  let right := Node.internal (keys.drop (mid + 1)) (children.drop (mid + 1))
  some (.internal (keys.take mid) (children.take (mid + 1)), some ⟨up, right⟩, fields)

/-- The number of leading keys below `key`. -/
def insertPosition : List K → K → Nat
  | [], _ => 0
  | head :: keys, key => if head < key then insertPosition keys key + 1 else 0

def insertLeaf (maxKeys : Nat) (leaf : Leaf K V) (key : K) (value : V) (fields : Fields V) :
    Option (Node K V × Option (Split K V) × Fields V) := do
  let pos := insertPosition leaf.keys key
  if leaf.keys[pos]? = some key then
    let previous ← leaf.values[pos]?
    let values ← ArrayList.set leaf.values pos value
    some (.leaf { leaf with values }, none, { fields with lastPut := some previous })
  else
    let keys ← ArrayList.add leaf.keys pos key
    let values ← ArrayList.add leaf.values pos value
    let fields := { fields with lastPut := none, size := fields.size + 1 }
    let leaf := { leaf with keys, values }
    if maxKeys < keys.length then splitLeaf leaf fields else some (.leaf leaf, none, fields)

def insert (maxKeys : Nat) (node : Node K V) (key : K) (value : V) (fields : Fields V) :
    Option (Node K V × Option (Split K V) × Fields V) :=
  match node with
  | .leaf leaf => insertLeaf maxKeys leaf key value fields
  | .internal keys children =>
      let ci := childIndex keys key
      match _child : children[ci]? with
      | none => none
      | some child => do
          let (child, childSplit, fields) ← insert maxKeys child key value fields
          let children ← ArrayList.set children ci child
          match childSplit with
          | none => some (.internal keys children, none, fields)
          | some split =>
              let keys ← ArrayList.add keys ci split.key
              let children ← ArrayList.add children (ci + 1) split.right
              if maxKeys < keys.length then splitInternal keys children fields
              else some (.internal keys children, none, fields)
termination_by node
decreasing_by exact Node.sizeOf_child_lt (List.mem_of_getElem? _child)

def BPlusTree.put (tree : BPlusTree K V) (key : K) (value : V) :
    Option (BPlusTree K V × Option V) := do
  let (node, split, fields) ← insert tree.maxKeys tree.root key value tree.fields
  let root := match split with
    | none => node
    | some split => .internal [split.key] [node, split.right]
  some ({ tree with root, fields }, fields.lastPut)

/-! ## Deletion

The functions below work on the keys and children of the parent. A class cast
that fails is an exception as well. -/

def borrowFromLeft (keys : List K) (children : List (Node K V)) (ci : Nat) :
    Option (List K × List (Node K V)) := do
  let child ← children[ci]?
  let left ← children[ci - 1]?
  match child, left with
  | .leaf c, .leaf l =>
      let (key, leftKeys) ← ArrayList.removeLast l.keys
      let (value, leftValues) ← ArrayList.removeLast l.values
      let keys ← ArrayList.set keys (ci - 1) key
      let children ← ArrayList.set children (ci - 1)
        (.leaf { l with keys := leftKeys, values := leftValues })
      let children ← ArrayList.set children ci
        (.leaf { c with keys := key :: c.keys, values := value :: c.values })
      some (keys, children)
  | .internal cKeys cChildren, .internal lKeys lChildren =>
      let separator ← keys[ci - 1]?
      let (key, leftKeys) ← ArrayList.removeLast lKeys
      let keys ← ArrayList.set keys (ci - 1) key
      let (moved, leftChildren) ← ArrayList.removeLast lChildren
      let children ← ArrayList.set children (ci - 1) (.internal leftKeys leftChildren)
      let children ← ArrayList.set children ci
        (.internal (separator :: cKeys) (moved :: cChildren))
      some (keys, children)
  | _, _ => none

def borrowFromRight (keys : List K) (children : List (Node K V)) (ci : Nat) :
    Option (List K × List (Node K V)) := do
  let child ← children[ci]?
  let right ← children[ci + 1]?
  match child, right with
  | .leaf c, .leaf r =>
      let (key, rightKeys) ← ArrayList.remove r.keys 0
      let (value, rightValues) ← ArrayList.remove r.values 0
      let separator ← rightKeys[0]?
      let keys ← ArrayList.set keys ci separator
      let children ← ArrayList.set children ci
        (.leaf { c with keys := c.keys ++ [key], values := c.values ++ [value] })
      let children ← ArrayList.set children (ci + 1)
        (.leaf { r with keys := rightKeys, values := rightValues })
      some (keys, children)
  | .internal cKeys cChildren, .internal rKeys rChildren =>
      let separator ← keys[ci]?
      let (key, rightKeys) ← ArrayList.remove rKeys 0
      let keys ← ArrayList.set keys ci key
      let (moved, rightChildren) ← ArrayList.remove rChildren 0
      let children ← ArrayList.set children ci
        (.internal (cKeys ++ [separator]) (cChildren ++ [moved]))
      let children ← ArrayList.set children (ci + 1) (.internal rightKeys rightChildren)
      some (keys, children)
  | _, _ => none

/-- Merge `children[ci]` and `children[ci + 1]`, with `keys[ci]` between them. -/
def mergeInto (keys : List K) (children : List (Node K V)) (ci : Nat) :
    Option (List K × List (Node K V)) := do
  let left ← children[ci]?
  let right ← children[ci + 1]?
  let separator ← keys[ci]?
  let merged ← match left, right with
    | .leaf l, .leaf r =>
        some (.leaf { l with keys := l.keys ++ r.keys, values := l.values ++ r.values, next := r.next })
    | .internal lKeys lChildren, .internal rKeys rChildren =>
        some (.internal (lKeys ++ separator :: rKeys) (lChildren ++ rChildren))
    | _, _ => none
  let children ← ArrayList.set children ci merged
  let (_, keys) ← ArrayList.remove keys ci
  let (_, children) ← ArrayList.remove children (ci + 1)
  some (keys, children)

def rebalance (minKeys : Nat) (keys : List K) (children : List (Node K V)) (ci : Nat) :
    Option (List K × List (Node K V)) :=
  let left := if 0 < ci then children[ci - 1]? else none
  let right := children[ci + 1]?
  if left.any (minKeys < ·.keys.length) then borrowFromLeft keys children ci
  else if right.any (minKeys < ·.keys.length) then borrowFromRight keys children ci
  else if left.isSome then mergeInto keys children (ci - 1)
  else mergeInto keys children ci

def deleteLeaf (leaf : Leaf K V) (key : K) (fields : Fields V) : Option (Node K V × Fields V) :=
  match leafIndex leaf.keys key with
  | none => some (.leaf leaf, fields)
  | some i => do
      let (_, keys) ← ArrayList.remove leaf.keys i
      let (value, values) ← ArrayList.remove leaf.values i
      some (.leaf { leaf with keys, values },
        { fields with lastRemoved := some value, size := fields.size - 1 })

def delete (minKeys : Nat) (node : Node K V) (key : K) (fields : Fields V) :
    Option (Node K V × Fields V) :=
  match node with
  | .leaf leaf => deleteLeaf leaf key fields
  | .internal keys children =>
      let ci := childIndex keys key
      match _child : children[ci]? with
      | none => none
      | some child => do
          let (child, fields) ← delete minKeys child key fields
          let children ← ArrayList.set children ci child
          if child.keys.length < minKeys then
            let (keys, children) ← rebalance minKeys keys children ci
            some (.internal keys children, fields)
          else some (.internal keys children, fields)
termination_by node
decreasing_by exact Node.sizeOf_child_lt (List.mem_of_getElem? _child)

/-- A root left with a single child is replaced by it. -/
def shrinkRoot : Node K V → Node K V
  | .internal _ [child] => child
  | root => root

def BPlusTree.remove (tree : BPlusTree K V) (key : K) : Option (BPlusTree K V × Option V) := do
  let (node, fields) ← delete tree.minKeys tree.root key { tree.fields with lastRemoved := none }
  some ({ tree with root := shrinkRoot node, fields }, fields.lastRemoved)

/-! ## Scans -/

/-- Follow a reference of the leaf chain. -/
def derefLeaf (leaves : List (Leaf K V)) (id : Nat) : Option (Leaf K V) :=
  leaves.find? (·.id = id)

/-- The inner loop of `range`: the entries of one leaf from index `i` on. The
flag tells whether `range` returned from inside the loop. -/
def rangeLeaf (fromKey toKey : Option K) (values : List V) :
    List K → Nat → List (K × V) → Option (List (K × V) × Bool)
  | [], _, out => some (out, false)
  | key :: keys, i, out =>
      if fromKey.any (key < ·) then rangeLeaf fromKey toKey values keys (i + 1) out
      else if toKey.any (· ≤ key) then some (out, true)
      else do
        let value ← values[i]?
        rangeLeaf fromKey toKey values keys (i + 1) (out ++ [(key, value)])

/-- The outer loop of `range` along the leaf chain; `none` when it runs out of
fuel or follows a reference to no leaf. -/
def rangeLoop (leaves : List (Leaf K V)) (fromKey toKey : Option K) :
    Nat → Option Nat → List (K × V) → Option (List (K × V))
  | 0, _, _ => none
  | _ + 1, none, out => some out
  | fuel + 1, some id, out => do
      let leaf ← derefLeaf leaves id
      let (out, returned) ← rangeLeaf fromKey toKey leaf.values leaf.keys 0 out
      if returned then some out else rangeLoop leaves fromKey toKey fuel leaf.next out

/-- The leaf from which `range` starts. -/
def BPlusTree.rangeStart (tree : BPlusTree K V) : Option K → Option Nat
  | none => some tree.firstLeaf
  | some key => (leafFor tree.root key).map (·.id)

/-- A chain without a cycle has at most as many references as there are leaves. -/
def BPlusTree.range (tree : BPlusTree K V) (fromKey toKey : Option K) :
    Option (List (K × V)) := do
  let start ← tree.rangeStart fromKey
  let leaves := tree.root.leaves
  rangeLoop leaves fromKey toKey (leaves.length + 1) (some start) []

def BPlusTree.entries (tree : BPlusTree K V) : Option (List (K × V)) := tree.range none none

end Operations

end FoundationsLab.BTree
