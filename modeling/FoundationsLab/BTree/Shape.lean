import FoundationsLab.BTree.Tree

/-! # Shape of a balanced subtree

`Shape` is the invariant of a subtree of a given height whose keys lie in a
window. It leaves the occupancy of its top node open below, so that it also
describes a node that a deletion has just made too small. -/

namespace FoundationsLab.BTree

open Foundation

variable {K V : Type}

/-! ## Contents -/

def Leaf.entries (leaf : Leaf K V) : List (K × V) := leaf.keys.zip leaf.values

def Node.entries (node : Node K V) : List (K × V) := node.leaves.flatMap Leaf.entries

@[simp] theorem Node.leaves_leaf (leaf : Leaf K V) : (Node.leaf leaf).leaves = [leaf] := by
  simp [Node.leaves]

@[simp] theorem Node.leaves_internal (keys : List K) (children : List (Node K V)) :
    (Node.internal keys children).leaves = children.flatMap Node.leaves := by
  simp [Node.leaves]

@[simp] theorem Node.entries_leaf (leaf : Leaf K V) :
    (Node.leaf leaf).entries = leaf.keys.zip leaf.values := by
  simp [Node.entries, Leaf.entries]

@[simp] theorem Node.entries_internal (keys : List K) (children : List (Node K V)) :
    (Node.internal keys children).entries = children.flatMap Node.entries := by
  simp only [Node.entries, Node.leaves_internal, List.flatMap_assoc]
  rfl

@[simp] theorem Node.keys_leaf (leaf : Leaf K V) : (Node.leaf leaf).keys = leaf.keys := rfl

@[simp] theorem Node.keys_internal (keys : List K) (children : List (Node K V)) :
    (Node.internal keys children).keys = keys := rfl

/-! ## Parallel lists -/

/-- Parallel lists split together. -/
theorem exists_parallel_split {front back : List K} {values : List V}
    (lengths : values.length = (front ++ back).length) :
    ∃ frontValues backValues, values = frontValues ++ backValues ∧
      frontValues.length = front.length ∧ backValues.length = back.length := by
  rw [List.length_append] at lengths
  exact ⟨values.take front.length, values.drop front.length, (List.take_append_drop _ _).symm,
    by simp; omega, by simp; omega⟩

theorem forall_zip_fst {Holds : K → Prop} {keys : List K} {values : List V}
    (each : ∀ key ∈ keys, Holds key) : ∀ entry ∈ keys.zip values, Holds entry.1 :=
  fun _ member => each _ (List.of_mem_zip member).1

/-! ## Separator chains -/

/-- The children of an internal node along its separators: child `i` satisfies
`P` in the window between separators `i - 1` and `i`. -/
def Chain (P : Option K → Option K → Node K V → Prop) :
    Option K → List K → List (Node K V) → Option K → Prop
  | lo, [], [child], hi => P lo hi child
  | lo, key :: keys, child :: children, hi =>
      P lo (some key) child ∧ Chain P (some key) keys children hi
  | _, _, _, _ => False

section Chain

variable {P : Option K → Option K → Node K V → Prop} {lo hi : Option K}

theorem Chain.length : ∀ {lo : Option K} {keys : List K} {children : List (Node K V)},
    Chain P lo keys children hi → children.length = keys.length + 1
  | _, [], [_], _ => rfl
  | _, _ :: _, _ :: _, chain => by simp [chain.2.length]

/-- A chain splits at any separator. -/
theorem chain_append {middle : K} {backKeys : List K} {back : List (Node K V)} :
    ∀ {lo : Option K} {frontKeys : List K} {front : List (Node K V)},
      front.length = frontKeys.length + 1 →
      (Chain P lo (frontKeys ++ middle :: backKeys) (front ++ back) hi ↔
        Chain P lo frontKeys front (some middle) ∧ Chain P (some middle) backKeys back hi)
  | _, [], [_], _ => .rfl
  | _, _ :: _, _ :: _, lengths => by
      simp only [List.cons_append, Chain]
      rw [chain_append (by simpa using lengths), and_assoc]

/-- The place of one child in a chain: its own window, and the freedom to fill
this window with any other chain. -/
theorem Chain.hole {child : Node K V} {back : List (Node K V)} :
    ∀ {lo : Option K} {keys : List K} {front : List (Node K V)},
      Chain P lo keys (front ++ child :: back) hi →
      ∃ frontKeys backKeys a b, keys = frontKeys ++ backKeys ∧
        frontKeys.length = front.length ∧ P a b child ∧
        ∀ fillKeys filling, Chain P a fillKeys filling b →
          Chain P lo (frontKeys ++ fillKeys ++ backKeys) (front ++ filling ++ back) hi
  | lo, [], [], chain => by
      cases back with
      | nil => exact ⟨[], [], lo, hi, rfl, rfl, chain, fun _ _ filled => by simpa using filled⟩
      | cons => exact chain.elim
  | lo, key :: keys, [], chain => by
      refine ⟨[], key :: keys, lo, some key, rfl, rfl, chain.1, fun fillKeys filling filled => ?_⟩
      exact (chain_append filled.length).mpr ⟨filled, chain.2⟩
  | _, [], _ :: front, chain => by cases front <;> exact chain.elim
  | lo, key :: keys, first :: front, chain => by
      obtain ⟨frontKeys, backKeys, a, b, rfl, lengths, holds, fill⟩ := chain.2.hole
      refine ⟨key :: frontKeys, backKeys, a, b, rfl, by simp [lengths], holds, ?_⟩
      intro fillKeys filling filled
      exact ⟨chain.1, fill fillKeys filling filled⟩

/-- The place of two adjacent children and of the separator between them. -/
theorem Chain.pair {left right : Node K V} {back : List (Node K V)} :
    ∀ {lo : Option K} {keys : List K} {front : List (Node K V)},
      Chain P lo keys (front ++ left :: right :: back) hi →
      ∃ frontKeys separator backKeys a b, keys = frontKeys ++ separator :: backKeys ∧
        frontKeys.length = front.length ∧ P a (some separator) left ∧
        P (some separator) b right ∧
        ∀ fillKeys filling, Chain P a fillKeys filling b →
          Chain P lo (frontKeys ++ fillKeys ++ backKeys) (front ++ filling ++ back) hi
  | _, [], [], chain => chain.elim
  | lo, [key], [], chain => by
      cases back with
      | nil =>
          exact ⟨[], key, [], lo, hi, rfl, rfl, chain.1, chain.2,
            fun _ _ filled => by simpa using filled⟩
      | cons => exact chain.2.elim
  | lo, key :: next :: keys, [], chain => by
      refine ⟨[], key, next :: keys, lo, some next, rfl, rfl, chain.1, chain.2.1, ?_⟩
      intro fillKeys filling filled
      exact (chain_append filled.length).mpr ⟨filled, chain.2.2⟩
  | _, [], _ :: front, chain => by cases front <;> exact chain.elim
  | lo, key :: keys, first :: front, chain => by
      obtain ⟨frontKeys, separator, backKeys, a, b, rfl, lengths, onLeft, onRight, fill⟩ :=
        chain.2.pair
      refine ⟨key :: frontKeys, separator, backKeys, a, b, rfl, by simp [lengths], onLeft,
        onRight, ?_⟩
      intro fillKeys filling filled
      exact ⟨chain.1, fill fillKeys filling filled⟩

end Chain

section Shape

variable [LinearOrder K]

/-! ## Windows -/

/-- The window between two bounds is not empty. -/
def Opens (lo hi : Option K) : Prop :=
  ∀ lower upper, lo = some lower → hi = some upper → lower < upper

theorem Opens.trans {lo hi : Option K} {middle : K} (below : Opens lo (some middle))
    (above : Opens (some middle) hi) : Opens lo hi :=
  fun lower upper atLo atHi => lt_trans (below lower middle atLo rfl) (above middle upper rfl atHi)

theorem inRange_widenUpper {lo hi : Option K} {middle key : K}
    (inside : InRange lo (some middle) key) (above : Opens (some middle) hi) :
    InRange lo hi key :=
  ⟨inside.1, fun upper atHi => lt_trans (inside.2 middle rfl) (above middle upper rfl atHi)⟩

theorem inRange_widenLower {lo hi : Option K} {middle key : K}
    (inside : InRange (some middle) hi key) (below : Opens lo (some middle)) :
    InRange lo hi key :=
  ⟨fun lower atLo => ((below lower middle atLo rfl).trans_le (inside.1 middle rfl)).le, inside.2⟩

/-! ## Balanced subtrees -/

structure LeafShape (maxKeys : Nat) (lo hi : Option K) (leaf : Leaf K V) : Prop where
  opens : Opens lo hi
  lengths : leaf.values.length = leaf.keys.length
  sorted : leaf.keys.Pairwise (· < ·)
  inside : ∀ key ∈ leaf.keys, InRange lo hi key
  notFull : leaf.keys.length ≤ maxKeys

/-- A subtree of the given height in the window `[lo, hi)`. The bound `minKeys`
holds of every node below the top one. -/
def Shape (minKeys maxKeys : Nat) : Nat → Option K → Option K → Node K V → Prop
  | 0, lo, hi, .leaf leaf => LeafShape maxKeys lo hi leaf
  | height + 1, lo, hi, .internal keys children =>
      keys.length ≤ maxKeys ∧ Chain (Shape minKeys maxKeys height) lo keys children hi ∧
        ∀ child ∈ children, minKeys ≤ child.keys.length
  | _, _, _, _ => False

variable {minKeys maxKeys height : Nat} {lo hi : Option K}

theorem Shape.size_le {node : Node K V} (shape : Shape minKeys maxKeys height lo hi node) :
    node.keys.length ≤ maxKeys := by
  cases height <;> cases node
  · exact LeafShape.notFull shape
  · exact shape.elim
  · exact shape.elim
  · exact shape.1

theorem LeafShape.keys_eq {leaf : Leaf K V} (shape : LeafShape maxKeys lo hi leaf) :
    leaf.entries.map Prod.fst = leaf.keys :=
  List.map_fst_zip shape.lengths.ge

theorem LeafShape.ascending {leaf : Leaf K V} (shape : LeafShape maxKeys lo hi leaf) :
    Ascending leaf.entries := by
  unfold Ascending
  rw [shape.keys_eq]
  exact shape.sorted

theorem LeafShape.entries_inside {leaf : Leaf K V} (shape : LeafShape maxKeys lo hi leaf) :
    ∀ entry ∈ leaf.entries, InRange lo hi entry.1 := by
  intro entry member
  apply shape.inside
  rw [← shape.keys_eq]
  exact List.mem_map_of_mem member

/-- What a container in a window shows to the outside. -/
structure Contents (lo hi : Option K) (entries : List (K × V)) : Prop where
  opens : Opens lo hi
  ascending : Ascending entries
  inside : ∀ entry ∈ entries, InRange lo hi entry.1

theorem Contents.append {middle : K} {front back : List (K × V)}
    (left : Contents lo (some middle) front) (right : Contents (some middle) hi back) :
    Contents lo hi (front ++ back) where
  opens := left.opens.trans right.opens
  ascending := ascending_append.mpr ⟨left.ascending, right.ascending,
    fun first inFront second inBack =>
      ((left.inside first inFront).2 middle rfl).trans_le ((right.inside second inBack).1 middle rfl)⟩
  inside entry member := by
    rcases List.mem_append.mp member with inFront | inBack
    · exact inRange_widenUpper (left.inside entry inFront) right.opens
    · exact inRange_widenLower (right.inside entry inBack) left.opens

theorem Chain.contents {P : Option K → Option K → Node K V → Prop}
    (each : ∀ a b child, P a b child → Contents a b child.entries) :
    ∀ {lo : Option K} {keys : List K} {children : List (Node K V)},
      Chain P lo keys children hi → Contents lo hi (children.flatMap Node.entries)
  | _, [], [_], chain => by simpa using each _ _ _ chain
  | _, _ :: _, _ :: _, chain => by
      simpa using (each _ _ _ chain.1).append (chain.2.contents each)

theorem Shape.contents : ∀ {height : Nat} {lo hi : Option K} {node : Node K V},
    Shape minKeys maxKeys height lo hi node → Contents lo hi node.entries
  | 0, _, _, .leaf leaf, shape => by
      have leafShape : LeafShape maxKeys _ _ leaf := shape
      simpa [Leaf.entries] using
        (⟨leafShape.opens, leafShape.ascending, leafShape.entries_inside⟩ : Contents _ _ leaf.entries)
  | height + 1, _, _, .internal _ _, shape => by
      rw [Node.entries_internal]
      exact shape.2.1.contents fun _ _ _ => Shape.contents

theorem Chain.entries {keys : List K} {children : List (Node K V)}
    (chain : Chain (Shape minKeys maxKeys height) lo keys children hi) :
    Contents lo hi (children.flatMap Node.entries) :=
  chain.contents fun _ _ _ => Shape.contents

/-! ## Routing -/

/-- The descent picks the child whose window contains the key; whatever lies to
its left is smaller than the key, whatever lies to its right is larger. -/
theorem Chain.route {key : K} : ∀ {lo : Option K} {keys : List K} {children : List (Node K V)},
    Chain (Shape minKeys maxKeys height) lo keys children hi → InRange lo hi key →
      ∃ front child back, children = front ++ child :: back ∧
        childIndex keys key = front.length ∧
        (∀ entry ∈ front.flatMap Node.entries, entry.1 < key) ∧
        (∀ entry ∈ back.flatMap Node.entries, key < entry.1) ∧
        ∃ frontKeys backKeys a b, keys = frontKeys ++ backKeys ∧
          frontKeys.length = front.length ∧ Shape minKeys maxKeys height a b child ∧
          InRange a b key ∧
          ∀ fillKeys filling, Chain (Shape minKeys maxKeys height) a fillKeys filling b →
            Chain (Shape minKeys maxKeys height) lo (frontKeys ++ fillKeys ++ backKeys)
              (front ++ filling ++ back) hi
  | lo, [], [child], chain, inside =>
      ⟨[], child, [], rfl, rfl, by simp, by simp, [], [], lo, hi, rfl, rfl, chain, inside,
        fun _ _ filled => by simpa using filled⟩
  | lo, separator :: keys, first :: children, chain, inside => by
      by_cases atOrRight : separator ≤ key
      · obtain ⟨front, child, back, rfl, index, below, above, frontKeys, backKeys, a, b, rfl,
          lengths, shape, inChild, fill⟩ := chain.2.route
            ⟨fun _ equal => Option.some.inj equal ▸ atOrRight, inside.2⟩
        refine ⟨first :: front, child, back, rfl, by simp [childIndex, atOrRight, index], ?_, above,
          separator :: frontKeys, backKeys, a, b, rfl, by simp [lengths], shape, inChild, ?_⟩
        · intro entry member
          rw [List.flatMap_cons, List.mem_append] at member
          rcases member with inFirst | inFront
          · exact ((chain.1.contents.inside entry inFirst).2 separator rfl).trans_le atOrRight
          · exact below entry inFront
        · intro fillKeys filling filled
          exact ⟨chain.1, fill fillKeys filling filled⟩
      · have left : key < separator := not_le.mp atOrRight
        refine ⟨[], first, children, rfl, by simp [childIndex, atOrRight], by simp, ?_,
          [], separator :: keys, lo, some separator, rfl, rfl, chain.1,
          ⟨inside.1, fun _ equal => Option.some.inj equal ▸ left⟩, ?_⟩
        · intro entry member
          exact left.trans_le ((chain.2.entries.inside entry member).1 separator rfl)
        · intro fillKeys filling filled
          exact (chain_append filled.length).mpr ⟨filled, chain.2⟩

end Shape

end FoundationsLab.BTree
