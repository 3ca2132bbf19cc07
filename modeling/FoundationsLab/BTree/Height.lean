import FoundationsLab.BTree.Refinement
import Mathlib.Data.Nat.Log
import Mathlib.Tactic.Ring

/-! # The height of the tree

Every node but the root is at least half full, so the number of entries grows by a
factor with each level. -/

namespace FoundationsLab.BTree

open Foundation

variable {K V : Type}

/-- The loop of `height` along the first children. -/
def Node.height : Node K V → Option Nat
  | .leaf _ => some 1
  | .internal _ children =>
      match _child : children[0]? with
      | none => none
      | some child => child.height.map (· + 1)
termination_by node => node
decreasing_by exact Node.sizeOf_child_lt (List.mem_of_getElem? _child)

def BPlusTree.height (tree : BPlusTree K V) : Option Nat := tree.root.height

section Levels

variable [LinearOrder K]

/-- The number of nodes between a node and the leaf of a key, both included. The loop
of `get` and the recursions of `insert` and `delete` all go to the same child. -/
def levels : Node K V → K → Option Nat
  | .leaf _, _ => some 1
  | .internal keys children, key =>
      match _child : children[childIndex keys key]? with
      | none => none
      | some child => (levels child key).map (· + 1)
termination_by node => node
decreasing_by exact Node.sizeOf_child_lt (List.mem_of_getElem? _child)

omit [LinearOrder K] in
theorem Node.height_internal {keys : List K} {children : List (Node K V)} {child : Node K V}
    (isChild : children[0]? = some child) :
    (Node.internal keys children).height = child.height.map (· + 1) := by
  rw [Node.height]
  split
  · rename_i missing
    rw [isChild] at missing
    cases missing
  · rename_i found isFound
    rw [isChild] at isFound
    cases isFound
    rfl

theorem levels_internal {keys : List K} {children : List (Node K V)} {child : Node K V} {key : K}
    (isChild : children[childIndex keys key]? = some child) :
    levels (Node.internal keys children) key = (levels child key).map (· + 1) := by
  rw [levels]
  split
  · rename_i missing
    rw [isChild] at missing
    cases missing
  · rename_i found isFound
    rw [isChild] at isFound
    cases isFound
    rfl

variable {minKeys maxKeys : Nat}

theorem Shape.height_eq : ∀ {height : Nat} {lo hi : Option K} {node : Node K V},
    Shape minKeys maxKeys height lo hi node → node.height = some (height + 1)
  | 0, _, _, .leaf _, _ => by rw [Node.height]
  | height + 1, _, _, .internal keys children, shape => by
      have lengths := shape.2.1.length
      cases children with
      | nil => simp at lengths
      | cons first children =>
          have chain : Chain (Shape minKeys maxKeys height) _ keys ([] ++ first :: children) _ :=
            shape.2.1
          rcases chain.hole with ⟨_, _, _, _, _, _, childShape, _⟩
          rw [Node.height_internal List.getElem?_cons_zero, childShape.height_eq]
          rfl

/-- Every key is looked for on as many levels as the tree is high. -/
theorem Shape.levels_eq : ∀ {height : Nat} {lo hi : Option K} {node : Node K V},
    Shape minKeys maxKeys height lo hi node → ∀ {key : K}, InRange lo hi key →
      levels node key = some (height + 1)
  | 0, _, _, .leaf _, _, _, _ => by rw [levels]
  | height + 1, _, _, .internal keys children, shape, key, inside => by
      rcases shape.2.1.route inside with ⟨front, child, back, rfl, index, -, -, _, _, _, _, _, _,
        childShape, inChild, -⟩
      have isChild : (front ++ child :: back)[childIndex keys key]? = some child := by
        rw [index]
        exact ArrayList.get_append front child back
      rw [levels_internal isChild, childShape.levels_eq inChild]
      rfl

/-! ## Counting -/

omit [LinearOrder K] in
theorem length_flatMap_entries_ge {least : Nat} {children : List (Node K V)}
    (each : ∀ child ∈ children, least ≤ child.entries.length) :
    children.length * least ≤ (children.flatMap Node.entries).length := by
  induction children with
  | nil => simp
  | cons child children induction =>
      have first := each child List.mem_cons_self
      have later := induction fun other member => each other (List.mem_cons_of_mem _ member)
      rw [List.length_cons, List.flatMap_cons, List.length_append, Nat.succ_mul]
      omega

/-- A subtree whose top node is half full has a power of entries. -/
theorem Shape.entries_ge : ∀ {height : Nat} {lo hi : Option K} {node : Node K V},
    Shape minKeys maxKeys height lo hi node → minKeys ≤ node.keys.length →
      (minKeys + 1) ^ height * minKeys ≤ node.entries.length
  | 0, _, _, .leaf leaf, shape, filled => by
      have lengths := LeafShape.lengths shape
      rw [Node.entries_leaf, List.length_zip, lengths, Nat.min_self, pow_zero, Nat.one_mul]
      exact filled
  | height + 1, _, _, .internal keys children, shape, filled => by
      have each : ∀ child ∈ children,
          (minKeys + 1) ^ height * minKeys ≤ child.entries.length := by
        intro child member
        rcases List.append_of_mem member with ⟨front, back, rfl⟩
        rcases shape.2.1.hole with ⟨_, _, _, _, _, _, childShape, _⟩
        exact childShape.entries_ge (shape.2.2 child member)
      have lengths := shape.2.1.length
      have enough : minKeys + 1 ≤ children.length := by
        rw [lengths]
        exact Nat.succ_le_succ filled
      rw [Node.entries_internal]
      calc (minKeys + 1) ^ (height + 1) * minKeys
          = (minKeys + 1) * ((minKeys + 1) ^ height * minKeys) := by ring
        _ ≤ children.length * ((minKeys + 1) ^ height * minKeys) := Nat.mul_le_mul_right _ enough
        _ ≤ (children.flatMap Node.entries).length := length_flatMap_entries_ge each

/-- The root of a tree with several levels has two subtrees at least. -/
theorem Shape.root_entries_ge {height : Nat} {root : Node K V}
    (shape : Shape minKeys maxKeys (height + 1) none none root) (hasKeys : 0 < root.keys.length) :
    2 * (minKeys + 1) ^ height * minKeys ≤ root.entries.length := by
  cases root with
  | leaf leaf => exact shape.elim
  | internal keys children =>
      have each : ∀ child ∈ children,
          (minKeys + 1) ^ height * minKeys ≤ child.entries.length := by
        intro child member
        rcases List.append_of_mem member with ⟨front, back, rfl⟩
        rcases shape.2.1.hole with ⟨_, _, _, _, _, _, childShape, _⟩
        exact childShape.entries_ge (shape.2.2 child member)
      have lengths := shape.2.1.length
      have two : 2 ≤ children.length := by
        rw [lengths]
        exact Nat.succ_le_succ hasKeys
      rw [Node.entries_internal, Nat.mul_assoc]
      exact Nat.le_trans (Nat.mul_le_mul_right _ two) (length_flatMap_entries_ge each)

/-- The height as a logarithm of the number of entries. -/
theorem height_le_log {height least size : Nat} (positive : 0 < least) (tall : 2 ≤ height)
    (enough : 2 * (least + 1) ^ (height - 2) * least ≤ size) :
    height ≤ Nat.log (least + 1) (size / (2 * least)) + 2 := by
  have power : (least + 1) ^ (height - 2) ≤ size / (2 * least) := by
    rw [Nat.le_div_iff_mul_le (by omega)]
    calc (least + 1) ^ (height - 2) * (2 * least)
        = 2 * (least + 1) ^ (height - 2) * least := by ring
      _ ≤ size := enough
  have below := Nat.le_log_of_pow_le (by omega) power
  omega

/-- Whatever operations built it, a tree of height two or more has at least
`2 * (minKeys + 1) ^ (height - 2) * minKeys` entries, and every descent from its
root passes exactly `height` nodes. -/
theorem tree_stays_shallow {order : Nat} (bound : 3 ≤ order) (ops : List (Op K V)) :
    ∃ tree outputs height, runTree order ops = some (tree, outputs) ∧
      tree.height = some height ∧ (∀ key, levels tree.root key = some height) ∧
      (2 ≤ height →
        2 * ((order - 1) / 2 + 1) ^ (height - 2) * ((order - 1) / 2) ≤ tree.size ∧
        height ≤ Nat.log ((order - 1) / 2 + 1) (tree.size / (2 * ((order - 1) / 2))) + 2) := by
  rcases runTree_represents bound ops with ⟨tree, ran, represents⟩
  have balanced := represents.balanced
  rcases balanced.shape with ⟨height, shape, hasKeys⟩
  have least : tree.minKeys = (order - 1) / 2 := by
    rw [BPlusTree.minKeys, represents.sameOrder]
  refine ⟨tree, _, height + 1, ran, shape.height_eq, ?_, ?_⟩
  · intro key
    exact shape.levels_eq (inRange_open key)
  · intro tall
    obtain ⟨less, rfl⟩ : ∃ less, height = less + 1 := ⟨height - 1, by omega⟩
    have enough := shape.root_entries_ge (hasKeys (Nat.succ_pos less))
    rw [← balanced.size, least] at enough
    have positive := balanced.positive
    rw [least] at positive
    exact ⟨enough, height_le_log positive tall enough⟩

/-- A tree of order three that grew and shrank. -/
theorem tree_stays_shallow_three :
    ∃ (tree : BPlusTree Nat Nat) (outputs : List (Option Nat)) (height : Nat),
      runTree 3 [.put 1 10, .put 2 20, .put 3 30, .put 4 40, .remove 2] = some (tree, outputs) ∧
      tree.height = some height ∧ (∀ key, levels tree.root key = some height) ∧
      (2 ≤ height → 2 * 2 ^ (height - 2) * 1 ≤ tree.size ∧
        height ≤ Nat.log 2 (tree.size / 2) + 2) :=
  tree_stays_shallow (by decide) [.put 1 10, .put 2 20, .put 3 30, .put 4 40, .remove 2]

end Levels

end FoundationsLab.BTree
