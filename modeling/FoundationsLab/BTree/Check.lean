import FoundationsLab.BTree.Refinement

/-! # `checkInvariants`

The checker of the source, and the invariant it looks for stated over the nodes
that occur in a tree. -/

namespace FoundationsLab.BTree

open Foundation

variable {K V : Type}

/-! ## The checker -/

inductive Violation (K : Type) where
  | leafDepths (depths : List Nat)
  | unsorted (keys : List K)
  | belowLower (key lo : K)
  | aboveUpper (key hi : K)
  | underflow (size minKeys : Nat)
  | overflow (size maxKeys : Nat)
  | childrenMismatch
  | chainOrder (key : K)
  | chainCount (count size : Nat)

def Violation.message [ToString K] : Violation K → String
  | .leafDepths depths => "leaves at differing depths " ++ toString depths
  | .unsorted keys => "unsorted keys in node " ++ toString keys
  | .belowLower key lo => "key " ++ toString key ++ " below lower bound " ++ toString lo
  | .aboveUpper key hi => "key " ++ toString key ++ " at/above upper bound " ++ toString hi
  | .underflow size minKeys => "underflow: " ++ toString size ++ " < " ++ toString minKeys
  | .overflow size maxKeys => "overflow: " ++ toString size ++ " > " ++ toString maxKeys
  | .childrenMismatch => "internal node children/keys mismatch"
  | .chainOrder key => "leaf chain not strictly increasing at " ++ toString key
  | .chainCount count size =>
      "leaf-chain count " ++ toString count ++ " != size " ++ toString size

def collectLeafDepths : Node K V → Nat → List Nat
  | .leaf _, depth => [depth]
  | .internal _ children, depth => children.flatMap fun child => collectLeafDepths child (depth + 1)

/-- The window of child `i`: its bounds are the separators around it, or those
of its parent at either end. -/
def childLo (lo : Option K) (keys : List K) (i : Nat) : Option K :=
  if i = 0 then lo else keys[i - 1]?

def childHi (hi : Option K) (keys : List K) (i : Nat) : Option K :=
  if i = keys.length then hi else keys[i]?

section Checker

variable [LinearOrder K]

/-- The first pair of neighbours out of order, if any. -/
def hasUnsorted : List K → Bool
  | first :: second :: keys => decide (second ≤ first) || hasUnsorted (second :: keys)
  | _ => false

def checkWindow (lo hi : Option K) : List K → Option (Violation K)
  | [] => none
  | key :: keys =>
      match lo.filter (key < ·), hi.filter (· ≤ key) with
      | some lo, _ => some (.belowLower key lo)
      | none, some hi => some (.aboveUpper key hi)
      | none, none => checkWindow lo hi keys

def checkNode (minKeys maxKeys : Nat) (node : Node K V) (isRoot : Bool) (lo hi : Option K) :
    Option (Violation K) :=
  if hasUnsorted node.keys then some (.unsorted node.keys)
  else match checkWindow lo hi node.keys with
    | some violation => some violation
    | none =>
        if !isRoot && node.keys.length < minKeys then some (.underflow node.keys.length minKeys)
        else if maxKeys < node.keys.length then some (.overflow node.keys.length maxKeys)
        else match node with
          | .leaf _ => none
          | .internal keys children =>
              if children.length ≠ keys.length + 1 then some .childrenMismatch
              else (List.range children.length).findSome? fun i =>
                match _child : children[i]? with
                | none => none
                | some child =>
                    checkNode minKeys maxKeys child false (childLo lo keys i) (childHi hi keys i)
termination_by node
decreasing_by exact Node.sizeOf_child_lt (List.mem_of_getElem? _child)

/-- The keys of one leaf on the walk along the chain, with the key before them
and the count so far. -/
def checkChainKeys : List K → Option K → Nat → Except (Violation K) (Option K × Nat)
  | [], prev, count => .ok (prev, count)
  | key :: keys, prev, count =>
      if prev.any (key ≤ ·) then .error (.chainOrder key)
      else checkChainKeys keys (some key) (count + 1)

def checkChain (leaves : List (Leaf K V)) :
    Nat → Option Nat → Option K → Nat → Option (Except (Violation K) Nat)
  | 0, _, _, _ => none
  | _ + 1, none, _, count => some (.ok count)
  | fuel + 1, some id, prev, count => do
      let leaf ← derefLeaf leaves id
      match checkChainKeys leaf.keys prev count with
      | .error violation => some (.error violation)
      | .ok (prev, count) => checkChain leaves fuel leaf.next prev count

/-- The inner option is Java's `null`; the outer one is `none` when the walk
along the chain does not come to an end. -/
def BPlusTree.checkInvariants (tree : BPlusTree K V) : Option (Option (Violation K)) := do
  let depths := collectLeafDepths tree.root 1
  if depths.any (some · ≠ depths[0]?) then return some (.leafDepths depths)
  match checkNode tree.minKeys tree.maxKeys tree.root true none none with
  | some violation => return some violation
  | none =>
      let leaves := tree.root.leaves
      match ← checkChain leaves (leaves.length + 1) (some tree.firstLeaf) none 0 with
      | .error violation => return some violation
      | .ok count =>
          return if count ≠ tree.fields.size then some (.chainCount count tree.fields.size) else none

/-! ## The invariant -/

/-- The nodes of a tree, each with the window that the separators of its
ancestors leave to it, and whether it is the root. -/
inductive Occurs (root : Node K V) : Bool → Node K V → Option K → Option K → Prop where
  | root : Occurs root true root none none
  | child {isRoot : Bool} {keys : List K} {children : List (Node K V)} {lo hi : Option K} {i : Nat}
      {child : Node K V} (parent : Occurs root isRoot (.internal keys children) lo hi)
      (isChild : children[i]? = some child) :
      Occurs root false child (childLo lo keys i) (childHi hi keys i)

/-- The leaves that `next` references visit from a first one on. -/
def followChain (leaves : List (Leaf K V)) : Nat → Option Nat → Option (List (Leaf K V))
  | 0, _ => none
  | _ + 1, none => some []
  | fuel + 1, some id => do
      let leaf ← derefLeaf leaves id
      let rest ← followChain leaves fuel leaf.next
      some (leaf :: rest)

structure StructuralInvariant (tree : BPlusTree K V) : Prop where
  sameDepth : ∃ depth, ∀ leafDepth ∈ collectLeafDepths tree.root 1, leafDepth = depth
  filled : ∀ {node lo hi}, Occurs tree.root false node lo hi →
    (tree.order - 1) / 2 ≤ node.keys.length
  notFull : ∀ {isRoot node lo hi}, Occurs tree.root isRoot node lo hi →
    node.keys.length ≤ tree.order - 1
  children : ∀ {isRoot keys children lo hi},
    Occurs tree.root isRoot (.internal keys children) lo hi → children.length = keys.length + 1
  sorted : ∀ {isRoot node lo hi}, Occurs tree.root isRoot node lo hi → node.keys.Pairwise (· < ·)
  window : ∀ {isRoot node lo hi}, Occurs tree.root isRoot node lo hi →
    ∀ key ∈ node.keys, InRange lo hi key
  leftmost : tree.root.leaves.head?.map (·.id) = some tree.firstLeaf
  identities : (leafIds tree.root.leaves).Nodup
  chain : followChain tree.root.leaves (tree.root.leaves.length + 1) (some tree.firstLeaf) =
    some tree.root.leaves
  size : tree.size = (tree.root.leaves.flatMap (·.keys)).length

/-! ## Nodes that occur in a balanced tree -/

omit [LinearOrder K] in
theorem Chain.child {P : Option K → Option K → Node K V → Prop} {hi : Option K} :
    ∀ {lo : Option K} {keys : List K} {children : List (Node K V)},
      Chain P lo keys children hi → ∀ {i : Nat} {child : Node K V}, children[i]? = some child →
        P (childLo lo keys i) (childHi hi keys i) child
  | lo, [], [only], chain, i, child, isChild => by
      cases i with
      | zero =>
          obtain rfl : only = child := by simpa using isChild
          exact chain
      | succ i => simp at isChild
  | lo, key :: keys, first :: children, chain, i, child, isChild => by
      cases i with
      | zero =>
          obtain rfl : first = child := by simpa using isChild
          exact chain.1
      | succ i =>
          have later := chain.2.child (by simpa using isChild : children[i]? = some child)
          have sameLo : childLo lo (key :: keys) (i + 1) = childLo (some key) keys i := by
            cases i <;> simp [childLo]
          have sameHi : childHi hi (key :: keys) (i + 1) = childHi hi keys i := by
            simp [childHi]
          rw [sameLo, sameHi]
          exact later

variable {minKeys maxKeys height : Nat}

theorem Chain.separators {hi : Option K} : ∀ {lo : Option K} {keys : List K}
    {children : List (Node K V)}, Chain (Shape minKeys maxKeys height) lo keys children hi →
      keys.Pairwise (· < ·) ∧ ∀ key ∈ keys, Opens lo (some key) ∧ Opens (some key) hi
  | lo, [], [_], _ => ⟨List.Pairwise.nil, by simp⟩
  | lo, separator :: keys, first :: children, chain => by
      have opensFirst : Opens lo (some separator) := chain.1.contents.opens
      obtain ⟨sorted, apart⟩ := chain.2.separators
      constructor
      · refine List.pairwise_cons.mpr ⟨fun key member => ?_, sorted⟩
        exact (apart key member).1 separator key rfl rfl
      · intro key member
        rcases List.mem_cons.mp member with rfl | later
        · exact ⟨opensFirst, chain.2.entries.opens⟩
        · exact ⟨opensFirst.trans (apart key later).1, (apart key later).2⟩

theorem Shape.keys_spec {lo hi : Option K} {node : Node K V}
    (shape : Shape minKeys maxKeys height lo hi node) :
    node.keys.Pairwise (· < ·) ∧ ∀ key ∈ node.keys, InRange lo hi key := by
  cases height <;> cases node
  · exact ⟨LeafShape.sorted shape, LeafShape.inside shape⟩
  · exact shape.elim
  · exact shape.elim
  · obtain ⟨sorted, apart⟩ := shape.2.1.separators
    refine ⟨sorted, fun key member => ⟨fun bound atLo => ?_, fun bound atHi => ?_⟩⟩
    · exact ((apart key member).1 bound key atLo rfl).le
    · exact (apart key member).2 key bound rfl atHi

theorem Occurs.shape {root : Node K V} (shape : Shape minKeys maxKeys height none none root)
    {isRoot : Bool} {node : Node K V} {lo hi : Option K} (occurs : Occurs root isRoot node lo hi) :
    (∃ height', Shape minKeys maxKeys height' lo hi node) ∧
      (isRoot = false → minKeys ≤ node.keys.length) := by
  induction occurs with
  | root => exact ⟨⟨height, shape⟩, by simp⟩
  | child parent isChild induction =>
      obtain ⟨⟨_ | height', parentShape⟩, -⟩ := induction
      · exact parentShape.elim
      · exact ⟨⟨height', parentShape.2.1.child isChild⟩,
          fun _ => parentShape.2.2 _ (List.mem_of_getElem? isChild)⟩

theorem Shape.leafDepths : ∀ {height : Nat} {lo hi : Option K} {node : Node K V},
    Shape minKeys maxKeys height lo hi node → ∀ (depth : Nat),
      ∀ leafDepth ∈ collectLeafDepths node depth, leafDepth = depth + height
  | 0, _, _, .leaf _, _, depth, leafDepth, member => by
      simpa [collectLeafDepths] using member
  | height + 1, _, _, .internal keys children, shape, depth, leafDepth, member => by
      rw [collectLeafDepths, List.mem_flatMap] at member
      obtain ⟨child, isChild, below⟩ := member
      obtain ⟨front, back, rfl⟩ := List.append_of_mem isChild
      obtain ⟨_, _, _, _, _, _, childShape, _⟩ := shape.2.1.hole
      have deeper := childShape.leafDepths (depth + 1) leafDepth below
      omega

/-! ## The chain -/

omit [LinearOrder K] in
theorem followChain_spec (rest : List (Leaf K V)) : ∀ (visited : List (Leaf K V)) (fuel : Nat),
    (leafIds (visited ++ rest)).Nodup → Linked rest none → rest.length < fuel →
    followChain (visited ++ rest) fuel (firstId rest none) = some rest := by
  induction rest with
  | nil =>
      intro visited fuel _ _ enough
      obtain ⟨fuel, rfl⟩ : ∃ less, fuel = less + 1 := ⟨fuel - 1, by simp at enough; omega⟩
      rfl
  | cons leaf rest induction =>
      intro visited fuel nodup linked enough
      obtain ⟨fuel, rfl⟩ : ∃ less, fuel = less + 1 := ⟨fuel - 1, by simp at enough; omega⟩
      have continued := induction (visited ++ [leaf]) fuel (by simpa using nodup) linked.2
        (by simpa using enough)
      rw [List.append_assoc, List.singleton_append, ← linked.1] at continued
      simp [firstId, followChain, derefLeaf_of_nodup nodup, continued]

theorem Balanced.structural {tree : BPlusTree K V} (balanced : Balanced tree) :
    StructuralInvariant tree := by
  obtain ⟨height, shape, _⟩ := balanced.shape
  constructor
  · exact ⟨1 + height, shape.leafDepths 1⟩
  · intro node lo hi occurs
    exact (occurs.shape shape).2 rfl
  · intro isRoot node lo hi occurs
    obtain ⟨⟨_, nodeShape⟩, -⟩ := occurs.shape shape
    exact nodeShape.size_le
  · intro isRoot keys children lo hi occurs
    obtain ⟨⟨_ | _, nodeShape⟩, -⟩ := occurs.shape shape
    · exact nodeShape.elim
    · exact nodeShape.2.1.length
  · intro isRoot node lo hi occurs
    obtain ⟨⟨_, nodeShape⟩, -⟩ := occurs.shape shape
    exact nodeShape.keys_spec.1
  · intro isRoot node lo hi occurs
    obtain ⟨⟨_, nodeShape⟩, -⟩ := occurs.shape shape
    exact nodeShape.keys_spec.2
  · rw [← balanced.first]
    cases tree.root.leaves <;> rfl
  · exact balanced.allocated.nodup
  · rw [← balanced.first]
    exact followChain_spec tree.root.leaves [] _ balanced.allocated.nodup balanced.linked
      (Nat.lt_succ_self _)
  · have lengths : ∀ leaf ∈ tree.root.leaves, leaf.entries.length = leaf.keys.length := by
      intro leaf member
      simp [Leaf.entries, shape.leaf_lengths leaf member]
    rw [BPlusTree.size, balanced.size, Node.entries, List.length_flatMap, List.length_flatMap]
    exact congrArg List.sum (List.map_congr_left lengths)

/-! ## The checker accepts -/

theorem hasUnsorted_eq_false : ∀ {keys : List K}, keys.Pairwise (· < ·) → hasUnsorted keys = false
  | [], _ => rfl
  | [_], _ => rfl
  | first :: second :: keys, sorted => by
      have parts := List.pairwise_cons.mp sorted
      have ordered : first < second := parts.1 second List.mem_cons_self
      simp [hasUnsorted, ordered, hasUnsorted_eq_false parts.2]

theorem checkWindow_eq_none {lo hi : Option K} {keys : List K}
    (inside : ∀ key ∈ keys, InRange lo hi key) : checkWindow lo hi keys = none := by
  induction keys with
  | nil => rfl
  | cons key keys induction =>
      obtain ⟨lower, upper⟩ := inside key List.mem_cons_self
      have notBelow : lo.filter (key < ·) = none := by
        cases lo with
        | none => rfl
        | some lo => simp [Option.filter, lower lo rfl]
      have notAbove : hi.filter (· ≤ key) = none := by
        cases hi with
        | none => rfl
        | some hi => simp [Option.filter, upper hi rfl]
      simp only [checkWindow, notBelow, notAbove]
      exact induction fun other member => inside other (List.mem_cons_of_mem _ member)

theorem checkNode_eq_none : ∀ {height : Nat} {lo hi : Option K} {node : Node K V} {isRoot : Bool},
    Shape minKeys maxKeys height lo hi node → (isRoot = false → minKeys ≤ node.keys.length) →
    checkNode minKeys maxKeys node isRoot lo hi = none := by
  intro height
  induction height with
  | zero =>
      intro lo hi node isRoot shape filled
      obtain ⟨sorted, inside⟩ := shape.keys_spec
      have occupied : (!isRoot && decide (node.keys.length < minKeys)) = false := by
        cases isRoot <;> simp_all
      cases node with
      | leaf leaf =>
          rw [checkNode, hasUnsorted_eq_false sorted, checkWindow_eq_none inside]
          simp only [occupied, Bool.false_eq_true, if_false, if_neg (not_lt.mpr shape.size_le)]
      | internal keys children => exact shape.elim
  | succ height induction =>
      intro lo hi node isRoot shape filled
      obtain ⟨sorted, inside⟩ := shape.keys_spec
      have occupied : (!isRoot && decide (node.keys.length < minKeys)) = false := by
        cases isRoot <;> simp_all
      cases node with
      | leaf leaf => exact shape.elim
      | internal keys children =>
          have notFull := shape.size_le
          obtain ⟨_, chain, childrenFilled⟩ := shape
          have passes := not_not.mpr chain.length
          rw [checkNode, hasUnsorted_eq_false sorted, checkWindow_eq_none inside]
          simp only [occupied, Bool.false_eq_true, if_false, if_neg (not_lt.mpr notFull),
            if_neg passes]
          apply List.findSome?_eq_none_iff.mpr
          intro i _
          split
          · rfl
          · rename_i child isChild
            exact induction (chain.child isChild)
              fun _ => childrenFilled child (List.mem_of_getElem? isChild)

theorem checkChainKeys_spec : ∀ {keys : List K} {prev : Option K} (count : Nat),
    keys.Pairwise (· < ·) → (∀ key ∈ keys, ∀ before, prev = some before → before < key) →
    ∃ prev', checkChainKeys keys prev count = .ok (prev', count + keys.length) ∧
      ∀ last, prev' = some last → last ∈ keys ∨ prev = some last
  | [], prev, count, _, _ => ⟨prev, rfl, fun _ isLast => .inr isLast⟩
  | key :: keys, prev, count, sorted, behind => by
      have parts := List.pairwise_cons.mp sorted
      obtain ⟨prev', walked, known⟩ := checkChainKeys_spec (count + 1) parts.2
        fun other member before (equal : some key = some before) =>
          Option.some.inj equal ▸ parts.1 other member
      have passes : prev.any (key ≤ ·) = false := by
        cases prev with
        | none => rfl
        | some before => simpa using behind key List.mem_cons_self before rfl
      refine ⟨prev', ?_, fun last isLast => ?_⟩
      · simp only [checkChainKeys, passes, walked, List.length_cons]
        simp [Nat.add_assoc, Nat.add_comm 1]
      · rcases known last isLast with inKeys | equal
        · exact .inl (List.mem_cons_of_mem _ inKeys)
        · exact .inl (Option.some.inj equal ▸ List.mem_cons_self)

/-- The walk over the leaves that remain, behind a key smaller than all theirs. -/
theorem checkChain_spec (rest : List (Leaf K V)) : ∀ (visited : List (Leaf K V)) (fuel : Nat)
    (prev : Option K) (count : Nat), (leafIds (visited ++ rest)).Nodup → Linked rest none →
    (rest.flatMap (·.keys)).Pairwise (· < ·) →
    (∀ key ∈ rest.flatMap (·.keys), ∀ before, prev = some before → before < key) →
    rest.length < fuel →
    checkChain (visited ++ rest) fuel (firstId rest none) prev count =
      some (.ok (count + (rest.flatMap (·.keys)).length)) := by
  induction rest with
  | nil =>
      intro visited fuel prev count _ _ _ _ enough
      obtain ⟨fuel, rfl⟩ : ∃ less, fuel = less + 1 := ⟨fuel - 1, by simp at enough; omega⟩
      rfl
  | cons leaf rest induction =>
      intro visited fuel prev count nodup linked sorted behind enough
      obtain ⟨fuel, rfl⟩ : ∃ less, fuel = less + 1 := ⟨fuel - 1, by simp at enough; omega⟩
      rw [List.flatMap_cons] at sorted behind
      obtain ⟨leafSorted, restSorted, apart⟩ := List.pairwise_append.mp sorted
      obtain ⟨prev', walked, known⟩ := checkChainKeys_spec count leafSorted
        fun key member => behind key (List.mem_append_left _ member)
      have continued := induction (visited ++ [leaf]) fuel prev' (count + leaf.keys.length)
        (by simpa using nodup) linked.2 restSorted (fun key member before isLast => by
          rcases known before isLast with inLeaf | isPrev
          · exact apart before inLeaf key member
          · exact behind key (List.mem_append_right _ member) before isPrev)
        (by simpa using enough)
      rw [List.append_assoc, List.singleton_append, ← linked.1] at continued
      simp [firstId, checkChain, derefLeaf_of_nodup nodup, walked, continued, Nat.add_assoc]

theorem checkInvariants_balanced {tree : BPlusTree K V} (balanced : Balanced tree) :
    tree.checkInvariants = some none := by
  obtain ⟨height, shape, _⟩ := balanced.shape
  have lengths : ∀ leaf ∈ tree.root.leaves, leaf.entries.map Prod.fst = leaf.keys :=
    fun leaf member => List.map_fst_zip (shape.leaf_lengths leaf member).ge
  have keys : tree.root.entries.map Prod.fst = tree.root.leaves.flatMap (·.keys) := by
    rw [Node.entries, List.map_flatMap]
    exact List.flatMap_congr lengths
  have sorted : (tree.root.leaves.flatMap (·.keys)).Pairwise (· < ·) :=
    keys ▸ balanced.contents.ascending
  have sameDepth : ∀ depth ∈ collectLeafDepths tree.root 1,
      some depth = (collectLeafDepths tree.root 1)[0]? := by
    intro depth member
    obtain ⟨first, rest, isCons⟩ := List.exists_cons_of_ne_nil (List.ne_nil_of_mem member)
    have firstDepth := shape.leafDepths 1 first (isCons ▸ List.mem_cons_self)
    rw [shape.leafDepths 1 depth member, isCons, List.getElem?_cons_zero, firstDepth]
  have walked := checkChain_spec tree.root.leaves [] (tree.root.leaves.length + 1) none 0
    balanced.allocated.nodup balanced.linked sorted (by simp) (Nat.lt_succ_self _)
  have accepted : checkNode tree.minKeys tree.maxKeys tree.root true none none = none :=
    checkNode_eq_none shape (by simp)
  have counted : tree.fields.size = (tree.root.leaves.flatMap (·.keys)).length := by
    rw [balanced.size, ← keys, List.length_map]
  have depthsAgree : (collectLeafDepths tree.root 1).any
      (some · ≠ (collectLeafDepths tree.root 1)[0]?) = false := by
    simpa using sameDepth
  rw [balanced.first, List.nil_append, Nat.zero_add, ← counted] at walked
  simp only [BPlusTree.checkInvariants, depthsAgree, accepted, walked]
  simp

/-- Every tree reached from the empty one by `put` and `remove` has the
invariant, and the checker finds nothing to report. -/
theorem reachable_tree_invariant {order : Nat} (bound : 3 ≤ order) (ops : List (Op K V)) :
    ∃ tree outputs, runTree order ops = some (tree, outputs) ∧ tree.order = order ∧
      StructuralInvariant tree ∧ tree.checkInvariants = some none := by
  obtain ⟨tree, ran, represents⟩ := runTree_represents bound ops
  exact ⟨tree, _, ran, represents.sameOrder, represents.balanced.structural,
    checkInvariants_balanced represents.balanced⟩

theorem reachable_tree_invariant_three :
    ∃ (tree : BPlusTree Nat Nat) (outputs : List (Option Nat)),
      runTree 3 [.put 1 10, .put 2 20, .put 3 30, .remove 2] = some (tree, outputs) ∧
      tree.order = 3 ∧ StructuralInvariant tree ∧ tree.checkInvariants = some none :=
  reachable_tree_invariant (by decide) [.put 1 10, .put 2 20, .put 3 30, .remove 2]

end Checker

end FoundationsLab.BTree
