import FoundationsLab.BTree.Check
import Mathlib.Data.List.Pairwise
import Mathlib.Data.List.Perm.Subperm

/-! # Accepted trees

What the checker proves about the tree that it accepts. It does not look at the values
beside the keys, at the identities of the leaves, at an unused root, or at whether the
chain visits every leaf; the size tells the last. -/

namespace FoundationsLab.BTree

open Foundation

variable {K V : Type}

/-- What the checker does not see. -/
structure WellStored (tree : BPlusTree K V) : Prop where
  allocated : Allocated tree.fields.nextId tree.root.leaves
  parallel : ∀ leaf ∈ tree.root.leaves, leaf.values.length = leaf.keys.length
  counted : tree.fields.size = tree.root.entries.length
  rootUsed : ∀ children, tree.root ≠ .internal [] children

/-! ## Depths -/

theorem le_leafDepth : ∀ (node : Node K V) (depth : Nat),
    ∀ leafDepth ∈ collectLeafDepths node depth, depth ≤ leafDepth
  | .leaf leaf, depth, leafDepth, member => by
      rw [collectLeafDepths, List.mem_singleton] at member
      exact Nat.le_of_eq member.symm
  | .internal keys children, depth, leafDepth, member => by
      rw [collectLeafDepths, List.mem_flatMap] at member
      obtain ⟨child, isChild, below⟩ := member
      have deeper := le_leafDepth child (depth + 1) leafDepth below
      omega
termination_by node => node
decreasing_by exact Node.sizeOf_child_lt isChild

/-- The windows of the children, read along the separators. -/
theorem chain_of_windows {P : Option K → Option K → Node K V → Prop} {hi : Option K} :
    ∀ {keys : List K} {children : List (Node K V)} {lo : Option K},
      children.length = keys.length + 1 →
      (∀ i child, children[i]? = some child → P (childLo lo keys i) (childHi hi keys i) child) →
      Chain P lo keys children hi
  | [], [child], lo, _, each => each 0 child rfl
  | key :: keys, child :: children, lo, isLong, each => by
      have first := each 0 child rfl
      refine ⟨first, chain_of_windows (Nat.succ.inj isLong) ?_⟩
      intro i other isOther
      have window := each (i + 1) other isOther
      have isLower : childLo lo (key :: keys) (i + 1) = childLo (some key) keys i := by
        cases i with
        | zero => rfl
        | succ i => rfl
      have isUpper : childHi hi (key :: keys) (i + 1) = childHi hi keys i := by
        simp only [childHi, List.length_cons, Nat.add_right_cancel_iff, List.getElem?_cons_succ]
      rw [isLower, isUpper] at window
      exact window

section Accepted

variable [LinearOrder K] {minKeys maxKeys : Nat}

/-! ## Nodes -/

theorem of_hasUnsorted : ∀ {keys : List K}, hasUnsorted keys = false → keys.Pairwise (· < ·)
  | [], _ => List.Pairwise.nil
  | [key], _ => List.pairwise_singleton _ key
  | first :: second :: keys, inOrder => by
      rw [hasUnsorted, Bool.or_eq_false_iff] at inOrder
      have less : first < second := not_le.mp (of_decide_eq_false inOrder.1)
      have rest := of_hasUnsorted inOrder.2
      apply List.Pairwise.cons _ rest
      intro key member
      rcases List.mem_cons.mp member with rfl | later
      · exact less
      · exact less.trans ((List.pairwise_cons.mp rest).1 key later)

theorem of_checkWindow {lo hi : Option K} {keys : List K} (accepted : checkWindow lo hi keys = none) :
    ∀ key ∈ keys, InRange lo hi key := by
  induction keys with
  | nil =>
      intro key member
      exact absurd member List.not_mem_nil
  | cons first keys induction =>
      rw [checkWindow] at accepted
      split at accepted
      · cases accepted
      · cases accepted
      · rename_i notBelow notAbove
        intro key member
        rcases List.mem_cons.mp member with rfl | later
        · constructor
          · intro bound isLower
            rw [isLower] at notBelow
            simpa [Option.filter] using notBelow
          · intro bound isUpper
            rw [isUpper] at notAbove
            simpa [Option.filter] using notAbove
        · exact induction accepted key later

/-- What the checker finds out about one node. -/
structure Passed (minKeys maxKeys : Nat) (node : Node K V) (isRoot : Bool) (lo hi : Option K) :
    Prop where
  sorted : node.keys.Pairwise (· < ·)
  inside : ∀ key ∈ node.keys, InRange lo hi key
  filled : isRoot = false → minKeys ≤ node.keys.length
  notFull : node.keys.length ≤ maxKeys
  children : ∀ keys children, node = .internal keys children →
    children.length = keys.length + 1 ∧ ∀ i child, children[i]? = some child →
      checkNode minKeys maxKeys child false (childLo lo keys i) (childHi hi keys i) = none

theorem of_checkNode {node : Node K V} {isRoot : Bool} {lo hi : Option K}
    (accepted : checkNode minKeys maxKeys node isRoot lo hi = none) :
    Passed minKeys maxKeys node isRoot lo hi := by
  rw [checkNode.eq_def] at accepted
  split at accepted
  · cases accepted
  · rename_i inOrder
    split at accepted
    · cases accepted
    · rename_i inWindow
      split at accepted
      · cases accepted
      · rename_i isFilled
        split at accepted
        · cases accepted
        · rename_i hasRoom
          constructor
          · exact of_hasUnsorted (Bool.eq_false_iff.mpr inOrder)
          · exact of_checkWindow inWindow
          · intro notRoot
            rw [notRoot] at isFilled
            simpa using isFilled
          · exact Nat.le_of_not_lt hasRoom
          · intro keys children isInternal
            subst isInternal
            dsimp only at accepted
            split at accepted
            · cases accepted
            · rename_i isLong
              refine ⟨not_not.mp isLong, ?_⟩
              intro i child isChild
              have inRange := (List.getElem?_eq_some_iff.mp isChild).1
              have each := List.findSome?_eq_none_iff.mp accepted i (List.mem_range.mpr inRange)
              split at each
              · rename_i isNone
                rw [isNone] at isChild
                cases isChild
              · rename_i other isOther
                rw [isOther] at isChild
                cases isChild
                exact each

/-! ## The shape -/

/-- A node that passes has a leaf below it. -/
theorem exists_leafDepth (minKeys maxKeys : Nat) : ∀ (node : Node K V) {isRoot : Bool}
    {lo hi : Option K} (depth : Nat), checkNode minKeys maxKeys node isRoot lo hi = none →
      ∃ leafDepth, leafDepth ∈ collectLeafDepths node depth
  | .leaf leaf, _, _, _, depth, _ => by
      refine ⟨depth, ?_⟩
      rw [collectLeafDepths]
      exact List.mem_singleton_self depth
  | .internal keys children, _, _, _, depth, accepted => by
      obtain ⟨isLong, each⟩ := (of_checkNode accepted).children keys children rfl
      have some : 0 < children.length := by omega
      obtain ⟨leafDepth, member⟩ := exists_leafDepth minKeys maxKeys children[0] (depth + 1)
        (each 0 children[0] (List.getElem?_eq_getElem some))
      refine ⟨leafDepth, ?_⟩
      rw [collectLeafDepths, List.mem_flatMap]
      exact ⟨children[0], List.getElem_mem some, member⟩
termination_by node => node
decreasing_by exact Node.sizeOf_child_lt (List.getElem_mem some)

theorem shape_of_accepted (positive : 0 < minKeys) : ∀ {height depth : Nat} {node : Node K V}
    {isRoot : Bool} {lo hi : Option K}, checkNode minKeys maxKeys node isRoot lo hi = none →
      (∀ leafDepth ∈ collectLeafDepths node depth, leafDepth = depth + height) →
      (∀ leaf ∈ node.leaves, leaf.values.length = leaf.keys.length) → Opens lo hi →
      Shape minKeys maxKeys height lo hi node := by
  intro height
  induction height with
  | zero =>
      intro depth node isRoot lo hi accepted sameDepth parallel opens
      have passed := of_checkNode accepted
      cases node with
      | leaf leaf =>
          have isParallel : leaf.values.length = leaf.keys.length := by
            apply parallel
            rw [Node.leaves_leaf]
            exact List.mem_singleton_self leaf
          exact ⟨opens, isParallel, passed.sorted, passed.inside, passed.notFull⟩
      | internal keys children =>
          -- A leaf below a child is deeper than the node.
          obtain ⟨isLong, each⟩ := passed.children keys children rfl
          have some : 0 < children.length := by omega
          have first := each 0 children[0] (List.getElem?_eq_getElem some)
          obtain ⟨leafDepth, member⟩ :=
            exists_leafDepth minKeys maxKeys children[0] (depth + 1) first
          have deeper := le_leafDepth children[0] (depth + 1) leafDepth member
          have here : leafDepth ∈ collectLeafDepths (.internal keys children) depth := by
            rw [collectLeafDepths, List.mem_flatMap]
            exact ⟨children[0], List.getElem_mem some, member⟩
          have level := sameDepth leafDepth here
          omega
  | succ height induction =>
      intro depth node isRoot lo hi accepted sameDepth parallel opens
      have passed := of_checkNode accepted
      cases node with
      | leaf leaf =>
          have here : depth ∈ collectLeafDepths (.leaf leaf) depth := by
            rw [collectLeafDepths]
            exact List.mem_singleton_self depth
          have level := sameDepth depth here
          omega
      | internal keys children =>
          obtain ⟨isLong, each⟩ := passed.children keys children rfl
          refine ⟨passed.notFull, chain_of_windows isLong ?_, ?_⟩
          · intro i child isChild
            have member := List.mem_of_getElem? isChild
            have accepts := each i child isChild
            have ofChild := of_checkNode accepts
            -- The window is not empty, as a key of the child lies in it.
            have isOpen : Opens (childLo lo keys i) (childHi hi keys i) := by
              have filled : 0 < child.keys.length := Nat.lt_of_lt_of_le positive (ofChild.filled rfl)
              have inside := ofChild.inside child.keys[0] (List.getElem_mem filled)
              intro lower upper isLower isUpper
              exact (inside.1 lower isLower).trans_lt (inside.2 upper isUpper)
            apply induction accepts _ _ isOpen
            · exact depth + 1
            · intro leafDepth below
              have here : leafDepth ∈ collectLeafDepths (.internal keys children) depth := by
                rw [collectLeafDepths, List.mem_flatMap]
                exact ⟨child, member, below⟩
              have level := sameDepth leafDepth here
              omega
            · intro leaf below
              apply parallel
              rw [Node.leaves_internal, List.mem_flatMap]
              exact ⟨child, member, below⟩
          · intro child member
            obtain ⟨i, isChild⟩ := List.mem_iff_getElem?.mp member
            exact (of_checkNode (each i child isChild)).filled rfl

/-! ## The chain -/

/-- Behind the last key that was seen lies everything that is behind all keys. -/
theorem of_checkChainKeys : ∀ {keys : List K} {prev prev' : Option K} {count count' : Nat},
    checkChainKeys keys prev count = .ok (prev', count') →
      count' = count + keys.length ∧ keys.Pairwise (· < ·) ∧
      (∀ key ∈ keys, ∀ before, prev = some before → before < key) ∧
      ∀ later, (∀ last, prev' = some last → last < later) →
        (∀ key ∈ keys, key < later) ∧ ∀ before, prev = some before → before < later
  | [], prev, prev', count, count', walked => by
      cases walked
      refine ⟨rfl, List.Pairwise.nil, ?_, ?_⟩
      · intro key member
        exact absurd member List.not_mem_nil
      · intro later isLater
        refine ⟨?_, isLater⟩
        intro key member
        exact absurd member List.not_mem_nil
  | key :: keys, prev, prev', count, count', walked => by
      rw [checkChainKeys] at walked
      split at walked
      · cases walked
      · rename_i passes
        obtain ⟨isCount, sorted, behind, further⟩ := of_checkChainKeys walked
        have isBehind : ∀ before, prev = some before → before < key := by
          intro before isPrev
          rw [isPrev] at passes
          simpa using passes
        refine ⟨?_, ?_, ?_, ?_⟩
        · rw [isCount, List.length_cons]
          omega
        · apply List.Pairwise.cons _ sorted
          intro other member
          exact behind other member key rfl
        · intro other member before isPrev
          rcases List.mem_cons.mp member with rfl | later
          · exact isBehind before isPrev
          · exact (isBehind before isPrev).trans (behind other later key rfl)
        · intro later isLater
          obtain ⟨rest, first⟩ := further later isLater
          have keyLess := first key rfl
          refine ⟨?_, ?_⟩
          · intro other member
            rcases List.mem_cons.mp member with rfl | inRest
            · exact keyLess
            · exact rest other inRest
          · intro before isPrev
            exact (isBehind before isPrev).trans keyLess

/-- A walk that ends has visited leaves of the tree, with ascending keys. -/
theorem of_checkChain {leaves : List (Leaf K V)} {total : Nat} : ∀ {fuel : Nat}
    {start : Option Nat} {prev : Option K} {count : Nat},
      checkChain leaves fuel start prev count = some (.ok total) →
      ∃ visited, followChain leaves fuel start = some visited ∧
        total = count + (visited.flatMap (·.keys)).length ∧
        (visited.flatMap (·.keys)).Pairwise (· < ·) ∧
        ∀ key ∈ visited.flatMap (·.keys), ∀ before, prev = some before → before < key
  | fuel + 1, none, prev, count, walked => by
      rw [checkChain] at walked
      cases walked
      refine ⟨[], rfl, rfl, List.Pairwise.nil, ?_⟩
      intro key member
      exact absurd member List.not_mem_nil
  | fuel + 1, some id, prev, count, walked => by
      rw [checkChain] at walked
      obtain ⟨leaf, isLeaf, walked⟩ := Option.bind_eq_some_iff.mp walked
      split at walked
      · cases walked
      · rename_i prev' count' walkedKeys
        obtain ⟨isCount, sorted, behind, further⟩ := of_checkChainKeys walkedKeys
        obtain ⟨visited, followed, isTotal, restSorted, restBehind⟩ := of_checkChain walked
        have beyond : ∀ key ∈ visited.flatMap (·.keys), (∀ other ∈ leaf.keys, other < key) ∧
            ∀ before, prev = some before → before < key :=
          fun key member => further key (restBehind key member)
        refine ⟨leaf :: visited, ?_, ?_, ?_, ?_⟩
        · rw [followChain, isLeaf]
          dsimp only [bind, Option.bind]
          rw [followed]
        · rw [isTotal, isCount, List.flatMap_cons, List.length_append, Nat.add_assoc]
        · rw [List.flatMap_cons, List.pairwise_append]
          refine ⟨sorted, restSorted, ?_⟩
          intro other inLeaf key member
          exact (beyond key member).1 other inLeaf
        · intro key member before isPrev
          rw [List.flatMap_cons] at member
          rcases List.mem_append.mp member with inLeaf | inRest
          · exact behind key inLeaf before isPrev
          · exact (beyond key inRest).2 before isPrev

omit [LinearOrder K] in
theorem followChain_links {leaves : List (Leaf K V)} : ∀ {fuel : Nat} {start : Option Nat}
    {visited : List (Leaf K V)}, followChain leaves fuel start = some visited →
      visited.length < fuel ∧ (∀ leaf ∈ visited, leaf ∈ leaves) ∧ firstId visited none = start ∧
        Linked visited none
  | fuel + 1, none, visited, followed => by
      cases followed
      refine ⟨Nat.succ_pos fuel, ?_, rfl, trivial⟩
      intro leaf member
      exact absurd member List.not_mem_nil
  | fuel + 1, some id, visited, followed => by
      rw [followChain] at followed
      obtain ⟨leaf, isLeaf, followed⟩ := Option.bind_eq_some_iff.mp followed
      obtain ⟨rest, isRest, isVisited⟩ := Option.bind_eq_some_iff.mp followed
      cases isVisited
      obtain ⟨short, members, isFirst, linked⟩ := followChain_links isRest
      have isId : leaf.id = id := by simpa using List.find?_some isLeaf
      refine ⟨?_, ?_, congrArg some isId, isFirst.symm, linked⟩
      · rw [List.length_cons]
        omega
      · intro other member
        rcases List.mem_cons.mp member with rfl | inRest
        · exact List.mem_of_find?_eq_some isLeaf
        · exact members other inRest

/-- Leaves with ascending keys, none of them empty, are told apart by any of their keys. -/
theorem leaf_of_key {leaves : List (Leaf K V)} (sorted : (leaves.flatMap (·.keys)).Pairwise (· < ·))
    {leaf leaf' : Leaf K V} (member : leaf ∈ leaves) (member' : leaf' ∈ leaves) {key : K}
    (inLeaf : key ∈ leaf.keys) (inLeaf' : key ∈ leaf'.keys) : leaf = leaf' := by
  have apart := (List.pairwise_flatMap.mp sorted).2
  have disjoint : leaves.Pairwise fun first second => first.keys.Disjoint second.keys := by
    apply apart.imp
    intro first second less other inFirst inSecond
    exact lt_irrefl other (less other inFirst other inSecond)
  by_contra different
  have symmetric : Std.Symm fun first second : Leaf K V => first.keys.Disjoint second.keys :=
    ⟨fun _ _ apart _ inSecond inFirst => apart inFirst inSecond⟩
  exact disjoint.forall member member' different inLeaf inLeaf'

/-- A chain through filled leaves that sees as many keys as there are sees all leaves. -/
theorem visited_all {leaves visited : List (Leaf K V)}
    (sorted : (leaves.flatMap (·.keys)).Pairwise (· < ·)) (filled : ∀ leaf ∈ leaves, leaf.keys ≠ [])
    (members : ∀ leaf ∈ visited, leaf ∈ leaves)
    (visitedSorted : (visited.flatMap (·.keys)).Pairwise (· < ·))
    (same : (visited.flatMap (·.keys)).length = (leaves.flatMap (·.keys)).length) :
    visited = leaves := by
  have keysInside : visited.flatMap (·.keys) ⊆ leaves.flatMap (·.keys) := by
    intro key member
    obtain ⟨leaf, isVisited, inLeaf⟩ := List.mem_flatMap.mp member
    exact List.mem_flatMap.mpr ⟨leaf, members leaf isVisited, inLeaf⟩
  have distinct : (visited.flatMap (·.keys)).Nodup := visitedSorted.imp ne_of_lt
  have allKeys := (List.subperm_of_subset distinct keysInside).perm_of_length_le same.ge
  have allVisited : ∀ leaf ∈ leaves, leaf ∈ visited := by
    intro leaf member
    obtain ⟨key, inLeaf⟩ := List.exists_mem_of_ne_nil leaf.keys (filled leaf member)
    have isKey := allKeys.mem_iff.mpr (List.mem_flatMap.mpr ⟨leaf, member, inLeaf⟩)
    obtain ⟨other, isVisited, inOther⟩ := List.mem_flatMap.mp isKey
    rw [leaf_of_key sorted member (members other isVisited) inLeaf inOther]
    exact isVisited
  have before : ∀ {list : List (Leaf K V)}, (list.flatMap (·.keys)).Pairwise (· < ·) →
      list.Pairwise fun first second => ∀ key ∈ first.keys, ∀ key' ∈ second.keys, key < key' :=
    fun ascending => (List.pairwise_flatMap.mp ascending).2
  have noRepeat : ∀ {list : List (Leaf K V)}, (list.flatMap (·.keys)).Pairwise (· < ·) →
      (∀ leaf ∈ list, leaf.keys ≠ []) → list.Nodup := by
    intro list ascending someKeys
    apply (before ascending).imp_of_mem
    intro first second inFirst _ less equal
    obtain ⟨key, inLeaf⟩ := List.exists_mem_of_ne_nil first.keys (someKeys first inFirst)
    exact lt_irrefl key (less key inLeaf key (equal ▸ inLeaf))
  have isPerm : visited.Perm leaves :=
    (List.perm_ext_iff_of_nodup (noRepeat visitedSorted fun leaf member => filled leaf
      (members leaf member)) (noRepeat sorted filled)).mpr
      fun leaf => ⟨members leaf, allVisited leaf⟩
  apply isPerm.eq_of_pairwise _ (before visitedSorted) (before sorted)
  intro first second inFirst inSecond less greater
  obtain ⟨key, inLeaf⟩ := List.exists_mem_of_ne_nil first.keys (filled first (members first inFirst))
  obtain ⟨key', inLeaf'⟩ := List.exists_mem_of_ne_nil second.keys (filled second inSecond)
  exact absurd (less key inLeaf key' inLeaf') (lt_asymm (greater key' inLeaf' key inLeaf))

/-! ## The whole tree -/

theorem Shape.leaf_filled : ∀ {height : Nat} {lo hi : Option K} {node : Node K V},
    Shape minKeys maxKeys height lo hi node → minKeys ≤ node.keys.length →
      ∀ leaf ∈ node.leaves, minKeys ≤ leaf.keys.length
  | 0, _, _, .leaf leaf, _, filled, other, member => by
      rw [Node.leaves_leaf] at member
      rw [List.mem_singleton.mp member]
      exact filled
  | height + 1, _, _, .internal keys children, shape, _, leaf, member => by
      rw [Node.leaves_internal, List.mem_flatMap] at member
      obtain ⟨child, isChild, below⟩ := member
      obtain ⟨front, back, rfl⟩ := List.append_of_mem isChild
      obtain ⟨_, _, _, _, _, _, childShape, _⟩ := shape.2.1.hole
      exact childShape.leaf_filled (shape.2.2 child isChild) leaf below

theorem Shape.leafKeys {height : Nat} {lo hi : Option K} {node : Node K V}
    (shape : Shape minKeys maxKeys height lo hi node) :
    node.entries.map Prod.fst = node.leaves.flatMap (·.keys) := by
  rw [Node.entries, List.map_flatMap]
  apply List.flatMap_congr
  intro leaf member
  exact List.map_fst_zip (shape.leaf_lengths leaf member).ge

theorem Balanced.wellStored {tree : BPlusTree K V} (balanced : Balanced tree) :
    WellStored tree := by
  obtain ⟨height, shape, used⟩ := balanced.shape
  constructor
  · exact balanced.allocated
  · exact shape.leaf_lengths
  · exact balanced.size
  · intro children isRoot
    rw [isRoot] at shape used
    cases height with
    | zero => exact shape.elim
    | succ height => exact absurd (used (Nat.succ_pos height)) (Nat.lt_irrefl 0)

/-- The part of the invariant that is about the nodes. -/
theorem accepted_shape {tree : BPlusTree K V} (positive : 0 < tree.minKeys)
    (stored : WellStored tree)
    (sameDepth : ∀ leafDepth ∈ collectLeafDepths tree.root 1,
      some leafDepth = (collectLeafDepths tree.root 1)[0]?)
    (accepted : checkNode tree.minKeys tree.maxKeys tree.root true none none = none) :
    ∃ height, Shape tree.minKeys tree.maxKeys height none none tree.root := by
  obtain ⟨first, isFirst⟩ := exists_leafDepth tree.minKeys tree.maxKeys tree.root 1 accepted
  have above := le_leafDepth tree.root 1 first isFirst
  have isOpen : Opens (none : Option K) none := by
    intro lower upper isLower
    cases isLower
  have level : ∀ leafDepth ∈ collectLeafDepths tree.root 1, leafDepth = 1 + (first - 1) := by
    intro leafDepth member
    have same := Option.some.inj ((sameDepth leafDepth member).trans (sameDepth first isFirst).symm)
    omega
  exact ⟨first - 1, shape_of_accepted positive accepted level stored.parallel isOpen⟩

/-- The chain of an accepted tree visits its leaves in their order. -/
theorem accepted_chain {tree : BPlusTree K V} (stored : WellStored tree) {height : Nat}
    (positive : 0 < tree.minKeys)
    (shape : Shape tree.minKeys tree.maxKeys height none none tree.root)
    (walked : checkChain tree.root.leaves (tree.root.leaves.length + 1) (some tree.firstLeaf) none 0 =
      some (.ok tree.fields.size)) :
    Linked tree.root.leaves none ∧ firstId tree.root.leaves none = some tree.firstLeaf := by
  obtain ⟨visited, followed, isTotal, visitedSorted, -⟩ := of_checkChain walked
  obtain ⟨short, members, isFirst, linked⟩ := followChain_links followed
  have isVisited : visited = tree.root.leaves := by
    cases isRoot : tree.root with
    | leaf leaf =>
        rw [isRoot, Node.leaves_leaf] at short members
        cases visited with
        | nil => cases isFirst
        | cons first rest =>
            rw [List.length_cons, List.length_singleton] at short
            have isNil : rest = [] := List.length_eq_zero_iff.mp (by omega)
            rw [isNil, List.mem_singleton.mp (members first List.mem_cons_self), Node.leaves_leaf]
    | internal keys children =>
        have keysLength : tree.fields.size = (tree.root.leaves.flatMap (·.keys)).length := by
          rw [stored.counted, ← shape.leafKeys, List.length_map]
        have sorted : (tree.root.leaves.flatMap (·.keys)).Pairwise (· < ·) :=
          shape.leafKeys ▸ shape.contents.ascending
        have filled : ∀ leaf ∈ tree.root.leaves, leaf.keys ≠ [] := by
          intro leaf member isEmpty
          rw [isRoot] at shape member
          cases height with
          | zero => exact shape
          | succ height =>
              rw [Node.leaves_internal, List.mem_flatMap] at member
              obtain ⟨child, isChild, below⟩ := member
              obtain ⟨front, back, rfl⟩ := List.append_of_mem isChild
              obtain ⟨_, _, _, _, _, _, childShape, _⟩ := shape.2.1.hole
              have enough := childShape.leaf_filled (shape.2.2 child isChild) leaf below
              rw [isEmpty] at enough
              exact absurd (Nat.lt_of_lt_of_le positive enough) (Nat.lt_irrefl 0)
        rw [← isRoot]
        apply visited_all sorted filled members visitedSorted
        rw [Nat.zero_add] at isTotal
        rw [← isTotal, keysLength]
  rw [← isVisited]
  exact ⟨linked, isFirst⟩

theorem accepted_balanced {tree : BPlusTree K V} (bound : 3 ≤ tree.order)
    (stored : WellStored tree) (accepted : tree.checkInvariants = some none) : Balanced tree := by
  have positive : 0 < tree.minKeys := by
    rw [BPlusTree.minKeys]
    omega
  rw [BPlusTree.checkInvariants] at accepted
  split at accepted
  · cases accepted
  · rename_i sameDepth
    split at accepted
    · cases accepted
    · rename_i nodes
      obtain ⟨result, walked, isDone⟩ := Option.bind_eq_some_iff.mp accepted
      split at isDone
      · cases isDone
      · rename_i total
        have isTotal : total = tree.fields.size := by simpa using isDone
        obtain ⟨height, shape⟩ := accepted_shape positive stored (by simpa using sameDepth) nodes
        obtain ⟨linked, isFirst⟩ := accepted_chain stored positive shape (isTotal ▸ walked)
        refine ⟨bound, ⟨height, shape, ?_⟩, linked, isFirst, stored.allocated, stored.counted⟩
        intro isInternal
        obtain ⟨below, rfl⟩ := Nat.exists_eq_add_one.mpr isInternal
        cases isRoot : tree.root with
        | leaf leaf =>
            rw [isRoot] at shape
            exact shape.elim
        | internal keys children =>
            apply List.length_pos_of_ne_nil
            intro isEmpty
            rw [Node.keys_internal] at isEmpty
            exact stored.rootUsed children (isEmpty ▸ isRoot)

/-- The checker finds nothing in a tree if and only if it has the invariant that all
operations rest on, as far as the checker can see. -/
theorem balanced_iff_accepted {tree : BPlusTree K V} (bound : 3 ≤ tree.order) :
    Balanced tree ↔ WellStored tree ∧ tree.checkInvariants = some none := by
  constructor
  · intro balanced
    exact ⟨balanced.wellStored, checkInvariants_balanced balanced⟩
  · rintro ⟨stored, accepted⟩
    exact accepted_balanced bound stored accepted

/-- A leaf with one key. -/
def smallTree : BPlusTree Nat Nat where
  order := 3
  root := .leaf ⟨0, [7], [70], none⟩
  firstLeaf := 0
  fields := ⟨1, 1, none, none⟩

theorem smallTree_leaves : smallTree.root.leaves = [⟨0, [7], [70], none⟩] := Node.leaves_leaf _

theorem smallTree_entries : smallTree.root.entries = [(7, 70)] := Node.entries_leaf _

theorem smallTree_wellStored : WellStored smallTree where
  allocated := by
    rw [smallTree_leaves]
    exact ⟨by decide, by decide⟩
  parallel := by
    intro leaf member
    rw [smallTree_leaves] at member
    rw [List.mem_singleton.mp member]
    rfl
  counted := by
    rw [smallTree_entries]
    rfl
  rootUsed := by
    intro children isRoot
    cases isRoot

theorem smallTree_accepted : smallTree.checkInvariants = some none := by
  have depths : collectLeafDepths smallTree.root 1 = [1] := by
    rw [smallTree, collectLeafDepths]
  have nodes : checkNode smallTree.minKeys smallTree.maxKeys smallTree.root true none none = none := by
    rw [checkNode.eq_def]
    rfl
  rw [BPlusTree.checkInvariants, depths, nodes, smallTree_leaves]
  rfl

theorem balanced_iff_accepted_leaf : Balanced smallTree :=
  (balanced_iff_accepted (by decide)).mpr ⟨smallTree_wellStored, smallTree_accepted⟩

/-- The checker certifies all that follows: from a tree that it accepts, every run returns
what the sorted map of the tree's entries returns, and ends in a tree that answers every
query as the map does and that is accepted again. -/
theorem accepted_tree_refines {tree : BPlusTree K V} (bound : 3 ≤ tree.order)
    (stored : WellStored tree) (accepted : tree.checkInvariants = some none)
    (ops : List (Op K V)) :
    ∃ map : SortedMap K V, map.entries = tree.root.entries ∧
      ∃ tree', run BPlusTree.step tree ops = some (tree', (runTotal mapStep map ops).2) ∧
        Agrees tree' (runTotal mapStep map ops).1 ∧ WellStored tree' ∧
        tree'.checkInvariants = some none := by
  have balanced := accepted_balanced bound stored accepted
  obtain ⟨tree', ran, represents⟩ := step_refines.run ops
    (⟨balanced, rfl, rfl⟩ : Represents tree.order tree balanced.map)
  exact ⟨balanced.map, rfl, tree', ran, represents.agrees, represents.balanced.wellStored,
    checkInvariants_balanced represents.balanced⟩

theorem accepted_tree_refines_leaf :
    ∃ tree', run BPlusTree.step smallTree [.put 5 50, .remove 7] =
      some (tree', [none, some 70]) ∧ tree'.get 5 = some (some 50) := by
  obtain ⟨map, entries, tree', ran, agrees, -⟩ := accepted_tree_refines (by decide)
    smallTree_wellStored smallTree_accepted [.put 5 50, .remove 7]
  have isMap : map = ⟨[(7, 70)], by simp [Ascending]⟩ :=
    SortedMap.ext (entries.trans smallTree_entries)
  rw [isMap] at ran agrees
  exact ⟨tree', ran, agrees.get 5⟩

end Accepted

end FoundationsLab.BTree
