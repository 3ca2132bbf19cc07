import FoundationsLab.Deflate.HuffLengths

/-! # The nodes are a Huffman tree

The heap holds the roots of a forest, and a turn of the loop merges two trees of it. The
walk visits the leaves of the tree that is left. -/

namespace FoundationsLab.Deflate

open Foundation.HuffmanTree

/-- The frequency in the root. Sums wrap. -/
def rootFreq : CodeTree Nat → Nat
  | .leaf weight _ => weight
  | .node left right => (rootFreq left + rootFreq right) % 2 ^ 32

theorem rootFreq_eq {tree : CodeTree Nat} (small : tree.weight < 2 ^ 32) :
    rootFreq tree = tree.weight := by
  induction tree with
  | leaf weight name => rfl
  | node left right left' right' =>
      rw [CodeTree.weight] at small
      rw [rootFreq, CodeTree.weight, left' (by omega), right' (by omega), Nat.mod_eq_of_lt small]

/-- The nodes below an index are this tree. The names of the leaves are indices. -/
inductive Holds (nodes : List HuffNode) : Nat → CodeTree Nat → Prop
  | leaf {idx freq : Nat} (isLeaf : nodes[idx]? = some { freq := freq, children := none }) :
      Holds nodes idx (.leaf freq idx)
  | node {idx first second : Nat} {left right : CodeTree Nat}
      (isNode : nodes[idx]? = some
        { freq := rootFreq (.node left right), children := some (first, second) })
      (isLeft : Holds nodes first left) (isRight : Holds nodes second right) :
      Holds nodes idx (.node left right)

variable {nodes : List HuffNode} {idx : Nat} {tree : CodeTree Nat}

theorem Holds.append (holds : Holds nodes idx tree) (more : List HuffNode) :
    Holds (nodes ++ more) idx tree := by
  have kept : ∀ {idx : Nat} {node : HuffNode}, nodes[idx]? = some node →
      (nodes ++ more)[idx]? = some node := by
    intro idx node isNode
    rw [List.getElem?_append_left (List.getElem?_eq_some_iff.mp isNode).1, isNode]
  induction holds with
  | leaf isLeaf => exact .leaf (kept isLeaf)
  | node isNode _ _ left' right' => exact .node (kept isNode) left' right'

theorem Holds.root (holds : Holds nodes idx tree) :
    ∃ children, nodes[idx]? = some { freq := rootFreq tree, children := children } := by
  cases holds with
  | leaf isLeaf => exact ⟨none, isLeaf⟩
  | node isNode _ _ => exact ⟨_, isNode⟩

/-- The entries of the heap with their trees. -/
def Roots (nodes : List HuffNode) (roots : List (Nat × CodeTree Nat)) : Prop :=
  ∀ root ∈ roots, Holds nodes root.1 root.2

theorem Roots.perm {roots roots' : List (Nat × CodeTree Nat)} (areRoots : Roots nodes roots)
    (same : roots.Perm roots') : Roots nodes roots' :=
  fun root member => areRoots root (same.symm.subset member)

/-! ## Selection -/

section Selection

variable {roots : List (Nat × CodeTree Nat)}

theorem freqAt_eq (areRoots : Roots nodes roots) {i : Nat} {root : Nat × CodeTree Nat}
    (isRoot : roots[i]? = some root) :
    freqAt nodes (roots.map Prod.fst) i = .ok (rootFreq root.2) := by
  obtain ⟨children, isNode⟩ := (areRoots root (List.mem_of_getElem? isRoot)).root
  rw [freqAt, Checked.get, List.getElem?_map, isRoot]
  dsimp only [Option.map, bind, Except.bind]
  rw [Checked.get, isNode]
  rfl

/-- The entry is the least of the first ones. -/
def LeastBefore (roots : List (Nat × CodeTree Nat)) (i a : Nat) : Prop :=
  ∃ least, roots[a]? = some least ∧ ∀ j < i, ∀ root, roots[j]? = some root →
    rootFreq least.2 ≤ rootFreq root.2

theorem selectLess_returns (areRoots : Roots nodes roots) {i a : Nat} (inside : i < roots.length)
    (isLeast : LeastBefore roots i a) :
    Checked.Returns (LeastBefore roots (i + 1)) (selectLess nodes (roots.map Prod.fst) i a) := by
  obtain ⟨least, isRoot, below⟩ := isLeast
  have isNext := List.getElem?_eq_getElem inside
  rw [selectLess, freqAt_eq areRoots isNext]
  dsimp only [bind, Except.bind]
  rw [freqAt_eq areRoots isRoot]
  apply Checked.Returns.ok
  split
  · rename_i less
    refine ⟨roots[i], isNext, fun j before root isRoot' => ?_⟩
    rcases Nat.lt_succ_iff_lt_or_eq.mp before with earlier | rfl
    · exact Nat.le_trans (Nat.le_of_lt less) (below j earlier root isRoot')
    · rw [isNext] at isRoot'
      obtain rfl := Option.some.inj isRoot'
      exact Nat.le_refl _
  · rename_i notLess
    refine ⟨least, isRoot, fun j before root isRoot' => ?_⟩
    rcases Nat.lt_succ_iff_lt_or_eq.mp before with earlier | rfl
    · exact below j earlier root isRoot'
    · rw [isNext] at isRoot'
      rw [← Option.some.inj isRoot']
      exact Nat.le_of_not_lt notLess

/-- Putting the last element in the place of another one takes that one out. -/
theorem perm_set_dropLast {α : Type} {xs : List α} {a : Nat} {x last : α} (isTaken : xs[a]? = some x)
    (isLast : xs[xs.length - 1]? = some last) : xs.Perm (x :: (xs.set a last).dropLast) := by
  have inside := (List.getElem?_eq_some_iff.mp isTaken).1
  have notEmpty : xs ≠ [] := List.ne_nil_of_length_pos (Nat.zero_lt_of_lt inside)
  obtain ⟨init, y, rfl⟩ : ∃ init y, xs = init ++ [y] :=
    ⟨xs.dropLast, xs.getLast notEmpty, (List.dropLast_append_getLast notEmpty).symm⟩
  rw [List.length_append, List.length_singleton, Nat.add_sub_cancel,
    List.getElem?_append_right (Nat.le_refl _), Nat.sub_self] at isLast
  obtain rfl : y = last := Option.some.inj isLast
  rw [List.length_append, List.length_singleton] at inside
  rcases Nat.lt_succ_iff_lt_or_eq.mp inside with earlier | rfl
  · rw [List.getElem?_append_left earlier] at isTaken
    obtain ⟨_, isElement⟩ := List.getElem?_eq_some_iff.mp isTaken
    have split := List.take_append_drop a init
    rw [List.drop_eq_getElem_cons earlier, isElement] at split
    rw [List.set_append_left _ _ earlier, List.dropLast_concat, List.set_eq_take_append_cons_drop,
      if_pos earlier]
    conv_lhs => rw [← split]
    rw [List.append_assoc, List.cons_append]
    apply List.perm_middle.trans
    apply List.Perm.cons
    exact (List.perm_append_comm.append_left _).trans (.refl _)
  · rw [List.getElem?_append_right (Nat.le_refl _), Nat.sub_self] at isTaken
    obtain rfl : y = x := Option.some.inj isTaken
    rw [List.set_append_right _ _ (Nat.le_refl _), Nat.sub_self, List.set_cons_zero,
      List.dropLast_concat]
    exact List.perm_append_comm

/-- The least tree is taken out of the forest. -/
theorem takeLeast_returns (areRoots : Roots nodes roots) (notEmpty : 0 < roots.length) :
    Checked.Returns (fun taken => ∃ root rest, roots.Perm (root :: rest) ∧
      taken = (root.1, rest.map Prod.fst) ∧ ∀ other ∈ root :: rest, rootFreq root.2 ≤ rootFreq other.2)
      (takeLeast nodes (roots.map Prod.fst)) := by
  have isFirst : LeastBefore roots 1 0 := by
    refine ⟨roots[0], List.getElem?_eq_getElem notEmpty, fun j before root isRoot => ?_⟩
    obtain rfl : j = 0 := by omega
    rw [List.getElem?_eq_getElem notEmpty] at isRoot
    obtain rfl := Option.some.inj isRoot
    exact Nat.le_refl _
  rw [takeLeast, List.length_map]
  apply (Checked.returns_forFrom (LeastBefore roots) isFirst fun i a lower upper isLeast =>
    selectLess_returns areRoots (by omega) isLeast).bind
  intro a isLeast
  rw [show 1 + (roots.length - 1) = roots.length by omega] at isLeast
  obtain ⟨root, isRoot, least⟩ := isLeast
  have inside := (List.getElem?_eq_some_iff.mp isRoot).1
  have isLast : roots[roots.length - 1]? = some roots[roots.length - 1] :=
    List.getElem?_eq_getElem (by omega)
  have taken := perm_set_dropLast isRoot isLast
  apply (Checked.returns_get (by rw [List.length_map]; exact inside)).bind
  intro idx isIdx
  rw [List.getElem?_map, isRoot] at isIdx
  obtain rfl := Option.some.inj isIdx
  apply (Checked.returns_get (by rw [List.length_map]; omega)).bind
  intro last isLastIdx
  rw [List.getElem?_map, isLast] at isLastIdx
  obtain rfl := Option.some.inj isLastIdx
  apply (Checked.returns_set (by rw [List.length_map]; exact inside) _).bind
  rintro _ rfl
  apply Checked.Returns.ok
  refine ⟨root, _, taken, ?_, fun other member => ?_⟩
  · rw [List.map_dropLast, List.map_set]
  · obtain ⟨j, isOther⟩ := List.getElem?_of_mem (taken.symm.subset member)
    exact least j (List.getElem?_eq_some_iff.mp isOther).1 other isOther

end Selection

/-! ## Merging -/

theorem push_returns {α : Type} {capacity : Nat} {xs : List α} (room : xs.length < capacity) (x : α) :
    Checked.Returns (fun ys => ys = xs ++ [x]) (push capacity xs x) := by
  rw [push, if_pos room]
  exact Checked.Returns.ok rfl

/-- The heap and the nodes hold this forest. -/
def Grows (forest : List (CodeTree Nat)) (nodes : List HuffNode) (heap : List Nat) : Prop :=
  ∃ roots : List (Nat × CodeTree Nat), Roots nodes roots ∧ heap = roots.map Prod.fst ∧
    forest = roots.map Prod.snd

/-- A turn merges the two least trees. It makes one more node. -/
theorem mergeTwo_returns {forest : List (CodeTree Nat)} {heap : List Nat}
    (grows : Grows forest nodes heap) (two : 2 ≤ heap.length) (few : heap.length ≤ numLiterals)
    (room : nodes.length < 2 * numLiterals) :
    Checked.Returns (fun state => ∃ forest', Merges rootFreq forest forest' ∧
      Grows forest' state.1 state.2 ∧ state.1.length = nodes.length + 1 ∧
      state.2.length + 1 = heap.length) (mergeTwo nodes heap) := by
  obtain ⟨roots, areRoots, rfl, rfl⟩ := grows
  rw [List.length_map] at two few
  apply (takeLeast_returns areRoots (by omega)).bind
  rintro _ ⟨first, rest, taken, rfl, least⟩
  have areRoots' := areRoots.perm taken
  have length' := taken.length_eq
  rw [List.length_cons] at length'
  have areRest : Roots nodes rest := fun root member => areRoots' root (.tail _ member)
  apply (takeLeast_returns areRest (by omega)).bind
  rintro _ ⟨second, others, taken', rfl, next⟩
  have areRest' := areRest.perm taken'
  have length'' := taken'.length_eq
  rw [List.length_cons] at length''
  have isFirst := areRoots' first List.mem_cons_self
  have isSecond := areRest' second List.mem_cons_self
  obtain ⟨_, isLeft⟩ := isFirst.root
  obtain ⟨_, isRight⟩ := isSecond.root
  rw [Checked.get, isLeft]
  dsimp only [bind, Except.bind]
  rw [Checked.get, isRight]
  apply (push_returns room _).bind
  rintro _ rfl
  apply (push_returns (by rw [List.length_map]; omega) _).bind
  rintro _ rfl
  apply Checked.Returns.ok
  refine ⟨others.map Prod.snd ++ [.node first.2 second.2], ?_, ?_, ?_, ?_⟩
  · refine ⟨first.2, second.2, others.map Prod.snd, ?_, fun other member => ?_,
      fun other member => ?_, List.perm_append_comm⟩
    · have moved := (taken.trans (taken'.cons first)).map Prod.snd
      rwa [List.map_cons, List.map_cons] at moved
    · have inRest := (taken'.map Prod.snd).symm.subset member
      obtain ⟨root, isRoot, rfl⟩ := List.mem_map.mp inRest
      exact least root (.tail _ isRoot)
    · obtain ⟨root, isRoot, rfl⟩ := List.mem_map.mp member
      exact next root (.tail _ isRoot)
  · refine ⟨others ++ [(nodes.length, .node first.2 second.2)], fun root member => ?_, ?_, ?_⟩
    · rcases List.mem_append.mp member with isOld | isNew
      · exact (areRest' root (.tail _ isOld)).append _
      · obtain rfl := List.mem_singleton.mp isNew
        exact .node (List.getElem?_concat_length ..) (isFirst.append _) (isSecond.append _)
    · rw [List.map_append, List.map_singleton]
    · rw [List.map_append, List.map_singleton]
  · rw [List.length_append, List.length_singleton]
  · rw [List.length_append, List.length_singleton, List.length_map, List.length_map]
    omega

/-- A forest of one tree is merged. -/
theorem Grows.merged {forest : List (CodeTree Nat)} {heap : List Nat} (grows : Grows forest nodes heap)
    (one : heap.length = 1) : ∃ root tree, MergesTo rootFreq forest tree ∧ heap = [root] ∧
      Holds nodes root tree := by
  obtain ⟨roots, areRoots, rfl, rfl⟩ := grows
  rw [List.length_map] at one
  obtain ⟨root, rfl⟩ := List.length_eq_one_iff.mp one
  exact ⟨root.1, root.2, .done root.2, rfl, areRoots root (List.mem_singleton_self _)⟩

/-- The loop merges the forest to one tree. -/
theorem mergeAll_returns {forest : List (CodeTree Nat)} {heap : List Nat} {turns : Nat}
    (grows : Grows forest nodes heap) (notEmpty : 1 ≤ heap.length)
    (enough : heap.length ≤ turns + 1) (few : heap.length ≤ numLiterals)
    (room : nodes.length + heap.length ≤ 2 * numLiterals) :
    Checked.Returns (fun state => ∃ root tree, MergesTo rootFreq forest tree ∧ state.2 = [root] ∧
      Holds state.1 root tree ∧ state.1.length + 1 = nodes.length + heap.length)
      (mergeAll turns nodes heap) := by
  induction turns generalizing forest nodes heap with
  | zero =>
      have one : heap.length = 1 := by omega
      obtain ⟨root, tree, mergesTo, isRoot, holds⟩ := grows.merged one
      rw [mergeAll, if_neg (by omega), one]
      exact Checked.Returns.ok ⟨root, tree, mergesTo, isRoot, holds, rfl⟩
  | succ turns induction =>
      rw [mergeAll]
      split
      · apply (mergeTwo_returns grows (by omega) few (by omega)).bind
        rintro ⟨nodes', heap'⟩ ⟨forest', merges, grows', more, less⟩
        dsimp only at grows' more less
        apply (induction grows' (by omega) (by omega) (by omega) (by omega)).mono
        rintro state ⟨root, tree, mergesTo, isRoot, holds, size⟩
        exact ⟨root, tree, .step merges mergesTo, isRoot, holds, by omega⟩
      · have one : heap.length = 1 := by omega
        obtain ⟨root, tree, mergesTo, isRoot, holds⟩ := grows.merged one
        rw [one]
        exact Checked.Returns.ok ⟨root, tree, mergesTo, isRoot, holds, rfl⟩

/-! ## The walk -/

/-- What a leaf at this depth leaves behind: its depth as a byte, and the greatest depth. -/
def recordLeaf (state : Nat × List Nat) (leaf : Nat × Nat) : Nat × List Nat :=
  (if leaf.2 > state.1 then leaf.2 else state.1,
    state.2.set leaf.1 ((if leaf.2 ≠ 0 then leaf.2 else 1) % 2 ^ 8))

/-- A tree on the stack. -/
structure Visit where
  idx : Nat
  depth : Nat
  tree : CodeTree Nat

/-- The leaves that the walk visits from this stack. -/
def leavesOf (visits : List Visit) : List (Nat × Nat) :=
  visits.flatMap fun visit => visit.tree.depths visit.depth

theorem pushTop_eq {stack : List (Nat × Nat)} (room : stack.length < 2 * numLiterals)
    (entry : Nat × Nat) : pushTop stack entry = .ok (entry :: stack) := by
  rw [pushTop, if_pos room]

/-- The names below a stack bound its size. -/
theorem length_le_names (visits : List Visit) :
    visits.length ≤ (names (visits.map Visit.tree)).length := by
  induction visits with
  | nil => exact Nat.zero_le _
  | cons visit visits induction =>
      have one := visit.tree.one_le_length_names
      rw [List.map_cons, names, List.flatMap_cons, List.length_append, List.length_cons]
      rw [names] at induction
      omega

theorem walkTree_eq {visits : List Visit} {turns : Nat} {state : Nat × List Nat}
    (areTrees : ∀ visit ∈ visits, Holds nodes visit.idx visit.tree)
    (enough : (visits.map fun visit => visit.tree.size).sum ≤ turns)
    (room : (names (visits.map Visit.tree)).length ≤ numLiterals)
    (inside : ∀ name ∈ names (visits.map Visit.tree), name < state.2.length) :
    walkTree nodes turns (visits.map fun visit => (visit.idx, visit.depth)) state.2 state.1 =
      .ok ((leavesOf visits).foldl recordLeaf state) := by
  induction turns generalizing visits state with
  | zero =>
      cases visits with
      | nil => rfl
      | cons visit visits =>
          have one := visit.tree.size_eq
          have some := visit.tree.one_le_length_names
          rw [List.map_cons, List.sum_cons] at enough
          omega
  | succ turns induction =>
      cases visits with
      | nil => rfl
      | cons visit visits =>
          obtain ⟨idx, depth, tree⟩ := visit
          have isTree : Holds nodes idx tree := areTrees _ List.mem_cons_self
          have areTrees' : ∀ visit ∈ visits, Holds nodes visit.idx visit.tree :=
            fun visit member => areTrees visit (.tail _ member)
          rw [List.map_cons, List.sum_cons] at enough
          rw [List.map_cons, names, List.flatMap_cons] at inside room
          dsimp only at inside room enough
          rw [List.map_cons, walkTree, leavesOf, List.flatMap_cons]
          cases isTree with
          | @leaf _ freq isLeaf =>
              have isInside := inside idx (List.mem_append_left _ (List.mem_singleton_self _))
              rw [Checked.get, isLeaf]
              dsimp only [bind, Except.bind]
              rw [Checked.set, if_pos isInside]
              rw [CodeTree.size] at enough
              rw [CodeTree.names, List.length_append, List.length_singleton] at room
              exact @induction visits (recordLeaf state (idx, depth)) areTrees' (by omega)
                (by rw [names]; omega) fun name member => by
                  rw [recordLeaf, List.length_set]
                  exact inside name (List.mem_append_right _ member)
          | @node _ first second left right isNode isLeft isRight =>
              have few := length_le_names visits
              have someLeft := left.one_le_length_names
              have someRight := right.one_le_length_names
              rw [names] at few
              rw [CodeTree.names, List.length_append, List.length_append] at room
              rw [CodeTree.size] at enough
              have step := @induction (⟨second, depth + 1, right⟩ :: ⟨first, depth + 1, left⟩ :: visits)
                state (by
                  intro visit member
                  rcases List.mem_cons.mp member with rfl | member
                  · exact isRight
                  · rcases List.mem_cons.mp member with rfl | member
                    · exact isLeft
                    · exact areTrees' visit member)
                (by
                  rw [List.map_cons, List.map_cons, List.sum_cons, List.sum_cons]
                  dsimp only
                  omega)
                (by
                  rw [List.map_cons, List.map_cons, names, List.flatMap_cons, List.flatMap_cons,
                    List.length_append, List.length_append]
                  dsimp only
                  omega)
                (by
                  intro name member
                  rw [List.map_cons, List.map_cons, names, List.flatMap_cons, List.flatMap_cons] at member
                  apply inside name
                  rw [CodeTree.names]
                  simp only [List.mem_append] at member ⊢
                  tauto)
              rw [Checked.get, isNode]
              dsimp only [bind, Except.bind]
              rw [pushTop_eq (by rw [List.length_map]; omega)]
              dsimp only
              rw [pushTop_eq (by rw [List.length_cons, List.length_map]; omega)]
              dsimp only
              rw [List.map_cons, List.map_cons, leavesOf, List.flatMap_cons, List.flatMap_cons,
                ← List.append_assoc] at step
              rw [CodeTree.depths]
              exact step

/-- Leaves of different names keep their depths. -/
theorem recordLeaves_lengths {leaves : List (Nat × Nat)} (different : (leaves.map Prod.fst).Nodup)
    (state : Nat × List Nat) (inside : ∀ leaf ∈ leaves, leaf.1 < state.2.length) :
    (leaves.foldl recordLeaf state).2.length = state.2.length ∧
    (∀ leaf ∈ leaves, (leaves.foldl recordLeaf state).2[leaf.1]? =
      some ((if leaf.2 ≠ 0 then leaf.2 else 1) % 2 ^ 8)) ∧
    ∀ i, i ∉ leaves.map Prod.fst → (leaves.foldl recordLeaf state).2[i]? = state.2[i]? := by
  induction leaves generalizing state with
  | nil => exact ⟨rfl, fun leaf member => absurd member List.not_mem_nil, fun i _ => rfl⟩
  | cons leaf leaves induction =>
      rw [List.map_cons, List.nodup_cons] at different
      have size : (recordLeaf state leaf).2.length = state.2.length := List.length_set
      obtain ⟨length', recorded, kept⟩ := induction different.2 (recordLeaf state leaf)
        fun other member => size ▸ inside other (.tail _ member)
      rw [List.foldl_cons]
      refine ⟨length'.trans size, fun other member => ?_, fun i notNamed => ?_⟩
      · rcases List.mem_cons.mp member with rfl | member
        · rw [kept _ different.1, recordLeaf, List.getElem?_set_self (inside _ List.mem_cons_self)]
        · exact recorded other member
      · rw [List.map_cons, List.mem_cons, not_or] at notNamed
        rw [kept i notNamed.2, recordLeaf, List.getElem?_set_ne (Ne.symm notNamed.1)]

theorem recordLeaves_max {leaves : List (Nat × Nat)} {greatest : Nat} (state : Nat × List Nat)
    (atMost : ∀ leaf ∈ leaves, leaf.2 ≤ greatest) (start : state.1 ≤ greatest)
    (reached : state.1 = greatest ∨ ∃ leaf ∈ leaves, leaf.2 = greatest) :
    (leaves.foldl recordLeaf state).1 = greatest := by
  induction leaves generalizing state with
  | nil =>
      rcases reached with same | ⟨leaf, member, -⟩
      · exact same
      · cases member
  | cons leaf leaves induction =>
      have small := atMost leaf List.mem_cons_self
      rw [List.foldl_cons]
      apply induction
      · exact fun other member => atMost other (.tail _ member)
      · rw [recordLeaf]
        split
        · exact small
        · exact start
      · rw [recordLeaf]
        rcases reached with same | ⟨other, member, same⟩
        · left
          rw [if_neg (by omega), same]
        · rcases List.mem_cons.mp member with rfl | member
          · left
            split
            · exact same
            · dsimp only
              omega
          · exact .inr ⟨other, member, same⟩

theorem walkRoot_eq {root turns : Nat} {lengths : List Nat} (holds : Holds nodes root tree)
    (enough : tree.size ≤ turns) (few : tree.names.length ≤ numLiterals)
    (inside : ∀ name ∈ tree.names, name < lengths.length) :
    walkTree nodes turns [(root, 0)] lengths 0 =
      .ok ((tree.depths 0).foldl recordLeaf (0, lengths)) := by
  have walked := @walkTree_eq nodes [⟨root, 0, tree⟩] turns (0, lengths)
  simp only [List.map_singleton, List.sum_singleton, names, leavesOf, List.flatMap_singleton,
    List.mem_singleton, forall_eq] at walked
  exact walked holds enough few inside

theorem one_le_depth {leaf : Nat × Nat} (two : 2 ≤ tree.names.length)
    (member : leaf ∈ tree.depths 0) : 1 ≤ leaf.2 := by
  cases tree with
  | leaf weight name =>
      rw [CodeTree.names, List.length_singleton] at two
      omega
  | node left right =>
      rcases List.mem_append.mp member with inRight | inLeft
      · exact (CodeTree.depth_le inRight).1
      · exact (CodeTree.depth_le inLeft).1

/-- The walk of a tree records its height and the depths of its leaves. -/
theorem recordTree {lengths : List Nat} (two : 2 ≤ tree.names.length) (different : tree.names.Nodup)
    (inside : ∀ name ∈ tree.names, name < lengths.length) :
    ((tree.depths 0).foldl recordLeaf (0, lengths)).1 = tree.height ∧
    ((tree.depths 0).foldl recordLeaf (0, lengths)).2.length = lengths.length ∧
    ∀ leaf ∈ tree.depths 0, ((tree.depths 0).foldl recordLeaf (0, lengths)).2[leaf.1]? =
      some (leaf.2 % 2 ^ 8) := by
  have areNames := tree.names_depths 0
  obtain ⟨length', recorded, -⟩ := recordLeaves_lengths (areNames.nodup_iff.mpr different)
    (0, lengths) fun leaf member => inside _ (areNames.subset (List.mem_map_of_mem member))
  refine ⟨recordLeaves_max _ (fun leaf member => ?_) (Nat.zero_le _) (.inr ?_), length',
    fun leaf member => ?_⟩
  · have bound := (CodeTree.depth_le member).2
    omega
  · obtain ⟨name, member⟩ := tree.height_mem_depths 0
    exact ⟨_, member, Nat.zero_add _⟩
  · have deep := one_le_depth two member
    rw [recorded leaf member, if_pos (by omega)]

/-! ## One construction -/

/-- A leaf for each used symbol. Its name is its number among them. -/
def leafForest (freqs : List Nat) : List (CodeTree Nat) :=
  (freqs.filter (· ≠ 0)).zipIdx.map fun entry => .leaf entry.1 entry.2

theorem names_leafForest (freqs : List Nat) :
    names (leafForest freqs) = List.range (freqs.filter (· ≠ 0)).length := by
  rw [names, leafForest, List.flatMap_map, List.range_eq_range', ← List.zipIdx_map_snd,
    List.map_eq_flatMap]
  rfl

theorem weight_leafForest (freqs : List Nat) :
    weight (leafForest freqs) = (freqs.filter (· ≠ 0)).sum := by
  rw [weight, leafForest, List.map_map]
  conv_rhs => rw [← List.zipIdx_map_fst 0 (freqs.filter (· ≠ 0))]
  rfl

/-- The leaves after the first `i` symbols. -/
structure LeavesMade (freqs : List Nat) (i : Nat) (state : List HuffNode × List Nat) : Prop where
  nodes : state.1 = ((freqs.take i).filter (· ≠ 0)).map fun freq =>
    { freq := freq, children := none }
  heap : state.2 = List.range ((freqs.take i).filter (· ≠ 0)).length

theorem addLeaf_returns {freqs : List Nat} (few : freqs.length ≤ numLiterals) {i : Nat}
    {state : List HuffNode × List Nat} (made : LeavesMade freqs i state)
    (inside : i < freqs.length) :
    Checked.Returns (LeavesMade freqs (i + 1)) (addLeaf freqs i state) := by
  obtain ⟨nodes, heap⟩ := state
  obtain ⟨areNodes, isHeap⟩ := made
  dsimp only at areNodes isHeap
  have atMost := List.length_filter_le (· ≠ 0) (freqs.take i)
  rw [List.length_take] at atMost
  apply (Checked.returns_get inside).bind
  intro freq isFreq
  have grown : freqs.take (i + 1) = freqs.take i ++ [freq] := by
    rw [List.take_add_one, isFreq]
    rfl
  split
  · rename_i isZero
    apply Checked.Returns.ok
    have none : [freq].filter (· ≠ 0) = [] := by simp [isZero]
    constructor
    · rw [grown, List.filter_append, none, List.append_nil]
      exact areNodes
    · rw [grown, List.filter_append, none, List.append_nil]
      exact isHeap
  · rename_i notZero
    have one : [freq].filter (· ≠ 0) = [freq] := by simp [notZero]
    have size : nodes.length = ((freqs.take i).filter (· ≠ 0)).length := by
      rw [areNodes, List.length_map]
    apply (push_returns (by omega) _).bind
    rintro _ rfl
    apply (push_returns (by rw [isHeap, List.length_range]; omega) _).bind
    rintro _ rfl
    apply Checked.Returns.ok
    constructor
    · rw [grown, List.filter_append, one, List.map_append, ← areNodes]
      rfl
    · rw [grown, List.filter_append, one, List.length_append, List.length_singleton,
        List.range_succ, ← isHeap, size]

theorem LeavesMade.grows {freqs : List Nat} {state : List HuffNode × List Nat}
    (made : LeavesMade freqs freqs.length state) :
    Grows (leafForest freqs) state.1 state.2 := by
  obtain ⟨areNodes, isHeap⟩ := made
  rw [List.take_length] at areNodes isHeap
  refine ⟨(freqs.filter (· ≠ 0)).zipIdx.map fun entry => (entry.2, .leaf entry.1 entry.2),
    fun root member => ?_, ?_, ?_⟩
  · obtain ⟨⟨freq, idx⟩, isEntry, rfl⟩ := List.mem_map.mp member
    apply Holds.leaf
    rw [areNodes, List.getElem?_map, List.mem_zipIdx_iff_getElem?.mp isEntry]
    rfl
  · rw [isHeap, List.map_map, List.range_eq_range', ← List.zipIdx_map_snd]
    rfl
  · rw [leafForest, List.map_map]
    rfl

theorem leavesMade_returns {freqs : List Nat} (few : freqs.length ≤ numLiterals) :
    Checked.Returns (LeavesMade freqs freqs.length)
      (Checked.forFrom (addLeaf freqs) 0 freqs.length ([], [])) := by
  apply (Checked.returns_forFrom (LeavesMade freqs) ⟨rfl, rfl⟩ fun i state _ upper made =>
    addLeaf_returns few made (by omega)).mono
  intro state made
  rwa [Nat.zero_add] at made

section BuildOnce

variable {freqs : List Nat}

theorem LeavesMade.heap_length {state : List HuffNode × List Nat}
    (made : LeavesMade freqs freqs.length state) :
    state.2.length = (freqs.filter (· ≠ 0)).length := by
  rw [made.heap, List.take_length, List.length_range]

theorem buildOnce_none (few : freqs.length ≤ numLiterals)
    (none : (freqs.filter (· ≠ 0)).length = 0) :
    buildOnce freqs = .ok (0, List.replicate freqs.length 0) := by
  obtain ⟨⟨nodes, heap⟩, made, leavesMade⟩ := leavesMade_returns few
  have size := leavesMade.heap_length
  dsimp only at size
  rw [buildOnce, made]
  dsimp only [bind, Except.bind]
  rw [if_pos (by omega)]
  rfl

/-- The one length is at the place of the symbol, not at that of the leaf. -/
theorem buildOnce_one (few : freqs.length ≤ numLiterals)
    (one : (freqs.filter (· ≠ 0)).length = 1) :
    buildOnce freqs =
      .ok (1, (List.replicate freqs.length 0).set (freqs.findIdx (· ≠ 0)) 1) := by
  obtain ⟨⟨nodes, heap⟩, made, leavesMade⟩ := leavesMade_returns few
  have size := leavesMade.heap_length
  dsimp only at size
  rw [buildOnce, made]
  dsimp only [bind, Except.bind]
  rw [if_neg (by omega), if_pos (by omega)]
  rfl

/-- The depths of the leaves of a tree, as bytes. -/
structure Depths (freqs : List Nat) (tree : CodeTree Nat) (maxLen : Nat) (leafLen : List Nat) :
    Prop where
  mergesTo : MergesTo rootFreq (leafForest freqs) tree
  greatest : maxLen = tree.height
  size : leafLen.length = freqs.length
  depths : ∀ leaf ∈ tree.depths 0, leafLen[leaf.1]? = some (leaf.2 % 2 ^ 8)

theorem buildOnce_tree (few : freqs.length ≤ numLiterals)
    (two : 2 ≤ (freqs.filter (· ≠ 0)).length) :
    Checked.Returns (fun built => ∃ tree, Depths freqs tree built.1 built.2) (buildOnce freqs) := by
  have atMost := List.length_filter_le (· ≠ 0) freqs
  obtain ⟨⟨nodes, heap⟩, made, leavesMade⟩ := leavesMade_returns few
  have size := leavesMade.heap_length
  have grows := leavesMade.grows
  have nodesMade := leavesMade.nodes
  dsimp only at size grows nodesMade
  have size' : nodes.length = heap.length := by
    rw [size, nodesMade, List.length_map, List.take_length]
  rw [buildOnce, made]
  dsimp only [bind, Except.bind]
  rw [if_neg (by omega), if_neg (by omega)]
  apply (mergeAll_returns grows (by omega) (by omega) (by omega) (by omega)).bind
  rintro ⟨nodes', heap'⟩ ⟨root, tree, mergesTo, isRoot, holds, size''⟩
  dsimp only at isRoot holds size''
  subst isRoot
  have areNames := mergesTo.names
  rw [names_leafForest] at areNames
  have count := areNames.length_eq
  rw [List.length_range] at count
  have nodeCount := tree.size_eq
  have inside : ∀ name ∈ tree.names, name < (List.replicate freqs.length 0).length := by
    intro name member
    have isSmall := List.mem_range.mp (areNames.subset member)
    rw [List.length_replicate]
    omega
  have two' : 2 ≤ tree.names.length := by omega
  obtain ⟨greatest, length', recorded⟩ := recordTree two'
    (areNames.nodup_iff.mpr List.nodup_range) inside
  obtain ⟨name, isDeepest⟩ := tree.height_mem_depths 0
  have isHigh := one_le_depth two' isDeepest
  rw [Checked.get]
  dsimp only [List.getElem?_cons_zero]
  rw [pushTop_eq (by decide)]
  dsimp only
  rw [walkRoot_eq holds (by omega) (by omega) inside]
  apply Checked.Returns.ok
  refine ⟨tree, mergesTo, ?_, ?_, recorded⟩
  · dsimp only at isHigh ⊢
    rw [greatest, if_pos (by omega)]
  · rw [length', List.length_replicate]

end BuildOnce

end FoundationsLab.Deflate
