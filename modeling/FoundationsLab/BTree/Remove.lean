import FoundationsLab.BTree.Rebalance

/-! # Deletion

`Deleted` is the contract of `delete` on a subtree. The node that comes back may
be one key short of its occupancy; its parent repairs that on the way up. -/

namespace FoundationsLab.BTree

open Foundation

variable {K V : Type} [LinearOrder K]

structure Deleted (minKeys maxKeys height : Nat) (lo hi : Option K) (key : K)
    (fields : Fields V) (old node : Node K V) (fields' : Fields V) : Prop where
  shape : Shape minKeys maxKeys height lo hi node
  entries : node.entries = removeEntry key old.entries
  leaves : Rethreads fields.nextId fields.nextId old.leaves node.leaves
  sameNextId : fields'.nextId = fields.nextId
  almost : old.keys.length ≤ node.keys.length + 1
  lastRemoved : fields'.lastRemoved = (old.entries.lookup key).or fields.lastRemoved
  size : old.entries.length ≤ fields.size →
    fields'.size + old.entries.length = fields.size + node.entries.length

variable {minKeys maxKeys height : Nat} {lo hi : Option K}

/-! ## The leaf -/

theorem leafIndex_cases (key : K) : ∀ {keys : List K}, keys.Pairwise (· < ·) →
    leafIndex keys key = none ∧ key ∉ keys ∨
      ∃ front back, keys = front ++ key :: back ∧ leafIndex keys key = some front.length
  | [], _ => .inl (by simp [leafIndex])
  | head :: keys, sorted => by
      have parts := List.pairwise_cons.mp sorted
      by_cases atHead : key = head
      · exact .inr ⟨[], keys, by simp [atHead], by simp [leafIndex, atHead]⟩
      · by_cases below : key < head
        · refine .inl ⟨by simp [leafIndex, atHead, below], ?_⟩
          intro member
          rcases List.mem_cons.mp member with equal | later
          · exact atHead equal
          · exact lt_irrefl key (lt_trans below (parts.1 key later))
        · rcases leafIndex_cases key parts.2 with ⟨absent, notMember⟩ | ⟨front, back, rfl, found⟩
          · exact .inl ⟨by simp [leafIndex, atHead, below, absent], by simp [atHead, notMember]⟩
          · exact .inr ⟨head :: front, back, rfl, by simp [leafIndex, atHead, below, found]⟩

theorem deleteLeaf_spec {leaf : Leaf K V} (key : K) (fields : Fields V)
    (shape : LeafShape maxKeys lo hi leaf) :
    ∃ node fields', deleteLeaf leaf key fields = some (node, fields') ∧
      Deleted minKeys maxKeys 0 lo hi key fields (.leaf leaf) node fields' := by
  obtain ⟨id, keys, values, next⟩ := leaf
  obtain ⟨opens, lengths, sorted, inside, notFull⟩ := shape
  simp only at lengths sorted inside notFull
  rcases leafIndex_cases key sorted with ⟨absent, notMember⟩ | ⟨front, back, rfl, found⟩
  · have others : ∀ entry ∈ keys.zip values, entry.1 ≠ key := by
      intro entry member equal
      exact notMember (equal ▸ (List.of_mem_zip member).1)
    refine ⟨.leaf ⟨id, keys, values, next⟩, fields, by simp [deleteLeaf, absent], ?_⟩
    constructor
    · exact ⟨opens, lengths, sorted, inside, notFull⟩
    · rw [Node.entries_leaf, removeEntry_of_ne others]
    · exact Rethreads.refl _ _
    · rfl
    · exact Nat.le_succ _
    · rw [Node.entries_leaf, lookup_eq_none_of_ne others, Option.none_or]
    · exact fun _ => rfl
  · obtain ⟨frontValues, tailValues, rfl, frontLength, tailLength⟩ := exists_parallel_split lengths
    obtain ⟨value, backValues, rfl⟩ : ∃ value backValues, tailValues = value :: backValues :=
      List.exists_cons_of_length_pos (by simp [tailLength])
    have backLength : backValues.length = back.length := by simpa using tailLength
    have order := List.pairwise_append.mp sorted
    have tailOrder := List.pairwise_cons.mp order.2.1
    have frontOther : ∀ entry ∈ front.zip frontValues, entry.1 ≠ key :=
      forall_zip_fst fun other member => (order.2.2 other member key List.mem_cons_self).ne
    have backOther : ∀ entry ∈ back.zip backValues, entry.1 ≠ key :=
      forall_zip_fst fun other member => (tailOrder.1 other member).ne'
    have removeKey := ArrayList.remove_append front key back
    have removeValue := ArrayList.remove_append frontValues value backValues
    rw [frontLength] at removeValue
    refine ⟨.leaf ⟨id, front ++ back, frontValues ++ backValues, next⟩,
      { fields with lastRemoved := some value, size := fields.size - 1 },
      by simp [deleteLeaf, found, removeKey, removeValue], ?_⟩
    have removed : removeEntry key ((front ++ key :: back).zip (frontValues ++ value :: backValues)) =
        (front ++ back).zip (frontValues ++ backValues) := by
      rw [List.zip_append frontLength.symm, List.zip_append frontLength.symm, List.zip_cons_cons,
        removeEntry_append, removeEntry_of_ne frontOther]
      congr 1
      simpa [removeEntry] using backOther
    constructor
    · refine ⟨opens, by simp [frontLength, backLength], ?_, ?_, ?_⟩
      · exact List.pairwise_append.mpr ⟨order.1, tailOrder.2,
          fun first inFront second inBack =>
            order.2.2 first inFront second (List.mem_cons_of_mem _ inBack)⟩
      · intro other member
        exact inside other (by
          rcases List.mem_append.mp member with inFront | inBack
          · exact List.mem_append_left _ inFront
          · exact List.mem_append_right _ (List.mem_cons_of_mem _ inBack))
      · simp only [List.length_append, List.length_cons] at notFull ⊢
        omega
    · rw [Node.entries_leaf, Node.entries_leaf, removed]
    · simp only [Node.leaves_leaf]
      apply Rethreads.update <;> rfl
    · rfl
    · simp only [Node.keys_leaf, List.length_append, List.length_cons]
      omega
    · rw [Node.entries_leaf, List.zip_append frontLength.symm, lookup_append_of_ne_left frontOther]
      simp
    · intro enough
      simp only [Node.entries_leaf, List.length_zip, List.length_append, List.length_cons,
        frontLength, backLength] at enough ⊢
      omega

/-! ## Internal nodes -/

/-- The step of `delete` at an internal node, once the child is known. -/
theorem delete_internal {keys : List K} {front back : List (Node K V)} {child : Node K V}
    {key : K} (fields : Fields V) (index : childIndex keys key = front.length) :
    delete minKeys (.internal keys (front ++ child :: back)) key fields = (do
      let (child', fields) ← delete minKeys child key fields
      if child'.keys.length < minKeys then
        let (keys, children) ← rebalance minKeys keys (front ++ child' :: back) front.length
        some (.internal keys children, fields)
      else some (.internal keys (front ++ child' :: back), fields)) := by
  rw [delete, index]
  split
  · rename_i missing
    simp at missing
  · rename_i found isChild
    rw [ArrayList.get_append] at isChild
    obtain rfl := Option.some.inj isChild
    refine bind_congr fun result => ?_
    obtain ⟨child', fields'⟩ := result
    simp [ArrayList.set_append]

theorem delete_spec (positive : 0 < minKeys) (half : 2 * minKeys ≤ maxKeys) (key : K)
    (fields : Fields V) : ∀ {height : Nat} {lo hi : Option K} {node : Node K V},
    Shape minKeys maxKeys height lo hi node → InRange lo hi key →
    (0 < height → 0 < node.keys.length) →
    ∃ node' fields', delete minKeys node key fields = some (node', fields') ∧
      Deleted minKeys maxKeys height lo hi key fields node node' fields'
  | 0, lo, hi, .leaf leaf, shape, inWindow, _ => by
      rw [delete]
      exact deleteLeaf_spec key fields shape
  | height + 1, lo, hi, .internal keys children, shape, inWindow, hasKeys => by
      obtain ⟨notFull, chain, filled⟩ := shape
      have hasSibling : 0 < keys.length := hasKeys (Nat.succ_pos height)
      obtain ⟨front, child, back, rfl, index, below, above, frontKeys, backKeys, a, b, rfl,
        keysLength, childShape, inChild, fill⟩ := chain.route inWindow
      have childFilled : minKeys ≤ child.keys.length := filled child (by simp)
      obtain ⟨child', fields', deleted, contract⟩ :=
        delete_spec positive half key fields childShape inChild fun _ => by omega
      have frontFilled : ∀ node ∈ front, minKeys ≤ node.keys.length :=
        fun node member => filled node (by simp [member])
      have backFilled : ∀ node ∈ back, minKeys ≤ node.keys.length :=
        fun node member => filled node (by simp [member])
      have newChain := fill [] [child'] contract.shape
      simp only [List.append_nil, List.append_assoc, List.singleton_append] at newChain
      have whole : (front ++ child :: back).flatMap Node.entries =
          front.flatMap Node.entries ++ (child.entries ++ back.flatMap Node.entries) := by simp
      have removed : (front ++ child' :: back).flatMap Node.entries =
          removeEntry key ((front ++ child :: back).flatMap Node.entries) := by
        rw [whole, removeEntry_append, removeEntry_append,
          removeEntry_of_ne fun entry member => (below entry member).ne,
          removeEntry_of_ne fun entry member => (above entry member).ne', ← contract.entries]
        simp
      have lookedUp : ((front ++ child :: back).flatMap Node.entries).lookup key =
          child.entries.lookup key := by
        rw [whole, lookup_append_of_ne_left fun entry member => (below entry member).ne,
          lookup_append_of_ne_right fun entry member => (above entry member).ne']
      have sized : ((front ++ child :: back).flatMap Node.entries).length ≤ fields.size →
          fields'.size + ((front ++ child :: back).flatMap Node.entries).length =
            fields.size + ((front ++ child' :: back).flatMap Node.entries).length := by
        intro enough
        rw [whole] at enough ⊢
        simp only [List.length_append] at enough
        have childSize := contract.size (by omega)
        simp only [List.length_append, List.flatMap_append, List.flatMap_cons]
        omega
      have threaded : Rethreads fields.nextId fields.nextId
          ((front ++ child :: back).flatMap Node.leaves)
          ((front ++ child' :: back).flatMap Node.leaves) := by
        simpa using contract.leaves.frame (front.flatMap Node.leaves) (back.flatMap Node.leaves)
      rw [delete_internal fields index, deleted]
      simp only [Option.bind_eq_bind, Option.bind_some]
      by_cases lacking : child'.keys.length < minKeys
      · have almost : minKeys ≤ child'.keys.length + 1 := childFilled.trans contract.almost
        obtain ⟨keys', children', rebalanced, repair⟩ := rebalance_spec half newChain frontFilled
          backFilled lacking almost hasSibling
        refine ⟨.internal keys' children', fields', by simp [lacking, rebalanced], ?_⟩
        constructor
        · exact ⟨repair.notGrown.trans notFull, repair.chain, repair.filled⟩
        · rw [Node.entries_internal, Node.entries_internal, repair.entries, removed]
        · simpa using threaded.trans (repair.leaves fields.nextId)
        · exact contract.sameNextId
        · exact repair.almost
        · rw [Node.entries_internal, lookedUp, contract.lastRemoved]
        · rw [Node.entries_internal, Node.entries_internal, repair.entries]
          exact sized
      · refine ⟨_, fields', by rw [if_neg lacking], ?_⟩
        constructor
        · refine ⟨notFull, newChain, fun node member => ?_⟩
          simp only [List.mem_append, List.mem_cons] at member
          rcases member with inFront | rfl | inBack
          · exact frontFilled node inFront
          · exact not_lt.mp lacking
          · exact backFilled node inBack
        · rw [Node.entries_internal, Node.entries_internal, removed]
        · simpa using threaded
        · exact contract.sameNextId
        · exact Nat.le_succ _
        · rw [Node.entries_internal, lookedUp, contract.lastRemoved]
        · rw [Node.entries_internal, Node.entries_internal]
          exact sized

end FoundationsLab.BTree
