import FoundationsLab.Crdt.RgaConvergence
import FoundationsLab.Foundation.Forest

/-! # The order of the nodes

The walk from the root is a walk of the forest of the nodes: it meets every node
once. More operations only add nodes to it. -/

namespace FoundationsLab.Crdt

open Foundation

variable {V : Type}

/-! ## Siblings -/

/-- Siblings stand in this order: newer first, and the greater replica id first. -/
def NodeId.Before (id id' : NodeId) : Prop := id'.c < id.c ∨ id.c = id'.c ∧ id'.r ≤ id.r

theorem cmpNodes_le_iff (node node' : Node V) :
    cmpNodes node node' ≤ 0 ↔ node.id.Before node'.id := by
  rw [cmpNodes, NodeId.Before]
  split
  · omega
  · rename_i same
    have same : node.id.c = node'.id.c := not_not.mp same
    split
    · rename_i less
      simp [same, not_le.mpr less]
    · rename_i notLess
      split <;> simp [same, not_lt.mp notLess]

theorem NodeId.Before.trans {first second third : NodeId} (before : first.Before second)
    (before' : second.Before third) : first.Before third := by
  rcases before with newer | ⟨same, less⟩
  · rcases before' with newer' | ⟨same', -⟩
    · exact .inl (newer'.trans newer)
    · exact .inl (same' ▸ newer)
  · rcases before' with newer' | ⟨same', less'⟩
    · exact .inl (same ▸ newer')
    · exact .inr ⟨same.trans same', less'.trans less⟩

theorem NodeId.before_total (id id' : NodeId) : id.Before id' ∨ id'.Before id := by
  rcases lt_trichotomy id.c id'.c with less | same | greater
  · exact .inr (.inl less)
  · rcases le_total id.r id'.r with less | greater
    · exact .inr (.inr ⟨same.symm, less⟩)
    · exact .inl (.inr ⟨same, greater⟩)
  · exact .inl (.inl greater)

instance : Std.Antisymm NodeId.Before where
  antisymm := by
    rintro ⟨c, r⟩ ⟨c', r'⟩ (newer | ⟨same, less⟩) (newer' | ⟨same', less'⟩)
    · exact absurd newer (by dsimp only at newer' ⊢; omega)
    · exact absurd newer (by dsimp only at same' ⊢; omega)
    · exact absurd newer' (by dsimp only at same ⊢; omega)
    · dsimp only at same less less'
      rw [same, le_antisymm less' less]

theorem children_sorted (rga : RGA V) (place : Key) :
    ((rga.children place).map Node.id).Pairwise NodeId.Before := by
  rw [List.pairwise_map]
  have sorted : (rga.children place).Pairwise fun node node' => decide (cmpNodes node node' ≤ 0) := by
    apply List.pairwise_mergeSort
    · intro first second third before before'
      rw [decide_eq_true_eq, cmpNodes_le_iff] at before before' ⊢
      exact before.trans before'
    · intro node node'
      rw [Bool.or_eq_true, decide_eq_true_eq, decide_eq_true_eq, cmpNodes_le_iff, cmpNodes_le_iff]
      exact NodeId.before_total node.id node'.id
  exact sorted.imp fun before => (cmpNodes_le_iff _ _).mp (of_decide_eq_true before)

/-! ## The walk is a walk of a forest -/

theorem walkAll_eq (walk : Key → Option (List (Node V))) (nodes : List (Node V)) :
    RGA.walkAll walk nodes = Forest.walkAll Node.key walk nodes := by
  induction nodes with
  | nil => rfl
  | cons child rest induction => rw [RGA.walkAll, Forest.walkAll, induction]

theorem walk_eq (rga : RGA V) (fuel : Nat) :
    rga.walk fuel = Forest.walk Node.key rga.children fuel := by
  induction fuel with
  | zero => rfl
  | succ fuel induction =>
      funext place
      rw [RGA.walk, Forest.walk, induction, walkAll_eq]

section Order

variable {ops : Set (Op V)} {rga : RGA V}

theorem Holds.node_key (holds : Holds ops rga) {node : Node V} (member : node ∈ rga.values) :
    node.key = idKey node.id ∧ rga.nodes.get node.key = some node := by
  obtain ⟨key, found⟩ := mem_values.mp member
  have describes := holds.sound key node found
  exact ⟨describes.sameKey.trans describes.isKey.symm, describes.sameKey.symm ▸ found⟩

theorem Holds.values_keys (holds : Holds ops rga) :
    rga.values.map Node.key = rga.nodes.entries.map Prod.fst := by
  rw [RGA.values, List.map_map]
  apply List.map_congr_left
  intro entry member
  exact (holds.sound entry.1 entry.2 (SortedMap.get_of_mem member)).sameKey

theorem Holds.values_nodup (holds : Holds ops rga) : (rga.values.map Node.key).Nodup := by
  rw [holds.values_keys]
  exact rga.nodes.ascending.imp fun less => less.ne

theorem Holds.children_nodup (holds : Holds ops rga) (place : Key) :
    (rga.children place).Nodup := by
  have nodup : rga.values.Nodup := List.Nodup.of_map _ holds.values_nodup
  exact (List.mergeSort_perm _ _).nodup_iff.mpr (nodup.filter _)

theorem Holds.wellFounded (holds : Holds ops rga) (ranked : ∀ parent ∈ rga.values,
    ∀ child ∈ rga.values, child.after = parent.key → parent.id.c < child.id.c) :
    Forest.WellFounded Node.key rga.children (·.id.c) where
  nodup := holds.children_nodup
  unique := by
    intro place place' node node' member member' same
    obtain ⟨isNode, rfl⟩ := mem_children.mp member
    obtain ⟨isNode', rfl⟩ := mem_children.mp member'
    have found := (holds.node_key isNode).2
    rw [same, (holds.node_key isNode').2] at found
    obtain rfl := Option.some.inj found
    exact ⟨rfl, rfl⟩
  ranked := by
    intro place parent child isParent isChild
    obtain ⟨isNode, -⟩ := mem_children.mp isParent
    obtain ⟨isNode', isAfter⟩ := mem_children.mp isChild
    exact ranked parent isNode child isNode' isAfter

/-- What is grounded hangs on the root. -/
theorem Holds.under_root (holds : Holds ops rga) (coherent : Coherent ops) {key : Key}
    (grounded : Grounded ops key) : key = ROOT ∨ ∃ node, rga.nodes.get key = some node ∧
      Forest.Under Node.key rga.children ROOT node := by
  induction grounded with
  | root => exact .inl rfl
  | @node id after value member grounded induction =>
      right
      obtain ⟨node, found⟩ := holds.complete id after value member grounded
      have describes := holds.sound _ node found
      have isMember := describes.member
      rw [idKey_injective describes.isKey] at isMember
      have isAfter := (coherent.unique _ _ _ _ _ isMember member).1
      have isChild : node ∈ rga.children after := mem_children.mpr ⟨mem_values.mpr ⟨_, found⟩, isAfter⟩
      refine ⟨node, found, ?_⟩
      rcases induction with rfl | ⟨parent, isParent, under⟩
      · exact .child isChild
      · apply under.snoc
        rwa [(holds.sound _ parent isParent).sameKey]

/-- The walk meets the nodes of the state and no others. -/
theorem Holds.mem_ordered (holds : Holds ops rga) (coherent : Coherent ops)
    {nodes : List (Node V)} (isOrdered : rga.ordered = some nodes) (node : Node V) :
    node ∈ nodes ↔ node ∈ rga.values := by
  rw [RGA.ordered, walk_eq] at isOrdered
  constructor
  · intro member
    obtain ⟨place, isChild⟩ := ((Forest.mem_walk isOrdered node).mp member).mem
    exact (mem_children.mp isChild).1
  · intro member
    apply (Forest.mem_walk isOrdered node).mpr
    have found := (holds.node_key member).2
    have describes := holds.sound _ node found
    rcases holds.under_root coherent (.node describes.member describes.grounded) with isRoot |
      ⟨node', found', under⟩
    · exact absurd isRoot (idKey_ne_root node.id)
    · rw [describes.isKey, found] at found'
      obtain rfl := Option.some.inj found'
      exact under

/-- The walk meets every key once. -/
theorem Holds.ordered_nodup (holds : Holds ops rga) (ranked : ∀ parent ∈ rga.values,
    ∀ child ∈ rga.values, child.after = parent.key → parent.id.c < child.id.c)
    {nodes : List (Node V)} (isOrdered : rga.ordered = some nodes) :
    (nodes.map Node.key).Nodup := by
  have areNodes : ∀ node ∈ nodes, node ∈ rga.values := walk_mem isOrdered
  rw [RGA.ordered, walk_eq] at isOrdered
  apply ((holds.wellFounded ranked).walk_nodup isOrdered).map_on
  intro node member node' member' same
  have found := (holds.node_key (areNodes node member)).2
  rw [same, (holds.node_key (areNodes node' member')).2] at found
  exact (Option.some.inj found).symm

end Order

/-! ## More operations -/

section Grown

variable {ops ops' : Set (Op V)} {rga rga' : RGA V}

/-- The same node; a deleted one stays deleted. -/
structure Node.Persists (node node' : Node V) : Prop where
  id : node'.id = node.id
  key : node'.key = node.key
  after : node'.after = node.after
  value : node'.value = node.value
  deleted : node.deleted = true → node'.deleted = true

theorem Holds.persists (holds : Holds ops rga) (holds' : Holds ops' rga')
    (coherent : Coherent ops') (grown : ops ⊆ ops') {node : Node V} (member : node ∈ rga.values) :
    ∃ node' ∈ rga'.values, node.Persists node' := by
  have found := (holds.node_key member).2
  have describes := holds.sound _ node found
  obtain ⟨node', found'⟩ := holds'.complete _ _ _ (grown describes.member)
    (describes.grounded.mono grown)
  have describes' := holds'.sound _ node' found'
  have sameId := idKey_injective describes'.isKey
  have member' := describes'.member
  rw [sameId] at member'
  obtain ⟨sameAfter, sameValue⟩ := coherent.unique _ _ _ _ _ member' (grown describes.member)
  have sameKey : node'.key = node.key := describes'.sameKey.trans describes.isKey
  refine ⟨node', mem_values.mpr ⟨_, found'⟩, sameId, sameKey, sameAfter, sameValue, ?_⟩
  intro isDeleted
  apply describes'.deleted.mpr
  rw [describes.isKey]
  exact grown (describes.deleted.mp isDeleted)

theorem Holds.children_sublist (holds : Holds ops rga) (holds' : Holds ops' rga')
    (coherent : Coherent ops') (grown : ops ⊆ ops') (place : Key) :
    ((rga.children place).map Node.key).Sublist ((rga'.children place).map Node.key) := by
  have keys : ∀ {ops : Set (Op V)} {rga : RGA V}, Holds ops rga →
      (rga.children place).map Node.key = ((rga.children place).map Node.id).map idKey := by
    intro ops rga holds
    rw [List.map_map]
    apply List.map_congr_left
    intro node member
    exact (holds.node_key (mem_children.mp member).1).1
  have sublist : ((rga.children place).map Node.id).Sublist ((rga'.children place).map Node.id) := by
    apply List.sublist_of_subperm_of_pairwise _ (children_sorted rga place)
      (children_sorted rga' place)
    apply List.subperm_of_subset
    · apply (holds.children_nodup place).map_on
      intro node member node' member' same
      obtain ⟨isKey, found⟩ := holds.node_key (mem_children.mp member).1
      obtain ⟨isKey', found'⟩ := holds.node_key (mem_children.mp member').1
      rw [isKey, same, ← isKey', found'] at found
      exact (Option.some.inj found).symm
    · intro id member
      obtain ⟨node, isChild, rfl⟩ := List.mem_map.mp member
      obtain ⟨isNode, isAfter⟩ := mem_children.mp isChild
      obtain ⟨node', isNode', persists⟩ := holds.persists holds' coherent grown isNode
      apply List.mem_map.mpr
      exact ⟨node', mem_children.mpr ⟨isNode', persists.after.trans isAfter⟩, persists.id⟩
  rw [keys holds, keys holds']
  exact sublist.map idKey

/-- More operations only add nodes to the walk. -/
theorem Holds.ordered_sublist (holds : Holds ops rga) (holds' : Holds ops' rga')
    (coherent : Coherent ops') (grown : ops ⊆ ops') {nodes nodes' : List (Node V)}
    (isOrdered : rga.ordered = some nodes) (isOrdered' : rga'.ordered = some nodes') :
    (nodes.map Node.key).Sublist (nodes'.map Node.key) := by
  rw [RGA.ordered, walk_eq] at isOrdered isOrdered'
  exact Forest.walk_sublist (holds.children_sublist holds' coherent grown) isOrdered isOrdered'

end Grown

end FoundationsLab.Crdt
