import FoundationsLab.Crdt.RgaEdits

/-! # Local edits show where they were made

An inserted element appears at its index: its node hangs on the visible node before
the index, or on the root, and is newer than every sibling there. A deleted element
disappears and the others stay where they are. -/

namespace FoundationsLab.Crdt

open Foundation

variable {V : Type}

/-! ## All runs -/

/-- The networks of the runs with edits at any index and deliveries in any order. -/
inductive Network.Runs : Network V → Prop
  | initial : Runs initial
  | step {network next : Network V} {action : Action V} (runs : Runs network)
      (stepped : network.step action = some next) : Runs next

theorem Network.Runs.of_run {actions : List (Action V)} : ∀ {network final : Network V},
    network.Runs → actions.foldlM Network.step network = some final → final.Runs := by
  induction actions with
  | nil =>
      intro network final runs ran
      cases ran
      exact runs
  | cons action actions induction =>
      intro network final runs ran
      rcases Option.bind_eq_some_iff.mp ran with ⟨next, stepped, ran⟩
      exact induction (runs.step stepped) ran

/-- Every insertion comes after the one that it hangs on, or was made past the end
and hangs on `undefined`. -/
def RankedOrLost (ops : Set (Op V)) : Prop :=
  ∀ id after value, .ins id after value ∈ ops →
    after = ROOT ∨ after = ⊥ ∨ ∃ before, after = idKey before ∧ before.c < id.c

structure Network.Usable (network : Network V) : Prop where
  consistent : network.Consistent
  ranked : RankedOrLost (opsOf network.produced)
  targets : ∀ key, .del key ∈ opsOf network.produced →
    ∃ id after value, .ins id after value ∈ opsOf network.produced ∧ key = idKey id

theorem Holds.ranked_of_lost {ops : Set (Op V)} {rga : RGA V} (holds : Holds ops rga)
    (ranked : RankedOrLost ops) : ∀ parent ∈ rga.values, ∀ child ∈ rga.values,
      child.after = parent.key → parent.id.c < child.id.c := by
  intro parent isParent child isChild isAfter
  have isKey := (holds.node_key isParent).1
  have describes := holds.sound _ child (holds.node_key isChild).2
  rcases ranked _ _ _ describes.member with isRoot | isLost | ⟨before, isBefore, less⟩
  · exact absurd (isKey.symm.trans (isAfter.symm.trans isRoot)) (idKey_ne_root parent.id)
  · have isBottom := isKey.symm.trans (isAfter.symm.trans isLost)
    cases isBottom
  · have same := idKey_injective (isKey.symm.trans (isAfter.symm.trans isBefore))
    rw [same]
    exact less

section Usable

variable {network : Network V}

theorem Network.Usable.values_ranked (usable : network.Usable) (id : JsString) :
    ∀ parent ∈ (network.replicas id).values, ∀ child ∈ (network.replicas id).values,
      child.after = parent.key → parent.id.c < child.id.c := by
  apply (usable.consistent.holds id).ranked_of_lost
  intro nodeId after value member
  exact usable.ranked nodeId after value (usable.consistent.known id member)

/-- The walk returns the nodes, each with its own key. -/
theorem Network.Usable.ordered (usable : network.Usable) (id : JsString) :
    ∃ nodes, (network.replicas id).ordered = some nodes ∧ (nodes.map Node.key).Nodup ∧
      ∀ node, node ∈ nodes ↔ node ∈ (network.replicas id).values := by
  have ranked := usable.values_ranked id
  have holds := usable.consistent.holds id
  rcases ordered_total ranked with ⟨nodes, isOrdered⟩
  exact ⟨nodes, isOrdered, holds.ordered_nodup ranked isOrdered,
    holds.mem_ordered (usable.consistent.coherent_applied id) isOrdered⟩

/-- A node belongs to an insertion that the replica applied. -/
theorem Network.Consistent.node_inserted (consistent : network.Consistent) {id : JsString}
    {node : Node V} (member : node ∈ (network.replicas id).values) :
    node.key = idKey node.id ∧
      .ins node.id node.after node.value ∈ opsOf (network.applied id) := by
  have isNode := (consistent.holds id).node_key member
  exact ⟨isNode.1, ((consistent.holds id).sound _ node isNode.2).member⟩

theorem Network.Usable.visibleKeys (usable : network.Usable) (id : JsString) :
    ∃ keys, (network.replicas id).visibleKeys = some keys ∧ ∀ key ∈ keys,
      ∃ nodeId after value, key = idKey nodeId ∧
        .ins nodeId after value ∈ opsOf (network.applied id) := by
  rcases usable.ordered id with ⟨nodes, isOrdered, -, members⟩
  refine ⟨(nodes.filter fun node => !node.deleted).map Node.key, ?_, ?_⟩
  · rw [RGA.visibleKeys, RGA.visible, isOrdered]
    rfl
  · intro key member
    rcases List.mem_map.mp member with ⟨node, isVisible, rfl⟩
    have isNode := (members node).mp (List.mem_of_mem_filter isVisible)
    have inserted := usable.consistent.node_inserted isNode
    exact ⟨node.id, node.after, node.value, inserted.1, inserted.2⟩

/-! ## Steps -/

theorem Network.Usable.initial : (Network.initial : Network V).Usable where
  consistent := Network.Sound.initial.consistent
  ranked _ _ _ member := absurd member List.not_mem_nil
  targets _ member := absurd member List.not_mem_nil

theorem Network.Usable.insertAt (usable : network.Usable) (id : JsString) (index : Int)
    (value : V) : ∃ rga op, (network.replicas id).insertAt index value = some (rga, op) ∧
      (network.edit id rga op).Usable := by
  rcases usable.visibleKeys id with ⟨keys, isVisible, areKeys⟩
  obtain ⟨op, isOp⟩ : ∃ op : Op V, op = .ins ⟨(network.replicas id).clock + 1, id⟩
    (if index ≤ 0 then ROOT else RGA.elementAt keys (index - 1)) value := ⟨_, rfl⟩
  rcases usable.consistent.insertAt isVisible value isOp with ⟨rga, inserted, consistent⟩
  refine ⟨rga, op, inserted, consistent, ?_, ?_⟩
  · rw [Network.edit, opsOf_concat, isOp]
    rintro nodeId after value' (isNew | isOld)
    · obtain ⟨rfl, rfl, rfl⟩ := Op.ins.inj isNew
      by_cases isStart : index ≤ 0
      · exact .inl (if_pos isStart)
      · rw [if_neg isStart]
        by_cases isLost : RGA.elementAt keys (index - 1) = ⊥
        · exact .inr (.inl isLost)
        · rcases areKeys _ (elementAt_mem isLost) with ⟨before, after, value', isKey, isIns⟩
          have bound := (usable.consistent.holds id).clock _ _ _ isIns
          exact .inr (.inr ⟨before, isKey, Nat.lt_succ_of_le bound⟩)
    · exact usable.ranked nodeId after value' isOld
  · rw [Network.edit, opsOf_concat, isOp]
    rintro key (isNew | isOld)
    · cases isNew
    · rcases usable.targets key isOld with ⟨nodeId, after, value', member, isKey⟩
      exact ⟨nodeId, after, value', .inr member, isKey⟩

theorem Network.Usable.deleteAt (usable : network.Usable) (id : JsString) {index : Int}
    {keys : List Key} (isVisible : (network.replicas id).visibleKeys = some keys)
    (inside : RGA.elementAt keys index ≠ ⊥) :
    ∃ rga, (network.replicas id).deleteAt index =
        some (rga, some (.del (RGA.elementAt keys index))) ∧
      (network.edit id rga (.del (RGA.elementAt keys index))).Usable := by
  rcases usable.visibleKeys id with ⟨keys', isVisible', areKeys⟩
  rw [isVisible] at isVisible'
  cases isVisible'
  rcases areKeys _ (elementAt_mem inside) with ⟨nodeId, after, value, isKey, isIns⟩
  rcases usable.consistent.deleteAt isVisible rfl inside (isKey ▸ idKey_ne_root nodeId)
    with ⟨rga, deleted, consistent⟩
  refine ⟨rga, deleted, consistent, ?_, ?_⟩
  · rw [Network.edit, opsOf_concat]
    rintro nodeId after value (isNew | isOld)
    · cases isNew
    · exact usable.ranked nodeId after value isOld
  · rw [Network.edit, opsOf_concat]
    rintro key (isNew | isOld)
    · rw [Op.del.inj isNew]
      exact ⟨nodeId, after, value, .inr (usable.consistent.known id isIns), isKey⟩
    · rcases usable.targets key isOld with ⟨nodeId, after, value', member, isKey⟩
      exact ⟨nodeId, after, value', .inr member, isKey⟩

theorem step_usable (usable : network.Usable) {action : Action V} {next : Network V}
    (stepped : network.step action = some next) : next.Usable := by
  cases action with
  | insertAt id index value =>
      rcases usable.insertAt id index value with ⟨rga, op, inserted, usable'⟩
      rw [Network.step, inserted] at stepped
      cases stepped
      exact usable'
  | deleteAt id index =>
      rcases usable.visibleKeys id with ⟨keys, isVisible, -⟩
      by_cases inside : RGA.elementAt keys index = ⊥
      · have nothing : (network.replicas id).deleteAt index =
            some (network.replicas id, none) := by
          rw [RGA.deleteAt, isVisible]
          simp only [Option.bind_eq_bind, Option.bind_some, if_pos inside]
        rw [Network.step, nothing] at stepped
        cases stepped
        exact usable
      · rcases usable.deleteAt id isVisible inside with ⟨rga, deleted, usable'⟩
        rw [Network.step, deleted] at stepped
        cases stepped
        exact usable'
  | deliver id number =>
      rw [Network.step] at stepped
      cases found : network.produced[number]? with
      | none =>
          rw [found] at stepped
          cases stepped
          exact usable
      | some op =>
          rcases usable.consistent.deliver id (List.mem_of_getElem? found)
            with ⟨rga, isApplied, consistent⟩
          rw [found] at stepped
          simp only [isApplied] at stepped
          cases stepped
          exact ⟨consistent, usable.ranked, usable.targets⟩

theorem runs_usable (runs : network.Runs) : network.Usable := by
  induction runs with
  | initial => exact .initial
  | step _ stepped induction => exact step_usable induction stepped

end Usable

/-! ## The walk after an edit -/

section Walks

variable {ops ops' : Set (Op V)} {rga rga' : RGA V}

theorem before_id {node node' : Node V} (before : node.id.Before node'.id)
    (before' : node'.id.Before node.id) : node.id = node'.id :=
  Std.Antisymm.antisymm _ _ before before'

/-- The children of a place are the only sorted list of its nodes. -/
theorem Holds.children_eq (holds : Holds ops rga) {place : Key} {nodes : List (Node V)}
    (perm : (rga.values.filter (·.after = place)).Perm nodes)
    (sorted : (nodes.map Node.id).Pairwise NodeId.Before) : rga.children place = nodes := by
  have isPerm : (rga.children place).Perm nodes := (List.mergeSort_perm _ _).trans perm
  refine isPerm.eq_of_pairwise ?_ (List.pairwise_map.mp (children_sorted rga place))
    (List.pairwise_map.mp sorted)
  intro node node' member member' before before'
  have isNode := (holds.node_key (mem_children.mp member).1)
  have isNode' := (holds.node_key (mem_children.mp (isPerm.mem_iff.mpr member')).1)
  have same := before_id before before'
  have found := isNode'.2
  rw [isNode'.1, ← same, ← isNode.1, isNode.2] at found
  exact Option.some.inj found

/-- A node that is newer than all others becomes the first child of its place. -/
theorem Holds.sprouts (holds : Holds ops rga) (holds' : Holds ops' rga') {node : Node V}
    (isNodes : rga'.nodes = rga.nodes.put (idKey node.id) node) (isKey : node.key = idKey node.id)
    (absent : rga.nodes.get (idKey node.id) = none)
    (newest : ∀ other ∈ rga.values, other.id.c < node.id.c)
    (bare : ∀ other ∈ rga.values, other.after ≠ idKey node.id)
    (different : node.after ≠ idKey node.id) :
    Forest.Sprouts Node.key rga.children rga'.children node.after node := by
  have perm : rga'.values.Perm (node :: rga.values) := by
    rw [RGA.values, isNodes, SortedMap.put_entries, RGA.values]
    exact (putEntry_perm node absent).map Prod.snd
  constructor
  · apply holds'.children_eq
    · refine (perm.filter _).trans ?_
      rw [List.filter_cons_of_pos (by simp)]
      exact (List.mergeSort_perm _ _).symm.cons node
    · rw [List.map_cons, List.pairwise_cons]
      constructor
      · intro id member
        rcases List.mem_map.mp member with ⟨other, isChild, rfl⟩
        exact .inl (newest other (mem_children.mp isChild).1)
      · exact children_sorted rga node.after
  · intro place elsewhere
    apply holds'.children_eq
    · refine (perm.filter _).trans ?_
      rw [List.filter_cons_of_neg (by simpa using Ne.symm elsewhere)]
      exact (List.mergeSort_perm _ _).symm
    · exact children_sorted rga place
  · rw [isKey]
    apply List.eq_nil_iff_forall_not_mem.mpr
    intro other member
    have isChild := mem_children.mp member
    exact bare other isChild.1 isChild.2
  · rw [isKey]
    exact Ne.symm different

/-- A node with a tombstone, or unchanged. -/
def Node.mark (key : Key) (node : Node V) : Node V :=
  if node.key = key then { node with deleted := true } else node

theorem Node.mark_key (key : Key) (node : Node V) : (node.mark key).key = node.key := by
  rw [Node.mark]
  split <;> rfl

theorem Node.mark_id (key : Key) (node : Node V) : (node.mark key).id = node.id := by
  rw [Node.mark]
  split <;> rfl

theorem Node.mark_after (key : Key) (node : Node V) : (node.mark key).after = node.after := by
  rw [Node.mark]
  split <;> rfl

theorem cmpNodes_mark (key : Key) (node node' : Node V) :
    cmpNodes (node.mark key) (node'.mark key) = cmpNodes node node' := by
  rw [cmpNodes, cmpNodes, Node.mark_id, Node.mark_id]

/-- A deletion marks one node. -/
theorem Holds.children_mark (holds : Holds ops rga) {key : Key} {node : Node V}
    (found : rga.nodes.get key = some node)
    (isNodes : rga'.nodes = rga.nodes.put key { node with deleted := true }) (place : Key) :
    rga'.children place = (rga.children place).map (Node.mark key) := by
  have present : (rga.nodes.get key).isSome := by
    rw [found]
    rfl
  have values : rga'.values = rga.values.map (Node.mark key) := by
    rw [RGA.values, isNodes, SortedMap.put_entries, putEntry_eq_map _ rga.nodes.ascending present,
      RGA.values, List.map_map, List.map_map]
    apply List.map_congr_left
    intro entry member
    have isEntry := SortedMap.get_of_mem member
    have sameKey := (holds.sound entry.1 entry.2 isEntry).sameKey
    rw [Function.comp_apply, Function.comp_apply, Node.mark]
    by_cases same : entry.1 = key
    · rw [same, found] at isEntry
      rw [if_pos same, if_pos (sameKey.trans same), ← Option.some.inj isEntry]
    · rw [if_neg same, if_neg fun isKey => same (sameKey.symm.trans isKey)]
  have filtered : rga'.values.filter (·.after = place) =
      (rga.values.filter (·.after = place)).map (Node.mark key) := by
    rw [values, List.filter_map]
    apply congrArg
    apply List.filter_congr
    intro other _
    rw [Function.comp_apply, Node.mark_after]
  rw [RGA.children, filtered, RGA.children, List.map_mergeSort]
  intro first _ second _
  rw [cmpNodes_mark]

end Walks

/-! ## What the edits show -/

/-- An element that a filter keeps splits the list where it stands. -/
theorem exists_split_of_filter {α : Type} {keep : α → Bool} {items : List α} {index : Nat}
    {item : α} (found : (items.filter keep)[index]? = some item) :
    ∃ front back, items = front ++ item :: back ∧ keep item = true ∧
      (front.filter keep).length = index := by
  induction items generalizing index with
  | nil => simp at found
  | cons head rest induction =>
      by_cases kept : keep head = true
      · rw [List.filter_cons_of_pos kept] at found
        cases index with
        | zero =>
            cases found
            exact ⟨[], rest, rfl, kept, rfl⟩
        | succ index =>
            rcases induction found with ⟨front, back, rfl, isKept, count⟩
            refine ⟨head :: front, back, rfl, isKept, ?_⟩
            rw [List.filter_cons_of_pos kept, List.length_cons, count]
      · rw [List.filter_cons_of_neg kept] at found
        rcases induction found with ⟨front, back, rfl, isKept, count⟩
        refine ⟨head :: front, back, rfl, isKept, ?_⟩
        rw [List.filter_cons_of_neg kept, count]

theorem filter_shown {node : Node V} (shown : node.deleted = false) (rest : List (Node V)) :
    (node :: rest).filter (fun node => !node.deleted) =
      node :: rest.filter fun node => !node.deleted := by
  simp [shown]

theorem filter_hidden {node : Node V} (hidden : node.deleted = true) (rest : List (Node V)) :
    (node :: rest).filter (fun node => !node.deleted) =
      rest.filter fun node => !node.deleted := by
  simp [hidden]

theorem insertIdx_append {α : Type} (front back : List α) (item : α) :
    (front ++ back).insertIdx front.length item = front ++ item :: back := by
  induction front with
  | nil => rfl
  | cons head rest induction => exact congrArg (head :: ·) induction

theorem eraseIdx_append {α : Type} (front back : List α) (item : α) :
    (front ++ item :: back).eraseIdx front.length = front ++ back := by
  induction front with
  | nil => rfl
  | cons head rest induction => exact congrArg (head :: ·) induction

section Edits

variable {rga rga' : RGA V}

theorem toArray_of_ordered {nodes : List (Node V)} (isOrdered : rga.ordered = some nodes) :
    rga.toArray = some ((nodes.filter fun node => !node.deleted).map Node.value) := by
  rw [RGA.toArray, RGA.visible, isOrdered]
  rfl

theorem visibleKeys_of_ordered {nodes : List (Node V)} (isOrdered : rga.ordered = some nodes) :
    rga.visibleKeys = some ((nodes.filter fun node => !node.deleted).map Node.key) := by
  rw [RGA.visibleKeys, RGA.visible, isOrdered]
  rfl

/-- The insertion of a new node that can be placed and that nothing waits for. -/
theorem apply_insert {clock : Nat} {id : NodeId} {after : Key} {value : V}
    (absent : rga.nodes.get (idKey id) = none)
    (placed : after = ROOT ∨ rga.nodes.containsKey after = true)
    (noWaiting : rga.pending.get (idKey id) = none)
    (applied : RGA.apply { rga with clock := clock } (.ins id after value) = some rga') :
    rga'.nodes = rga.nodes.put (idKey id) ⟨id, idKey id, after, value, false⟩ := by
  have missing := (SortedMap.containsKey_eq_false rga.nodes (idKey id)).mpr absent
  have ready : ¬(after ≠ ROOT ∧ rga.nodes.containsKey after = false) := by
    rintro ⟨notRoot, notThere⟩
    rcases placed with isRoot | isThere
    · exact notRoot isRoot
    · rw [isThere] at notThere
      cases notThere
  rw [RGA.apply, RGA.applyLoop] at applied
  simp only [missing, Bool.false_eq_true, if_false, if_neg ready, noWaiting] at applied
  cases applied
  rfl

theorem apply_delete {key : Key} {node : Node V} (found : rga.nodes.get key = some node)
    (applied : rga.apply (.del key) = some rga') :
    rga'.nodes = rga.nodes.put key { node with deleted := true } := by
  rw [RGA.apply, RGA.applyLoop] at applied
  simp only [found] at applied
  cases applied
  rfl

end Edits

section Shows

variable {network : Network V}

/-- The id that a replica gives out next has no node, nothing hangs on it, and
nothing waits for it. -/
theorem Network.Usable.next_free (usable : network.Usable) (id : JsString) :
    (network.replicas id).nodes.get (idKey (network.replicas id).nextId) = none ∧
      (network.replicas id).pending.get (idKey (network.replicas id).nextId) = none ∧
      ∀ node ∈ (network.replicas id).values,
        node.after ≠ idKey (network.replicas id).nextId := by
  obtain ⟨newId, isNewId⟩ : ∃ newId, newId = (network.replicas id).nextId := ⟨_, rfl⟩
  have holds := usable.consistent.holds id
  have count : newId.c = (network.replicas id).clock + 1 := by
    rw [isNewId]
    rfl
  have isOwn : newId.r = id := by
    rw [isNewId]
    exact usable.consistent.ids id
  rw [← isNewId]
  have notInserted : ∀ after value, .ins newId after value ∉ network.produced := by
    intro after value member
    have bound := usable.consistent.own newId after value member
    rw [isOwn] at bound
    omega
  -- What hangs on the new id would be newer still.
  have notAfter : ∀ other value,
      .ins other (idKey newId) value ∉ opsOf (network.applied id) := by
    intro other value member
    have bound := holds.clock other _ _ member
    rcases usable.ranked _ _ _ (usable.consistent.known id member) with isRoot | isLost |
      ⟨before, isBefore, less⟩
    · exact idKey_ne_root newId isRoot
    · cases isLost
    · have same := idKey_injective isBefore
      rw [← same] at less
      omega
  refine ⟨?_, ?_, ?_⟩
  · apply Option.eq_none_iff_forall_not_mem.mpr
    intro node found
    have describes := holds.sound _ node found
    have member := usable.consistent.known id describes.member
    rw [idKey_injective describes.isKey] at member
    exact notInserted _ _ member
  · cases waiting : (network.replicas id).pending.get (idKey newId) with
    | none => rfl
    | some waits =>
        exfalso
        rcases List.exists_mem_of_ne_nil waits fun isEmpty =>
          holds.nonempty (idKey newId) (isEmpty ▸ waiting) with ⟨op, member⟩
        rcases (holds.waits (idKey newId) op).mp (by rw [waiting]; exact member) with
          ⟨isApplied, depends, -⟩
        cases op with
        | ins other after value =>
            have isAfter : after = idKey newId := depends
            rw [isAfter] at isApplied
            exact notAfter other value isApplied
        | del target =>
            rcases usable.targets target (usable.consistent.known id isApplied) with
              ⟨deleted, after, value, isIns, isKey⟩
            have same := idKey_injective (isKey.symm.trans depends)
            rw [same] at isIns
            exact notInserted after value isIns
  · intro node member isAfter
    have inserted := (usable.consistent.node_inserted member).2
    rw [isAfter] at inserted
    exact notAfter node.id node.value inserted

/-- The walk after a local insertion that hangs on the root or on a node. -/
theorem Network.Usable.ordered_insertAt (usable : network.Usable) {id : JsString}
    {nodes : List (Node V)} (isOrdered : (network.replicas id).ordered = some nodes)
    {index : Int} {value : V} {after : Key}
    (isAfter : RGA.predecessor ((nodes.filter fun node => !node.deleted).map Node.key) index = after)
    (placed : after = ROOT ∨ (network.replicas id).nodes.containsKey after = true) :
    ∃ rga op leaf, (network.replicas id).insertAt index value = some (rga, op) ∧
      leaf.value = value ∧ leaf.deleted = false ∧
      rga.ordered = some ((if ROOT = after then [leaf] else []) ++
        Forest.sprout Node.key after leaf nodes) := by
  rcases usable.insertAt id index value with ⟨rga, op, inserted, usable'⟩
  have holds := usable.consistent.holds id
  have holds' := usable'.consistent.holds id
  rcases usable'.ordered id with ⟨nodes', isOrdered', -, -⟩
  rw [edit_replicas] at isOrdered' holds'
  have isInsertion := inserted
  rw [insertAt_eq (visibleKeys_of_ordered isOrdered), isAfter] at isInsertion
  rcases Option.map_eq_some_iff.mp isInsertion with ⟨next, isApplied, isResult⟩
  cases isResult
  rcases usable.next_free id with ⟨absent, noWaiting, bare⟩
  have isNodes := apply_insert absent placed noWaiting isApplied
  have newest : ∀ node ∈ (network.replicas id).values,
      node.id.c < (network.replicas id).nextId.c := by
    intro node member
    exact Nat.lt_succ_of_le
      (holds.clock _ _ _ (usable.consistent.node_inserted member).2)
  have different : after ≠ idKey (network.replicas id).nextId := by
    rintro rfl
    rcases placed with isRoot | isThere
    · exact idKey_ne_root _ isRoot
    · rw [(SortedMap.containsKey_eq_false _ _).mpr absent] at isThere
      cases isThere
  obtain ⟨leaf, isLeaf⟩ : ∃ leaf : Node V, leaf = ⟨(network.replicas id).nextId,
    idKey (network.replicas id).nextId, after, value, false⟩ := ⟨_, rfl⟩
  have leafId : (network.replicas id).nextId = leaf.id := by rw [isLeaf]
  have leafAfter : after = leaf.after := by rw [isLeaf]
  rw [← isLeaf, leafId] at isNodes
  rw [leafId] at absent bare newest different
  rw [leafAfter] at different
  have leafKey : leaf.key = idKey leaf.id := by rw [isLeaf]
  have sprouts := holds.sprouts holds' isNodes leafKey absent newest bare different
  rw [RGA.ordered, walk_eq] at isOrdered isOrdered'
  have walked := Forest.walk_sprout sprouts isOrdered isOrdered'
  rw [← leafAfter] at walked
  refine ⟨rga, _, leaf, inserted, by rw [isLeaf], by rw [isLeaf], ?_⟩
  rw [RGA.ordered, walk_eq, isOrdered', walked]

/-- The walk after a local deletion. -/
theorem Network.Usable.ordered_deleteAt (usable : network.Usable) {id : JsString}
    {nodes : List (Node V)} (isOrdered : (network.replicas id).ordered = some nodes) {index : Nat}
    {node : Node V} (found : (nodes.filter fun node => !node.deleted)[index]? = some node) :
    ∃ rga op, (network.replicas id).deleteAt index = some (rga, some op) ∧
      rga.ordered = some (nodes.map (Node.mark node.key)) := by
  have isVisible := visibleKeys_of_ordered isOrdered
  have isElement : RGA.elementAt ((nodes.filter fun node => !node.deleted).map Node.key) index =
      node.key := by
    rw [RGA.elementAt, if_pos (Int.natCast_nonneg index), Int.toNat_natCast, List.getD_eq_getElem?_getD,
      List.getElem?_map, found]
    rfl
  have isNode : node ∈ (network.replicas id).values :=
    walk_mem isOrdered node (List.mem_of_mem_filter (List.mem_of_getElem? found))
  have atKey := (usable.consistent.holds id).node_key isNode
  have inside : RGA.elementAt ((nodes.filter fun node => !node.deleted).map Node.key) index ≠ ⊥ := by
    rw [isElement, atKey.1]
    exact WithBot.coe_ne_bot
  rcases usable.deleteAt id isVisible inside with ⟨rga, deleted, usable'⟩
  rw [isElement] at deleted
  rcases usable'.ordered id with ⟨nodes', isOrdered', -, -⟩
  rw [edit_replicas] at isOrdered'
  have isDeletion := deleted
  rw [RGA.deleteAt, isVisible] at isDeletion
  simp only [Option.bind_eq_bind, Option.bind_some, if_neg inside] at isDeletion
  rcases Option.bind_eq_some_iff.mp isDeletion with ⟨applied, isApplied, isResult⟩
  rw [isElement] at isApplied isResult
  cases isResult
  have isNodes := apply_delete atKey.2 isApplied
  have children := (usable.consistent.holds id).children_mark atKey.2 isNodes
  rw [RGA.ordered, walk_eq] at isOrdered isOrdered'
  have walked := Forest.walk_map (Node.mark_key node.key) children isOrdered isOrdered'
  refine ⟨rga, _, deleted, ?_⟩
  rw [RGA.ordered, walk_eq, isOrdered', walked]

/-- An insertion shows at its index. -/
theorem Network.Usable.insertAt_shows (usable : network.Usable) (id : JsString)
    {nodes : List (Node V)} (isOrdered : (network.replicas id).ordered = some nodes) {index : Nat}
    (inside : index ≤ (nodes.filter fun node => !node.deleted).length) (value : V) :
    ∃ rga op, (network.replicas id).insertAt index value = some (rga, op) ∧
      rga.toArray = some
        (((nodes.filter fun node => !node.deleted).map Node.value).insertIdx index value) := by
  have holds := usable.consistent.holds id
  cases index with
  | zero =>
      have isAfter : RGA.predecessor ((nodes.filter fun node => !node.deleted).map Node.key)
          (0 : Nat) = ROOT := if_pos (le_refl _)
      rcases usable.ordered_insertAt isOrdered isAfter (.inl rfl) with
        ⟨rga, op, leaf, inserted, isValue, notDeleted, isOrdered'⟩
      -- No node has the key of the root.
      have absent : ∀ node ∈ nodes, node.key ≠ ROOT := by
        intro node member
        rw [(holds.node_key (walk_mem isOrdered node member)).1]
        exact idKey_ne_root node.id
      rw [if_pos rfl, Forest.sprout_of_absent absent] at isOrdered'
      refine ⟨rga, op, inserted, ?_⟩
      rw [toArray_of_ordered isOrdered', List.singleton_append, filter_shown notDeleted,
        List.map_cons, isValue]
      rfl
  | succ index =>
      obtain ⟨node, found⟩ : ∃ node,
          (nodes.filter fun node => !node.deleted)[index]? = some node :=
        ⟨_, List.getElem?_eq_getElem inside⟩
      rcases usable.ordered id with ⟨nodes', isOrdered', nodup, -⟩
      rw [isOrdered] at isOrdered'
      cases isOrdered'
      rcases exists_split_of_filter found with ⟨front, back, rfl, isKept, count⟩
      have isNode : node ∈ (network.replicas id).values :=
        walk_mem isOrdered node (List.mem_append_right _ List.mem_cons_self)
      have atKey := holds.node_key isNode
      have isAfter : RGA.predecessor (((front ++ node :: back).filter
          fun node => !node.deleted).map Node.key) (index + 1 : Nat) = node.key := by
        rw [RGA.predecessor, if_neg (by omega), RGA.elementAt, if_pos (by omega),
          List.getD_eq_getElem?_getD, List.getElem?_map]
        have position : ((index + 1 : Nat) - 1 : Int).toNat = index := by omega
        rw [position, found]
        rfl
      have placed : (network.replicas id).nodes.containsKey node.key = true :=
        (SortedMap.containsKey_iff _ _).mpr ⟨node, atKey.2⟩
      rcases usable.ordered_insertAt isOrdered isAfter (.inr placed) with
        ⟨rga, op, leaf, inserted, isValue, notDeleted, isOrdered'⟩
      have notRoot : ROOT ≠ node.key := by
        rw [atKey.1]
        exact Ne.symm (idKey_ne_root node.id)
      rw [if_neg notRoot, List.nil_append, Forest.sprout_of_nodup nodup] at isOrdered'
      have isShown : node.deleted = false := by simpa using isKept
      have before : ((front ++ node :: back).filter fun node => !node.deleted) =
          (front.filter (fun node => !node.deleted) ++ [node]) ++
            back.filter fun node => !node.deleted := by
        rw [List.filter_append, filter_shown isShown, List.append_assoc]
        rfl
      have after : ((front ++ node :: leaf :: back).filter fun node => !node.deleted) =
          (front.filter (fun node => !node.deleted) ++ [node]) ++
            leaf :: back.filter fun node => !node.deleted := by
        rw [List.filter_append, filter_shown isShown, filter_shown notDeleted, List.append_assoc]
        rfl
      refine ⟨rga, op, inserted, ?_⟩
      have place : index + 1 =
          ((front.filter (fun node => !node.deleted) ++ [node]).map Node.value).length := by
        rw [List.length_map, List.length_append, count]
        rfl
      rw [toArray_of_ordered isOrdered', before, after, place]
      obtain ⟨start, isStart⟩ : ∃ start, start =
        front.filter (fun node => !node.deleted) ++ [node] := ⟨_, rfl⟩
      rw [← isStart, List.map_append, List.map_append, insertIdx_append, List.map_cons, isValue]

/-- A deletion takes one element away. -/
theorem Network.Usable.deleteAt_shows (usable : network.Usable) (id : JsString)
    {nodes : List (Node V)} (isOrdered : (network.replicas id).ordered = some nodes) {index : Nat}
    (inside : index < (nodes.filter fun node => !node.deleted).length) :
    ∃ rga op, (network.replicas id).deleteAt index = some (rga, some op) ∧
      rga.toArray = some
        (((nodes.filter fun node => !node.deleted).map Node.value).eraseIdx index) := by
  obtain ⟨node, found⟩ : ∃ node,
      (nodes.filter fun node => !node.deleted)[index]? = some node :=
    ⟨_, List.getElem?_eq_getElem inside⟩
  rcases usable.ordered id with ⟨nodes', isOrdered', nodup, -⟩
  rw [isOrdered] at isOrdered'
  cases isOrdered'
  rcases usable.ordered_deleteAt isOrdered found with ⟨rga, op, deleted, isOrdered'⟩
  rcases exists_split_of_filter found with ⟨front, back, rfl, isKept, count⟩
  rw [List.map_append, List.map_cons, List.nodup_append, List.nodup_cons] at nodup
  rcases nodup with ⟨-, ⟨notBack, -⟩, apart⟩
  -- The other nodes have other keys, and are not marked.
  have unmarked : ∀ others : List (Node V), (∀ other ∈ others, other.key ≠ node.key) →
      others.map (Node.mark node.key) = others := by
    intro others different
    refine (List.map_congr_left (g := fun other => other) ?_).trans (List.map_id' _)
    intro other member
    exact if_neg (different other member)
  have inFront : front.map (Node.mark node.key) = front :=
    unmarked front fun other member => apart _ (List.mem_map_of_mem member) _ List.mem_cons_self
  have inBack : back.map (Node.mark node.key) = back :=
    unmarked back fun other member same => notBack (same ▸ List.mem_map_of_mem member)
  have isShown : node.deleted = false := by simpa using isKept
  have isHidden : (node.mark node.key).deleted = true := by
    rw [Node.mark, if_pos rfl]
  have before : ((front ++ node :: back).filter fun node => !node.deleted) =
      front.filter (fun node => !node.deleted) ++ node :: back.filter fun node => !node.deleted := by
    rw [List.filter_append, filter_shown isShown]
  have after : (((front ++ node :: back).map (Node.mark node.key)).filter
      fun node => !node.deleted) =
      front.filter (fun node => !node.deleted) ++ back.filter fun node => !node.deleted := by
    rw [List.map_append, List.map_cons, inFront, inBack, List.filter_append,
      filter_hidden isHidden]
  have place : index = ((front.filter fun node => !node.deleted).map Node.value).length := by
    rw [List.length_map, count]
  refine ⟨rga, op, deleted, ?_⟩
  rw [toArray_of_ordered isOrdered', before, after, List.map_append, List.map_append,
    List.map_cons, place, eraseIdx_append]

/-- In every network that edits at any index and deliveries in any order lead to, a
local insertion at an index up to the length shows its value there, and a local
deletion below the length takes that element away. -/
theorem local_edits_show_where_made (runs : network.Runs) (id : JsString) :
    ∃ array, (network.replicas id).toArray = some array ∧
      (∀ index ≤ array.length, ∀ value, ∃ rga op,
        (network.replicas id).insertAt index value = some (rga, op) ∧
          rga.toArray = some (array.insertIdx index value)) ∧
      ∀ index < array.length, ∃ rga op,
        (network.replicas id).deleteAt index = some (rga, some op) ∧
          rga.toArray = some (array.eraseIdx index) := by
  have usable := runs_usable runs
  rcases usable.ordered id with ⟨nodes, isOrdered, -, -⟩
  refine ⟨_, toArray_of_ordered isOrdered, ?_, ?_⟩
  · intro index inside value
    rw [List.length_map] at inside
    exact usable.insertAt_shows id isOrdered inside value
  · intro index inside
    rw [List.length_map] at inside
    exact usable.deleteAt_shows id isOrdered inside

end Shows

/-- Two replicas hear of each other, and one of them inserts past the end. -/
theorem local_edits_show_where_made_crossed : ∃ network later : Network Nat,
    crossedActions.foldlM Network.step Network.initial = some network ∧
      network.step (.insertAt [0x61] 7 30) = some later ∧
      ∃ array, (later.replicas [0x61]).toArray = some array ∧
        (∀ index ≤ array.length, ∀ value, ∃ rga op,
          (later.replicas [0x61]).insertAt index value = some (rga, op) ∧
            rga.toArray = some (array.insertIdx index value)) ∧
        ∀ index < array.length, ∃ rga op,
          (later.replicas [0x61]).deleteAt index = some (rga, some op) ∧
            rga.toArray = some (array.eraseIdx index) := by
  have evaluated : (crossedActions.foldlM Network.step
      (Network.initial : Network Nat)).isSome = true := by decide +kernel
  rcases Option.isSome_iff_exists.mp evaluated with ⟨network, ran⟩
  have runs : network.Runs := Network.Runs.of_run .initial ran
  rcases (runs_usable runs).insertAt [0x61] 7 30 with ⟨rga, op, inserted, -⟩
  have stepped : network.step (.insertAt [0x61] 7 30) = some (network.edit [0x61] rga op) := by
    rw [Network.step, inserted]
    rfl
  exact ⟨network, _, ran, stepped, local_edits_show_where_made (runs.step stepped) [0x61]⟩

end FoundationsLab.Crdt
