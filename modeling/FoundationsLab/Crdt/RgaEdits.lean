import FoundationsLab.Crdt.RgaStable

/-! # Local edits

A local insertion hangs on a visible node, unless its index is past the end: then it
hangs on `undefined`, which never comes. In a run without such an insertion every edit
shows at once, and nothing waits where everything has arrived. -/

namespace FoundationsLab.Crdt

open Foundation

variable {V : Type}

/-! ## What an edit produces -/

/-- The node that an insertion goes after. -/
def RGA.predecessor (keys : List Key) (index : Int) : Key :=
  if index ≤ 0 then ROOT else elementAt keys (index - 1)

theorem predecessor_eq_bot {keys : List Key} {index : Int} (past : keys.length < index) :
    RGA.predecessor keys index = ⊥ := by
  rw [RGA.predecessor, if_neg (by omega), RGA.elementAt, if_pos (by omega)]
  exact List.getD_eq_default _ _ (by omega)

theorem predecessor_mem {keys : List Key} {index : Int} (inRange : index ≤ keys.length) :
    RGA.predecessor keys index = ROOT ∨ RGA.predecessor keys index ∈ keys := by
  rw [RGA.predecessor]
  split
  · exact .inl rfl
  · exact .inr (elementAt_mem_of_lt keys (by omega) (by omega))

/-- The id that a replica gives out next. -/
def RGA.nextId (rga : RGA V) : NodeId := ⟨rga.clock + 1, rga.replicaId⟩

theorem insertAt_eq {rga : RGA V} {keys : List Key} (isVisible : rga.visibleKeys = some keys)
    (index : Int) (value : V) : rga.insertAt index value =
      (RGA.apply { rga with clock := rga.clock + 1 }
        (.ins rga.nextId (RGA.predecessor keys index) value)).map
        fun next => (next, .ins rga.nextId (RGA.predecessor keys index) value) := by
  rw [RGA.insertAt, isVisible, Option.map_eq_bind]
  rfl

/-- A negative index is taken for zero. -/
theorem insertAt_nonpos (rga : RGA V) {index : Int} (nonpos : index ≤ 0) (value : V) :
    rga.insertAt index value = rga.insertAt 0 value := by
  rw [RGA.insertAt, RGA.insertAt]
  simp only [if_pos nonpos, le_refl, if_true]

theorem deleteAt_op {rga rga' : RGA V} {keys : List Key} {index : Int} {op : Op V}
    (isVisible : rga.visibleKeys = some keys)
    (deleted : rga.deleteAt index = some (rga', some op)) : ∃ key ∈ keys, op = .del key := by
  rw [RGA.deleteAt, isVisible] at deleted
  simp only [Option.bind_eq_bind, Option.bind_some] at deleted
  split at deleted
  · cases deleted
  · rename_i inside
    obtain ⟨next, -, isNext⟩ := Option.bind_eq_some_iff.mp deleted
    obtain ⟨-, isOp⟩ := Prod.mk.inj (Option.some.inj isNext)
    exact ⟨_, elementAt_mem inside, (Option.some.inj isOp).symm⟩

/-! ## Runs -/

namespace Network

/-- An insertion is not past the end of what its replica sees; it may be negative. -/
def InRange (network : Network V) : Action V → Prop
  | .insertAt id index _ =>
      ∀ keys, (network.replicas id).visibleKeys = some keys → index ≤ keys.length
  | _ => True

/-- The networks of the runs whose insertions are in range. -/
inductive Reaches : Network V → Prop
  | initial : Reaches initial
  | step {network next : Network V} {action : Action V} (reaches : Reaches network)
      (inRange : network.InRange action) (stepped : network.step action = some next) :
      Reaches next

theorem Reaches.reachable {network : Network V} (reaches : network.Reaches) :
    network.Reachable := by
  induction reaches with
  | initial => exact .initial
  | @step network next action _ inRange stepped induction =>
      cases action with
      | insertAt id index value =>
          by_cases nonpos : index ≤ 0
          · have allowed : network.Allowed (.insertAt id 0 value) :=
              ⟨le_rfl, fun keys _ => Int.natCast_nonneg _⟩
            apply induction.step allowed
            rw [Network.step, insertAt_nonpos _ nonpos] at stepped
            exact stepped
          · have allowed : network.Allowed (.insertAt id index value) := ⟨by omega, inRange⟩
            exact induction.step allowed stepped
      | deleteAt id index =>
          have allowed : network.Allowed (.deleteAt id index) := trivial
          exact induction.step allowed stepped
      | deliver id number =>
          have allowed : network.Allowed (.deliver id number) := trivial
          exact induction.step allowed stepped

/-- Actions that are in range everywhere lead to networks of these runs. -/
theorem Reaches.run {actions : List (Action V)}
    (free : ∀ action ∈ actions, ∀ network : Network V, network.InRange action) :
    ∀ {network final : Network V}, network.Reaches →
      actions.foldlM Network.step network = some final → final.Reaches := by
  induction actions with
  | nil =>
      intro network final reaches ran
      obtain rfl := Option.some.inj ran
      exact reaches
  | cons action actions induction =>
      intro network final reaches ran
      obtain ⟨next, stepped, ran⟩ := Option.bind_eq_some_iff.mp ran
      exact induction (fun other member => free other (.tail _ member))
        (reaches.step (free action List.mem_cons_self network) stepped) ran

end Network

/-! ## Every operation hangs on an earlier one -/

namespace Op

/-- The node that is inserted, with its value. -/
def inserted : Op V → Option (NodeId × V)
  | ins id _ value => some (id, value)
  | del _ => none

def deletes (key : Key) : Op V → Bool
  | ins _ _ _ => false
  | del target => target = key

end Op

theorem mem_inserted {ops : List (Op V)} {id : NodeId} {value : V} :
    (id, value) ∈ ops.filterMap Op.inserted ↔ ∃ after, .ins id after value ∈ opsOf ops := by
  rw [List.mem_filterMap]
  constructor
  · rintro ⟨op, member, isInserted⟩
    cases op with
    | ins id' after value' =>
        obtain ⟨rfl, rfl⟩ := Prod.mk.inj (Option.some.inj isInserted)
        exact ⟨after, member⟩
    | del target => exact nomatch isInserted
  · rintro ⟨after, member⟩
    exact ⟨_, member, rfl⟩

theorem any_deletes {ops : List (Op V)} {key : Key} :
    ops.any (Op.deletes key) = true ↔ .del key ∈ opsOf ops := by
  rw [List.any_eq_true]
  constructor
  · rintro ⟨op, member, isDeletion⟩
    cases op with
    | ins id after value => exact nomatch isDeletion
    | del target =>
        obtain rfl : target = key := of_decide_eq_true isDeletion
        exact member
  · intro member
    exact ⟨_, member, decide_eq_true rfl⟩

theorem Satisfied.mono {ops ops' : Set (Op V)} (grown : ops ⊆ ops') {op : Op V}
    (satisfied : Satisfied ops op) : Satisfied ops' op := by
  rcases satisfied with isRoot | ⟨id, after, value, member, isKey⟩
  · exact .inl isRoot
  · exact .inr ⟨id, after, value, grown member, isKey⟩

/-- Operations depend on produced ones, and every id was inserted once. -/
structure Network.Traced (network : Network V) : Prop where
  satisfied : ∀ op ∈ network.produced, Satisfied (opsOf network.produced) op
  once : ((network.produced.filterMap Op.inserted).map Prod.fst).Nodup

section Traced

variable {network : Network V}

theorem Network.Traced.initial : (Network.initial : Network V).Traced where
  satisfied _ member := absurd member List.not_mem_nil
  once := List.nodup_nil

/-- Another operation that depends on a produced one. -/
theorem Network.Traced.edit (traced : network.Traced) {id : JsString} {rga : RGA V} {op : Op V}
    (satisfied : Satisfied (opsOf network.produced) op)
    (fresh : ∀ nodeId value, op.inserted = some (nodeId, value) →
      ∀ after value', .ins nodeId after value' ∉ network.produced) :
    (network.edit id rga op).Traced := by
  have grown : opsOf network.produced ⊆ opsOf (network.produced ++ [op]) := by
    rw [opsOf_concat]
    exact Set.subset_insert _ _
  constructor
  · intro other member
    rcases List.mem_append.mp member with isOld | isNew
    · exact (traced.satisfied other isOld).mono grown
    · rw [List.mem_singleton.mp isNew]
      exact satisfied.mono grown
  · rw [Network.edit, List.filterMap_append, List.map_append]
    cases isInserted : op.inserted with
    | none => simpa [isInserted] using traced.once
    | some entry =>
        obtain ⟨nodeId, value⟩ := entry
        simp only [List.filterMap_cons, isInserted, List.filterMap_nil, List.map_cons, List.map_nil]
        apply List.nodup_append.mpr
        refine ⟨traced.once, List.nodup_singleton _, ?_⟩
        rintro nodeId' member other isOther rfl
        rw [List.mem_singleton.mp isOther] at member
        obtain ⟨⟨oldId, value'⟩, isOld, same⟩ := List.mem_map.mp member
        obtain ⟨after, isIns⟩ := mem_inserted.mp isOld
        obtain rfl : oldId = nodeId := same
        exact fresh oldId value isInserted after value' isIns

/-- A visible key was inserted. -/
theorem Network.Sound.satisfied_of_visible (sound : network.Sound) {id : JsString}
    {keys : List Key} (isVisible : (network.replicas id).visibleKeys = some keys) {op : Op V}
    (depends : op.dependency = ROOT ∨ op.dependency ∈ keys) :
    Satisfied (opsOf network.produced) op := by
  refine depends.imp_right fun member => ?_
  obtain ⟨keys', isVisible', areKeys⟩ := sound.visibleKeys_total id
  obtain rfl := Option.some.inj (isVisible.symm.trans isVisible')
  obtain ⟨nodeId, after, value, isKey, isIns⟩ := areKeys _ member
  exact ⟨nodeId, after, value, sound.known id isIns, isKey.symm⟩

/-- The next id of a replica was not given out. -/
theorem Network.Sound.fresh (sound : network.Sound) (id : JsString) (after : Key) (value : V) :
    .ins (network.replicas id).nextId after value ∉ network.produced := by
  intro member
  have bound := sound.own _ _ _ member
  rw [RGA.nextId, sound.ids id] at bound
  dsimp only at bound
  omega

theorem step_traced (sound : network.Sound) (traced : network.Traced) {action : Action V}
    (inRange : network.InRange action) {next : Network V}
    (stepped : network.step action = some next) : next.Traced := by
  cases action with
  | insertAt id index value =>
      obtain ⟨keys, isVisible, -⟩ := sound.visibleKeys_total id
      obtain ⟨⟨rga, op⟩, inserted, stepped⟩ := Option.bind_eq_some_iff.mp stepped
      obtain rfl := Option.some.inj stepped
      rw [insertAt_eq isVisible] at inserted
      obtain ⟨rga', -, isResult⟩ := Option.map_eq_some_iff.mp inserted
      obtain ⟨rfl, rfl⟩ := Prod.mk.inj isResult
      apply traced.edit
      · exact sound.satisfied_of_visible isVisible (predecessor_mem (inRange keys isVisible))
      · intro nodeId value' isInserted after
        obtain ⟨rfl, -⟩ := Prod.mk.inj (Option.some.inj isInserted)
        exact sound.fresh id after
  | deleteAt id index =>
      obtain ⟨keys, isVisible, -⟩ := sound.visibleKeys_total id
      obtain ⟨⟨rga, edited⟩, deleted, stepped⟩ := Option.bind_eq_some_iff.mp stepped
      cases edited with
      | none =>
          obtain rfl := Option.some.inj stepped
          exact traced
      | some op =>
          obtain rfl := Option.some.inj stepped
          obtain ⟨key, member, rfl⟩ := deleteAt_op isVisible deleted
          apply traced.edit
          · exact sound.satisfied_of_visible isVisible (.inr member)
          · exact fun _ _ isInserted => nomatch isInserted
  | deliver id number =>
      rw [Network.step] at stepped
      cases found : network.produced[number]? with
      | none =>
          rw [found] at stepped
          obtain rfl := Option.some.inj stepped
          exact traced
      | some op =>
          rw [found] at stepped
          obtain ⟨rga, -, stepped⟩ := Option.bind_eq_some_iff.mp stepped
          obtain rfl := Option.some.inj stepped
          exact ⟨traced.satisfied, traced.once⟩

theorem reaches_traced (reaches : network.Reaches) : network.Traced := by
  induction reaches with
  | initial => exact .initial
  | step reaches inRange stepped induction =>
      exact step_traced (reachable_sound reaches.reachable) induction inRange stepped

end Traced

/-! ## What an insertion shows -/

section Shown

variable {ops : Set (Op V)} {rga : RGA V}

theorem Holds.mem_visibleKeys (holds : Holds ops rga) (coherent : Coherent ops) {keys : List Key}
    (isVisible : rga.visibleKeys = some keys) (id : NodeId) : idKey id ∈ keys ↔
      (∃ after value, .ins id after value ∈ ops ∧ Grounded ops after) ∧ .del (idKey id) ∉ ops := by
  obtain ⟨visible, areVisible, rfl⟩ := Option.map_eq_some_iff.mp isVisible
  obtain ⟨nodes, isOrdered, rfl⟩ := Option.map_eq_some_iff.mp areVisible
  rw [List.mem_map]
  constructor
  · rintro ⟨node, member, isKey⟩
    obtain ⟨member, notDeleted⟩ := List.mem_filter.mp member
    have isNode := (holds.mem_ordered coherent isOrdered node).mp member
    have describes := holds.sound _ node (holds.node_key isNode).2
    obtain rfl := idKey_injective (describes.isKey.trans isKey)
    refine ⟨⟨node.after, node.value, describes.member, describes.grounded⟩, fun isDel => ?_⟩
    rw [isKey.symm.trans rfl, ← describes.deleted] at isDel
    simp [isDel] at notDeleted
  · rintro ⟨⟨after, value, isIns, grounded⟩, notDel⟩
    obtain ⟨node, found⟩ := holds.complete id after value isIns grounded
    have describes := holds.sound _ node found
    refine ⟨node, List.mem_filter.mpr ⟨?_, ?_⟩, describes.sameKey⟩
    · exact (holds.mem_ordered coherent isOrdered node).mpr (mem_values.mpr ⟨_, found⟩)
    · cases isDeleted : node.deleted with
      | false => rfl
      | true => exact absurd (describes.deleted.mp isDeleted) notDel

end Shown

section Edits

variable {network : Network V}

/-- The visible keys are read off the nodes alone. -/
theorem visibleKeys_congr {rga rga' : RGA V} (same : rga.nodes = rga'.nodes) :
    rga.visibleKeys = rga'.visibleKeys := by
  rw [RGA.visibleKeys, RGA.visibleKeys, RGA.visible, RGA.visible, ordered_congr same]

theorem Network.Sound.visible_grounded (sound : network.Sound) {id : JsString} {keys : List Key}
    (isVisible : (network.replicas id).visibleKeys = some keys) {key : Key} (member : key ∈ keys) :
    Grounded (opsOf (network.applied id)) key := by
  obtain ⟨keys', isVisible', areKeys⟩ := sound.visibleKeys_total id
  obtain rfl := Option.some.inj (isVisible.symm.trans isVisible')
  obtain ⟨nodeId, -, -, rfl, -⟩ := areKeys key member
  obtain ⟨⟨after, value, isIns, grounded⟩, -⟩ :=
    ((sound.holds id).mem_visibleKeys (sound.coherent_applied id) isVisible nodeId).mp member
  exact .node isIns grounded

/-- The next id of a replica is not deleted either. -/
theorem Network.Traced.not_deleted (traced : network.Traced) (sound : network.Sound)
    (id : JsString) : .del (idKey (network.replicas id).nextId) ∉ opsOf network.produced := by
  intro member
  rcases traced.satisfied _ member with isRoot | ⟨nodeId, after, value, isIns, isKey⟩
  · exact idKey_ne_root _ isRoot
  · obtain rfl := idKey_injective isKey
    exact sound.fresh id after value isIns

theorem edit_replicas (network : Network V) (id : JsString) (rga : RGA V) (op : Op V) :
    (network.edit id rga op).replicas id = rga :=
  (setReplica_replicas network id rga op id).trans (if_pos rfl)

theorem edit_applied (network : Network V) (id : JsString) (rga : RGA V) (op : Op V) :
    (network.edit id rga op).applied id = op :: network.applied id :=
  (setReplica_applied network id rga op id).trans (if_pos rfl)

/-- An insertion in range returns with the node in sight. -/
theorem insertAt_visible (sound : network.Sound) (traced : network.Traced) {id : JsString}
    {keys : List Key} (isVisible : (network.replicas id).visibleKeys = some keys) {index : Int}
    (inRange : index ≤ keys.length) (value : V) : ∃ rga nodeId after keys',
      (network.replicas id).insertAt index value = some (rga, .ins nodeId after value) ∧
        rga.visibleKeys = some keys' ∧ idKey nodeId ∈ keys' := by
  obtain ⟨rga, op, inserted, sound'⟩ : ∃ rga op,
      (network.replicas id).insertAt index value = some (rga, op) ∧
        (network.edit id rga op).Sound := by
    by_cases nonpos : index ≤ 0
    · rw [insertAt_nonpos _ nonpos]
      exact insertAt_sound sound value ⟨le_rfl, fun keys _ => Int.natCast_nonneg _⟩
    · apply insertAt_sound sound value
      refine ⟨by omega, fun keys' isVisible' => ?_⟩
      obtain rfl := Option.some.inj (isVisible.symm.trans isVisible')
      exact inRange
  have isInsertion := inserted
  rw [insertAt_eq isVisible] at isInsertion
  obtain ⟨rga', -, isResult⟩ := Option.map_eq_some_iff.mp isInsertion
  obtain ⟨rfl, rfl⟩ := Prod.mk.inj isResult
  obtain ⟨keys', isVisible', -⟩ := sound'.visibleKeys_total id
  have holds' := sound'.holds id
  have coherent' := sound'.coherent_applied id
  rw [edit_replicas] at isVisible' holds'
  rw [edit_applied] at holds' coherent'
  refine ⟨rga', _, _, keys', inserted, isVisible', ?_⟩
  apply (holds'.mem_visibleKeys coherent' isVisible' _).mpr
  constructor
  · refine ⟨RGA.predecessor keys index, value, List.mem_cons_self, ?_⟩
    rw [opsOf_cons]
    rcases predecessor_mem inRange with isRoot | member
    · exact isRoot ▸ .root
    · exact (sound.visible_grounded isVisible member).mono (Set.subset_insert _ _)
  · intro member
    rcases List.mem_cons.mp member with isNew | isOld
    · exact nomatch isNew
    · exact traced.not_deleted sound id (sound.known id isOld)

/-- An insertion past the end is put aside. -/
theorem insertAt_past_end (sound : network.Sound) {id : JsString} {keys : List Key}
    (isVisible : (network.replicas id).visibleKeys = some keys) {index : Int}
    (past : keys.length < index) (value : V) : ∃ rga nodeId after,
      (network.replicas id).insertAt index value = some (rga, .ins nodeId after value) ∧
        rga.visibleKeys = some keys ∧ idKey nodeId ∉ keys := by
  obtain ⟨keys', isVisible', areKeys⟩ := sound.visibleKeys_total id
  obtain rfl := Option.some.inj (isVisible.symm.trans isVisible')
  obtain ⟨key, isKey⟩ : ∃ key, key = idKey (network.replicas id).nextId := ⟨_, rfl⟩
  have holds := sound.holds id
  have absent : (network.replicas id).nodes.containsKey key = false := by
    apply (SortedMap.containsKey_eq_false _ _).mpr
    apply Option.eq_none_iff_forall_not_mem.mpr
    intro node found
    have describes := holds.sound key node found
    have member := sound.known id describes.member
    rw [idKey_injective (describes.isKey.trans isKey)] at member
    exact sound.fresh id _ _ member
  have noBottom : (network.replicas id).nodes.containsKey ⊥ = false := by
    apply (SortedMap.containsKey_eq_false _ _).mpr
    apply Option.eq_none_iff_forall_not_mem.mpr
    intro node found
    exact nomatch (holds.sound ⊥ node found).isKey
  have notRoot : (⊥ : Key) ≠ ROOT := WithBot.bot_ne_coe
  obtain ⟨rga, isApplied, sameNodes⟩ : ∃ rga : RGA V,
      RGA.apply { network.replicas id with clock := (network.replicas id).clock + 1 }
        (.ins (network.replicas id).nextId ⊥ value) = some rga ∧
      rga.nodes = (network.replicas id).nodes := by
    rw [RGA.apply, RGA.applyLoop]
    dsimp only
    rw [← isKey, if_neg (by simp [absent]), if_pos ⟨notRoot, noBottom⟩]
    exact ⟨_, rfl, rfl⟩
  refine ⟨rga, (network.replicas id).nextId, ⊥, ?_, ?_, ?_⟩
  · rw [insertAt_eq isVisible, predecessor_eq_bot past, isApplied]
    rfl
  · exact (visibleKeys_congr sameNodes).trans isVisible
  · intro member
    obtain ⟨nodeId, after, value', isNode, isIns⟩ := areKeys _ member
    obtain rfl := idKey_injective isNode
    exact sound.fresh id after value' (sound.known id isIns)

/-! ## What remains -/

/-- The nodes that were inserted and not deleted, with their values. -/
def survivors (ops : List (Op V)) : List (NodeId × V) :=
  (ops.filterMap Op.inserted).filter fun entry => !ops.any (Op.deletes (idKey entry.1))

/-- Where all operations have arrived, nothing waits and the survivors are visible. -/
theorem arrived_visible (sound : network.Sound) (traced : network.Traced) {id : JsString}
    (arrived : ∀ op ∈ network.produced, op ∈ network.applied id) :
    (network.replicas id).pending = .empty ∧
      ∃ nodes, (network.replicas id).visible = some nodes ∧
        (nodes.map fun node => (node.id, node.value)).Perm (survivors network.produced) := by
  have sameOps : opsOf (network.applied id) = opsOf network.produced :=
    Set.Subset.antisymm (sound.known id) arrived
  have holds := sound.holds id
  rw [sameOps] at holds
  have grounded := grounded_of_satisfied sound.ranked traced.satisfied
  refine ⟨holds.pending_empty grounded, ?_⟩
  obtain ⟨nodes, isOrdered⟩ := sound.ordered_total id
  refine ⟨nodes.filter fun node => !node.deleted, by rw [RGA.visible, isOrdered]; rfl, ?_⟩
  have nodup := holds.ordered_nodup (holds.ranked sound.ranked) isOrdered
  have isNode := holds.mem_ordered sound.coherent isOrdered
  apply (List.perm_ext_iff_of_nodup _ _).mpr
  · rintro ⟨nodeId, value⟩
    rw [List.mem_map, survivors, List.mem_filter, mem_inserted]
    simp only [List.mem_filter, Bool.not_eq_true', Bool.eq_false_iff, ne_eq, any_deletes]
    constructor
    · rintro ⟨node, ⟨member, notDeleted⟩, isEntry⟩
      obtain ⟨rfl, rfl⟩ := Prod.mk.inj isEntry
      have describes := holds.sound _ node (holds.node_key ((isNode node).mp member)).2
      rw [describes.deleted, ← describes.isKey] at notDeleted
      exact ⟨⟨node.after, describes.member⟩, notDeleted⟩
    · rintro ⟨⟨after, isIns⟩, notDeleted⟩
      obtain ⟨node, found⟩ := holds.complete _ _ _ isIns (grounded _ isIns)
      have describes := holds.sound _ node found
      obtain rfl := idKey_injective describes.isKey
      have isValue := (sound.coherent.unique _ _ _ _ _ describes.member isIns).2
      refine ⟨node, ⟨(isNode node).mpr (mem_values.mpr ⟨_, found⟩), ?_⟩, by rw [isValue]⟩
      rwa [describes.deleted]
  · have ofKeys : (nodes.map fun node => (node.id, node.value)).Nodup := by
      apply (List.Nodup.of_map _ nodup).map_on
      intro node member node' member' same
      have found := (holds.node_key ((isNode node).mp member))
      have found' := (holds.node_key ((isNode node').mp member'))
      rw [found.1, (Prod.mk.inj same).1, ← found'.1] at found
      exact Option.some.inj (found.2.symm.trans found'.2)
    exact ofKeys.sublist (List.filter_sublist.map _)
  · exact (List.Nodup.of_map _ traced.once).filter _

end Edits

/-! ## No edit gets stuck, while indexes are in range -/

/-- In every run without an insertion past the end: a local insertion shows at once
exactly if it is not past the end either, and a replica that all operations have
reached defers nothing and shows every value that was inserted and not deleted once. -/
theorem rga_edits_take_effect {network : Network V} (reaches : network.Reaches) :
    (∀ id index value, ∃ keys rga nodeId after keys',
      (network.replicas id).visibleKeys = some keys ∧
      (network.replicas id).insertAt index value = some (rga, .ins nodeId after value) ∧
      rga.visibleKeys = some keys' ∧ (idKey nodeId ∈ keys' ↔ index ≤ keys.length)) ∧
    ∀ id, (∀ op ∈ network.produced, op ∈ network.applied id) →
      (network.replicas id).pending = .empty ∧
      ∃ array, (network.replicas id).toArray = some array ∧
        array.Perm ((survivors network.produced).map Prod.snd) := by
  have sound := reachable_sound reaches.reachable
  have traced := reaches_traced reaches
  constructor
  · intro id index value
    obtain ⟨keys, isVisible, -⟩ := sound.visibleKeys_total id
    by_cases inRange : index ≤ keys.length
    · obtain ⟨rga, nodeId, after, keys', inserted, isVisible', member⟩ :=
        insertAt_visible sound traced isVisible inRange value
      exact ⟨keys, rga, nodeId, after, keys', isVisible, inserted, isVisible',
        iff_of_true member inRange⟩
    · obtain ⟨rga, nodeId, after, inserted, isVisible', notMember⟩ :=
        insertAt_past_end sound isVisible (not_le.mp inRange) value
      exact ⟨keys, rga, nodeId, after, keys, isVisible, inserted, isVisible',
        iff_of_false notMember inRange⟩
  · intro id arrived
    obtain ⟨isEmpty, nodes, areVisible, perm⟩ := arrived_visible sound traced arrived
    refine ⟨isEmpty, nodes.map Node.value, by rw [RGA.toArray, areVisible]; rfl, ?_⟩
    simpa [List.map_map, Function.comp_def] using perm.map Prod.snd

/-- Two replicas that hear of each other. -/
theorem rga_edits_take_effect_crossed : ∃ network : Network Nat,
    crossedActions.foldlM Network.step Network.initial = some network ∧
      (network.replicas [0x61]).pending = .empty := by
  have evaluated : (crossedActions.foldlM Network.step Network.initial).map
      (fun network => (network.produced, network.applied [0x61])) =
      some ([.ins ⟨1, [0x61]⟩ ROOT 10, .ins ⟨1, [0x62]⟩ ROOT 20],
        [.ins ⟨1, [0x62]⟩ ROOT 20, .ins ⟨1, [0x61]⟩ ROOT 10]) := by decide +kernel
  obtain ⟨network, ran, isApplied⟩ := Option.map_eq_some_iff.mp evaluated
  obtain ⟨areProduced, areApplied⟩ := Prod.mk.inj isApplied
  have reaches : network.Reaches := by
    apply Network.Reaches.run _ .initial ran
    intro action member network
    simp only [crossedActions, List.mem_cons, List.not_mem_nil, or_false] at member
    rcases member with rfl | rfl | rfl | rfl
    · exact fun keys _ => Int.natCast_nonneg _
    · exact fun keys _ => Int.natCast_nonneg _
    · trivial
    · trivial
  refine ⟨network, ran, ((rga_edits_take_effect reaches).2 _ fun op member => ?_).1⟩
  rw [areProduced] at member
  rw [areApplied]
  exact (List.Perm.swap _ _ _).mem_iff.mp member

/-- An insertion at 1 into the empty text does not show and waits forever, although
everything has arrived. -/
theorem past_end_gets_stuck : ∃ network : Network Nat,
    Network.initial.step (.insertAt [0x61] 1 10) = some network ∧
      network.produced = [.ins ⟨1, [0x61]⟩ ⊥ 10] ∧
      network.applied [0x61] = network.produced ∧
      (network.replicas [0x61]).visibleKeys = some [] ∧
      (network.replicas [0x61]).pending ≠ .empty := by
  have evaluated : (Network.initial.step (.insertAt [0x61] 1 10)).map
      (fun network : Network Nat => (network.produced, network.applied [0x61])) =
      some ([.ins ⟨1, [0x61]⟩ ⊥ 10], [.ins ⟨1, [0x61]⟩ ⊥ 10]) := by decide +kernel
  have waits : (Network.initial.step (.insertAt [0x61] 1 10)).map
      (fun network : Network Nat => ((network.replicas [0x61]).visibleKeys.map List.length,
        (network.replicas [0x61]).pending.size)) = some (some 0, 1) := by decide +kernel
  obtain ⟨network, stepped, same⟩ := Option.map_eq_some_iff.mp evaluated
  obtain ⟨areProduced, areApplied⟩ := Prod.mk.inj same
  rw [stepped] at waits
  obtain ⟨noneVisible, isPending⟩ := Prod.mk.inj (Option.some.inj waits)
  refine ⟨network, stepped, areProduced, areApplied.trans areProduced.symm, ?_, ?_⟩
  · obtain ⟨keys, isVisible, isEmpty⟩ := Option.map_eq_some_iff.mp noneVisible
    rw [isVisible, List.eq_nil_of_length_eq_zero isEmpty]
  · intro isEmpty
    rw [isEmpty] at isPending
    exact absurd isPending (by decide)

end FoundationsLab.Crdt
