import FoundationsLab.Crdt.Rga
import Mathlib.Data.Set.Insert

/-! # The state of an array depends on the set of operations

`Holds` reads a state off the set of operations applied so far: a node is there
when the chain of nodes it hangs on is complete, and the other operations wait.
Applying an operation adds it to the set, whatever cascade it sets off. -/

namespace FoundationsLab.Crdt

open Foundation

variable {V : Type}

namespace Op

/-- The key that an operation waits for. -/
def dependency : Op V → Key
  | ins _ after _ => after
  | del target => target

end Op

/-! ## What a set of operations means -/

/-- The node of the key and all its predecessors were inserted. -/
inductive Grounded (ops : Set (Op V)) : Key → Prop
  | root : Grounded ops ROOT
  | node {id : NodeId} {after : Key} {value : V} (member : .ins id after value ∈ ops)
      (grounded : Grounded ops after) : Grounded ops (idKey id)

/-- The node is made from an insertion of the set. -/
structure Describes (ops : Set (Op V)) (key : Key) (node : Node V) : Prop where
  member : .ins node.id node.after node.value ∈ ops
  grounded : Grounded ops node.after
  isKey : idKey node.id = key
  sameKey : node.key = key
  deleted : node.deleted = true ↔ .del key ∈ ops

structure Holds (ops : Set (Op V)) (rga : RGA V) : Prop where
  sound : ∀ key node, rga.nodes.get key = some node → Describes ops key node
  complete : ∀ id after value, .ins id after value ∈ ops → Grounded ops after →
    ∃ node, rga.nodes.get (idKey id) = some node
  waits : ∀ key op, op ∈ (rga.pending.get key).getD [] ↔
    op ∈ ops ∧ op.dependency = key ∧ ¬ Grounded ops key
  nonempty : ∀ key, rga.pending.get key ≠ some []
  clock : ∀ id after value, .ins id after value ∈ ops → id.c ≤ rga.clock

/-- What the operations of a run have in common: an id is used once, and only nodes
are deleted. -/
structure Coherent (ops : Set (Op V)) : Prop where
  unique : ∀ id after value after' value', .ins id after value ∈ ops →
    .ins id after' value' ∈ ops → after = after' ∧ value = value'
  target : ∀ key, .del key ∈ ops → key ≠ ROOT

theorem idKey_ne_root (id : NodeId) : idKey id ≠ ROOT := by
  intro same
  have noText : Decimal.decimal id.c ++ colon :: id.r = [] := Option.some.inj same
  simp at noText

theorem idKey_injective : Function.Injective idKey := by
  rintro ⟨c, r⟩ ⟨c', r'⟩ same
  obtain ⟨rfl, rfl⟩ := clock_colon_id_injective (Option.some.inj same)
  rfl

theorem Grounded.mono {ops ops' : Set (Op V)} (subset : ops ⊆ ops') {key : Key}
    (grounded : Grounded ops key) : Grounded ops' key := by
  induction grounded with
  | root => exact .root
  | node member _ induction => exact .node (subset member) induction

theorem Grounded.eq_root_or {ops : Set (Op V)} {key : Key} (grounded : Grounded ops key) :
    key = ROOT ∨ ∃ id after value, .ins id after value ∈ ops ∧ Grounded ops after ∧
      key = idKey id := by
  cases grounded with
  | root => exact .inl rfl
  | node member grounded => exact .inr ⟨_, _, _, member, grounded, rfl⟩

/-- An operation that waits grounds nothing. -/
theorem grounded_insert_of_waiting {ops : Set (Op V)} {op : Op V}
    (waits : ¬ Grounded ops op.dependency) {key : Key} :
    Grounded (insert op ops) key ↔ Grounded ops key := by
  constructor
  · intro grounded
    induction grounded with
    | root => exact .root
    | node member _ induction =>
        rcases member with rfl | isOld
        · exact absurd induction waits
        · exact .node isOld induction
  · exact Grounded.mono (Set.subset_insert op ops)

theorem grounded_insert_del {ops : Set (Op V)} {target key : Key} :
    Grounded (insert (.del target) ops) key ↔ Grounded ops key := by
  constructor
  · intro grounded
    induction grounded with
    | root => exact .root
    | node member _ induction =>
        rcases member with isDel | isOld
        · exact nomatch isDel
        · exact .node isOld induction
  · exact Grounded.mono (Set.subset_insert _ ops)

namespace Holds

variable {ops : Set (Op V)} {rga : RGA V}

theorem grounded_iff (holds : Holds ops rga) (key : Key) :
    Grounded ops key ↔ key = ROOT ∨ ∃ node, rga.nodes.get key = some node := by
  constructor
  · intro grounded
    refine grounded.eq_root_or.imp_right ?_
    rintro ⟨id, after, value, member, before, rfl⟩
    exact holds.complete id after value member before
  · rintro (rfl | ⟨node, found⟩)
    · exact .root
    · have describes := holds.sound key node found
      exact describes.isKey ▸ .node describes.member describes.grounded

theorem not_grounded (holds : Holds ops rga) {id : NodeId}
    (absent : rga.nodes.get (idKey id) = none) : ¬ Grounded ops (idKey id) := by
  rw [holds.grounded_iff]
  rintro (isRoot | ⟨node, found⟩)
  · exact idKey_ne_root id isRoot
  · rw [absent] at found
    exact nomatch found

theorem new (replicaId : JsString) : Holds (∅ : Set (Op V)) (RGA.new replicaId) where
  sound key node found := absurd found (by simp [RGA.new])
  complete _ _ _ member := absurd member (Set.notMem_empty _)
  waits key op := by simp [RGA.new]
  nonempty key := by simp [RGA.new]
  clock _ _ _ member := absurd member (Set.notMem_empty _)

/-- The clock may go up. -/
theorem later (holds : Holds ops rga) {clock : Nat} (later : rga.clock ≤ clock) :
    Holds ops { rga with clock := clock } where
  sound := holds.sound
  complete := holds.complete
  waits := holds.waits
  nonempty := holds.nonempty
  clock id after value member := (holds.clock id after value member).trans later

/-! ## Waiting -/

theorem mem_defer {key other : Key} {op op' : Op V} :
    op' ∈ ((rga.defer key op).pending.get other).getD [] ↔
      op' ∈ (rga.pending.get other).getD [] ∨ other = key ∧ op' = op := by
  rw [RGA.defer, SortedMap.get_put]
  by_cases same : other = key
  · simp [same]
  · simp [same]

theorem defer (holds : Holds ops rga) (op : Op V) (waits : ¬ Grounded ops op.dependency)
    (clock : ∀ id after value, op = .ins id after value → id.c ≤ rga.clock) :
    Holds (insert op ops) (rga.defer op.dependency op) := by
  constructor
  · intro key node found
    have describes := holds.sound key node found
    refine ⟨.inr describes.member, (grounded_insert_of_waiting waits).mpr describes.grounded,
      describes.isKey, describes.sameKey, describes.deleted.trans ⟨.inr, ?_⟩⟩
    rintro (isNew | isOld)
    · -- The node would be the one that is missing.
      refine absurd ((holds.grounded_iff key).mpr (.inr ⟨node, found⟩)) ?_
      rw [← isNew] at waits
      exact waits
    · exact isOld
  · rintro id after value (rfl | isOld) grounded
    · exact absurd ((grounded_insert_of_waiting waits).mp grounded) waits
    · exact holds.complete id after value isOld ((grounded_insert_of_waiting waits).mp grounded)
  · intro key op'
    rw [mem_defer, holds.waits, grounded_insert_of_waiting waits]
    constructor
    · rintro (⟨isOld, isKey, missing⟩ | ⟨rfl, rfl⟩)
      · exact ⟨.inr isOld, isKey, missing⟩
      · exact ⟨.inl rfl, rfl, waits⟩
    · rintro ⟨rfl | isOld, isKey, missing⟩
      · exact .inr ⟨isKey.symm, rfl⟩
      · exact .inl ⟨isOld, isKey, missing⟩
  · intro key
    rw [RGA.defer, SortedMap.get_put]
    split
    · simp
    · exact holds.nonempty key
  · rintro id after value (isNew | isOld)
    · exact clock id after value isNew.symm
    · exact holds.clock id after value isOld

/-! ## Deleting -/

theorem delete (holds : Holds ops rga) {target : Key} {node : Node V}
    (found : rga.nodes.get target = some node) :
    Holds (insert (.del target) ops)
      { rga with nodes := rga.nodes.put target { node with deleted := true } } := by
  constructor
  · intro key other found'
    dsimp only at found'
    rw [SortedMap.get_put] at found'
    split at found'
    · rename_i same
      obtain rfl := Option.some.inj found'
      have describes := holds.sound target node found
      subst same
      exact ⟨.inr describes.member, grounded_insert_del.mpr describes.grounded, describes.isKey,
        describes.sameKey, by simp⟩
    · rename_i different
      have describes := holds.sound key other found'
      refine ⟨.inr describes.member, grounded_insert_del.mpr describes.grounded, describes.isKey,
        describes.sameKey, describes.deleted.trans ⟨.inr, ?_⟩⟩
      rintro (isNew | isOld)
      · exact absurd (Op.del.inj isNew) different
      · exact isOld
  · rintro id after value (isNew | isOld) grounded
    · exact nomatch isNew
    · obtain ⟨other, found'⟩ := holds.complete id after value isOld (grounded_insert_del.mp grounded)
      dsimp only
      rw [SortedMap.get_put]
      split
      · exact ⟨_, rfl⟩
      · exact ⟨other, found'⟩
  · intro key op
    rw [holds.waits, grounded_insert_del]
    constructor
    · rintro ⟨isOld, isKey, missing⟩
      exact ⟨.inr isOld, isKey, missing⟩
    · rintro ⟨rfl | isOld, isKey, missing⟩
      · refine absurd ((holds.grounded_iff key).mpr (.inr ⟨node, ?_⟩)) missing
        rw [← isKey]
        exact found
      · exact ⟨isOld, isKey, missing⟩
  · exact holds.nonempty
  · rintro id after value (isNew | isOld)
    · exact nomatch isNew
    · exact holds.clock id after value isOld

/-! ## Inserting -/

section Insert

variable {id : NodeId} {after : Key} (value : V)

/-- The operations that are not released by the new node. -/
def unreleased (ops : Set (Op V)) (op : Op V) (waiting : List (Op V)) : Set (Op V) :=
  { other | other ∈ insert op ops ∧ other ∉ waiting }

theorem grounded_unreleased (holds : Holds ops rga) (grounded : Grounded ops after)
    (absent : rga.nodes.get (idKey id) = none) (key : Key) :
    Grounded (unreleased ops (.ins id after value) ((rga.pending.get (idKey id)).getD [])) key ↔
      Grounded ops key ∨ key = idKey id := by
  have missing := holds.not_grounded absent
  have kept : ∀ other ∈ ops, Grounded ops other.dependency →
      other ∈ unreleased ops (.ins id after value) ((rga.pending.get (idKey id)).getD []) := by
    refine fun other member grounded => ⟨.inr member, fun isWaiting => ?_⟩
    obtain ⟨-, isKey, missing⟩ := (holds.waits _ _).mp isWaiting
    exact missing (isKey ▸ grounded)
  have mono : ∀ {key}, Grounded ops key →
      Grounded (unreleased ops (.ins id after value) ((rga.pending.get (idKey id)).getD [])) key := by
    intro key grounded
    induction grounded with
    | root => exact .root
    | node member before induction => exact .node (kept _ member before) induction
  constructor
  · intro grounded
    induction grounded with
    | root => exact .inl .root
    | @node id' after' value' member _ induction =>
        obtain ⟨isNew | isOld, notWaiting⟩ := member
        · obtain ⟨rfl, -, -⟩ := Op.ins.inj isNew
          exact .inr rfl
        · rcases induction with before | isKey
          · exact .inl (.node isOld before)
          · -- It waits for the new node.
            refine absurd ((holds.waits _ _).mpr ⟨isOld, isKey, missing⟩) notWaiting
  · rintro (before | rfl)
    · exact mono before
    · have member : .ins id after value ∈
          unreleased ops (.ins id after value) ((rga.pending.get (idKey id)).getD []) := by
        refine ⟨.inl rfl, fun isWaiting => ?_⟩
        obtain ⟨-, isKey, missing⟩ := (holds.waits _ _).mp isWaiting
        exact missing (isKey ▸ grounded)
      exact .node member (mono grounded)

/-- With the node inserted and the operations that waited for it taken out, the
state belongs to the set without these operations. -/
theorem insert (holds : Holds ops rga) (grounded : Grounded ops after)
    (absent : rga.nodes.get (idKey id) = none) (clock : id.c ≤ rga.clock) :
    Holds (unreleased ops (.ins id after value) ((rga.pending.get (idKey id)).getD []))
      { rga with
        nodes := rga.nodes.put (idKey id) ⟨id, idKey id, after, value, false⟩
        pending := rga.pending.remove (idKey id) } := by
  have released := holds.grounded_unreleased value grounded absent
  have missing := holds.not_grounded absent
  have kept : ∀ other ∈ ops, other.dependency ≠ idKey id →
      other ∈ unreleased ops (.ins id after value) ((rga.pending.get (idKey id)).getD []) := by
    refine fun other member different => ⟨.inr member, fun isWaiting => ?_⟩
    exact different ((holds.waits _ _).mp isWaiting).2.1
  have keptGrounded : ∀ other ∈ ops, Grounded ops other.dependency →
      other ∈ unreleased ops (.ins id after value) ((rga.pending.get (idKey id)).getD []) :=
    fun other member before => kept other member fun same => missing (same ▸ before)
  constructor
  · intro key node found
    dsimp only at found
    rw [SortedMap.get_put] at found
    split at found
    · rename_i same
      obtain rfl := Option.some.inj found
      subst same
      refine ⟨⟨.inl rfl, fun isWaiting => ?_⟩, (released after).mpr (.inl grounded), rfl, rfl, ?_⟩
      · obtain ⟨-, isKey, missing⟩ := (holds.waits _ _).mp isWaiting
        exact missing (isKey ▸ grounded)
      · refine ⟨fun isDeleted => Bool.noConfusion isDeleted, fun member => ?_⟩
        obtain ⟨isNew | isOld, notWaiting⟩ := member
        · exact nomatch isNew
        · exact absurd ((holds.waits _ _).mpr ⟨isOld, rfl, missing⟩) notWaiting
    · rename_i different
      have describes := holds.sound key node found
      refine ⟨keptGrounded _ describes.member describes.grounded,
        (released _).mpr (.inl describes.grounded), describes.isKey, describes.sameKey,
        describes.deleted.trans ⟨fun isDel => kept _ isDel different, fun member => ?_⟩⟩
      obtain ⟨isNew | isOld, -⟩ := member
      · exact nomatch isNew
      · exact isOld
  · rintro id' after' value' ⟨isNew | isOld, notWaiting⟩ before
    · obtain ⟨rfl, -, -⟩ := Op.ins.inj isNew
      exact ⟨_, by rw [SortedMap.get_put, if_pos rfl]⟩
    · rcases (released _).mp before with before | isKey
      · obtain ⟨node, found⟩ := holds.complete id' after' value' isOld before
        dsimp only
        rw [SortedMap.get_put]
        split
        · exact ⟨_, rfl⟩
        · exact ⟨node, found⟩
      · exact absurd ((holds.waits _ _).mpr ⟨isOld, isKey, missing⟩) notWaiting
  · intro key op
    dsimp only
    rw [SortedMap.get_remove, released]
    split
    · rename_i same
      simp [same]
    · rename_i different
      rw [holds.waits]
      constructor
      · rintro ⟨isOld, rfl, waits⟩
        exact ⟨kept op isOld different, rfl, fun either => either.elim waits different⟩
      · rintro ⟨⟨rfl | isOld, -⟩, rfl, waits⟩
        · exact absurd (.inl grounded) waits
        · exact ⟨isOld, rfl, fun before => waits (.inl before)⟩
  · intro key
    dsimp only
    rw [SortedMap.get_remove]
    split
    · simp
    · exact holds.nonempty key
  · rintro id' after' value' ⟨isNew | isOld, -⟩
    · obtain ⟨rfl, -, -⟩ := Op.ins.inj isNew
      exact clock
    · exact holds.clock id' after' value' isOld

end Insert

end Holds

/-! ## The cascade -/

/-- What applying operations does to a state. -/
structure Applied (ops : Set (Op V)) (rga rga' : RGA V) : Prop where
  holds : Holds ops rga'
  replicaId : rga'.replicaId = rga.replicaId
  clock : rga.clock ≤ rga'.clock

section Cascade

variable {known : Set (Op V)}

/-- Operations that need not wait, one after the other. -/
theorem foldlM_applied {fuel : Nat}
    (step : ∀ {ops : Set (Op V)} {rga : RGA V} {op : Op V}, Holds ops rga → ops ⊆ known →
      op ∈ known → rga.waitingCount < fuel → ∃ rga', RGA.applyLoop fuel rga op = some rga' ∧
        Applied (insert op ops) rga rga' ∧
        (Grounded ops op.dependency → rga'.waitingCount ≤ rga.waitingCount))
    (waiting : List (Op V)) {ops : Set (Op V)} {rga : RGA V} (holds : Holds ops rga)
    (subset : ops ⊆ known) (isKnown : ∀ op ∈ waiting, op ∈ known)
    (enough : rga.waitingCount < fuel)
    (grounded : ∀ op ∈ waiting, Grounded ops op.dependency) :
    ∃ rga', waiting.foldlM (RGA.applyLoop fuel) rga = some rga' ∧
      Applied (ops ∪ { op | op ∈ waiting }) rga rga' ∧ rga'.waitingCount ≤ rga.waitingCount := by
  induction waiting generalizing ops rga with
  | nil => exact ⟨rga, rfl, ⟨by simpa using holds, rfl, le_rfl⟩, le_rfl⟩
  | cons op waiting induction =>
      have opKnown := isKnown op List.mem_cons_self
      obtain ⟨next, isApplied, applied, notMore⟩ := step holds subset opKnown enough
      have notMore := notMore (grounded op List.mem_cons_self)
      obtain ⟨last, isFolded, folded, notMore'⟩ := induction applied.holds
        (Set.insert_subset opKnown subset) (fun other member => isKnown other (.tail _ member))
        (notMore.trans_lt enough)
        (fun other member => (grounded other (.tail _ member)).mono (Set.subset_insert _ _))
      have all : insert op ops ∪ { other | other ∈ waiting } =
          ops ∪ { other | other ∈ op :: waiting } := by
        ext other
        simp only [Set.mem_union, Set.mem_insert_iff, Set.mem_ofPred_eq, List.mem_cons]
        tauto
      refine ⟨last, ?_, ⟨all ▸ folded.holds, folded.replicaId.trans applied.replicaId,
        applied.clock.trans folded.clock⟩, notMore'.trans notMore⟩
      rw [List.foldlM_cons, isApplied]
      exact isFolded

/-- Applying an operation adds it to the set; it returns when the depth exceeds the
number of operations that wait. -/
theorem applyLoop_applied (coherent : Coherent known) : ∀ {fuel : Nat} {ops : Set (Op V)}
    {rga : RGA V} {op : Op V}, Holds ops rga → ops ⊆ known → op ∈ known →
    rga.waitingCount < fuel → ∃ rga', RGA.applyLoop fuel rga op = some rga' ∧
      Applied (insert op ops) rga rga' ∧
      (Grounded ops op.dependency → rga'.waitingCount ≤ rga.waitingCount)
  | 0, _, _, _, _, _, _, enough => absurd enough (Nat.not_lt_zero _)
  | fuel + 1, ops, rga, .del target, holds, subset, isKnown, enough => by
      rw [RGA.applyLoop]
      cases found : rga.nodes.get target with
      | some node => exact ⟨_, rfl, ⟨holds.delete found, rfl, le_rfl⟩, fun _ => le_rfl⟩
      | none =>
          have missing : ¬ Grounded ops target := by
            rw [holds.grounded_iff]
            rintro (isRoot | ⟨node, isNode⟩)
            · exact coherent.target target isKnown isRoot
            · rw [found] at isNode
              exact nomatch isNode
          refine ⟨_, rfl, ⟨holds.defer (.del target) missing ?_, rfl, le_rfl⟩,
            fun grounded => absurd grounded missing⟩
          exact fun _ _ _ isIns => nomatch isIns
  | fuel + 1, ops, rga, .ins id after value, holds, subset, isKnown, enough => by
      rw [RGA.applyLoop]
      by_cases present : rga.nodes.containsKey (idKey id) = true
      · -- The insertion was applied before.
        obtain ⟨node, found⟩ := (rga.nodes.containsKey_iff _).mp present
        have describes := holds.sound _ node found
        have member := describes.member
        rw [idKey_injective describes.isKey] at member
        obtain ⟨rfl, rfl⟩ := coherent.unique _ _ _ _ _ isKnown (subset member)
        dsimp only
        rw [if_pos present]
        exact ⟨rga, rfl, ⟨(Set.insert_eq_of_mem member).symm ▸ holds, rfl, le_rfl⟩, fun _ => le_rfl⟩
      · have absent := (rga.nodes.containsKey_eq_false _).mp (Bool.not_eq_true _ ▸ present)
        have holds' := holds.later (Nat.le_max_left rga.clock id.c)
        dsimp only
        rw [if_neg present]
        split
        · rename_i waits
          have missing : ¬ Grounded ops after := by
            rw [holds.grounded_iff]
            rintro (isRoot | ⟨node, isNode⟩)
            · exact waits.1 isRoot
            · have noNode := (rga.nodes.containsKey_eq_false _).mp waits.2
              rw [noNode] at isNode
              exact nomatch isNode
          refine ⟨_, rfl, ⟨holds'.defer (.ins id after value) missing ?_, rfl,
            Nat.le_max_left _ _⟩, fun grounded => absurd grounded missing⟩
          intro id' after' value' isIns
          obtain ⟨rfl, -, -⟩ := Op.ins.inj isIns
          exact Nat.le_max_right _ _
        · rename_i ready
          have grounded : Grounded ops after := by
            rw [holds.grounded_iff]
            by_cases isRoot : after = ROOT
            · exact .inl isRoot
            · refine .inr ((rga.nodes.containsKey_iff _).mp ?_)
              by_contra noNode
              exact ready ⟨isRoot, Bool.not_eq_true _ ▸ noNode⟩
          have inserted := holds'.insert value grounded absent (Nat.le_max_right _ _)
          have released := holds'.grounded_unreleased value grounded absent (idKey id)
          have count := rga.pending.weight_remove List.length (idKey id)
          dsimp only at inserted released ⊢
          cases found : rga.pending.get (idKey id) with
          | none =>
              rw [found, SortedMap.remove_of_absent found] at inserted
              have all : Holds.unreleased ops (.ins id after value) [] =
                  insert (.ins id after value) ops := by
                ext op
                simp [Holds.unreleased]
              exact ⟨_, rfl, ⟨all ▸ inserted, rfl, Nat.le_max_left _ _⟩, fun _ => le_rfl⟩
          | some waiting =>
              have nonempty : waiting ≠ [] := fun isEmpty => holds.nonempty (idKey id) (isEmpty ▸ found)
              have positive := List.length_pos_of_ne_nil nonempty
              have isWaiting : ∀ op ∈ waiting, op ∈ ops ∧ op.dependency = idKey id := by
                intro op member
                have waits := (holds.waits (idKey id) op).mp (by rwa [found])
                exact ⟨waits.1, waits.2.1⟩
              rw [found] at inserted released count
              simp only [Option.getD_some, Option.map_some] at inserted released count
              have fewer : (rga.pending.remove (idKey id)).weight List.length < fuel := by
                rw [RGA.waitingCount] at enough
                omega
              obtain ⟨last, isFolded, folded, notMore⟩ := foldlM_applied
                (applyLoop_applied coherent) waiting inserted
                (fun op member => (Set.insert_subset isKnown subset) member.1)
                (fun op member => subset (isWaiting op member).1) fewer
                (fun op member => (isWaiting op member).2 ▸ released.mpr (.inr trivial))
              have all : Holds.unreleased ops (.ins id after value) waiting ∪
                  { op | op ∈ waiting } = insert (.ins id after value) ops := by
                ext op
                simp only [Holds.unreleased, Set.mem_union, Set.mem_ofPred_eq]
                constructor
                · rintro (⟨member, -⟩ | member)
                  · exact member
                  · exact .inr (isWaiting op member).1
                · intro member
                  by_cases waits : op ∈ waiting
                  · exact .inr waits
                  · exact .inl ⟨member, waits⟩
              refine ⟨last, isFolded, ⟨all ▸ folded.holds, folded.replicaId,
                (Nat.le_max_left _ _).trans folded.clock⟩, fun _ => notMore.trans ?_⟩
              show (rga.pending.remove (idKey id)).weight List.length ≤ rga.pending.weight List.length
              omega

theorem apply_applied (coherent : Coherent known) {ops : Set (Op V)} {rga : RGA V} {op : Op V}
    (holds : Holds ops rga) (subset : ops ⊆ known) (isKnown : op ∈ known) :
    ∃ rga', rga.apply op = some rga' ∧ Applied (insert op ops) rga rga' := by
  obtain ⟨rga', isApplied, applied, -⟩ :=
    applyLoop_applied coherent holds subset isKnown (Nat.lt_succ_self _)
  exact ⟨rga', isApplied, applied⟩

end Cascade

end FoundationsLab.Crdt
