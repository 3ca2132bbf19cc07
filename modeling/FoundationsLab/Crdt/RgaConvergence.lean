import FoundationsLab.Crdt.RgaApply
import Mathlib.Data.List.GetD

/-! # Convergence of replicated arrays

Replicas edit and receive operations in any order. Their states are those that
their sets of operations determine, so equal sets give equal states. -/

namespace FoundationsLab.Crdt

open Foundation

variable {V : Type}

/-! ## Equal sets of operations give equal states -/

section Unique

variable {ops : Set (Op V)} {rga rga' : RGA V}

theorem Describes.eq (coherent : Coherent ops) {key : Key} {node node' : Node V}
    (describes : Describes ops key node) (describes' : Describes ops key node') : node = node' := by
  have sameId := idKey_injective (describes.isKey.trans describes'.isKey.symm)
  have member := describes.member
  rw [sameId] at member
  obtain ⟨sameAfter, sameValue⟩ := coherent.unique _ _ _ _ _ member describes'.member
  have sameKey := describes.sameKey.trans describes'.sameKey.symm
  have sameDeleted : node.deleted = node'.deleted := by
    rw [Bool.eq_iff_iff, describes.deleted, describes'.deleted]
  cases node
  cases node'
  simp only [Node.mk.injEq]
  exact ⟨sameId, sameKey, sameAfter, sameValue, sameDeleted⟩

theorem Holds.get_eq_some (holds : Holds ops rga) (holds' : Holds ops rga')
    (coherent : Coherent ops) {key : Key} {node : Node V}
    (found : rga.nodes.get key = some node) : rga'.nodes.get key = some node := by
  have describes := holds.sound key node found
  obtain ⟨node', found'⟩ := holds'.complete _ _ _ describes.member describes.grounded
  rw [describes.isKey] at found'
  rw [found', describes.eq coherent (holds'.sound key node' found')]

theorem Holds.nodes_eq (holds : Holds ops rga) (holds' : Holds ops rga')
    (coherent : Coherent ops) : rga.nodes = rga'.nodes := by
  refine SortedMap.ext_get fun key => ?_
  cases found : rga.nodes.get key with
  | some node => exact (holds.get_eq_some holds' coherent found).symm
  | none =>
      cases found' : rga'.nodes.get key with
      | none => rfl
      | some node =>
          rw [holds'.get_eq_some holds coherent found'] at found
          exact nomatch found

theorem Holds.waits_eq (holds : Holds ops rga) (holds' : Holds ops rga') (key : Key) (op : Op V) :
    op ∈ (rga.pending.get key).getD [] ↔ op ∈ (rga'.pending.get key).getD [] := by
  rw [holds.waits, holds'.waits]

/-- Nothing waits when all dependencies are grounded. -/
theorem Holds.pending_empty (holds : Holds ops rga)
    (grounded : ∀ op ∈ ops, Grounded ops op.dependency) : rga.pending = .empty := by
  refine SortedMap.ext_get fun key => ?_
  cases found : rga.pending.get key with
  | none => rfl
  | some waiting =>
      obtain ⟨op, member⟩ := List.exists_mem_of_ne_nil waiting fun isEmpty =>
        holds.nonempty key (isEmpty ▸ found)
      obtain ⟨isOp, rfl, missing⟩ := (holds.waits key op).mp (by rwa [found])
      exact absurd (grounded op isOp) missing

end Unique

/-! ## Insertions point back -/

/-- Every insertion comes after the one that it hangs on. -/
def Ranked (ops : Set (Op V)) : Prop :=
  ∀ id after value, .ins id after value ∈ ops →
    after = ROOT ∨ ∃ before, after = idKey before ∧ before.c < id.c

/-- The operation it depends on is in the set. -/
def Satisfied (ops : Set (Op V)) (op : Op V) : Prop :=
  op.dependency = ROOT ∨ ∃ id after value, .ins id after value ∈ ops ∧ idKey id = op.dependency

theorem grounded_of_satisfied {ops : Set (Op V)} (ranked : Ranked ops)
    (satisfied : ∀ op ∈ ops, Satisfied ops op) : ∀ op ∈ ops, Grounded ops op.dependency := by
  have insertions : ∀ c id after value, id.c ≤ c → .ins id after value ∈ ops →
      Grounded ops after := by
    intro c
    induction c using Nat.strong_induction_on with
    | _ c induction =>
        intro id after value bound member
        rcases satisfied _ member with isRoot | ⟨id', after', value', member', isKey⟩
        · obtain rfl : after = ROOT := isRoot
          exact .root
        · rcases ranked id after value member with isRoot | ⟨before, isBefore, less⟩
          · exact isRoot ▸ .root
          · obtain rfl := idKey_injective (isKey.trans isBefore)
            exact isBefore ▸ .node member' (induction id'.c (by omega) id' after' value' le_rfl member')
  intro op member
  rcases satisfied op member with isRoot | ⟨id, after, value, member', isKey⟩
  · exact isRoot ▸ .root
  · exact isKey ▸ .node member' (insertions id.c id after value le_rfl member')

/-! ## The walk returns -/

section Walk

variable {rga : RGA V}

theorem mem_values {node : Node V} :
    node ∈ rga.values ↔ ∃ key, rga.nodes.get key = some node := by
  rw [RGA.values, List.mem_map]
  constructor
  · rintro ⟨entry, member, rfl⟩
    exact ⟨entry.1, SortedMap.get_of_mem member⟩
  · rintro ⟨key, found⟩
    exact ⟨(key, node), SortedMap.mem_of_get found, rfl⟩

theorem mem_children {key : Key} {node : Node V} :
    node ∈ rga.children key ↔ node ∈ rga.values ∧ node.after = key := by
  rw [RGA.children, List.mem_mergeSort, List.mem_filter, decide_eq_true_eq]

theorem walkAll_mem {walk : Key → Option (List (Node V))} {P : Node V → Prop}
    (below : ∀ key nodes, walk key = some nodes → ∀ node ∈ nodes, P node) :
    ∀ {children nodes : List (Node V)}, RGA.walkAll walk children = some nodes →
      (∀ child ∈ children, P child) → ∀ node ∈ nodes, P node
  | [], nodes, walked, _, node, member => by
      obtain rfl := Option.some.inj walked
      exact absurd member List.not_mem_nil
  | child :: rest, nodes, walked, all, node, member => by
      obtain ⟨subtree, isSubtree, walked⟩ := Option.bind_eq_some_iff.mp walked
      obtain ⟨others, isOthers, walked⟩ := Option.bind_eq_some_iff.mp walked
      obtain rfl := Option.some.inj walked
      rcases List.mem_cons.mp member with rfl | isLater
      · exact all node List.mem_cons_self
      · rcases List.mem_append.mp isLater with inSubtree | inOthers
        · exact below _ _ isSubtree node inSubtree
        · exact walkAll_mem below isOthers (fun other isOther => all other (.tail _ isOther)) node
            inOthers

theorem walk_mem : ∀ {fuel : Nat} {key : Key} {nodes : List (Node V)},
    rga.walk fuel key = some nodes → ∀ node ∈ nodes, node ∈ rga.values
  | 0, _, _, walked => nomatch walked
  | _ + 1, _, _, walked => walkAll_mem (fun _ _ => walk_mem) walked
      fun _ member => (mem_children.mp member).1

theorem walkAll_total {walk : Key → Option (List (Node V))} : ∀ {children : List (Node V)},
    (∀ child ∈ children, ∃ nodes, walk child.key = some nodes) →
      ∃ nodes, RGA.walkAll walk children = some nodes
  | [], _ => ⟨[], rfl⟩
  | child :: rest, total => by
      obtain ⟨subtree, isSubtree⟩ := total child List.mem_cons_self
      obtain ⟨others, isOthers⟩ := walkAll_total fun other member => total other (.tail _ member)
      exact ⟨child :: subtree ++ others, by rw [RGA.walkAll, isSubtree, isOthers]; rfl⟩

/-- The walk is read off the nodes alone. -/
theorem ordered_congr {rga' : RGA V} (same : rga.nodes = rga'.nodes) :
    rga.ordered = rga'.ordered := by
  have children : rga.children = rga'.children := by
    funext key
    rw [RGA.children, RGA.children, RGA.values, RGA.values, same]
  have walk : ∀ fuel, rga.walk fuel = rga'.walk fuel := by
    intro fuel
    induction fuel with
    | zero => rfl
    | succ fuel induction =>
        funext key
        rw [RGA.walk, RGA.walk, induction, children]
  rw [RGA.ordered, RGA.ordered, walk, same]

theorem toArray_congr {rga' : RGA V} (same : rga.nodes = rga'.nodes) :
    rga.toArray = rga'.toArray := by
  rw [RGA.toArray, RGA.toArray, RGA.visible, RGA.visible, ordered_congr same]

/-- The nodes with a clock from `bound` on. -/
def laterNodes (rga : RGA V) (bound : Nat) : List (Node V) :=
  rga.values.filter (bound ≤ ·.id.c)

/-- Going down the clocks go up, so the nodes that are left get fewer. -/
theorem walk_total (ranked : ∀ parent ∈ rga.values, ∀ child ∈ rga.values,
    child.after = parent.key → parent.id.c < child.id.c) : ∀ {fuel bound : Nat} {key : Key},
    (∀ child ∈ rga.values, child.after = key → bound ≤ child.id.c) →
      (laterNodes rga bound).length < fuel → ∃ nodes, rga.walk fuel key = some nodes
  | 0, _, _, _, enough => absurd enough (Nat.not_lt_zero _)
  | fuel + 1, bound, key, above, enough => by
      rw [RGA.walk]
      refine walkAll_total fun child member => ?_
      obtain ⟨isNode, isChild⟩ := mem_children.mp member
      refine walk_total ranked (fun other isOther => ranked child isNode other isOther)
        (Nat.lt_of_lt_of_le ?_ (Nat.le_of_lt_succ enough))
      -- The child itself is left behind.
      have inside : child ∈ laterNodes rga bound :=
        List.mem_filter.mpr ⟨isNode, decide_eq_true (above child isNode isChild)⟩
      have fewer : laterNodes rga (child.id.c + 1) =
          (laterNodes rga bound).filter (child.id.c + 1 ≤ ·.id.c) := by
        rw [laterNodes, laterNodes, List.filter_filter]
        refine List.filter_congr fun other _ => ?_
        have lower := above child isNode isChild
        by_cases later : child.id.c + 1 ≤ other.id.c
        · simp [later, (by omega : bound ≤ other.id.c)]
        · simp [later]
      rw [fewer]
      refine List.length_filter_lt_length_iff_exists.mpr ⟨child, inside, ?_⟩
      simp

theorem ordered_total (ranked : ∀ parent ∈ rga.values, ∀ child ∈ rga.values,
    child.after = parent.key → parent.id.c < child.id.c) : ∃ nodes, rga.ordered = some nodes := by
  have few : (laterNodes rga 0).length < rga.nodes.size + 1 := by
    refine Nat.lt_succ_of_le ((List.length_filter_le _ _).trans ?_)
    rw [RGA.values, List.length_map]
    exact le_rfl
  exact walk_total ranked (fun _ _ _ => Nat.zero_le _) few

/-- The nodes of a state that holds are ranked like the operations. -/
theorem Holds.ranked {ops : Set (Op V)} (holds : Holds ops rga) (ranked : Ranked ops) :
    ∀ parent ∈ rga.values, ∀ child ∈ rga.values, child.after = parent.key →
      parent.id.c < child.id.c := by
  intro parent isParent child isChild isAfter
  obtain ⟨key, found⟩ := mem_values.mp isParent
  obtain ⟨key', found'⟩ := mem_values.mp isChild
  have describes := holds.sound key parent found
  have describes' := holds.sound key' child found'
  have isKey : parent.key = idKey parent.id := describes.sameKey.trans describes.isKey.symm
  rcases ranked _ _ _ describes'.member with isRoot | ⟨before, isBefore, less⟩
  · exact absurd (isKey.symm.trans (isAfter.symm.trans isRoot)) (idKey_ne_root parent.id)
  · obtain rfl := idKey_injective (isKey.symm.trans (isAfter.symm.trans isBefore))
    exact less

end Walk

/-! ## The network -/

/-- The replicas by their ids, the operations each has applied, and all operations
that were produced. -/
structure Network (V : Type) where
  replicas : JsString → RGA V
  applied : JsString → List (Op V)
  produced : List (Op V)

inductive Action (V : Type) where
  | insertAt (id : JsString) (index : Int) (value : V)
  | deleteAt (id : JsString) (index : Int)
  | deliver (id : JsString) (number : Nat)

namespace Network

def initial : Network V where
  replicas := RGA.new
  applied _ := []
  produced := []

def setReplica (network : Network V) (id : JsString) (rga : RGA V) (op : Op V) : Network V :=
  { network with
    replicas := Function.update network.replicas id rga
    applied := Function.update network.applied id (op :: network.applied id) }

/-- A local edit; its operation can be delivered from now on. -/
def edit (network : Network V) (id : JsString) (rga : RGA V) (op : Op V) : Network V :=
  { network.setReplica id rga op with produced := network.produced ++ [op] }

def step (network : Network V) : Action V → Option (Network V)
  | .insertAt id index value => do
      let (rga, op) ← (network.replicas id).insertAt index value
      some (network.edit id rga op)
  | .deleteAt id index => do
      match ← (network.replicas id).deleteAt index with
      | (_, none) => some network
      | (rga, some op) => some (network.edit id rga op)
  | .deliver id number =>
      match network.produced[number]? with
      | none => some network
      | some op => do
          let rga ← (network.replicas id).apply op
          some (network.setReplica id rga op)

/-- The indices of a local insertion. -/
def Allowed (network : Network V) : Action V → Prop
  | .insertAt id index _ => 0 ≤ index ∧
      ∀ keys, (network.replicas id).visibleKeys = some keys → index ≤ keys.length
  | _ => True

inductive Reachable : Network V → Prop
  | initial : Reachable initial
  | step {network next : Network V} {action : Action V} (reachable : Reachable network)
      (allowed : network.Allowed action) (stepped : network.step action = some next) :
      Reachable next

end Network

/-! ## Steps -/

def opsOf (ops : List (Op V)) : Set (Op V) := { op | op ∈ ops }

theorem opsOf_cons (op : Op V) (ops : List (Op V)) : opsOf (op :: ops) = insert op (opsOf ops) := by
  ext other
  simp [opsOf]

theorem opsOf_concat (ops : List (Op V)) (op : Op V) :
    opsOf (ops ++ [op]) = insert op (opsOf ops) := by
  ext other
  simp [opsOf, or_comm]

structure Network.Sound (network : Network V) : Prop where
  holds : ∀ id, Holds (opsOf (network.applied id)) (network.replicas id)
  ids : ∀ id, (network.replicas id).replicaId = id
  known : ∀ id, opsOf (network.applied id) ⊆ opsOf network.produced
  coherent : Coherent (opsOf network.produced)
  ranked : Ranked (opsOf network.produced)
  /-- The clock of a replica has passed the ids it gave out. -/
  own : ∀ id after value, .ins id after value ∈ network.produced →
    id.c ≤ (network.replicas id.r).clock

/-- What holds of a sound network wherever its insertions hang. -/
structure Network.Consistent (network : Network V) : Prop where
  holds : ∀ id, Holds (opsOf (network.applied id)) (network.replicas id)
  ids : ∀ id, (network.replicas id).replicaId = id
  known : ∀ id, opsOf (network.applied id) ⊆ opsOf network.produced
  coherent : Coherent (opsOf network.produced)
  own : ∀ id after value, .ins id after value ∈ network.produced →
    id.c ≤ (network.replicas id.r).clock

theorem Network.Sound.consistent {network : Network V} (sound : network.Sound) :
    network.Consistent :=
  ⟨sound.holds, sound.ids, sound.known, sound.coherent, sound.own⟩

theorem Network.Consistent.sound {network : Network V} (consistent : network.Consistent)
    (ranked : Ranked (opsOf network.produced)) : network.Sound :=
  ⟨consistent.holds, consistent.ids, consistent.known, consistent.coherent, ranked,
    consistent.own⟩

theorem Network.Consistent.coherent_applied {network : Network V}
    (consistent : network.Consistent) (id : JsString) :
    Coherent (opsOf (network.applied id)) where
  unique _ _ _ _ _ member member' := consistent.coherent.unique _ _ _ _ _
    (consistent.known id member) (consistent.known id member')
  target _ member := consistent.coherent.target _ (consistent.known id member)

section Steps

variable {network : Network V}

theorem Network.Sound.initial : (Network.initial : Network V).Sound where
  holds id := by
    have noOps : opsOf ((Network.initial : Network V).applied id) = ∅ := by
      ext op
      simp [opsOf, Network.initial]
    rw [noOps]
    exact Holds.new id
  ids _ := rfl
  known _ _ member := absurd member List.not_mem_nil
  coherent := ⟨fun _ _ _ _ _ member => absurd member List.not_mem_nil,
    fun _ member => absurd member List.not_mem_nil⟩
  ranked _ _ _ member := absurd member List.not_mem_nil
  own _ _ _ member := absurd member List.not_mem_nil

theorem setReplica_replicas (network : Network V) (id : JsString) (rga : RGA V) (op : Op V)
    (other : JsString) : (network.setReplica id rga op).replicas other =
      if other = id then rga else network.replicas other := by
  by_cases same : other = id
  · rw [if_pos same, same]
    exact Function.update_self ..
  · rw [if_neg same]
    exact Function.update_of_ne same ..

theorem setReplica_applied (network : Network V) (id : JsString) (rga : RGA V) (op : Op V)
    (other : JsString) : (network.setReplica id rga op).applied other =
      if other = id then op :: network.applied id else network.applied other := by
  by_cases same : other = id
  · rw [if_pos same, same]
    exact Function.update_self ..
  · rw [if_neg same]
    exact Function.update_of_ne same ..

/-- A replica applies an operation, new or known. -/
theorem Network.Consistent.setReplica (consistent : network.Consistent) {id : JsString} {rga : RGA V} {op : Op V}
    {produced : List (Op V)} (grown : opsOf network.produced ⊆ opsOf produced)
    (isKnown : op ∈ opsOf produced) (coherent : Coherent (opsOf produced))
    (applied : Applied (insert op (opsOf (network.applied id))) (network.replicas id) rga)
    (own : ∀ nodeId after value, .ins nodeId after value ∈ produced →
      .ins nodeId after value ∈ network.produced ∨ nodeId.r = id ∧ nodeId.c ≤ rga.clock) :
    { network.setReplica id rga op with produced := produced }.Consistent := by
  refine ⟨fun other => ?_, fun other => ?_, fun other => ?_, coherent, ?_⟩
  · dsimp only
    rw [setReplica_replicas, setReplica_applied]
    split
    · rw [opsOf_cons]
      exact applied.holds
    · exact consistent.holds other
  · dsimp only
    rw [setReplica_replicas]
    split
    · rename_i same
      rw [same, applied.replicaId, consistent.ids]
    · exact consistent.ids other
  · dsimp only
    rw [setReplica_applied]
    split
    · rw [opsOf_cons]
      exact Set.insert_subset isKnown ((consistent.known id).trans grown)
    · exact (consistent.known other).trans grown
  · intro nodeId after value member
    dsimp only
    rw [setReplica_replicas]
    rcases own nodeId after value member with isOld | ⟨isOwn, bound⟩
    · have before := consistent.own nodeId after value isOld
      split
      · rename_i same
        rw [same] at before
        exact before.trans applied.clock
      · exact before
    · rw [if_pos isOwn]
      exact bound

/-- A local insertion, wherever it hangs. -/
theorem Network.Consistent.insertAt (consistent : network.Consistent) {id : JsString}
    {keys : List Key} (isVisible : (network.replicas id).visibleKeys = some keys) {index : Int}
    (value : V) {op : Op V} (isOp : op = .ins ⟨(network.replicas id).clock + 1, id⟩
      (if index ≤ 0 then ROOT else RGA.elementAt keys (index - 1)) value) :
    ∃ rga, (network.replicas id).insertAt index value = some (rga, op) ∧
      (network.edit id rga op).Consistent := by
  have holds := consistent.holds id
  obtain ⟨after, isAfter⟩ : ∃ after, after =
    if index ≤ 0 then ROOT else RGA.elementAt keys (index - 1) := ⟨_, rfl⟩
  rw [← isAfter] at isOp
  have isLocal : op =
      .ins ⟨(network.replicas id).clock + 1, (network.replicas id).replicaId⟩ after value := by
    rw [isOp, consistent.ids id]
  have fresh : ∀ after' value',
      .ins ⟨(network.replicas id).clock + 1, id⟩ after' value' ∉ network.produced := by
    intro after' value' member
    have bound := consistent.own _ _ _ member
    dsimp only at bound
    omega
  have coherent : Coherent (opsOf (network.produced ++ [op])) := by
    rw [opsOf_concat, isOp]
    constructor
    · rintro nodeId after₁ value₁ after₂ value₂ (isNew | isOld) (isNew' | isOld')
      · obtain ⟨-, rfl, rfl⟩ := Op.ins.inj isNew
        obtain ⟨-, rfl, rfl⟩ := Op.ins.inj isNew'
        exact ⟨rfl, rfl⟩
      · obtain ⟨rfl, -, -⟩ := Op.ins.inj isNew
        exact absurd isOld' (fresh _ _)
      · obtain ⟨rfl, -, -⟩ := Op.ins.inj isNew'
        exact absurd isOld (fresh _ _)
      · exact consistent.coherent.unique _ _ _ _ _ isOld isOld'
    · rintro key (isNew | isOld)
      · exact nomatch isNew
      · exact consistent.coherent.target key isOld
  have isKnown : op ∈ opsOf (network.produced ++ [op]) := by simp [opsOf]
  have grown : opsOf network.produced ⊆ opsOf (network.produced ++ [op]) := by
    rw [opsOf_concat]
    exact Set.subset_insert _ _
  obtain ⟨rga, isApplied, applied⟩ := apply_applied coherent
    (holds.later (Nat.le_succ (network.replicas id).clock)) ((consistent.known id).trans grown)
    isKnown
  have applied' : Applied (insert op (opsOf (network.applied id))) (network.replicas id) rga :=
    ⟨applied.holds, applied.replicaId, (Nat.le_succ _).trans applied.clock⟩
  refine ⟨rga, ?_, consistent.setReplica grown isKnown coherent applied' ?_⟩
  · rw [RGA.insertAt, isVisible]
    simp only [Option.bind_eq_bind, Option.bind_some, ← isAfter, ← isLocal]
    exact congrArg (Option.bind · fun rga => some (rga, op)) isApplied
  · intro nodeId after' value' member
    rcases List.mem_append.mp member with isOld | isNew
    · exact .inl isOld
    · obtain ⟨rfl, rfl, rfl⟩ := Op.ins.inj ((List.mem_singleton.mp isNew).trans isOp)
      have member : op ∈ insert op (opsOf (network.applied id)) := .inl rfl
      rw [isOp] at member applied'
      exact .inr ⟨rfl, applied'.holds.clock _ _ _ member⟩

/-- A local deletion of a node. -/
theorem Network.Consistent.deleteAt (consistent : network.Consistent) {id : JsString}
    {keys : List Key} (isVisible : (network.replicas id).visibleKeys = some keys) {index : Int}
    {key : Key} (isKey : RGA.elementAt keys index = key) (inside : key ≠ ⊥) (notRoot : key ≠ ROOT) :
    ∃ rga, (network.replicas id).deleteAt index = some (rga, some (.del key)) ∧
      (network.edit id rga (.del key)).Consistent := by
  have coherent : Coherent (opsOf (network.produced ++ [.del key])) := by
    rw [opsOf_concat]
    constructor
    · rintro nodeId after₁ value₁ after₂ value₂ (isNew | isOld) (isNew' | isOld')
      · exact nomatch isNew
      · exact nomatch isNew
      · exact nomatch isNew'
      · exact consistent.coherent.unique _ _ _ _ _ isOld isOld'
    · rintro target (isNew | isOld)
      · rw [Op.del.inj isNew]
        exact notRoot
      · exact consistent.coherent.target target isOld
  have isKnown : .del key ∈ opsOf (network.produced ++ [.del key]) := by simp [opsOf]
  have grown : opsOf network.produced ⊆ opsOf (network.produced ++ [.del key]) := by
    rw [opsOf_concat]
    exact Set.subset_insert _ _
  obtain ⟨rga, isApplied, applied⟩ := apply_applied coherent (consistent.holds id)
    ((consistent.known id).trans grown) isKnown
  refine ⟨rga, ?_, consistent.setReplica grown isKnown coherent applied ?_⟩
  · rw [RGA.deleteAt, isVisible]
    simp only [Option.bind_eq_bind, Option.bind_some, isKey, if_neg inside, isApplied]
  · intro nodeId after' value' member
    rcases List.mem_append.mp member with isOld | isNew
    · exact .inl isOld
    · exact nomatch List.mem_singleton.mp isNew

theorem Network.Consistent.deliver (consistent : network.Consistent) (id : JsString) {op : Op V}
    (isKnown : op ∈ network.produced) :
    ∃ rga, (network.replicas id).apply op = some rga ∧
      (network.setReplica id rga op).Consistent := by
  obtain ⟨rga, isApplied, applied⟩ := apply_applied consistent.coherent (consistent.holds id)
    (consistent.known id) isKnown
  exact ⟨rga, isApplied, consistent.setReplica le_rfl isKnown consistent.coherent applied
    fun _ _ _ member => .inl member⟩

theorem Network.Sound.visible_total (sound : network.Sound) (id : JsString) :
    ∃ nodes, (network.replicas id).visible = some nodes ∧
      ∀ node ∈ nodes, node ∈ (network.replicas id).values := by
  have ranked : Ranked (opsOf (network.applied id)) := fun nodeId after value member =>
    sound.ranked nodeId after value (sound.known id member)
  obtain ⟨nodes, isOrdered⟩ := ordered_total ((sound.holds id).ranked ranked)
  refine ⟨nodes.filter fun node => !node.deleted, by rw [RGA.visible, isOrdered]; rfl, ?_⟩
  exact fun node member => walk_mem isOrdered node (List.mem_of_mem_filter member)

/-- A visible key belongs to an insertion that the replica applied. -/
theorem Network.Sound.visibleKeys_total (sound : network.Sound) (id : JsString) :
    ∃ keys, (network.replicas id).visibleKeys = some keys ∧ ∀ key ∈ keys,
      ∃ nodeId after value, key = idKey nodeId ∧
        .ins nodeId after value ∈ opsOf (network.applied id) := by
  obtain ⟨nodes, isVisible, areNodes⟩ := sound.visible_total id
  refine ⟨nodes.map Node.key, by rw [RGA.visibleKeys, isVisible]; rfl, fun key member => ?_⟩
  obtain ⟨node, isNode, rfl⟩ := List.mem_map.mp member
  obtain ⟨key, found⟩ := mem_values.mp (areNodes node isNode)
  have describes := (sound.holds id).sound key node found
  exact ⟨node.id, node.after, node.value, describes.sameKey.trans describes.isKey.symm,
    describes.member⟩

theorem elementAt_mem {keys : List Key} {index : Int} (found : RGA.elementAt keys index ≠ ⊥) :
    RGA.elementAt keys index ∈ keys := by
  rw [RGA.elementAt] at found ⊢
  split
  · rename_i positive
    rw [if_pos positive] at found
    by_cases inside : index.toNat < keys.length
    · rw [List.getD_eq_getElem _ _ inside]
      exact List.getElem_mem inside
    · rw [List.getD_eq_default _ _ (by omega)] at found
      exact absurd rfl found
  · rename_i negative
    rw [if_neg negative] at found
    exact absurd rfl found

theorem elementAt_mem_of_lt (keys : List Key) {index : Int} (lower : 0 ≤ index)
    (upper : index < keys.length) : RGA.elementAt keys index ∈ keys := by
  have inside : index.toNat < keys.length := by omega
  rw [RGA.elementAt, if_pos lower, List.getD_eq_getElem _ _ inside]
  exact List.getElem_mem inside

theorem insertAt_sound (sound : network.Sound) {id : JsString} {index : Int} (value : V)
    (allowed : network.Allowed (.insertAt id index value)) :
    ∃ rga op, (network.replicas id).insertAt index value = some (rga, op) ∧
      (network.edit id rga op).Sound := by
  obtain ⟨keys, isVisible, areKeys⟩ := sound.visibleKeys_total id
  have inside := allowed.2 keys isVisible
  have positive := allowed.1
  obtain ⟨op, isOp⟩ : ∃ op : Op V, op = .ins ⟨(network.replicas id).clock + 1, id⟩
    (if index ≤ 0 then ROOT else RGA.elementAt keys (index - 1)) value := ⟨_, rfl⟩
  obtain ⟨rga, inserted, consistent⟩ := sound.consistent.insertAt isVisible value isOp
  refine ⟨rga, op, inserted, consistent.sound ?_⟩
  rw [Network.edit, opsOf_concat, isOp]
  rintro nodeId after' value' (isNew | isOld)
  · -- The new node hangs on the root or on a visible node.
    obtain ⟨rfl, rfl, rfl⟩ := Op.ins.inj isNew
    by_cases isStart : index ≤ 0
    · exact .inl (if_pos isStart)
    · rw [if_neg isStart]
      have member := elementAt_mem_of_lt keys
        (by omega : 0 ≤ index - 1) (by omega)
      obtain ⟨before, after', value', isKey, isIns⟩ := areKeys _ member
      have bound := (sound.holds id).clock _ _ _ isIns
      exact .inr ⟨before, isKey, Nat.lt_succ_of_le bound⟩
  · exact sound.ranked nodeId after' value' isOld

theorem deleteAt_sound (sound : network.Sound) (id : JsString) (index : Int) :
    ∃ rga op, (network.replicas id).deleteAt index = some (rga, op) ∧
      ∀ del, op = some del → (network.edit id rga del).Sound := by
  obtain ⟨keys, isVisible, areKeys⟩ := sound.visibleKeys_total id
  by_cases outside : RGA.elementAt keys index = ⊥
  · refine ⟨network.replicas id, none, ?_, fun del isDel => nomatch isDel⟩
    rw [RGA.deleteAt, isVisible]
    simp only [Option.bind_eq_bind, Option.bind_some, if_pos outside]
  · obtain ⟨nodeId, after, value, isKey, -⟩ := areKeys _ (elementAt_mem outside)
    obtain ⟨rga, deleted, consistent⟩ := sound.consistent.deleteAt isVisible rfl outside
      (isKey ▸ idKey_ne_root nodeId)
    refine ⟨rga, _, deleted, fun del isDel => ?_⟩
    obtain rfl := Option.some.inj isDel
    apply consistent.sound
    rw [Network.edit, opsOf_concat]
    rintro nodeId after' value' (isNew | isOld)
    · exact nomatch isNew
    · exact sound.ranked nodeId after' value' isOld

theorem deliver_sound (sound : network.Sound) (id : JsString) {op : Op V}
    (isKnown : op ∈ network.produced) :
    ∃ rga, (network.replicas id).apply op = some rga ∧ (network.setReplica id rga op).Sound := by
  obtain ⟨rga, isApplied, consistent⟩ := sound.consistent.deliver id isKnown
  exact ⟨rga, isApplied, consistent.sound sound.ranked⟩

/-- Every allowed action returns and keeps the network sound. -/
theorem step_sound (sound : network.Sound) {action : Action V} (allowed : network.Allowed action) :
    ∃ next, network.step action = some next ∧ next.Sound := by
  cases action with
  | insertAt id index value =>
      obtain ⟨rga, op, inserted, sound'⟩ := insertAt_sound sound value allowed
      exact ⟨_, by rw [Network.step, inserted]; rfl, sound'⟩
  | deleteAt id index =>
      obtain ⟨rga, op, deleted, sound'⟩ := deleteAt_sound sound id index
      cases op with
      | none => exact ⟨network, by rw [Network.step, deleted]; rfl, sound⟩
      | some op => exact ⟨_, by rw [Network.step, deleted]; rfl, sound' op rfl⟩
  | deliver id number =>
      rw [Network.step]
      cases found : network.produced[number]? with
      | none => exact ⟨network, rfl, sound⟩
      | some op =>
          obtain ⟨rga, isApplied, sound'⟩ := deliver_sound sound id (List.mem_of_getElem? found)
          exact ⟨_, by simp only [isApplied]; rfl, sound'⟩

theorem reachable_sound (reachable : network.Reachable) : network.Sound := by
  induction reachable with
  | initial => exact .initial
  | step _ allowed stepped induction =>
      obtain ⟨next, isNext, sound⟩ := step_sound induction allowed
      obtain rfl := Option.some.inj (stepped.symm.trans isNext)
      exact sound

end Steps

/-! ## Strong eventual consistency -/

/-- In every reachable network the next action returns, replicas that applied the same
operations hold the same nodes and the same deferred operations and render the same
array, and nothing is deferred where every dependency was applied. -/
theorem rga_converges {network : Network V} (reachable : network.Reachable) :
    (∀ action, network.Allowed action → ∃ next, network.step action = some next) ∧
      (∀ id id', (∀ op, op ∈ network.applied id ↔ op ∈ network.applied id') →
        (network.replicas id).nodes = (network.replicas id').nodes ∧
        (∀ key op, op ∈ ((network.replicas id).pending.get key).getD [] ↔
          op ∈ ((network.replicas id').pending.get key).getD []) ∧
        ∃ array, (network.replicas id).toArray = some array ∧
          (network.replicas id').toArray = some array) ∧
      ∀ id, (∀ op ∈ network.applied id, Satisfied (opsOf (network.applied id)) op) →
        (network.replicas id).pending = .empty := by
  have sound := reachable_sound reachable
  have coherent (id : JsString) : Coherent (opsOf (network.applied id)) :=
    ⟨fun _ _ _ _ _ member member' => sound.coherent.unique _ _ _ _ _ (sound.known id member)
      (sound.known id member'), fun key member => sound.coherent.target key (sound.known id member)⟩
  refine ⟨fun action allowed => ?_, fun id id' same => ?_, fun id satisfied => ?_⟩
  · obtain ⟨next, stepped, -⟩ := step_sound sound allowed
    exact ⟨next, stepped⟩
  · have sameOps : opsOf (network.applied id) = opsOf (network.applied id') := Set.ext same
    have holds := sameOps ▸ sound.holds id
    have sameNodes := holds.nodes_eq (sound.holds id') (coherent id')
    refine ⟨sameNodes, holds.waits_eq (sound.holds id'), ?_⟩
    obtain ⟨nodes, isVisible, -⟩ := sound.visible_total id
    have isArray : (network.replicas id).toArray = some (nodes.map Node.value) := by
      rw [RGA.toArray, isVisible]
      rfl
    exact ⟨_, isArray, (toArray_congr sameNodes).symm.trans isArray⟩
  · have ranked : Ranked (opsOf (network.applied id)) := fun nodeId after value member =>
      sound.ranked nodeId after value (sound.known id member)
    exact (sound.holds id).pending_empty (grounded_of_satisfied ranked satisfied)

/-- Actions that are allowed everywhere lead to reachable networks. -/
theorem Network.Reachable.run {actions : List (Action V)}
    (free : ∀ action ∈ actions, ∀ network : Network V, network.Allowed action) :
    ∀ {network final : Network V}, network.Reachable →
      actions.foldlM Network.step network = some final → final.Reachable := by
  induction actions with
  | nil =>
      intro network final reachable ran
      obtain rfl := Option.some.inj ran
      exact reachable
  | cons action actions induction =>
      intro network final reachable ran
      obtain ⟨next, stepped, ran⟩ := Option.bind_eq_some_iff.mp ran
      exact induction (fun other member => free other (.tail _ member))
        (reachable.step (free action List.mem_cons_self network) stepped) ran

/-- Two replicas insert at the same place and then hear of each other. -/
def crossedActions : List (Action Nat) :=
  [.insertAt [0x61] 0 10, .insertAt [0x62] 0 20, .deliver [0x62] 0, .deliver [0x61] 1]

theorem rga_converges_crossed : ∃ network : Network Nat,
    crossedActions.foldlM Network.step Network.initial = some network ∧
      (network.replicas [0x61]).nodes = (network.replicas [0x62]).nodes := by
  have evaluated : (crossedActions.foldlM Network.step Network.initial).map
      (fun network => (network.applied [0x61], network.applied [0x62])) =
      some ([.ins ⟨1, [0x62]⟩ ROOT 20, .ins ⟨1, [0x61]⟩ ROOT 10],
        [.ins ⟨1, [0x61]⟩ ROOT 10, .ins ⟨1, [0x62]⟩ ROOT 20]) := by decide +kernel
  obtain ⟨network, ran, isApplied⟩ := Option.map_eq_some_iff.mp evaluated
  obtain ⟨appliedA, appliedB⟩ := Prod.mk.inj isApplied
  have reachable : network.Reachable := by
    refine Network.Reachable.run (fun action member network => ?_) .initial ran
    simp only [crossedActions, List.mem_cons, List.not_mem_nil, or_false] at member
    rcases member with rfl | rfl | rfl | rfl
    · exact ⟨le_rfl, fun keys _ => Int.natCast_nonneg _⟩
    · exact ⟨le_rfl, fun keys _ => Int.natCast_nonneg _⟩
    · trivial
    · trivial
  refine ⟨network, ran, ((rga_converges reachable).2.1 _ _ fun op => ?_).1⟩
  rw [appliedA, appliedB]
  exact (List.Perm.swap _ _ _).mem_iff

end FoundationsLab.Crdt
