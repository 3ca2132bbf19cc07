import FoundationsLab.Crdt.RgaOrder

/-! # Text is never reordered

The operations that a replica has applied only become more, and with them the walk:
what was there keeps its order, and what was deleted stays deleted. -/

namespace FoundationsLab.Crdt

open Foundation

variable {V : Type}

namespace Network

/-- A run goes on from the first network to the second. -/
inductive Leads (network : Network V) : Network V → Prop
  | here : Leads network network
  | step {later next : Network V} {action : Action V} (leads : Leads network later)
      (allowed : later.Allowed action) (stepped : later.step action = some next) :
      Leads network next

variable {network later next : Network V}

theorem Leads.reachable (leads : network.Leads later) (reachable : network.Reachable) :
    later.Reachable := by
  induction leads with
  | here => exact reachable
  | step _ allowed stepped induction => exact induction.step allowed stepped

theorem setReplica_grown (network : Network V) (id : JsString) (rga : RGA V) (op : Op V)
    (other : JsString) :
    opsOf (network.applied other) ⊆ opsOf ((network.setReplica id rga op).applied other) := by
  rw [setReplica_applied]
  split
  · rename_i same
    rw [same, opsOf_cons]
    exact Set.subset_insert _ _
  · exact le_rfl

theorem step_grown {action : Action V} (stepped : network.step action = some next)
    (id : JsString) : opsOf (network.applied id) ⊆ opsOf (next.applied id) := by
  cases action with
  | insertAt editor index value =>
      obtain ⟨⟨rga, op⟩, -, stepped⟩ := Option.bind_eq_some_iff.mp stepped
      obtain rfl := Option.some.inj stepped
      exact network.setReplica_grown editor rga op id
  | deleteAt editor index =>
      obtain ⟨⟨rga, edited⟩, -, stepped⟩ := Option.bind_eq_some_iff.mp stepped
      cases edited with
      | none =>
          obtain rfl := Option.some.inj stepped
          exact le_rfl
      | some op =>
          obtain rfl := Option.some.inj stepped
          exact network.setReplica_grown editor rga op id
  | deliver receiver number =>
      rw [step] at stepped
      cases found : network.produced[number]? with
      | none =>
          rw [found] at stepped
          obtain rfl := Option.some.inj stepped
          exact le_rfl
      | some op =>
          rw [found] at stepped
          obtain ⟨rga, -, stepped⟩ := Option.bind_eq_some_iff.mp stepped
          obtain rfl := Option.some.inj stepped
          exact network.setReplica_grown receiver rga op id

theorem Leads.grown (leads : network.Leads later) (id : JsString) :
    opsOf (network.applied id) ⊆ opsOf (later.applied id) := by
  induction leads with
  | here => exact le_rfl
  | step _ _ stepped induction => exact induction.trans (step_grown stepped id)

theorem Sound.coherent_applied (sound : network.Sound) (id : JsString) :
    Coherent (opsOf (network.applied id)) :=
  sound.consistent.coherent_applied id

theorem Sound.ranked_applied (sound : network.Sound) (id : JsString) :
    Ranked (opsOf (network.applied id)) :=
  fun _ _ _ member => sound.ranked _ _ _ (sound.known id member)

theorem Sound.ordered_total (sound : network.Sound) (id : JsString) :
    ∃ nodes, (network.replicas id).ordered = some nodes :=
  Crdt.ordered_total ((sound.holds id).ranked (sound.ranked_applied id))

end Network

/-! ## The order is stable -/

/-- From every reachable network on, along every run, the next action returns, the walk
of a replica before is a subsequence of the walk after, which has every node once, and
a node is still the one it was and stays deleted if it was. -/
theorem rga_never_reorders {network later : Network V} (reachable : network.Reachable)
    (leads : network.Leads later) :
    (∀ action, later.Allowed action → ∃ next, later.step action = some next) ∧
      ∀ id, ∃ before after, (network.replicas id).ordered = some before ∧
        (later.replicas id).ordered = some after ∧
        (before.map Node.key).Sublist (after.map Node.key) ∧
        (after.map Node.key).Nodup ∧ after.Perm (later.replicas id).values ∧
        ∀ node ∈ before, ∀ node' ∈ after, node'.key = node.key → node.Persists node' := by
  have sound := reachable_sound reachable
  have sound' := reachable_sound (leads.reachable reachable)
  constructor
  · intro action allowed
    obtain ⟨next, stepped, -⟩ := step_sound sound' allowed
    exact ⟨next, stepped⟩
  intro id
  have grown := leads.grown id
  have coherent' := sound'.coherent_applied id
  have holds' := sound'.holds id
  obtain ⟨before, isBefore⟩ := sound.ordered_total id
  obtain ⟨after, isAfter⟩ := sound'.ordered_total id
  have nodup := holds'.ordered_nodup (holds'.ranked (sound'.ranked_applied id)) isAfter
  refine ⟨before, after, isBefore, isAfter,
    (sound.holds id).ordered_sublist holds' coherent' grown isBefore isAfter, nodup, ?_, ?_⟩
  · apply (List.perm_ext_iff_of_nodup (List.Nodup.of_map _ nodup)
      (List.Nodup.of_map _ holds'.values_nodup)).mpr
    exact holds'.mem_ordered coherent' isAfter
  · intro node member node' member' same
    have isNode := walk_mem isBefore node member
    obtain ⟨still, isStill, persists⟩ := (sound.holds id).persists holds' coherent' grown isNode
    have found := (holds'.node_key isStill).2
    have found' := (holds'.node_key (walk_mem isAfter node' member')).2
    rw [persists.key, ← same, found'] at found
    obtain rfl := Option.some.inj found
    exact persists

/-- A replica inserts, another one inserts at the same place, deletes and is heard of. -/
theorem rga_never_reorders_crossed : ∃ network later : Network Nat, ∃ before after,
    crossedActions.foldlM Network.step Network.initial = some network ∧
      network.step (.deleteAt [0x61] 0) = some later ∧
      (network.replicas [0x61]).ordered = some before ∧
      (later.replicas [0x61]).ordered = some after ∧
      (before.map Node.key).Sublist (after.map Node.key) := by
  have evaluated : (crossedActions.foldlM Network.step
      (Network.initial : Network Nat)).isSome = true := by decide +kernel
  obtain ⟨network, ran⟩ := Option.isSome_iff_exists.mp evaluated
  have reachable : network.Reachable := by
    apply Network.Reachable.run _ .initial ran
    intro action member network
    simp only [crossedActions, List.mem_cons, List.not_mem_nil, or_false] at member
    rcases member with rfl | rfl | rfl | rfl
    · exact ⟨le_rfl, fun keys _ => Int.natCast_nonneg _⟩
    · exact ⟨le_rfl, fun keys _ => Int.natCast_nonneg _⟩
    · trivial
    · trivial
  have allowed : network.Allowed (.deleteAt [0x61] 0) := trivial
  obtain ⟨later, stepped⟩ := (rga_never_reorders reachable .here).1 _ allowed
  obtain ⟨before, after, isBefore, isAfter, sublist, -⟩ :=
    (rga_never_reorders reachable (Network.Leads.here.step allowed stepped)).2 [0x61]
  exact ⟨network, later, before, after, ran, stepped, isBefore, isAfter, sublist⟩

end FoundationsLab.Crdt
