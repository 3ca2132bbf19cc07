import FoundationsLab.Signals.Effects

namespace FoundationsLab.Signals

variable {Value : Type} {graph : DemandGraph Value} {inputs : Nat → Value} {world : World Value}

/-! ## What marking may change

Marking changes colours, in one direction only, and the queue. Whatever it makes stale, it
makes everything that reads it stale too. -/

structure Marked (before after : World Value) : Prop where
  rest : after = { before with state := after.state, pendingEffects := after.pendingEffects }
  staler : ∀ id, (before.state id).staleness ≤ (after.state id).staleness
  spread : ∀ id, before.state id = .clean → after.state id ≠ .clean →
    ∀ observer ∈ before.observersOf id, after.state observer ≠ .clean
  queued : ∀ index, before.state (.effect index) = .clean → after.state (.effect index) ≠ .clean →
    index ∈ after.pendingEffects
  kept : ∀ index ∈ before.pendingEffects, index ∈ after.pendingEffects
  unread : ∀ id, (∀ source, id ∉ before.observers source) → after.state id = before.state id

theorem ne_clean_of_staler {first second : Color} (isStaler : first.staleness ≤ second.staleness)
    (isStale : first ≠ .clean) : second ≠ .clean := by
  rintro rfl
  cases first with
  | clean => exact isStale rfl
  | check => cases isStaler
  | dirty => cases isStaler

theorem eq_clean_of_staler {first second : Color} (isStaler : first.staleness ≤ second.staleness)
    (isClean : second = .clean) : first = .clean := by
  by_contra isStale
  exact ne_clean_of_staler isStaler isStale isClean

namespace Marked

variable {first second third : World Value}

theorem refl (world : World Value) : Marked world world where
  rest := rfl
  staler _ := Nat.le_refl _
  spread _ isClean isStale := absurd isClean isStale
  queued _ isClean isStale := absurd isClean isStale
  kept _ member := member
  unread _ _ := rfl

theorem observers (marked : Marked first second) : second.observers = first.observers :=
  congrArg (fun world => world.observers) marked.rest

theorem observersOf (marked : Marked first second) (id : Id) :
    second.observersOf id = first.observersOf id := by
  cases id with
  | node index => exact congrFun marked.observers index
  | effect index => rfl

theorem agenda (marked : Marked first second) :
    second.toAgenda = { first.toAgenda with pendingEffects := second.pendingEffects } :=
  congrArg World.toAgenda marked.rest

theorem trans (before : Marked first second) (after : Marked second third) :
    Marked first third where
  rest := by rw [after.rest, before.rest]
  staler id := (before.staler id).trans (after.staler id)
  spread id isClean isStale observer member := by
    by_cases middleClean : second.state id = .clean
    · exact after.spread id middleClean isStale observer (before.observersOf id ▸ member)
    · exact ne_clean_of_staler (after.staler observer)
        (before.spread id isClean middleClean observer member)
  queued index isClean isStale := by
    by_cases middleClean : second.state (.effect index) = .clean
    · exact after.queued index middleClean isStale
    · exact after.kept index (before.queued index isClean middleClean)
  kept index member := after.kept index (before.kept index member)
  unread id notRead :=
    (after.unread id (by rw [before.observers]; exact notRead)).trans (before.unread id notRead)

end Marked

/-! ## Marking ends

Every mark that goes on has made a clean id stale, of which there are finitely many. -/

def everyId (graph : DemandGraph Value) (world : World Value) : Finset Id :=
  (Finset.range graph.size).image .node ∪ (Finset.range world.created).image .effect

def cleanIds (graph : DemandGraph Value) (world : World Value) : Finset Id :=
  (everyId graph world).filter (world.state · = .clean)

/-- Only ids that there are read anything. -/
def Covered (graph : DemandGraph Value) (world : World Value) : Prop :=
  ∀ source, ∀ id ∈ world.observers source, id ∈ everyId graph world

theorem card_everyId_le (graph : DemandGraph Value) (world : World Value) :
    (everyId graph world).card ≤ graph.size + world.created := by
  have nodes : ((Finset.range graph.size).image Id.node).card ≤ graph.size :=
    Finset.card_image_le.trans (Finset.card_range _).le
  have effects : ((Finset.range world.created).image Id.effect).card ≤ world.created :=
    Finset.card_image_le.trans (Finset.card_range _).le
  exact (Finset.card_union_le _ _).trans (Nat.add_le_add nodes effects)

theorem card_cleanIds_le (graph : DemandGraph Value) (world : World Value) :
    (cleanIds graph world).card ≤ graph.size + world.created :=
  (Finset.card_filter_le _ _).trans (card_everyId_le graph world)

section

variable {after : World Value}

theorem Marked.everyId (marked : Marked world after) :
    everyId graph after = everyId graph world := by
  rw [Signals.everyId, Signals.everyId, marked.agenda]

theorem Marked.covered (marked : Marked world after) (covered : Covered graph world) :
    Covered graph after := by
  intro source id member
  rw [marked.everyId]
  exact covered source id (marked.observers ▸ member)

theorem Marked.cleanIds_subset (graph : DemandGraph Value) (marked : Marked world after) :
    cleanIds graph after ⊆ cleanIds graph world := by
  intro id member
  obtain ⟨isThere, isClean⟩ := Finset.mem_filter.mp member
  exact Finset.mem_filter.mpr
    ⟨marked.everyId ▸ isThere, eq_clean_of_staler (marked.staler id) isClean⟩

end

theorem markAll_spec (mark : Id → World Value → Option (World Value)) (state : Color)
    (ids : List Id)
    (spec : ∀ id ∈ ids, ∀ middle, Marked world middle → ∃ after, mark id middle = some after ∧
      Marked middle after ∧ state.staleness ≤ (after.state id).staleness) :
    ∃ after, markAll mark ids world = some after ∧ Marked world after ∧
      ∀ id ∈ ids, state.staleness ≤ (after.state id).staleness := by
  induction ids generalizing world with
  | nil => exact ⟨world, rfl, Marked.refl world, nofun⟩
  | cons id rest induction =>
      obtain ⟨middle, isMark, marked, isStale⟩ :=
        spec id List.mem_cons_self world (Marked.refl world)
      obtain ⟨after, isRest, restMarked, restStale⟩ :=
        induction fun other member later isLater =>
          spec other (List.mem_cons_of_mem _ member) later (marked.trans isLater)
      refine ⟨after, ?_, marked.trans restMarked, fun other member => ?_⟩
      · rw [markAll, isMark]
        exact isRest
      · rcases List.mem_cons.mp member with rfl | member
        · exact isStale.trans (restMarked.staler other)
        · exact restStale other member

/-- The one colour that a mark changes before it is passed on. -/
structure Stained (state : Color) (id : Id) (before after : World Value) : Prop where
  rest : after = { before with state := after.state, pendingEffects := after.pendingEffects }
  self : after.state id = state
  others : ∀ other, other ≠ id → after.state other = before.state other
  kept : ∀ index ∈ before.pendingEffects, index ∈ after.pendingEffects
  queued : ∀ index, id = .effect index → before.state id = .clean → index ∈ after.pendingEffects

theorem stain_spec (state : Color) (id : Id) (world : World Value) :
    Stained state id world (stain state id world) := by
  have self : (world.setState id state).state id = state := Function.update_self ..
  have others : ∀ other, other ≠ id → (world.setState id state).state other = world.state other :=
    fun other different => Function.update_of_ne different _ _
  cases id with
  | node index => exact ⟨rfl, self, others, fun _ member => member, nofun⟩
  | effect index =>
      rw [stain]
      split
      next =>
        refine ⟨rfl, self, others, fun _ member => List.mem_append_left _ member, ?_⟩
        rintro _ ⟨⟩ -
        exact List.mem_append_right _ List.mem_cons_self
      next isStale =>
        exact ⟨rfl, self, others, fun _ member => member, fun _ _ isClean => absurd isClean isStale⟩

namespace Stained

variable {state : Color} {id : Id} {before middle after : World Value}

theorem observers (stained : Stained state id before middle) :
    middle.observers = before.observers :=
  congrArg (fun world => world.observers) stained.rest

theorem everyId (stained : Stained state id before middle) :
    everyId graph middle = everyId graph before := by
  have sameCreated : middle.created = before.created :=
    congrArg (fun world => world.created) stained.rest
  rw [Signals.everyId, Signals.everyId, sameCreated]

theorem cleanIds_subset (graph : DemandGraph Value) (stained : Stained state id before middle)
    (isMark : state ≠ .clean) :
    cleanIds graph middle ⊆ (cleanIds graph before).erase id := by
  intro other member
  obtain ⟨isThere, isClean⟩ := Finset.mem_filter.mp member
  have different : other ≠ id := by
    rintro rfl
    exact isMark (stained.self.symm.trans isClean)
  rw [stained.everyId] at isThere
  exact Finset.mem_erase.mpr ⟨different,
    Finset.mem_filter.mpr ⟨isThere, (stained.others other different).symm.trans isClean⟩⟩

/-- A mark that makes a clean id stale leaves fewer of them; one that makes a checked id dirty
does not leave more. -/
theorem card_cleanIds (stained : Stained state id before middle) (isMark : state ≠ .clean)
    (isThere : id ∈ Signals.everyId graph before)
    (notStale : ¬ state.staleness ≤ (before.state id).staleness) :
    (cleanIds graph middle).card + 1 ≤
      (cleanIds graph before).card + (if state = .dirty then 1 else 0) := by
  have atMost := Finset.card_le_card (stained.cleanIds_subset graph isMark)
  by_cases isClean : before.state id = .clean
  · have member : id ∈ cleanIds graph before := Finset.mem_filter.mpr ⟨isThere, isClean⟩
    have positive := Finset.card_pos.mpr ⟨id, member⟩
    rw [Finset.card_erase_of_mem member] at atMost
    omega
  · have isDirty : state = .dirty := by
      cases state with
      | clean => exact absurd rfl isMark
      | check => cases isState : before.state id <;> simp_all [Color.staleness]
      | dirty => rfl
    have fewer := Finset.card_le_card (Finset.erase_subset id (cleanIds graph before))
    rw [if_pos isDirty]
    omega

theorem marked (stained : Stained state id before middle) (marked : Marked middle after)
    (isRead : ∃ source, id ∈ before.observers source)
    (notStale : ¬ state.staleness ≤ (before.state id).staleness)
    (passedOn : ∀ observer ∈ before.observersOf id, after.state observer ≠ .clean) :
    Marked before after where
  rest := by rw [marked.rest, stained.rest]
  staler other := by
    rcases eq_or_ne other id with rfl | different
    · have := marked.staler other
      rw [stained.self] at this
      omega
    · exact stained.others other different ▸ marked.staler other
  spread other isClean isStale := by
    rcases eq_or_ne other id with rfl | different
    · exact passedOn
    · have same : middle.observersOf other = before.observersOf other := by
        cases other with
        | node index => exact congrFun stained.observers index
        | effect index => rfl
      rw [← same]
      exact marked.spread other ((stained.others other different).trans isClean) isStale
  queued index isClean isStale := by
    rcases eq_or_ne (Id.effect index) id with same | different
    · exact marked.kept index (stained.queued index same.symm (same ▸ isClean))
    · exact marked.queued index ((stained.others _ different).trans isClean) isStale
  kept index member := marked.kept index (stained.kept index member)
  unread other notRead := by
    have different : other ≠ id := by
      rintro rfl
      obtain ⟨source, member⟩ := isRead
      exact notRead source member
    exact (marked.unread other (by rw [stained.observers]; exact notRead)).trans
      (stained.others other different)

end Stained

/-- A mark on what reads some source marks everything above it: by induction on how many ids
are left to make stale. -/
theorem markStale_spec (fuel : Nat) (state : Color) (isMark : state ≠ .clean) (id : Id)
    (covered : Covered graph world) (isRead : ∃ source, id ∈ world.observers source)
    (enough : (cleanIds graph world).card + (if state = .dirty then 1 else 0) < fuel) :
    ∃ after, markStale fuel state id world = some after ∧ Marked world after ∧
      state.staleness ≤ (after.state id).staleness := by
  induction fuel generalizing state id world with
  | zero => omega
  | succ fuel induction =>
      rw [markStale]
      split
      next isStale => exact ⟨world, rfl, Marked.refl world, isStale⟩
      next notStale =>
        have stained := stain_spec state id world
        generalize stain state id world = middle at stained ⊢
        have isThere : id ∈ everyId graph world :=
          isRead.elim fun source member => covered source id member
        have fewer := stained.card_cleanIds isMark isThere notStale
        have middleCovered : Covered graph middle := by
          intro source observer member
          rw [stained.everyId]
          exact covered source observer (stained.observers ▸ member)
        have marks : ∃ after, markAll (markStale fuel .check) (world.observersOf id) middle =
            some after ∧ Marked middle after ∧ ∀ observer ∈ world.observersOf id,
              Color.check.staleness ≤ (after.state observer).staleness := by
          refine markAll_spec _ _ _ fun observer member later marked => ?_
          have isObserver : ∃ source, observer ∈ world.observers source := by
            cases id with
            | node index => exact ⟨index, member⟩
            | effect index => cases member
          refine induction .check nofun observer (marked.covered middleCovered)
            (by rw [marked.observers, stained.observers]; exact isObserver) ?_
          have atMost := Finset.card_le_card (marked.cleanIds_subset graph)
          simp only [reduceCtorEq, if_false]
          omega
        obtain ⟨after, isAfter, marked, observersStale⟩ := marks
        refine ⟨after, isAfter, stained.marked marked isRead notStale
          fun observer member => ne_clean_of_staler (observersStale observer member) nofun, ?_⟩
        exact stained.self ▸ marked.staler id

end FoundationsLab.Signals
