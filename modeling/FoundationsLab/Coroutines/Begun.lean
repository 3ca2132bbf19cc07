import FoundationsLab.Coroutines.Coroutine

/-! What the bookkeeping keeps to under any program: which coroutines have begun,
and where the others are parked. -/

namespace FoundationsLab
namespace Coroutines

/-! ## What a switch does to the bookkeeping -/

/-- The pointer that `co_switch` is given along with `&co->slot`. -/
def Slot.restores (co : Coroutine) : Slot → Option Pointer
  | .sp => co.callerSp
  | .callerSp => some co.sp

/-- One of the three calls of `co_switch`: `stored` is the coroutine as the code
before the call leaves it, and `current` is `g_current` at the call. -/
structure Switches (state next : State) (slot : Slot) (co : Co) (stored : Coroutine)
    (current : Option Co) (frame waiting : Frame) (pointer : Pointer) (outcome : Outcome) :
    Prop where
  found : ∃ c, state.deref co = some c ∧ stored.sp = c.sp ∧ stored.callerSp = c.callerSp
  restore : slot.restores stored = some pointer
  waits : Function.update state.parked state.stack (some (state.clock, frame)) pointer.stack =
    some (pointer.stamp, waiting)
  continues : continueAt
    (((state.assign co (slot.store ⟨state.stack, state.clock⟩ stored)).setCurrent
      current).moveTo frame pointer.stack) waiting = some (next, outcome)

theorem coSwitch_inv {state switched : State} {frame waiting : Frame} {slot : Slot} {co : Co}
    {restore : Option Pointer}
    (isSwitch : coSwitch state frame slot co restore = some (switched, waiting)) :
    ∃ saved pointer, state.deref co = some saved ∧ restore = some pointer ∧
      Function.update state.parked state.stack (some (state.clock, frame)) pointer.stack =
        some (pointer.stamp, waiting) ∧
      switched = (state.assign co (slot.store ⟨state.stack, state.clock⟩ saved)).moveTo frame
        pointer.stack := by
  simp only [coSwitch, Option.bind_eq_bind, Option.bind_eq_some_iff] at isSwitch
  obtain ⟨saved, found, pointer, isPointer, ⟨stamp, other⟩, waits, isSwitch⟩ := isSwitch
  split at isSwitch
  next isStamp =>
    cases isSwitch
    exact ⟨saved, pointer, found, isPointer, isStamp ▸ waits, rfl⟩
  next => cases isSwitch

/-- A switch from a state whose coroutine was just written. -/
theorem switches_of_coSwitch {state switched next : State} {frame waiting : Frame} {slot : Slot}
    {co : Co} {c stored : Coroutine} {current : Option Co} {restore : Option Pointer}
    {outcome : Outcome} (found : state.deref co = some c) (sameSp : stored.sp = c.sp)
    (sameCallerSp : stored.callerSp = c.callerSp) (isRestore : slot.restores stored = restore)
    (isSwitch : coSwitch ((state.assign co stored).setCurrent current) frame slot co restore =
      some (switched, waiting))
    (continues : continueAt switched waiting = some (next, outcome)) :
    ∃ pointer, Switches state next slot co stored current frame waiting pointer outcome := by
  obtain ⟨saved, pointer, isSaved, isPointer, waits, isSwitched⟩ := coSwitch_inv isSwitch
  have isStored : saved = stored := by
    rw [deref_setCurrent, deref_assign found, if_pos rfl] at isSaved
    exact (Option.some.inj isSaved).symm
  subst isStored
  refine ⟨pointer, ⟨c, found, sameSp, sameCallerSp⟩, isRestore.trans isPointer, waits, ?_⟩
  rw [isSwitched] at continues
  rw [← assign_assign state co saved]
  exact continues

theorem coResume_inv {state next : State} {co : Co} {input : Value} {outcome : Outcome}
    (resumed : coResume state co input = some (next, outcome)) :
    ∃ c, state.deref co = some c ∧
      ((c.done = true ∧ next = state ∧ outcome = .resumeReturns co 0) ∨
        (c.done = false ∧ ∃ waiting pointer,
          Switches state next .callerSp co { c with value := input, started := true } (some co)
            (.resume co state.gCurrent) waiting pointer outcome)) := by
  simp only [coResume, Option.bind_eq_bind, Option.bind_eq_some_iff] at resumed
  obtain ⟨c, found, resumed⟩ := resumed
  refine ⟨c, found, ?_⟩
  split at resumed
  next isDone =>
    cases resumed
    exact Or.inl ⟨isDone, rfl, rfl⟩
  next notDone =>
    obtain ⟨⟨switched, waiting⟩, isSwitch, continues⟩ := Option.bind_eq_some_iff.mp resumed
    obtain ⟨pointer, switches⟩ :=
      @switches_of_coSwitch _ _ _ _ _ .callerSp _ _ { c with value := input, started := true }
        _ _ _ found rfl rfl rfl isSwitch continues
    exact Or.inr ⟨by simpa using notDone, waiting, pointer, switches⟩

theorem coYield_inv {state next : State} {value : Value} {outcome : Outcome}
    (yielded : coYield state value = some (next, outcome)) :
    ∃ co c waiting pointer, state.gCurrent = some co ∧ state.deref co = some c ∧
      Switches state next .sp co { c with value := value } state.gCurrent (.yield co) waiting
        pointer outcome := by
  simp only [coYield, Option.bind_eq_bind, Option.bind_eq_some_iff] at yielded
  obtain ⟨co, isCurrent, c, found, ⟨switched, waiting⟩, isSwitch, continues⟩ := yielded
  obtain ⟨pointer, switches⟩ :=
    @switches_of_coSwitch _ _ _ _ _ .sp _ _ { c with value := value } state.gCurrent _ _
      found rfl rfl rfl isSwitch continues
  exact ⟨co, c, waiting, pointer, isCurrent, found, switches⟩

theorem coTrampolineEnd_inv {state next : State} {outcome : Outcome}
    (finished : coTrampolineEnd state = some (next, outcome)) :
    ∃ number self c waiting pointer, state.stack = .coroutine number ∧
      state.self number = some self ∧ state.deref self = some c ∧
      Switches state next .sp self { c with done := true, value := 0 } state.gCurrent
        .unreachable waiting pointer outcome := by
  simp only [coTrampolineEnd] at finished
  split at finished
  next => cases finished
  next number isStack =>
    simp only [Option.bind_eq_bind, Option.bind_eq_some_iff] at finished
    obtain ⟨self, isSelf, c, found, ⟨switched, waiting⟩, isSwitch, continues⟩ := finished
    obtain ⟨pointer, switches⟩ :=
      @switches_of_coSwitch _ _ _ _ _ .sp _ _ { c with done := true, value := 0 }
        state.gCurrent _ _ found rfl rfl rfl isSwitch continues
    exact ⟨number, self, c, waiting, pointer, isStack, isSelf, found, switches⟩

/-- The code after a switch writes `g_current`, or the local of the trampoline, and
nothing else. -/
theorem continueAt_inv {state next : State} {waiting : Frame} {outcome : Outcome}
    (continues : continueAt state waiting = some (next, outcome)) :
    next.coroutines = state.coroutines ∧ next.stack = state.stack ∧
      next.parked = state.parked ∧ next.clock = state.clock ∧
      (∀ co, next.gCurrent = some co →
        state.gCurrent = some co ∨ ∃ other, waiting = .resume other (some co)) ∧
      (∀ number co, next.self number = some co →
        state.self number = some co ∨ state.gCurrent = some co) ∧
      (waiting ≠ .trampoline → ∀ co, outcome ≠ .started co) := by
  cases waiting with
  | trampoline =>
      simp only [continueAt] at continues
      split at continues
      next number self isStack isCurrent =>
        cases continues
        refine ⟨rfl, rfl, rfl, rfl, fun co isCo => Or.inl isCo, ?_, fun isWaiting => ?_⟩
        · intro other co isSelf
          by_cases isNumber : other = number
          · subst isNumber
            have isNew := (Function.update_self other (some self) state.self).symm.trans isSelf
            rw [isCurrent]
            exact Or.inr isNew
          · exact Or.inl ((Function.update_of_ne isNumber _ _).symm.trans isSelf)
        · exact absurd rfl isWaiting
      next => cases continues
  | resume co prev =>
      simp only [continueAt, Option.bind_eq_bind, Option.bind_eq_some_iff] at continues
      obtain ⟨c, found, isNext⟩ := continues
      cases isNext
      refine ⟨rfl, rfl, rfl, rfl, ?_, fun _ _ isSelf => Or.inl isSelf, fun _ _ isOutcome => ?_⟩
      · intro other isOther
        exact Or.inr ⟨co, congrArg (Frame.resume co) isOther⟩
      · cases isOutcome
  | yield co =>
      simp only [continueAt, Option.bind_eq_bind, Option.bind_eq_some_iff] at continues
      obtain ⟨c, found, isNext⟩ := continues
      cases isNext
      refine ⟨rfl, rfl, rfl, rfl, fun _ isCo => Or.inl isCo, fun _ _ isSelf => Or.inl isSelf,
        fun _ _ isOutcome => ?_⟩
      cases isOutcome
  | unreachable => cases continues

namespace Switches

variable {state next : State} {slot : Slot} {co : Co} {stored : Coroutine}
  {current : Option Co} {frame waiting : Frame} {pointer : Pointer} {outcome : Outcome}

theorem deref (switches : Switches state next slot co stored current frame waiting pointer
    outcome) (other : Co) :
    next.deref other = if co = other then some (slot.store ⟨state.stack, state.clock⟩ stored)
      else state.deref other := by
  obtain ⟨c, found, _⟩ := switches.found
  rw [State.deref, (continueAt_inv switches.continues).1]
  exact deref_assign found _ other

theorem length (switches : Switches state next slot co stored current frame waiting pointer
    outcome) : next.coroutines.length = state.coroutines.length := by
  rw [(continueAt_inv switches.continues).1]
  exact List.length_set

theorem stack (switches : Switches state next slot co stored current frame waiting pointer
    outcome) : next.stack = pointer.stack :=
  (continueAt_inv switches.continues).2.1

theorem parked (switches : Switches state next slot co stored current frame waiting pointer
    outcome) : next.parked = Function.update
      (Function.update state.parked state.stack (some (state.clock, frame)))
      pointer.stack none :=
  (continueAt_inv switches.continues).2.2.1

theorem clock (switches : Switches state next slot co stored current frame waiting pointer
    outcome) : next.clock = state.clock + 1 :=
  (continueAt_inv switches.continues).2.2.2.1

/-- Every pointer that is stored is older than the next switch, so no stack
switches to itself. -/
theorem away (switches : Switches state next slot co stored current frame waiting pointer
    outcome) (isOld : pointer.stamp < state.clock) : pointer.stack ≠ state.stack := by
  intro same
  have waits := switches.waits
  rw [same, Function.update_self, Option.some.injEq, Prod.mk.injEq] at waits
  rw [waits.1] at isOld
  exact Nat.lt_irrefl _ isOld

theorem waitsThere (switches : Switches state next slot co stored current frame waiting pointer
    outcome) (isOld : pointer.stamp < state.clock) :
    state.parked pointer.stack = some (pointer.stamp, waiting) := by
  have waits := switches.waits
  rw [Function.update_of_ne (switches.away isOld)] at waits
  exact waits

end Switches

/-! ## Which coroutines have begun -/

def Begun (state : State) (co : Co) : Prop :=
  co < state.coroutines.length ∧ ∀ c, state.deref co = some c → c.started = true

def BegunStack (state : State) : Stack → Prop
  | .main => True
  | .coroutine co => Begun state co

def Mapped (state : State) : Stack → Prop
  | .main => True
  | .coroutine co => (state.deref co).isSome

/-- Whatever the bookkeeping names has begun, and a coroutine that has not is
still parked in the frame that `co_create` built. -/
structure Controlled (state : State) : Prop where
  current : ∀ co, state.gCurrent = some co → Begun state co
  prev : ∀ stack stamp co other, state.parked stack = some (stamp, .resume co (some other)) →
    Begun state other
  self : ∀ number co, state.self number = some co → Begun state co
  stack : BegunStack state state.stack
  here : Mapped state state.stack
  mapped : ∀ stack, (state.parked stack).isSome → Mapped state stack
  stamps : ∀ co c, state.deref co = some c →
    c.sp.stamp < state.clock ∧ ∀ pointer, c.callerSp = some pointer → pointer.stamp < state.clock
  sps : ∀ co c, state.deref co = some c →
    c.sp.stack = .coroutine co ∨ BegunStack state c.sp.stack
  callers : ∀ co c pointer, state.deref co = some c → c.callerSp = some pointer →
    BegunStack state pointer.stack
  fresh : ∀ co c, state.deref co = some c → c.started = false →
    c.done = false ∧ c.sp.stack = .coroutine co ∧
      state.parked (.coroutine co) = some (c.sp.stamp, .trampoline)

theorem initial_controlled : Controlled .initial where
  current _ isCurrent := by cases isCurrent
  prev _ _ _ _ isParked := by cases isParked
  self _ _ isSelf := by cases isSelf
  stack := trivial
  here := trivial
  mapped _ isParked := by cases isParked
  stamps _ _ found := by cases found
  sps _ _ found := by cases found
  callers _ _ _ found := by cases found
  fresh _ _ found := by cases found

theorem Begun.not_fresh {state : State} {co : Co} {c : Coroutine} (begun : Begun state co)
    (found : state.deref co = some c) (notStarted : c.started = false) : False := by
  rw [begun.2 c found] at notStarted
  cases notStarted

theorem Slot.store_started (slot : Slot) (pointer : Pointer) (c : Coroutine) :
    (slot.store pointer c).started = c.started := by
  cases slot <;> rfl

section

variable {state next : State} {slot : Slot} {co : Co} {stored : Coroutine}
  {current : Option Co} {frame waiting : Frame} {pointer : Pointer} {outcome : Outcome}

theorem Switches.begun (switches : Switches state next slot co stored current frame waiting
    pointer outcome) (isStarted : stored.started = true) {other : Co}
    (begun : Begun state other) : Begun next other := by
  constructor
  · rw [switches.length]
    exact begun.1
  · intro c found
    rw [switches.deref] at found
    split at found
    next =>
      cases found
      rw [Slot.store_started, isStarted]
    next => exact begun.2 c found

theorem Switches.begunStack (switches : Switches state next slot co stored current frame waiting
    pointer outcome) (isStarted : stored.started = true) {stack : Stack}
    (begun : BegunStack state stack) : BegunStack next stack := by
  cases stack with
  | main => trivial
  | coroutine other => exact switches.begun isStarted begun

theorem Switches.mapped (switches : Switches state next slot co stored current frame waiting
    pointer outcome) (stack : Stack) : Mapped next stack ↔ Mapped state stack := by
  cases stack with
  | main => exact Iff.rfl
  | coroutine other =>
      obtain ⟨c, found, _⟩ := switches.found
      rw [Mapped, Mapped, switches.deref]
      split
      next isCo =>
        subst isCo
        simp [found]
      next => exact Iff.rfl

/-- The coroutine that is written at a switch has begun. -/
theorem Switches.written_begun (switches : Switches state next slot co stored current frame
    waiting pointer outcome) (isStarted : stored.started = true) : Begun next co := by
  obtain ⟨c, found, _⟩ := switches.found
  constructor
  · rw [switches.length]
    exact State.deref_lt found
  · intro c' found'
    rw [switches.deref, if_pos rfl] at found'
    cases found'
    rw [Slot.store_started, isStarted]

/-- Every pointer that the code restores was stored before. -/
theorem Controlled.isOld (controlled : Controlled state) (switches : Switches state next slot co
    stored current frame waiting pointer outcome) : pointer.stamp < state.clock := by
  obtain ⟨c, found, sameSp, sameCallerSp⟩ := switches.found
  have restore := switches.restore
  have stamps := controlled.stamps co c found
  cases slot with
  | sp =>
      rw [Slot.restores, sameCallerSp] at restore
      exact stamps.2 pointer restore
  | callerSp =>
      rw [Slot.restores, sameSp] at restore
      cases restore
      exact stamps.1

/-- The stack that is switched to has begun, unless it is the fresh coroutine that
is being resumed. -/
theorem Controlled.target (controlled : Controlled state) (switches : Switches state next slot co
    stored current frame waiting pointer outcome) :
    pointer.stack = .coroutine co ∨ BegunStack state pointer.stack := by
  obtain ⟨c, found, sameSp, sameCallerSp⟩ := switches.found
  have restore := switches.restore
  cases slot with
  | sp =>
      rw [Slot.restores, sameCallerSp] at restore
      exact Or.inr (controlled.callers co c pointer found restore)
  | callerSp =>
      rw [Slot.restores, sameSp] at restore
      cases restore
      exact controlled.sps co c found

theorem BegunStack.ne_fresh {stack : Stack} {other : Co} {c : Coroutine}
    (begun : BegunStack state stack) (found : state.deref other = some c)
    (notStarted : c.started = false) : Stack.coroutine other ≠ stack := by
  rintro rfl
  exact Begun.not_fresh begun found notStarted

/-- `isStarted` and the last two hypotheses are what the three callers of
`co_switch` see to. -/
theorem Controlled.switch (controlled : Controlled state) (switches : Switches state next slot co
    stored current frame waiting pointer outcome) (isStarted : stored.started = true)
    (isCurrent : ∀ other, current = some other → Begun next other)
    (isFrame : ∀ other prev, frame = .resume other (some prev) → Begun state prev) :
    Controlled next := by
  have isOld := controlled.isOld switches
  have away := switches.away isOld
  have waits := switches.waitsThere isOld
  obtain ⟨c, found, sameSp, sameCallerSp⟩ := switches.found
  obtain ⟨_, _, _, _, fromCurrent, fromSelf, _⟩ := continueAt_inv switches.continues
  have targetBegun : BegunStack next pointer.stack := by
    rcases controlled.target switches with isCo | begun
    · rw [isCo]
      exact switches.written_begun isStarted
    · exact switches.begunStack isStarted begun
  have waitingBegun : ∀ other prev, waiting = .resume other (some prev) → Begun next prev := by
    intro other prev isWaiting
    rw [isWaiting] at waits
    exact switches.begun isStarted (controlled.prev _ _ _ _ waits)
  have parkedInv : ∀ {stack : Stack} {entry : Nat × Frame}, next.parked stack = some entry →
      stack ≠ pointer.stack ∧
        ((stack = state.stack ∧ entry = (state.clock, frame)) ∨
          (stack ≠ state.stack ∧ state.parked stack = some entry)) := by
    intro stack entry isParked
    rw [switches.parked] at isParked
    by_cases isTarget : stack = pointer.stack
    · rw [isTarget, Function.update_self] at isParked
      cases isParked
    · rw [Function.update_of_ne isTarget] at isParked
      by_cases isHere : stack = state.stack
      · rw [isHere, Function.update_self] at isParked
        exact ⟨isTarget, Or.inl ⟨isHere, (Option.some.inj isParked).symm⟩⟩
      · rw [Function.update_of_ne isHere] at isParked
        exact ⟨isTarget, Or.inr ⟨isHere, isParked⟩⟩
  constructor
  · intro other isOther
    rcases fromCurrent other isOther with isCur | ⟨resumed, isWaiting⟩
    · exact isCurrent other isCur
    · exact waitingBegun resumed other isWaiting
  · intro stack stamp resumed other isParked
    rcases parkedInv isParked with ⟨_, ⟨_, isEntry⟩ | ⟨_, isEntry⟩⟩
    · rw [Prod.mk.injEq] at isEntry
      exact switches.begun isStarted (isFrame resumed other isEntry.2.symm)
    · exact switches.begun isStarted (controlled.prev _ _ _ _ isEntry)
  · intro number other isSelf
    rcases fromSelf number other isSelf with isOldSelf | isCur
    · exact switches.begun isStarted (controlled.self number other isOldSelf)
    · exact isCurrent other isCur
  · rw [switches.stack]
    exact targetBegun
  · rw [switches.stack, switches.mapped]
    apply controlled.mapped
    rw [waits]
    rfl
  · intro stack isParked
    rw [switches.mapped]
    obtain ⟨entry, isEntry⟩ := Option.isSome_iff_exists.mp isParked
    rcases parkedInv isEntry with ⟨_, ⟨isHere, _⟩ | ⟨_, isEntry⟩⟩
    · rw [isHere]
      exact controlled.here
    · apply controlled.mapped
      rw [isEntry]
      rfl
  · intro other c' found'
    rw [switches.deref] at found'
    rw [switches.clock]
    split at found'
    next =>
      cases found'
      have stamps := controlled.stamps co c found
      rw [← sameSp, ← sameCallerSp] at stamps
      cases slot with
      | sp => exact ⟨Nat.lt_succ_self _, fun old isOldPointer =>
          Nat.lt_succ_of_lt (stamps.2 old isOldPointer)⟩
      | callerSp =>
          refine ⟨Nat.lt_succ_of_lt stamps.1, ?_⟩
          rintro _ ⟨⟩
          exact Nat.lt_succ_self _
    next =>
      have stamps := controlled.stamps other c' found'
      exact ⟨Nat.lt_succ_of_lt stamps.1, fun old isOldPointer =>
        Nat.lt_succ_of_lt (stamps.2 old isOldPointer)⟩
  · intro other c' found'
    rw [switches.deref] at found'
    split at found'
    next isCo =>
      cases found'
      cases slot with
      | sp => exact Or.inr (switches.begunStack isStarted controlled.stack)
      | callerSp =>
          rw [← isCo]
          have sps := controlled.sps co c found
          rw [← sameSp] at sps
          rcases sps with isOwn | begun
          · exact Or.inl isOwn
          · exact Or.inr (switches.begunStack isStarted begun)
    next =>
      rcases controlled.sps other c' found' with isOwn | begun
      · exact Or.inl isOwn
      · exact Or.inr (switches.begunStack isStarted begun)
  · intro other c' caller found' isCaller
    rw [switches.deref] at found'
    split at found'
    next =>
      cases found'
      cases slot with
      | sp =>
          have isOldCaller : c.callerSp = some caller := sameCallerSp.symm.trans isCaller
          exact switches.begunStack isStarted (controlled.callers co c caller found isOldCaller)
      | callerSp =>
          cases isCaller
          exact switches.begunStack isStarted controlled.stack
    next =>
      exact switches.begunStack isStarted (controlled.callers other c' caller found' isCaller)
  · intro other c' found' notStarted
    rw [switches.deref] at found'
    split at found'
    next =>
      cases found'
      rw [Slot.store_started, isStarted] at notStarted
      cases notStarted
    next notCo =>
      obtain ⟨notDone, isStack, isParked⟩ := controlled.fresh other c' found' notStarted
      refine ⟨notDone, isStack, ?_⟩
      have notHere := controlled.stack.ne_fresh found' notStarted
      have notTarget : Stack.coroutine other ≠ pointer.stack := by
        rcases controlled.target switches with isCo | begun
        · rw [isCo]
          intro same
          cases same
          exact notCo rfl
        · exact begun.ne_fresh found' notStarted
      rw [switches.parked, Function.update_of_ne notTarget, Function.update_of_ne notHere]
      exact isParked

end

/-! ## Creating and freeing -/

theorem deref_coCreate (state : State) (co : Co) :
    (coCreate state).1.deref co =
      if co = state.coroutines.length then
        some ⟨⟨.coroutine co, state.clock⟩, none, 0, false, false⟩
      else state.deref co := by
  rw [State.deref, State.deref, coCreate]
  split
  next isLast =>
    rw [isLast, List.getElem?_append_right (Nat.le_refl _), Nat.sub_self]
    rfl
  next notLast =>
    by_cases inside : co < state.coroutines.length
    · rw [List.getElem?_append_left inside]
    · rw [List.getElem?_eq_none (by
          rw [List.length_append, List.length_singleton]
          exact Nat.lt_of_le_of_ne (Nat.le_of_not_lt inside) (Ne.symm notLast)),
        List.getElem?_eq_none (Nat.le_of_not_lt inside)]

theorem parked_coCreate (state : State) (stack : Stack) :
    (coCreate state).1.parked stack =
      if stack = .coroutine state.coroutines.length then some (state.clock, .trampoline)
      else state.parked stack := by
  simp only [coCreate, Function.update_apply]

theorem Begun.create {state : State} {co : Co} (begun : Begun state co) :
    Begun (coCreate state).1 co := by
  constructor
  · rw [coCreate, List.length_append]
    exact Nat.lt_of_lt_of_le begun.1 (Nat.le_add_right _ _)
  · intro c found
    rw [deref_coCreate, if_neg (Nat.ne_of_lt begun.1)] at found
    exact begun.2 c found

theorem BegunStack.create {state : State} {stack : Stack} (begun : BegunStack state stack) :
    BegunStack (coCreate state).1 stack := by
  cases stack with
  | main => trivial
  | coroutine co => exact Begun.create begun

theorem Mapped.lt {state : State} {co : Co} (mapped : Mapped state (.coroutine co)) :
    co < state.coroutines.length := by
  obtain ⟨c, found⟩ := Option.isSome_iff_exists.mp mapped
  exact State.deref_lt found

theorem Mapped.create {state : State} {stack : Stack} (mapped : Mapped state stack) :
    Mapped (coCreate state).1 stack := by
  cases stack with
  | main => trivial
  | coroutine co =>
      rw [Mapped, deref_coCreate, if_neg (Nat.ne_of_lt mapped.lt)]
      exact mapped

theorem Controlled.create {state : State} (controlled : Controlled state) :
    Controlled (coCreate state).1 := by
  constructor
  · intro co isCurrent
    exact (controlled.current co isCurrent).create
  · intro stack stamp co other isParked
    rw [parked_coCreate] at isParked
    split at isParked
    next => cases isParked
    next => exact (controlled.prev _ _ _ _ isParked).create
  · intro number co isSelf
    exact (controlled.self number co isSelf).create
  · exact controlled.stack.create
  · exact controlled.here.create
  · intro stack isParked
    rw [parked_coCreate] at isParked
    split at isParked
    next isNew =>
      rw [isNew, Mapped, deref_coCreate, if_pos rfl]
      rfl
    next => exact (controlled.mapped stack isParked).create
  · intro co c found
    rw [deref_coCreate] at found
    split at found
    next =>
      cases found
      refine ⟨Nat.lt_succ_self _, ?_⟩
      intro pointer isPointer
      cases isPointer
    next =>
      have stamps := controlled.stamps co c found
      exact ⟨Nat.lt_succ_of_lt stamps.1, fun pointer isPointer =>
        Nat.lt_succ_of_lt (stamps.2 pointer isPointer)⟩
  · intro co c found
    rw [deref_coCreate] at found
    split at found
    next =>
      cases found
      exact Or.inl rfl
    next =>
      rcases controlled.sps co c found with isOwn | begun
      · exact Or.inl isOwn
      · exact Or.inr begun.create
  · intro co c pointer found isPointer
    rw [deref_coCreate] at found
    split at found
    next =>
      cases found
      cases isPointer
    next => exact (controlled.callers co c pointer found isPointer).create
  · intro co c found notStarted
    rw [deref_coCreate] at found
    split at found
    next isNew =>
      cases found
      refine ⟨rfl, rfl, ?_⟩
      rw [parked_coCreate, if_pos (congrArg Stack.coroutine isNew)]
    next notNew =>
      obtain ⟨notDone, isStack, isParked⟩ := controlled.fresh co c found notStarted
      refine ⟨notDone, isStack, ?_⟩
      rw [parked_coCreate, if_neg (fun same => notNew (by cases same; rfl))]
      exact isParked

/-- What freeing a coroutine leaves. -/
structure Freed (state next : State) (co : Co) : Prop where
  exists_ : ∃ c, state.deref co = some c
  away : state.stack ≠ .coroutine co
  isNext : next = { state with
    coroutines := state.coroutines.set co none
    parked := Function.update state.parked (.coroutine co) none }

theorem coDestroy_inv {state next : State} {co : Co} {outcome : Outcome}
    (destroyed : coDestroy state co = some (next, outcome)) :
    Freed state next co ∧ outcome = .destroyed co := by
  simp only [coDestroy, Option.bind_eq_bind, Option.bind_eq_some_iff] at destroyed
  obtain ⟨c, found, destroyed⟩ := destroyed
  split at destroyed
  next => cases destroyed
  next away =>
    cases destroyed
    exact ⟨⟨⟨c, found⟩, away, rfl⟩, rfl⟩

theorem Freed.deref {state next : State} {co : Co} (freed : Freed state next co) (other : Co) :
    next.deref other = if co = other then none else state.deref other := by
  obtain ⟨c, found⟩ := freed.exists_
  rw [freed.isNext, State.deref, State.deref, List.getElem?_set, if_pos (State.deref_lt found)]
  split
  next => rfl
  next => rfl

theorem Freed.parked {state next : State} {co : Co} (freed : Freed state next co)
    (stack : Stack) :
    next.parked stack = if stack = .coroutine co then none else state.parked stack := by
  rw [freed.isNext]
  exact Function.update_apply ..

theorem Freed.begun {state next : State} {co other : Co} (freed : Freed state next co)
    (begun : Begun state other) : Begun next other := by
  constructor
  · rw [freed.isNext]
    exact Nat.lt_of_lt_of_eq begun.1 List.length_set.symm
  · intro c found
    rw [freed.deref] at found
    split at found
    next => cases found
    next => exact begun.2 c found

theorem Freed.begunStack {state next : State} {co : Co} {stack : Stack}
    (freed : Freed state next co) (begun : BegunStack state stack) : BegunStack next stack := by
  cases stack with
  | main => trivial
  | coroutine other => exact freed.begun begun

theorem Freed.mapped {state next : State} {co : Co} {stack : Stack}
    (freed : Freed state next co) (mapped : Mapped state stack) (other : stack ≠ .coroutine co) :
    Mapped next stack := by
  cases stack with
  | main => trivial
  | coroutine number =>
      rw [Mapped, freed.deref, if_neg (fun same => other (congrArg Stack.coroutine same.symm))]
      exact mapped

theorem Controlled.destroy {state next : State} {co : Co} (controlled : Controlled state)
    (freed : Freed state next co) : Controlled next := by
  have derefInv : ∀ {other : Co} {c : Coroutine}, next.deref other = some c →
      other ≠ co ∧ state.deref other = some c := by
    intro other c found
    rw [freed.deref] at found
    split at found
    next => cases found
    next notCo => exact ⟨Ne.symm notCo, found⟩
  have parkedInv : ∀ {stack : Stack} {entry : Nat × Frame}, next.parked stack = some entry →
      stack ≠ .coroutine co ∧ state.parked stack = some entry := by
    intro stack entry isParked
    rw [freed.parked] at isParked
    split at isParked
    next => cases isParked
    next notCo => exact ⟨notCo, isParked⟩
  have sameCurrent : next.gCurrent = state.gCurrent := by rw [freed.isNext]
  have sameSelf : next.self = state.self := by rw [freed.isNext]
  have sameStack : next.stack = state.stack := by rw [freed.isNext]
  have sameClock : next.clock = state.clock := by rw [freed.isNext]
  constructor
  · intro other isCurrent
    rw [sameCurrent] at isCurrent
    exact freed.begun (controlled.current other isCurrent)
  · intro stack stamp resumed other isParked
    exact freed.begun (controlled.prev _ _ _ _ (parkedInv isParked).2)
  · intro number other isSelf
    rw [sameSelf] at isSelf
    exact freed.begun (controlled.self number other isSelf)
  · rw [sameStack]
    exact freed.begunStack controlled.stack
  · rw [sameStack]
    exact freed.mapped controlled.here freed.away
  · intro stack isParked
    obtain ⟨entry, isEntry⟩ := Option.isSome_iff_exists.mp isParked
    obtain ⟨notCo, wasParked⟩ := parkedInv isEntry
    apply freed.mapped _ notCo
    apply controlled.mapped
    rw [wasParked]
    rfl
  · intro other c found
    rw [sameClock]
    exact controlled.stamps other c (derefInv found).2
  · intro other c found
    rcases controlled.sps other c (derefInv found).2 with isOwn | begun
    · exact Or.inl isOwn
    · exact Or.inr (freed.begunStack begun)
  · intro other c pointer found isPointer
    exact freed.begunStack (controlled.callers other c pointer (derefInv found).2 isPointer)
  · intro other c found notStarted
    obtain ⟨notCo, wasFound⟩ := derefInv found
    obtain ⟨notDone, isStack, isParked⟩ := controlled.fresh other c wasFound notStarted
    refine ⟨notDone, isStack, ?_⟩
    rw [freed.parked, if_neg (fun same => notCo (by cases same; rfl))]
    exact isParked

end Coroutines
end FoundationsLab
