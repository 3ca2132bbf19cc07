import FoundationsLab.Coroutines.Coroutine
import FoundationsLab.Foundation.GeneratorRuns

/-! The bookkeeping refines generators: `g_current` and the saved resumer
pointers spell out the chain of active generators, and each coroutine's stack is
parked where its status says. -/

namespace FoundationsLab
namespace Coroutines

open Generators (Party Status Call Answer Observation Steps Legal Runs)

def Stack.party : Stack → Party
  | .main => .outside
  | .coroutine co => .generator co

def Action.call : Action → Call Value
  | .create => .create
  | .resume co input => .resume co input
  | .yield value => .yield value
  | .finish => .finish
  | .destroy co => .discard co

/-- `party` is whoever runs after the step. -/
def Outcome.answer (party : Party) : Outcome → Answer Value
  | .created co => .created co
  | .started self => .started self
  | .resumeReturns co value => .resumeReturns party co value
  | .yieldReturns co value => .yieldReturns co value
  | .destroyed co => .discarded co

def Entry.observation (entry : Entry) : Observation Value where
  actor := entry.before.stack.party
  call := entry.action.call
  answer := entry.outcome.answer entry.after.stack.party

/-- The stack that runs while the coroutines of the chain are active. -/
def stackOf : List Co → Stack
  | [] => .main
  | co :: _ => .coroutine co

theorem stackOf_party (chain : List Co) :
    (stackOf chain).party = Generators.partyOf chain := by
  cases chain with
  | nil => rfl
  | cons co rest => rfl

theorem stackOf_ne {co : Co} {chain : List Co} (notMember : co ∉ chain) :
    stackOf chain ≠ .coroutine co := by
  cases chain with
  | nil => simp [stackOf]
  | cons head rest =>
      intro isStack
      cases isStack
      exact notMember List.mem_cons_self

/-- The pointer's stack is parked in the switch that saved it. -/
def State.Holds (state : State) (pointer : Pointer) (frame : Frame) : Prop :=
  state.parked pointer.stack = some (pointer.stamp, frame)

/-- What the coroutine, its stack and its trampoline look like in each status. -/
def Fits (state : State) (co : Co) : Status → Prop
  | .fresh => ∃ c, state.deref co = some c ∧ c.done = false ∧ c.sp.stack = .coroutine co ∧
      state.Holds c.sp .trampoline
  | .suspended => ∃ c, state.deref co = some c ∧ c.done = false ∧
      c.sp.stack = .coroutine co ∧ state.Holds c.sp (.yield co) ∧ state.self co = some co
  | .active => ∃ c, state.deref co = some c ∧ c.done = false ∧ state.self co = some co
  | .finished => ∃ c, state.deref co = some c ∧ c.done = true
  | .discarded => True

/-- Each active coroutine's resumer is parked in the call of `co_resume` that
woke it, and that call remembers the one below. -/
def Linked (state : State) : List Co → Prop
  | [] => True
  | co :: rest =>
      (∃ c pointer, state.deref co = some c ∧ c.callerSp = some pointer ∧
        pointer.stack = stackOf rest ∧ state.Holds pointer (.resume co rest.head?)) ∧
      Linked state rest

structure Simulates (abstract : Generators.State) (state : State) : Prop where
  orderly : abstract.Orderly
  length : state.coroutines.length = abstract.statuses.length
  stack : state.stack = stackOf abstract.chain
  current : state.gCurrent = abstract.chain.head?
  fits : ∀ co status, abstract.statuses[co]? = some status → Fits state co status
  linked : Linked state abstract.chain

theorem initial_simulates : Simulates .initial .initial := by
  constructor
  · exact Generators.State.initial_orderly
  · rfl
  · rfl
  · rfl
  · intro co status found
    simp [Generators.State.initial] at found
  · trivial

/-! ## What does not touch a coroutine or a chain -/

theorem Fits.congr {state next : State} {co : Co} {status : Status}
    (fits : Fits state co status) (sameStruct : next.deref co = state.deref co)
    (sameStack : next.parked (.coroutine co) = state.parked (.coroutine co))
    (sameSelf : next.self co = state.self co) : Fits next co status := by
  cases status with
  | fresh =>
      obtain ⟨c, found, notDone, isStack, holds⟩ := fits
      refine ⟨c, sameStruct.trans found, notDone, isStack, ?_⟩
      rw [State.Holds, isStack] at holds ⊢
      exact sameStack.trans holds
  | suspended =>
      obtain ⟨c, found, notDone, isStack, holds, isSelf⟩ := fits
      refine ⟨c, sameStruct.trans found, notDone, isStack, ?_, sameSelf.trans isSelf⟩
      rw [State.Holds, isStack] at holds ⊢
      exact sameStack.trans holds
  | active =>
      obtain ⟨c, found, notDone, isSelf⟩ := fits
      exact ⟨c, sameStruct.trans found, notDone, sameSelf.trans isSelf⟩
  | finished =>
      obtain ⟨c, found, isDone⟩ := fits
      exact ⟨c, sameStruct.trans found, isDone⟩
  | discarded => trivial

/-- A chain stays linked while its coroutines and the stacks below each of them
stay as they are. -/
theorem Linked.congr {state next : State} {chain : List Co} (linked : Linked state chain)
    (sameStruct : ∀ co ∈ chain, next.deref co = state.deref co)
    (sameStack : ∀ upper co rest, chain = upper ++ co :: rest →
      next.parked (stackOf rest) = state.parked (stackOf rest)) :
    Linked next chain := by
  induction chain with
  | nil => trivial
  | cons co rest induction =>
      obtain ⟨⟨c, pointer, found, isPointer, isStack, holds⟩, below⟩ := linked
      constructor
      · refine ⟨c, pointer, (sameStruct co List.mem_cons_self).trans found, isPointer,
          isStack, ?_⟩
        rw [State.Holds, isStack] at holds ⊢
        exact (sameStack [] co rest rfl).trans holds
      · apply induction below
        · intro other member
          exact sameStruct other (List.mem_cons_of_mem _ member)
        · intro upper other others isRest
          exact sameStack (co :: upper) other others (by rw [isRest, List.cons_append])

/-- No stack below a coroutine of the chain is one that the chain rests on. -/
theorem stackOf_below {upper rest chain : List Co} {co : Co} (nodup : chain.Nodup)
    (isChain : chain = upper ++ co :: rest) : stackOf rest ≠ stackOf chain := by
  intro same
  subst isChain
  cases upper with
  | nil =>
      rw [List.nil_append, List.nodup_cons] at nodup
      exact stackOf_ne nodup.1 same
  | cons head others =>
      rw [List.cons_append, List.nodup_cons] at nodup
      apply stackOf_ne _ same
      intro member
      exact nodup.1 (List.mem_append_right _ (List.mem_cons_of_mem _ member))

theorem not_mem_below {upper rest chain : List Co} {co other : Co}
    (notMember : other ∉ chain) (isChain : chain = upper ++ co :: rest) : other ∉ rest := by
  intro member
  apply notMember
  rw [isChain]
  exact List.mem_append_right _ (List.mem_cons_of_mem _ member)

/-! ## Waking a coroutine -/

/-- The state in which a resume of `co` leaves the machine, on the woken stack. -/
def wake (state : State) (co : Co) (c : Coroutine) (input : Value) : State :=
  ((state.assign co { c with
    value := input
    started := true
    callerSp := some ⟨state.stack, state.clock⟩ }).setCurrent (some co)).moveTo
      (.resume co state.gCurrent) (.coroutine co)

theorem coResume_eq {state : State} {co : Co} {c : Coroutine} {waiting : Frame}
    (found : state.deref co = some c) (notDone : c.done = false)
    (isStack : c.sp.stack = .coroutine co) (holds : state.Holds c.sp waiting)
    (elsewhere : state.stack ≠ .coroutine co) (input : Value) :
    coResume state co input = continueAt (wake state co c input) waiting := by
  have stored : ((state.assign co { c with value := input, started := true }).setCurrent
      (some co)).deref co = some { c with value := input, started := true } := by
    rw [deref_setCurrent, deref_assign found, if_pos rfl]
  have away : c.sp.stack ≠ state.stack := by
    rw [isStack]
    exact elsewhere.symm
  have switched := @coSwitch_eq _ (.resume co state.gCurrent) _ .callerSp _ _ _ stored
    away holds
  have goesOn : ¬ c.done = true := by simp [notDone]
  simp only [coResume, found, Option.bind_eq_bind, Option.bind_some]
  rw [if_neg goesOn, switched, isStack, Option.bind_some]
  have twice := assign_assign state co { c with value := input, started := true } { c with
    value := input
    started := true
    callerSp := some ⟨state.stack, state.clock⟩ }
  rw [wake, ← twice]
  rfl

theorem deref_wake {state : State} {co : Co} {c : Coroutine} (found : state.deref co = some c)
    (input : Value) (other : Co) :
    (wake state co c input).deref other =
      if co = other then
        some { c with
          value := input
          started := true
          callerSp := some ⟨state.stack, state.clock⟩ }
      else state.deref other :=
  deref_assign found _ other

theorem parked_wake (state : State) (co : Co) (c : Coroutine) (input : Value) :
    (wake state co c input).parked = Function.update
      (Function.update state.parked state.stack (some (state.clock, .resume co state.gCurrent)))
      (.coroutine co) none := rfl

theorem Simulates.not_member {abstract : Generators.State} {state : State}
    (simulates : Simulates abstract state) {co : Co} {status : Status}
    (found : abstract.statuses[co]? = some status) (notActive : status ≠ .active) :
    co ∉ abstract.chain := by
  intro member
  rw [simulates.orderly.active, found] at member
  exact notActive (Option.some.inj member)

theorem Simulates.stack_ne {abstract : Generators.State} {state : State}
    (simulates : Simulates abstract state) {co : Co} {status : Status}
    (found : abstract.statuses[co]? = some status) (notActive : status ≠ .active) :
    state.stack ≠ .coroutine co := by
  rw [simulates.stack]
  exact stackOf_ne (simulates.not_member found notActive)

/-- `self'` is the local of the trampolines, which the first resume sets. -/
theorem Simulates.wake {abstract : Generators.State} {state : State}
    (simulates : Simulates abstract state) {co : Co} {old : Status} {c : Coroutine}
    (found : abstract.statuses[co]? = some old) (notActive : old ≠ .active)
    (isStruct : state.deref co = some c) (notDone : c.done = false) (input : Value)
    {self' : Co → Option Co} (isSelf : self' co = some co)
    (others : ∀ other, other ≠ co → self' other = state.self other) :
    Simulates ⟨abstract.statuses.set co .active, co :: abstract.chain⟩
      { wake state co c input with self := self' } := by
  have notMember := simulates.not_member found notActive
  have notHere := simulates.stack_ne found notActive
  have orderly := simulates.orderly.wake found notActive
  constructor
  · exact orderly
  · simp only [Coroutines.wake, State.moveTo, State.setCurrent, State.assign, List.length_set]
    exact simulates.length
  · rfl
  · rfl
  · intro other status isStatus
    rw [Generators.getElem?_set_of_some found] at isStatus
    by_cases isCo : co = other
    · subst isCo
      rw [if_pos rfl] at isStatus
      cases isStatus
      refine ⟨_, (deref_wake isStruct input co).trans (if_pos rfl), notDone, isSelf⟩
    · rw [if_neg isCo] at isStatus
      by_cases isActive : status = .active
      · -- an active coroutine needs no parked stack: this is where the resumer is
        subst isActive
        obtain ⟨c', isStruct', notDone', isSelf'⟩ := simulates.fits other _ isStatus
        refine ⟨c', ?_, notDone', (others other (Ne.symm isCo)).trans isSelf'⟩
        exact ((deref_wake isStruct input other).trans (if_neg isCo)).trans isStruct'
      · apply (simulates.fits other status isStatus).congr
        · exact (deref_wake isStruct input other).trans (if_neg isCo)
        · have notOther := simulates.stack_ne isStatus isActive
          have differ : Stack.coroutine other ≠ Stack.coroutine co := by
            intro same
            cases same
            exact isCo rfl
          change (Coroutines.wake state co c input).parked _ = _
          rw [parked_wake, Function.update_of_ne differ, Function.update_of_ne notOther.symm]
        · exact others other (Ne.symm isCo)
  · constructor
    · refine ⟨_, ⟨state.stack, state.clock⟩, (deref_wake isStruct input co).trans (if_pos rfl),
        rfl, simulates.stack, ?_⟩
      change (Coroutines.wake state co c input).parked _ = _
      rw [parked_wake, Function.update_of_ne notHere, Function.update_self, simulates.current]
    · apply simulates.linked.congr
      · intro other member
        apply (deref_wake isStruct input other).trans
        apply if_neg
        rintro rfl
        exact notMember member
      · intro upper other rest isChain
        have below := stackOf_below simulates.orderly.nodup isChain
        rw [← simulates.stack] at below
        have apart := stackOf_ne (not_mem_below notMember isChain)
        change (Coroutines.wake state co c input).parked _ = _
        rw [parked_wake, Function.update_of_ne apart, Function.update_of_ne below]

/-! ## Handing control back -/

/-- The state in which `co` hands control back to the resumer behind `pointer`;
`c` is the coroutine as it was stored before its switch. -/
def leave (state : State) (co : Co) (c : Coroutine) (frame : Frame) (pointer : Pointer)
    (prev : Option Co) : State :=
  ((state.assign co { c with sp := ⟨state.stack, state.clock⟩ }).moveTo frame
    pointer.stack).setCurrent prev

/-- The switch back to a resumer, which ends its `co_resume`. -/
theorem switchBack_eq {state : State} {co : Co} {old c : Coroutine} {pointer : Pointer}
    {frame : Frame} {prev : Option Co} (found : state.deref co = some old)
    (elsewhere : pointer.stack ≠ state.stack) (holds : state.Holds pointer (.resume co prev)) :
    ((coSwitch (state.assign co c) frame .sp co (some pointer)).bind fun switched =>
        continueAt switched.1 switched.2) =
      some (leave state co c frame pointer prev, .resumeReturns co c.value) := by
  have stored : (state.assign co c).deref co = some c := by
    rw [deref_assign found, if_pos rfl]
  have switched := @coSwitch_eq _ frame _ .sp _ _ _ stored elsewhere holds
  have again : (state.assign co { c with sp := ⟨state.stack, state.clock⟩ }).deref co =
      some { c with sp := ⟨state.stack, state.clock⟩ } := by
    rw [deref_assign found, if_pos rfl]
  rw [switched, Option.bind_some, assign_assign]
  simp only [continueAt, deref_moveTo]
  change Option.bind ((state.assign co { c with sp := ⟨state.stack, state.clock⟩ }).deref co) _ = _
  rw [again]
  rfl

theorem deref_leave {state : State} {co : Co} {old : Coroutine}
    (found : state.deref co = some old) (c : Coroutine) (frame : Frame) (pointer : Pointer)
    (prev : Option Co) (other : Co) :
    (leave state co c frame pointer prev).deref other =
      if co = other then some { c with sp := ⟨state.stack, state.clock⟩ }
      else state.deref other :=
  deref_assign found _ other

theorem parked_leave (state : State) (co : Co) (c : Coroutine) (frame : Frame)
    (pointer : Pointer) (prev : Option Co) :
    (leave state co c frame pointer prev).parked = Function.update
      (Function.update state.parked state.stack (some (state.clock, frame)))
      pointer.stack none := rfl

/-- The coroutine at the front of the chain leaves it. `frame` and `status` are
what it is left with. -/
theorem Simulates.leave {abstract : Generators.State} {state : State}
    (simulates : Simulates abstract state) {co : Co} {rest : List Co}
    (isChain : abstract.chain = co :: rest) {old c : Coroutine} {frame : Frame}
    {pointer : Pointer} {status : Status} (isStruct : state.deref co = some old)
    (isStack : pointer.stack = stackOf rest) (notActive : status ≠ .active)
    (fits : Fits (leave state co c frame pointer rest.head?) co status) :
    Simulates ⟨abstract.statuses.set co status, rest⟩
      (leave state co c frame pointer rest.head?) := by
  have orderly := simulates.orderly.leave isChain notActive
  have nodup := simulates.orderly.nodup
  have linked := simulates.linked
  have isHere := simulates.stack
  have active : abstract.statuses[co]? = some .active := by
    rw [← simulates.orderly.active, isChain]
    exact List.mem_cons_self
  rw [isChain] at nodup linked isHere
  have notMember := (List.nodup_cons.mp nodup).1
  constructor
  · exact orderly
  · simp only [Coroutines.leave, State.moveTo, State.setCurrent, State.assign, List.length_set]
    exact simulates.length
  · exact isStack
  · rfl
  · intro other otherStatus isStatus
    rw [Generators.getElem?_set_of_some active] at isStatus
    by_cases isCo : co = other
    · subst isCo
      rw [if_pos rfl] at isStatus
      cases isStatus
      exact fits
    · rw [if_neg isCo] at isStatus
      by_cases isActive : otherStatus = .active
      · subst isActive
        obtain ⟨c', isStruct', notDone', isSelf'⟩ := simulates.fits other _ isStatus
        refine ⟨c', ?_, notDone', isSelf'⟩
        exact ((deref_leave isStruct c frame pointer rest.head? other).trans
          (if_neg isCo)).trans isStruct'
      · apply (simulates.fits other otherStatus isStatus).congr
        · exact (deref_leave isStruct c frame pointer rest.head? other).trans (if_neg isCo)
        · have notOther := simulates.stack_ne isStatus isActive
          have outside : other ∉ rest := by
            intro member
            apply simulates.not_member isStatus isActive
            rw [isChain]
            exact List.mem_cons_of_mem _ member
          have apart := stackOf_ne outside
          rw [parked_leave, isStack, Function.update_of_ne apart.symm, Function.update_of_ne notOther.symm]
        · rfl
  · apply linked.2.congr
    · intro other member
      apply (deref_leave isStruct c frame pointer rest.head? other).trans
      apply if_neg
      rintro rfl
      exact notMember member
    · intro upper other others isRest
      have below := stackOf_below (List.nodup_cons.mp nodup).2 isRest
      have apart := stackOf_ne (not_mem_below notMember isRest)
      rw [parked_leave, isStack, isHere, Function.update_of_ne below]
      exact Function.update_of_ne apart _ _

/-! ## One action -/

/-- A resume that returns at once has changed nothing. -/
def Inert (state : State) (action : Action) (outcome : Outcome) (next : State) : Prop :=
  ∀ co input other value, action = .resume co input → outcome = .resumeReturns other value →
    next = state

/-- The machine does what the generators do. -/
def Follows (state : State) (action : Action) (next : Generators.State)
    (answer : Answer Value) : Prop :=
  ∃ state' outcome, step state action = some (state', outcome) ∧ Simulates next state' ∧
    outcome.answer state'.stack.party = answer ∧ Inert state action outcome state'

theorem parked_create (state : State) {stack : Stack}
    (different : stack ≠ .coroutine state.coroutines.length) :
    (coCreate state).1.parked stack = state.parked stack := by
  simp only [coCreate]
  exact Function.update_of_ne different _ _

theorem Simulates.create {abstract : Generators.State} {state : State}
    (simulates : Simulates abstract state) :
    Follows state .create ⟨abstract.statuses ++ [.fresh], abstract.chain⟩
      (.created abstract.statuses.length) := by
  have isLength := simulates.length
  have old : ∀ co, co < state.coroutines.length →
      (coCreate state).1.deref co = state.deref co := by
    intro co inside
    rw [State.deref, coCreate, List.getElem?_append_left inside]
    rfl
  have sameStack : ∀ co, co < state.coroutines.length →
      (coCreate state).1.parked (.coroutine co) = state.parked (.coroutine co) := by
    intro co inside
    apply parked_create
    intro same
    cases same
    exact Nat.lt_irrefl _ inside
  have member : ∀ co ∈ abstract.chain, co < state.coroutines.length := by
    intro co member
    rw [simulates.orderly.active] at member
    rw [isLength]
    exact (List.getElem?_eq_some_iff.mp member).1
  refine ⟨(coCreate state).1, .created state.coroutines.length, rfl, ?_, ?_, ?_⟩
  · constructor
    · exact simulates.orderly.step (@Steps.create _ (0 : Value) _)
    · rw [coCreate, List.length_append, List.length_append, isLength]
      rfl
    · exact simulates.stack
    · exact simulates.current
    · intro (co : Nat) status found
      by_cases inside : co < state.coroutines.length
      · rw [List.getElem?_append_left (by omega)] at found
        exact (simulates.fits co status found).congr (old co inside) (sameStack co inside) rfl
      · rw [List.getElem?_append_right (by omega)] at found
        have isFirst : co - abstract.statuses.length = 0 := by
          have bound := (List.getElem?_eq_some_iff.mp found).1
          simp only [List.length_singleton] at bound
          omega
        have isLast : co = state.coroutines.length := by omega
        subst isLast
        rw [isFirst] at found
        cases found
        refine ⟨⟨⟨.coroutine state.coroutines.length, state.clock⟩, none, 0, false, false⟩,
          ?_, rfl, rfl, ?_⟩
        · rw [State.deref, coCreate, List.getElem?_append_right (Nat.le_refl _), Nat.sub_self]
          rfl
        · exact Function.update_self ..
    · apply simulates.linked.congr
      · intro co isMember
        exact old co (member co isMember)
      · intro upper co rest isChain
        have inChain : ∀ other ∈ rest, other ∈ abstract.chain := by
          intro other isMember
          rw [isChain]
          exact List.mem_append_right _ (List.mem_cons_of_mem _ isMember)
        cases rest with
        | nil =>
            apply parked_create
            intro same
            cases same
        | cons head others =>
            exact sameStack head (member head (inChain head List.mem_cons_self))
  · rw [← isLength]
    rfl
  · intro co input other value isResume
    cases isResume

/-- Both resumes that switch: `waiting` is where the coroutine is parked, and
`self'` the locals of the trampolines once it goes on from there. -/
theorem Simulates.resumed {abstract : Generators.State} {state : State}
    (simulates : Simulates abstract state) {co : Co} {input : Value} {old : Status}
    {c : Coroutine} {waiting : Frame} {outcome : Outcome} {self' : Co → Option Co}
    {answer : Answer Value} (found : abstract.statuses[co]? = some old)
    (notActive : old ≠ .active) (isStruct : state.deref co = some c)
    (notDone : c.done = false) (isStack : c.sp.stack = .coroutine co)
    (holds : state.Holds c.sp waiting)
    (continues : continueAt (Coroutines.wake state co c input) waiting =
      some ({ Coroutines.wake state co c input with self := self' }, outcome))
    (isSelf : self' co = some co)
    (others : ∀ other, other ≠ co → self' other = state.self other)
    (isAnswer : outcome.answer (.generator co) = answer)
    (notReturn : ∀ other value, outcome ≠ .resumeReturns other value) :
    Follows state (.resume co input)
      ⟨abstract.statuses.set co .active, co :: abstract.chain⟩ answer := by
  have resumed := coResume_eq isStruct notDone isStack holds
    (simulates.stack_ne found notActive) input
  refine ⟨_, outcome, resumed.trans continues, ?_, isAnswer, ?_⟩
  · exact simulates.wake found notActive isStruct notDone input isSelf others
  · intro _ _ other value _ isReturn
    exact absurd isReturn (notReturn other value)

theorem Simulates.start {abstract : Generators.State} {state : State}
    (simulates : Simulates abstract state) {co : Co}
    (isFresh : abstract.statuses[co]? = some .fresh) (input : Value) :
    Follows state (.resume co input) ⟨abstract.statuses.set co .active, co :: abstract.chain⟩
      (.started co) := by
  obtain ⟨c, isStruct, notDone, isStack, holds⟩ := simulates.fits co _ isFresh
  apply @Simulates.resumed _ _ simulates _ _ _ _ _ (.started co)
    (Function.update state.self co (some co)) _ isFresh (by decide) isStruct notDone isStack holds
  · rfl
  · exact Function.update_self ..
  · intro other different
    exact Function.update_of_ne different _ _
  · rfl
  · intro other value isReturn
    cases isReturn

theorem Simulates.continue {abstract : Generators.State} {state : State}
    (simulates : Simulates abstract state) {co : Co}
    (isSuspended : abstract.statuses[co]? = some .suspended) (input : Value) :
    Follows state (.resume co input) ⟨abstract.statuses.set co .active, co :: abstract.chain⟩
      (.yieldReturns co input) := by
  obtain ⟨c, isStruct, notDone, isStack, holds, isSelf⟩ := simulates.fits co _ isSuspended
  apply @Simulates.resumed _ _ simulates _ _ _ _ _ (.yieldReturns co input) state.self _
    isSuspended (by decide) isStruct notDone isStack holds
  · have woken := deref_wake isStruct input co
    rw [if_pos rfl] at woken
    simp only [continueAt, woken, Option.bind_eq_bind, Option.bind_some]
    rfl
  · exact isSelf
  · intro other different
    rfl
  · rfl
  · intro other value isReturn
    cases isReturn

theorem Simulates.exhausted {abstract : Generators.State} {state : State}
    (simulates : Simulates abstract state) {co : Co}
    (isFinished : abstract.statuses[co]? = some .finished) (input : Value) :
    Follows state (.resume co input) abstract (.resumeReturns abstract.running co 0) := by
  obtain ⟨c, isStruct, isDone⟩ := simulates.fits co _ isFinished
  refine ⟨state, .resumeReturns co 0, ?_, simulates, ?_, ?_⟩
  · change coResume state co input = _
    simp only [coResume, isStruct, Option.bind_eq_bind, Option.bind_some, isDone, if_true]
  · rw [simulates.stack, stackOf_party]
    rfl
  · intro _ _ _ _ _ _
    rfl

/-- What the front of the chain finds in its coroutine. -/
theorem Simulates.front {abstract : Generators.State} {state : State}
    (simulates : Simulates abstract state) {co : Co} {rest : List Co}
    (isChain : abstract.chain = co :: rest) :
    ∃ c pointer, state.deref co = some c ∧ c.done = false ∧ state.self co = some co ∧
      c.callerSp = some pointer ∧ pointer.stack = stackOf rest ∧
      pointer.stack ≠ state.stack ∧ state.Holds pointer (.resume co rest.head?) := by
  have linked := simulates.linked
  have nodup := simulates.orderly.nodup
  rw [isChain] at linked nodup
  have active : abstract.statuses[co]? = some .active := by
    rw [← simulates.orderly.active, isChain]
    exact List.mem_cons_self
  obtain ⟨⟨c, pointer, isStruct, isPointer, isStack, holds⟩, _⟩ := linked
  obtain ⟨c', isStruct', notDone, isSelf⟩ := simulates.fits co _ active
  have same : c' = c := Option.some.inj (isStruct'.symm.trans isStruct)
  subst same
  refine ⟨c', pointer, isStruct, notDone, isSelf, isPointer, isStack, ?_, holds⟩
  rw [isStack, simulates.stack, isChain]
  exact stackOf_ne (List.nodup_cons.mp nodup).1

theorem Simulates.yield {abstract : Generators.State} {state : State}
    (simulates : Simulates abstract state) {co : Co} {rest : List Co}
    (isChain : abstract.chain = co :: rest) (value : Value) :
    Follows state (.yield value) ⟨abstract.statuses.set co .suspended, rest⟩
      (.resumeReturns (Generators.partyOf rest) co value) := by
  obtain ⟨c, pointer, isStruct, notDone, isSelf, isPointer, isStack, elsewhere, holds⟩ :=
    simulates.front isChain
  have isCurrent := simulates.current
  have isHere := simulates.stack
  rw [isChain] at isCurrent isHere
  have yielded := @switchBack_eq _ _ _ { c with value := value } _ (.yield co) _ isStruct
    elsewhere holds
  refine ⟨Coroutines.leave state co { c with value := value } (.yield co) pointer rest.head?,
    .resumeReturns co value, ?_, simulates.leave isChain isStruct isStack (by decide) ?_, ?_, ?_⟩
  · change coYield state value = _
    rw [← isPointer] at yielded
    simp only [coYield, isCurrent, List.head?_cons, isStruct, Option.bind_eq_bind,
      Option.bind_some]
    exact yielded
  · refine ⟨_, (deref_leave isStruct _ _ _ _ co).trans (if_pos rfl), notDone, isHere, ?_, isSelf⟩
    rw [State.Holds, parked_leave]
    exact (Function.update_of_ne elsewhere.symm _ _).trans (Function.update_self ..)
  · change Answer.resumeReturns (Stack.party pointer.stack) co value = _
    rw [isStack, stackOf_party]
  · intro co input other value isResume
    cases isResume

theorem Simulates.finish {abstract : Generators.State} {state : State}
    (simulates : Simulates abstract state) {co : Co} {rest : List Co}
    (isChain : abstract.chain = co :: rest) :
    Follows state .finish ⟨abstract.statuses.set co .finished, rest⟩
      (.resumeReturns (Generators.partyOf rest) co 0) := by
  obtain ⟨c, pointer, isStruct, notDone, isSelf, isPointer, isStack, elsewhere, holds⟩ :=
    simulates.front isChain
  have isHere := simulates.stack
  rw [isChain] at isHere
  have finished := @switchBack_eq _ _ _ { c with done := true, value := 0 } _ .unreachable _
    isStruct elsewhere holds
  refine ⟨Coroutines.leave state co { c with done := true, value := 0 } .unreachable pointer
    rest.head?, .resumeReturns co 0, ?_,
    simulates.leave isChain isStruct isStack (by decide) ?_, ?_, ?_⟩
  · change coTrampolineEnd state = _
    rw [← isPointer] at finished
    simp only [coTrampolineEnd, isHere, stackOf, isSelf, isStruct, Option.bind_eq_bind,
      Option.bind_some]
    exact finished
  · exact ⟨_, (deref_leave isStruct _ _ _ _ co).trans (if_pos rfl), rfl⟩
  · change Answer.resumeReturns (Stack.party pointer.stack) co 0 = _
    rw [isStack, stackOf_party]
  · intro co input other value isResume
    cases isResume

theorem Simulates.discard {abstract : Generators.State} {state : State}
    (simulates : Simulates abstract state) {co : Co} (idle : abstract.Idle co) :
    Follows state (.destroy co) ⟨abstract.statuses.set co .discarded, abstract.chain⟩
      (.discarded co) := by
  obtain ⟨status, found, notActive, notDiscarded⟩ := idle
  have notMember := simulates.not_member found notActive
  have notHere := simulates.stack_ne found notActive
  have isStruct : ∃ c, state.deref co = some c := by
    have fits := simulates.fits co status found
    cases status with
    | fresh => exact ⟨fits.choose, fits.choose_spec.1⟩
    | suspended => exact ⟨fits.choose, fits.choose_spec.1⟩
    | active => exact absurd rfl notActive
    | finished => exact ⟨fits.choose, fits.choose_spec.1⟩
    | discarded => exact absurd rfl notDiscarded
  obtain ⟨c, isStruct⟩ := isStruct
  refine ⟨{ state with
      coroutines := state.coroutines.set co none
      parked := Function.update state.parked (.coroutine co) none },
    .destroyed co, ?_, ?_, rfl, ?_⟩
  · change coDestroy state co = _
    simp only [coDestroy, isStruct, Option.bind_eq_bind, Option.bind_some, notHere, if_false]
  · have others : ∀ other, other ≠ co →
        (state.coroutines.set co none)[other]?.join = state.deref other := by
      intro other different
      rw [List.getElem?_set_ne (Ne.symm different)]
      rfl
    constructor
    · exact simulates.orderly.step
        (@Steps.discard _ (0 : Value) _ co ⟨status, found, notActive, notDiscarded⟩)
    · simp only [List.length_set]
      exact simulates.length
    · exact simulates.stack
    · exact simulates.current
    · intro other otherStatus isStatus
      rw [Generators.getElem?_set_of_some found] at isStatus
      by_cases isCo : co = other
      · subst isCo
        rw [if_pos rfl] at isStatus
        cases isStatus
        trivial
      · rw [if_neg isCo] at isStatus
        apply (simulates.fits other otherStatus isStatus).congr
        · exact others other (Ne.symm isCo)
        · apply Function.update_of_ne
          intro same
          cases same
          exact isCo rfl
        · rfl
    · apply simulates.linked.congr
      · intro other member
        apply others
        rintro rfl
        exact notMember member
      · intro upper other rest isChain
        exact Function.update_of_ne (stackOf_ne (not_mem_below notMember isChain)) _ _
  · intro co input other value isResume
    cases isResume

theorem Simulates.step {abstract next : Generators.State} {state : State} {action : Action}
    {answer : Answer Value} (simulates : Simulates abstract state)
    (steps : Steps 0 abstract action.call next answer) : Follows state action next answer := by
  generalize isCall : action.call = call at steps
  cases steps with
  | create =>
      cases action <;> cases isCall
      exact simulates.create
  | start co input isFresh =>
      cases action <;> cases isCall
      exact simulates.start isFresh input
  | «continue» co input isSuspended =>
      cases action <;> cases isCall
      exact simulates.continue isSuspended input
  | exhausted co input isFinished =>
      cases action <;> cases isCall
      exact simulates.exhausted isFinished input
  | yield co rest value isChain =>
      cases action <;> cases isCall
      exact simulates.yield isChain value
  | finish co rest isChain =>
      cases action <;> cases isCall
      exact simulates.finish isChain
  | discard co idle =>
      cases action <;> cases isCall
      exact simulates.discard idle

end Coroutines
end FoundationsLab
