import FoundationsLab.Coroutines.Contexts

/-! A context that waits in `co_switch` finds everything as it left it. -/

namespace FoundationsLab
namespace Coroutines

open Foundation

/-! ## What each move does -/

/-- The code has computed something, or resumed a finished coroutine. -/
structure Quiet (machine next : Machine) : Prop where
  control : next.control = machine.control
  sp : next.sp = machine.sp
  callerSp : next.callerSp = machine.callerSp
  region : next.region = machine.region
  memory : ∀ address, ¬ (machine.region machine.control.stack).Contains address →
    next.cpu.memory address = machine.cpu.memory address

structure Created (trampoline : Word) (machine next : Machine) (bottom : Nat)
    (area own : Region) : Prop where
  free : machine.Free area
  inside : area.low ≤ own.low ∧ own.top ≤ area.top
  control : next.control = (coCreate machine.control).1
  sp : next.sp = Function.update machine.sp machine.control.coroutines.length bottom
  callerSp : next.callerSp = Function.update machine.callerSp machine.control.coroutines.length 0
  region : next.region =
    Function.update machine.region (.coroutine machine.control.coroutines.length) own
  room : own.low ≤ bottom ∧ bottom + 7 ≤ own.top
  frame : FrameAt next.cpu.memory bottom (fun _ => 0) trampoline
  memory : ∀ address, ¬ area.Contains address →
    next.cpu.memory address = machine.cpu.memory address

structure Destroyed (machine next : Machine) (co : Co) : Prop where
  control : Freed machine.control next.control co
  cpu : next.cpu = machine.cpu
  sp : next.sp = machine.sp
  callerSp : next.callerSp = machine.callerSp
  region : next.region = machine.region

structure Switched (machine next : Machine) (slot : Slot) (co : Co) (returnAddress : Word)
    (stored : Coroutine) (current : Option Co) (frame waiting : Frame) (pointer : Pointer)
    (outcome : Outcome) : Prop where
  control : Switches machine.control next.control slot co stored current frame waiting pointer
    outcome
  low : (machine.region machine.control.stack).low + 7 ≤ machine.cpu.rsp
  top : machine.cpu.rsp ≤ (machine.region machine.control.stack).top
  cpu : next.cpu =
    (machine.cpu.switch returnAddress (machine.behind co slot) (machine.restores co slot)).1
  sp : next.sp = (machine.store co (machine.cpu.rsp - 7) slot).sp
  callerSp : next.callerSp = (machine.store co (machine.cpu.rsp - 7) slot).callerSp
  region : next.region = machine.region

theorem switched_of_switch {machine next : Machine} {slot : Slot} {co : Co}
    {returnAddress : Word} {control : State} {stored : Coroutine} {current : Option Co}
    {frame waiting : Frame} {pointer : Pointer} {outcome : Outcome}
    (switches : Switches machine.control control slot co stored current frame waiting pointer
      outcome)
    (isSwitch : machine.switch slot co returnAddress control = some next) :
    Switched machine next slot co returnAddress stored current frame waiting pointer outcome := by
  rw [Machine.switch] at isSwitch
  split at isSwitch
  next room =>
    have isRsp : machine.cpu.rsp = machine.cpu.rsp - 7 + 7 := by omega
    have isSaved := Cpu.switch_saved isRsp returnAddress (machine.behind co slot)
      (machine.restores co slot)
    dsimp only at isSwitch
    rw [isSaved, Option.some.injEq] at isSwitch
    subst isSwitch
    cases slot with
    | sp => exact ⟨switches, room.1, room.2, rfl, rfl, rfl, rfl⟩
    | callerSp => exact ⟨switches, room.1, room.2, rfl, rfl, rfl, rfl⟩
  next => cases isSwitch

/-- Everything that a move can be. -/
inductive Moves (trampoline : Word) (machine : Machine) :
    Move → Option Outcome → Machine → Prop where
  | quiet (move : Move) (outcome : Option Outcome) (next : Machine) (quiet : Quiet machine next)
      (notStarted : ∀ co, outcome ≠ some (.started co))
      (notFresh : ∀ co input returnAddress, move = .resume co input returnAddress →
        ∃ c, machine.control.deref co = some c ∧ c.done = true) :
      Moves trampoline machine move outcome next
  | created (page stackSize base sp : Nat) (area own : Region) (outcome : Outcome)
      (next : Machine) (created : Created trampoline machine next sp area own)
      (notStarted : ∀ co, outcome ≠ .started co) :
      Moves trampoline machine (.create page stackSize base) (some outcome) next
  | destroyed (co : Co) (outcome : Outcome) (next : Machine)
      (destroyed : Destroyed machine next co) (notStarted : ∀ co, outcome ≠ .started co) :
      Moves trampoline machine (.destroy co) (some outcome) next
  | switched (move : Move) (slot : Slot) (co : Co) (returnAddress : Word) (stored : Coroutine)
      (current : Option Co) (frame waiting : Frame) (pointer : Pointer) (outcome : Outcome)
      (next : Machine) (switched : Switched machine next slot co returnAddress stored current
        frame waiting pointer outcome)
      (isStarted : stored.started = true)
      (isCurrent : ∀ other, current = some other → Begun next.control other)
      (isFrame : ∀ other prev, frame = .resume other (some prev) → Begun machine.control prev)
      (isAddress : move.returnAddress = some returnAddress)
      (isResume : ∀ other input address, move = .resume other input address →
        slot = .callerSp ∧ co = other) :
      Moves trampoline machine move (some outcome) next

theorem createOn_inv {trampoline : Word} {machine next : Machine} {page stackSize base : Nat}
    {outcome : Outcome}
    (isCreate : createOn trampoline machine page stackSize base = some (next, outcome)) :
    (∃ sp area own, Created trampoline machine next sp area own) ∧
      outcome = (coCreate machine.control).2 := by
  simp only [createOn] at isCreate
  split at isCreate
  next isFree =>
    obtain ⟨free, _, _, room⟩ := isFree
    rw [Option.some.injEq, Prod.mk.injEq] at isCreate
    obtain ⟨isNext, isOutcome⟩ := isCreate
    refine ⟨?_, isOutcome.symm⟩
    generalize isSize : Word64.add (roundedSize page stackSize) page = mapSize at isNext free room
    generalize isTop : (Word64.add base mapSize &&& Word64.lnot 15) / 8 = top at isNext room
    have below : top ≤ (base + mapSize) / 8 := by
      rw [← isTop]
      apply Nat.div_le_div_right
      exact (Word64.land_lnot_le _ _).trans (Nat.mod_le _ _)
    obtain ⟨sp, rfl⟩ : ∃ sp, top = sp + 7 := ⟨top - 7, by omega⟩
    refine ⟨sp, ⟨base / 8, (base + mapSize) / 8⟩, ⟨(base + page) / 8, (base + mapSize) / 8⟩, ?_⟩
    have lower : base / 8 ≤ (base + page) / 8 := Nat.div_le_div_right (Nat.le_add_right _ _)
    rw [← isNext]
    constructor
    · exact free
    · exact ⟨lower, Nat.le_refl _⟩
    · rfl
    · dsimp only
      rw [fabricate_sp]
    · rfl
    · rfl
    · dsimp only
      omega
    · exact fabricate_frame _ _ _
    · intro address outside
      dsimp only
      rw [fabricate_other]
      · rw [if_neg outside]
      · rw [Region.Contains] at outside
        dsimp only at outside
        omega
  next => cases isCreate

theorem moves_of_move {trampoline : Word} {machine next : Machine} {first : Move}
    {outcome : Option Outcome} (controlled : Controlled machine.control)
    (moved : move trampoline machine first = some (next, outcome)) :
    Moves trampoline machine first outcome next := by
  cases first with
  | compute registers rsp writes =>
      simp only [move] at moved
      split at moved
      next inside =>
        cases moved
        apply Moves.quiet
        · exact ⟨rfl, rfl, rfl, rfl, fun address outside => writeAll_other inside.2.2 outside⟩
        · rintro co ⟨⟩
        · rintro co input returnAddress ⟨⟩
      next => cases moved
  | create page stackSize base =>
      simp only [move, Option.bind_eq_bind, Option.bind_eq_some_iff] at moved
      obtain ⟨⟨made, result⟩, isCreate, isNext⟩ := moved
      cases isNext
      obtain ⟨⟨sp, area, own, created⟩, isOutcome⟩ := createOn_inv isCreate
      apply Moves.created page stackSize base sp area own result made created
      rw [isOutcome]
      rintro co ⟨⟩
  | resume co input returnAddress =>
      simp only [move, Option.bind_eq_bind, Option.bind_eq_some_iff] at moved
      obtain ⟨c, found, ⟨control, result⟩, resumed, moved⟩ := moved
      obtain ⟨c', found', isResumed⟩ := coResume_inv resumed
      have same : c' = c := Option.some.inj (found'.symm.trans found)
      subst same
      rcases isResumed with ⟨isDone, isControl, isResult⟩ | ⟨notDone, waiting, pointer, switches⟩
      · rw [if_pos isDone] at moved
        cases moved
        apply Moves.quiet
        · exact ⟨isControl, rfl, rfl, rfl, fun _ _ => rfl⟩
        · rw [isResult]
          rintro co ⟨⟩
        · rintro _ _ _ ⟨⟩
          exact ⟨c', found, isDone⟩
      · rw [if_neg (by simp [notDone])] at moved
        obtain ⟨switched, isSwitch, isNext⟩ := Option.bind_eq_some_iff.mp moved
        cases isNext
        have isSwitched := switched_of_switch switches isSwitch
        apply Moves.switched _ _ _ _ _ _ _ _ _ _ _ isSwitched rfl
        · rintro other ⟨⟩
          exact isSwitched.control.written_begun rfl
        · intro other prev isFrame
          rw [Frame.resume.injEq] at isFrame
          exact controlled.current prev isFrame.2
        · rfl
        · rintro other _ _ ⟨⟩
          exact ⟨rfl, rfl⟩
  | yield value returnAddress =>
      simp only [move, Option.bind_eq_bind, Option.bind_eq_some_iff] at moved
      obtain ⟨co, isCurrent, ⟨control, result⟩, yielded, switched, isSwitch, isNext⟩ := moved
      cases isNext
      obtain ⟨co', c, waiting, pointer, isCurrent', found, switches⟩ := coYield_inv yielded
      have same : co' = co := Option.some.inj (isCurrent'.symm.trans isCurrent)
      subst same
      have isSwitched := switched_of_switch switches isSwitch
      have isStarted := (controlled.current co' isCurrent).2 c found
      apply Moves.switched _ _ _ _ _ _ _ _ _ _ _ isSwitched isStarted
      · intro other isOther
        exact isSwitched.control.begun isStarted (controlled.current other isOther)
      · rintro other prev ⟨⟩
      · rfl
      · rintro other _ _ ⟨⟩
  | finish returnAddress =>
      simp only [move] at moved
      split at moved
      next => cases moved
      next number isStack =>
        simp only [Option.bind_eq_bind, Option.bind_eq_some_iff] at moved
        obtain ⟨self, isSelf, ⟨control, result⟩, finished, switched, isSwitch, isNext⟩ := moved
        cases isNext
        obtain ⟨number', self', c, waiting, pointer, isStack', isSelf', found, switches⟩ :=
          coTrampolineEnd_inv finished
        have sameNumber : number' = number := by
          rw [isStack] at isStack'
          cases isStack'
          rfl
        subst sameNumber
        have same : self' = self := Option.some.inj (isSelf'.symm.trans isSelf)
        subst same
        have isSwitched := switched_of_switch switches isSwitch
        have isStarted := (controlled.self number' self' isSelf).2 c found
        apply Moves.switched _ _ _ _ _ _ _ _ _ _ _ isSwitched isStarted
        · intro other isOther
          exact isSwitched.control.begun isStarted (controlled.current other isOther)
        · rintro other prev ⟨⟩
        · rfl
        · rintro other _ _ ⟨⟩
  | destroy co =>
      simp only [move, Option.bind_eq_bind, Option.bind_eq_some_iff] at moved
      obtain ⟨⟨control, result⟩, destroyed, isNext⟩ := moved
      cases isNext
      obtain ⟨freed, isResult⟩ := coDestroy_inv destroyed
      have isDestroyed : Destroyed machine { machine with control := control } co :=
        ⟨freed, rfl, rfl, rfl, rfl⟩
      apply Moves.destroyed co result _ isDestroyed
      rw [isResult]
      rintro other ⟨⟩

/-! ## A context that waits -/

/-- What a context has when it calls `co_switch`; `rip` is the return address. -/
structure Snapshot where
  registers : Register → Word
  rsp : Nat
  rip : Word
  memory : Nat → Word

/-- The context is parked in that call: its frame and everything above it are as
they were, and whoever points there points to the frame. -/
structure Waiting (machine : Machine) (stack : Stack) (stamp : Nat) (snapshot : Snapshot) :
    Prop where
  parked : ∃ frame, machine.control.parked stack = some (stamp, frame)
  low : (machine.region stack).low + 7 ≤ snapshot.rsp
  top : snapshot.rsp ≤ (machine.region stack).top
  frame : FrameAt machine.cpu.memory (snapshot.rsp - 7) snapshot.registers snapshot.rip
  live : ∀ address, snapshot.rsp ≤ address → address < (machine.region stack).top →
    machine.cpu.memory address = snapshot.memory address
  sp : ∀ co c, machine.control.deref co = some c → c.sp = ⟨stack, stamp⟩ →
    machine.sp co = snapshot.rsp - 7
  callerSp : ∀ co c, machine.control.deref co = some c → c.callerSp = some ⟨stack, stamp⟩ →
    machine.callerSp co = snapshot.rsp - 7

/-- The processor is back after the call. -/
structure Returned (machine : Machine) (stack : Stack) (snapshot : Snapshot) : Prop where
  rip : machine.cpu.rip = snapshot.rip
  registers : machine.cpu.registers = snapshot.registers
  rsp : machine.cpu.rsp = snapshot.rsp
  live : ∀ address, snapshot.rsp ≤ address → address < (machine.region stack).top →
    machine.cpu.memory address = snapshot.memory address

/-- Stacks lie apart, and an unstarted coroutine waits in the frame that was built
for it. -/
structure Arranged (trampoline : Word) (machine : Machine) : Prop where
  controlled : Controlled machine.control
  apart : ∀ left right, Mapped machine.control left → Mapped machine.control right →
    left ≠ right → (machine.region left).Apart (machine.region right)
  fresh : ∀ co c, machine.control.deref co = some c → c.started = false →
    ∃ rsp memory, Waiting machine (.coroutine co) c.sp.stamp ⟨fun _ => 0, rsp, trampoline, memory⟩

theorem Region.Apart.symm {left right : Region} (apart : left.Apart right) : right.Apart left :=
  Or.symm apart

theorem Region.Apart.not_contains {left right : Region} (apart : left.Apart right)
    {address : Nat} (inside : left.Contains address) : ¬ right.Contains address := by
  rw [Region.Contains] at inside ⊢
  rcases apart with below | above
  · omega
  · omega

section

variable {trampoline : Word} {machine next : Machine} {stack : Stack} {stamp : Nat}
  {snapshot : Snapshot}

theorem Waiting.mapped (arranged : Arranged trampoline machine)
    (waiting : Waiting machine stack stamp snapshot) : Mapped machine.control stack := by
  obtain ⟨frame, isParked⟩ := waiting.parked
  apply arranged.controlled.mapped
  rw [isParked]
  rfl

/-- A context goes on waiting while its own area, its frame and the pointers to it
are left alone. -/
theorem Waiting.keep (waiting : Waiting machine stack stamp snapshot)
    (sameParked : next.control.parked stack = machine.control.parked stack)
    (sameRegion : next.region stack = machine.region stack)
    (sameMemory : ∀ address, (machine.region stack).Contains address →
      next.cpu.memory address = machine.cpu.memory address)
    (oldSp : ∀ co c, next.control.deref co = some c → c.sp = ⟨stack, stamp⟩ →
      ∃ old, machine.control.deref co = some old ∧ old.sp = c.sp ∧ next.sp co = machine.sp co)
    (oldCallerSp : ∀ co c, next.control.deref co = some c → c.callerSp = some ⟨stack, stamp⟩ →
      ∃ old, machine.control.deref co = some old ∧ old.callerSp = c.callerSp ∧
        next.callerSp co = machine.callerSp co) :
    Waiting next stack stamp snapshot := by
  have low := waiting.low
  have top := waiting.top
  constructor
  · rw [sameParked]
    exact waiting.parked
  · rw [sameRegion]
    exact low
  · rw [sameRegion]
    exact top
  · apply waiting.frame.congr
    intro address above below
    apply sameMemory
    rw [Region.Contains]
    omega
  · rw [sameRegion]
    intro address above below
    rw [← waiting.live address above below]
    apply sameMemory
    rw [Region.Contains]
    omega
  · intro co c found isPointer
    obtain ⟨old, isOld, sameSp, sameWord⟩ := oldSp co c found isPointer
    rw [sameWord]
    exact waiting.sp co old isOld (sameSp.trans isPointer)
  · intro co c found isPointer
    obtain ⟨old, isOld, sameSp, sameWord⟩ := oldCallerSp co c found isPointer
    rw [sameWord]
    exact waiting.callerSp co old isOld (sameSp.trans isPointer)

theorem Quiet.keep (quiet : Quiet machine next) (arranged : Arranged trampoline machine)
    (waiting : Waiting machine stack stamp snapshot) (away : machine.control.stack ≠ stack) :
    Waiting next stack stamp snapshot := by
  apply waiting.keep
  · rw [quiet.control]
  · rw [quiet.region]
  · intro address inside
    apply quiet.memory
    exact (arranged.apart _ _ (waiting.mapped arranged) arranged.controlled.here
      away.symm).not_contains inside
  · intro co c found _
    rw [quiet.control] at found
    exact ⟨c, found, rfl, by rw [quiet.sp]⟩
  · intro co c found _
    rw [quiet.control] at found
    exact ⟨c, found, rfl, by rw [quiet.callerSp]⟩

theorem Machine.Free.apart {area : Region} (free : machine.Free area)
    (mapped : Mapped machine.control stack) : (machine.region stack).Apart area := by
  cases stack with
  | main => exact free.1
  | coroutine co =>
      rcases free.2 co mapped.lt with isNone | apart
      · rw [Mapped, isNone] at mapped
        cases mapped
      · exact apart

theorem Created.keep {bottom : Nat} {area own : Region}
    (created : Created trampoline machine next bottom area own)
    (arranged : Arranged trampoline machine) (waiting : Waiting machine stack stamp snapshot) :
    Waiting next stack stamp snapshot := by
  have mapped := waiting.mapped arranged
  have notNew : stack ≠ .coroutine machine.control.coroutines.length := by
    rintro rfl
    exact Nat.lt_irrefl _ mapped.lt
  apply waiting.keep
  · rw [created.control, parked_coCreate, if_neg notNew]
  · rw [created.region, Function.update_of_ne notNew]
  · intro address inside
    exact created.memory address ((created.free.apart mapped).not_contains inside)
  · intro co c found isPointer
    rw [created.control, deref_coCreate] at found
    split at found
    next isNew =>
      cases found
      rw [Pointer.mk.injEq, isNew] at isPointer
      exact absurd isPointer.1.symm notNew
    next isOld => exact ⟨c, found, rfl, by rw [created.sp, Function.update_of_ne isOld]⟩
  · intro co c found isPointer
    rw [created.control, deref_coCreate] at found
    split at found
    next => cases found; cases isPointer
    next isOld => exact ⟨c, found, rfl, by rw [created.callerSp, Function.update_of_ne isOld]⟩

theorem Destroyed.keep {co : Co} (destroyed : Destroyed machine next co)
    (waiting : Waiting machine stack stamp snapshot) (other : stack ≠ .coroutine co) :
    Waiting next stack stamp snapshot := by
  have derefInv : ∀ {number : Co} {c : Coroutine}, next.control.deref number = some c →
      machine.control.deref number = some c := by
    intro number c found
    rw [destroyed.control.deref] at found
    split at found
    next => cases found
    next => exact found
  apply waiting.keep
  · rw [destroyed.control.parked, if_neg other]
  · rw [destroyed.region]
  · intro address _
    rw [destroyed.cpu]
  · intro number c found _
    exact ⟨c, derefInv found, rfl, by rw [destroyed.sp]⟩
  · intro number c found _
    exact ⟨c, derefInv found, rfl, by rw [destroyed.callerSp]⟩

section

variable {slot : Slot} {co : Co} {returnAddress : Word} {stored : Coroutine}
  {current : Option Co} {frame waitsIn : Frame} {pointer : Pointer} {outcome : Outcome}

theorem Switched.memory (switched : Switched machine next slot co returnAddress stored current
    frame waitsIn pointer outcome) {address : Nat}
    (outside : ¬ (machine.region machine.control.stack).Contains address) :
    next.cpu.memory address = machine.cpu.memory address := by
  have low := switched.low
  have top := switched.top
  rw [switched.cpu, Cpu.switch_memory]
  apply pushedMemory_other (by omega : machine.cpu.rsp = machine.cpu.rsp - 7 + 7)
  rw [Region.Contains] at outside
  omega

/-- The words that the code of the switch does not write. -/
theorem Switched.memory_live (switched : Switched machine next slot co returnAddress stored
    current frame waitsIn pointer outcome) {address : Nat} (above : machine.cpu.rsp ≤ address) :
    next.cpu.memory address = machine.cpu.memory address := by
  have low := switched.low
  rw [switched.cpu, Cpu.switch_memory]
  exact pushedMemory_other (by omega : machine.cpu.rsp = machine.cpu.rsp - 7 + 7) _ (by omega)

/-- A pointer that a coroutine holds after a switch is the new one, or was there. -/
theorem Switched.sp_inv (switched : Switched machine next slot co returnAddress stored current
    frame waitsIn pointer outcome) {other : Co} {c : Coroutine}
    (found : next.control.deref other = some c) :
    (c.sp = ⟨machine.control.stack, machine.control.clock⟩ ∧
        next.sp other = machine.cpu.rsp - 7) ∨
      ∃ old, machine.control.deref other = some old ∧ old.sp = c.sp ∧
        next.sp other = machine.sp other := by
  obtain ⟨old, isOld, sameSp, _⟩ := switched.control.found
  rw [switched.control.deref] at found
  rw [switched.sp]
  split at found
  next isCo =>
    subst isCo
    cases found
    cases slot with
    | sp => exact Or.inl ⟨rfl, Function.update_self ..⟩
    | callerSp => exact Or.inr ⟨old, isOld, sameSp.symm, rfl⟩
  next notCo =>
    apply Or.inr
    refine ⟨c, found, rfl, ?_⟩
    cases slot with
    | sp => exact Function.update_of_ne (Ne.symm notCo) _ _
    | callerSp => rfl

theorem Switched.callerSp_inv (switched : Switched machine next slot co returnAddress stored
    current frame waitsIn pointer outcome) {other : Co} {c : Coroutine}
    (found : next.control.deref other = some c) :
    (c.callerSp = some ⟨machine.control.stack, machine.control.clock⟩ ∧
        next.callerSp other = machine.cpu.rsp - 7) ∨
      ∃ old, machine.control.deref other = some old ∧ old.callerSp = c.callerSp ∧
        next.callerSp other = machine.callerSp other := by
  obtain ⟨old, isOld, _, sameCallerSp⟩ := switched.control.found
  rw [switched.control.deref] at found
  rw [switched.callerSp]
  split at found
  next isCo =>
    subst isCo
    cases found
    cases slot with
    | sp => exact Or.inr ⟨old, isOld, sameCallerSp.symm, rfl⟩
    | callerSp => exact Or.inl ⟨rfl, Function.update_self ..⟩
  next notCo =>
    apply Or.inr
    refine ⟨c, found, rfl, ?_⟩
    cases slot with
    | sp => rfl
    | callerSp => exact Function.update_of_ne (Ne.symm notCo) _ _

theorem Switched.keep (switched : Switched machine next slot co returnAddress stored current
    frame waitsIn pointer outcome) (arranged : Arranged trampoline machine)
    (waiting : Waiting machine stack stamp snapshot) (away : machine.control.stack ≠ stack)
    (elsewhere : pointer.stack ≠ stack) : Waiting next stack stamp snapshot := by
  have notNew : (⟨machine.control.stack, machine.control.clock⟩ : Pointer) ≠ ⟨stack, stamp⟩ := by
    intro same
    rw [Pointer.mk.injEq] at same
    exact away same.1
  apply waiting.keep
  · rw [switched.control.parked, Function.update_of_ne elsewhere.symm,
      Function.update_of_ne away.symm]
  · rw [switched.region]
  · intro address inside
    apply switched.memory
    exact (arranged.apart _ _ (waiting.mapped arranged) arranged.controlled.here
      away.symm).not_contains inside
  · intro other c found isPointer
    rcases switched.sp_inv found with ⟨isNew, _⟩ | old
    · exact absurd (isNew.symm.trans isPointer) notNew
    · exact old
  · intro other c found isPointer
    rcases switched.callerSp_inv found with ⟨isNew, _⟩ | old
    · exact absurd (Option.some.inj (isNew.symm.trans isPointer)) notNew
    · exact old

/-- The context that calls `co_switch` waits from then on. -/
theorem Switched.parks (switched : Switched machine next slot co returnAddress stored current
    frame waitsIn pointer outcome) (arranged : Arranged trampoline machine) :
    Waiting next machine.control.stack machine.control.clock
      ⟨machine.cpu.registers, machine.cpu.rsp, returnAddress, machine.cpu.memory⟩ := by
  have isOld := arranged.controlled.isOld switched.control
  have away := switched.control.away isOld
  have low := switched.low
  constructor
  · refine ⟨frame, ?_⟩
    rw [switched.control.parked, Function.update_of_ne away.symm, Function.update_self]
  · rw [switched.region]
    exact low
  · rw [switched.region]
    exact switched.top
  · rw [switched.cpu, Cpu.switch_memory]
    exact pushedMemory_frame (by dsimp only; omega) _
  · intro address above _
    exact switched.memory_live above
  · intro other c found isPointer
    rcases switched.sp_inv found with ⟨_, isWord⟩ | ⟨old, isOldStruct, same, _⟩
    · exact isWord
    · have stamps := (arranged.controlled.stamps other old isOldStruct).1
      rw [same, isPointer] at stamps
      exact absurd stamps (Nat.lt_irrefl _)
  · intro other c found isPointer
    rcases switched.callerSp_inv found with ⟨_, isWord⟩ | ⟨old, isOldStruct, same, _⟩
    · exact isWord
    · have stamps := (arranged.controlled.stamps other old isOldStruct).2 _
        (same.trans isPointer)
      exact absurd stamps (Nat.lt_irrefl _)

/-- A switch to a context that waits ends the call it waits in. -/
theorem Switched.returns (switched : Switched machine next slot co returnAddress stored current
    frame waitsIn pointer outcome) (arranged : Arranged trampoline machine)
    (waiting : Waiting machine stack stamp snapshot) (isTarget : pointer.stack = stack) :
    Returned next stack snapshot := by
  have isOld := arranged.controlled.isOld switched.control
  have away := switched.control.away isOld
  have waits := switched.control.waitsThere isOld
  obtain ⟨inFrame, isParked⟩ := waiting.parked
  have low := waiting.low
  have isPointer : pointer = ⟨stack, stamp⟩ := by
    rw [isTarget, isParked, Option.some.injEq, Prod.mk.injEq] at waits
    rw [← isTarget, waits.1]
  rw [isTarget] at away
  have outside : ∀ address, (machine.region stack).Contains address →
      next.cpu.memory address = machine.cpu.memory address := by
    intro address inside
    apply switched.memory
    exact (arranged.apart _ _ (waiting.mapped arranged) arranged.controlled.here
      away).not_contains inside
  have top := waiting.top
  have isRestored : machine.restores co slot = snapshot.rsp - 7 := by
    obtain ⟨old, isOldStruct, sameSp, sameCallerSp⟩ := switched.control.found
    have restore := switched.control.restore
    cases slot with
    | sp =>
        rw [Slot.restores, sameCallerSp, isPointer] at restore
        exact waiting.callerSp co old isOldStruct restore
    | callerSp =>
        rw [Slot.restores, sameSp, isPointer, Option.some.injEq] at restore
        exact waiting.sp co old isOldStruct restore
  have frameThere : FrameAt (pushedMemory machine.cpu returnAddress) (machine.restores co slot)
      snapshot.registers snapshot.rip := by
    rw [isRestored]
    apply waiting.frame.congr
    intro address above below
    have same := outside address (by rw [Region.Contains]; omega)
    rw [switched.cpu, Cpu.switch_memory] at same
    exact same
  obtain ⟨registers, rip, rsp⟩ := Cpu.switch_restores frameThere (machine.behind co slot)
  rw [← switched.cpu] at registers rip rsp
  constructor
  · exact rip
  · exact registers
  · rw [rsp, isRestored]
    omega
  · rw [switched.region]
    intro address above below
    rw [← waiting.live address above below]
    apply outside
    rw [Region.Contains]
    omega

end
end

/-! ## Every move keeps the arrangement -/

theorem Arranged.initial (trampoline : Word) {machine : Machine}
    (isInitial : machine.control = .initial) : Arranged trampoline machine := by
  constructor
  · rw [isInitial]
    exact initial_controlled
  · intro left right isLeft isRight different
    rw [isInitial] at isLeft isRight
    cases left with
    | main =>
        cases right with
        | main => exact absurd rfl different
        | coroutine co => cases isRight
    | coroutine co => cases isLeft
  · intro co c found
    rw [isInitial] at found
    cases found

section

variable {trampoline : Word} {machine next : Machine}

theorem Controlled.fresh_away {state : State} (controlled : Controlled state) {co : Co}
    {c : Coroutine} (found : state.deref co = some c) (notStarted : c.started = false) :
    state.stack ≠ .coroutine co :=
  (controlled.stack.ne_fresh found notStarted).symm

theorem Quiet.arranged (quiet : Quiet machine next) (arranged : Arranged trampoline machine) :
    Arranged trampoline next := by
  constructor
  · rw [quiet.control]
    exact arranged.controlled
  · rw [quiet.control, quiet.region]
    exact arranged.apart
  · intro co c found notStarted
    rw [quiet.control] at found
    obtain ⟨rsp, memory, waiting⟩ := arranged.fresh co c found notStarted
    exact ⟨rsp, memory, quiet.keep arranged waiting
      (arranged.controlled.fresh_away found notStarted)⟩

theorem Created.mapped_inv {bottom : Nat} {area own : Region}
    (created : Created trampoline machine next bottom area own) {stack : Stack}
    (mapped : Mapped next.control stack) :
    stack = .coroutine machine.control.coroutines.length ∨
      (stack ≠ .coroutine machine.control.coroutines.length ∧ Mapped machine.control stack) := by
  cases stack with
  | main =>
      apply Or.inr
      constructor
      · rintro ⟨⟩
      · trivial
  | coroutine co =>
      rw [Mapped, created.control, deref_coCreate] at mapped
      split at mapped
      next isNew => exact Or.inl (congrArg Stack.coroutine isNew)
      next notNew =>
        apply Or.inr
        constructor
        · intro same
          cases same
          exact notNew rfl
        · exact mapped

theorem Created.apart_own {bottom : Nat} {area own : Region}
    (created : Created trampoline machine next bottom area own) {stack : Stack}
    (mapped : Mapped machine.control stack) : (machine.region stack).Apart own := by
  have apart := created.free.apart mapped
  have inside := created.inside
  rcases apart with below | above
  · exact Or.inl (below.trans inside.1)
  · exact Or.inr (inside.2.trans above)

theorem Created.arranged {bottom : Nat} {area own : Region}
    (created : Created trampoline machine next bottom area own)
    (arranged : Arranged trampoline machine) : Arranged trampoline next := by
  have controlled : Controlled next.control := by
    rw [created.control]
    exact arranged.controlled.create
  constructor
  · exact controlled
  · intro left right isLeft isRight different
    rw [created.region]
    rcases created.mapped_inv isLeft with isNewLeft | ⟨notNewLeft, wasLeft⟩
    · rcases created.mapped_inv isRight with isNewRight | ⟨notNewRight, wasRight⟩
      · exact absurd (isNewLeft.trans isNewRight.symm) different
      · rw [isNewLeft, Function.update_self, Function.update_of_ne notNewRight]
        exact (created.apart_own wasRight).symm
    · rw [Function.update_of_ne notNewLeft]
      rcases created.mapped_inv isRight with isNewRight | ⟨notNewRight, wasRight⟩
      · rw [isNewRight, Function.update_self]
        exact created.apart_own wasLeft
      · rw [Function.update_of_ne notNewRight]
        exact arranged.apart left right wasLeft wasRight different
  · intro co c found notStarted
    have isFresh := controlled.fresh co c found notStarted
    rw [created.control, deref_coCreate] at found
    split at found
    next isNew =>
      rw [Option.some.injEq] at found
      refine ⟨bottom + 7, next.cpu.memory, ?_⟩
      have room := created.room
      have isRegion : next.region (.coroutine co) = own := by
        rw [created.region, isNew, Function.update_self]
      constructor
      · exact ⟨_, isFresh.2.2⟩
      · rw [isRegion]
        dsimp only
        omega
      · rw [isRegion]
        exact room.2
      · exact created.frame
      · intro address _ _
        rfl
      · intro other c' found' isPointer
        rw [created.control, deref_coCreate] at found'
        split at found'
        next isOther =>
          rw [created.sp, isOther, Function.update_self]
          rfl
        next notOther =>
          have stamps := (arranged.controlled.stamps other c' found').1
          rw [isPointer, ← found] at stamps
          exact absurd stamps (Nat.lt_irrefl _)
      · intro other c' found' isPointer
        rw [created.control, deref_coCreate] at found'
        split at found'
        next isOther =>
          cases found'
          cases isPointer
        next notOther =>
          have stamps := (arranged.controlled.stamps other c' found').2 _ isPointer
          rw [← found] at stamps
          exact absurd stamps (Nat.lt_irrefl _)
    next notNew =>
      obtain ⟨rsp, memory, waiting⟩ := arranged.fresh co c found notStarted
      exact ⟨rsp, memory, created.keep arranged waiting⟩

theorem Destroyed.arranged {co : Co} (destroyed : Destroyed machine next co)
    (arranged : Arranged trampoline machine) : Arranged trampoline next := by
  have mappedInv : ∀ {stack : Stack}, Mapped next.control stack → Mapped machine.control stack := by
    intro stack mapped
    cases stack with
    | main => trivial
    | coroutine number =>
        rw [Mapped, destroyed.control.deref] at mapped
        split at mapped
        next => cases mapped
        next => exact mapped
  constructor
  · exact arranged.controlled.destroy destroyed.control
  · rw [destroyed.region]
    intro left right isLeft isRight
    exact arranged.apart left right (mappedInv isLeft) (mappedInv isRight)
  · intro number c found notStarted
    rw [destroyed.control.deref] at found
    split at found
    next => cases found
    next notCo =>
      obtain ⟨rsp, memory, waiting⟩ := arranged.fresh number c found notStarted
      refine ⟨rsp, memory, destroyed.keep waiting ?_⟩
      intro same
      cases same
      exact notCo rfl

theorem Switched.arranged {slot : Slot} {co : Co} {returnAddress : Word} {stored : Coroutine}
    {current : Option Co} {frame waitsIn : Frame} {pointer : Pointer} {outcome : Outcome}
    (switched : Switched machine next slot co returnAddress stored current frame waitsIn pointer
      outcome) (arranged : Arranged trampoline machine) (isStarted : stored.started = true)
    (isCurrent : ∀ other, current = some other → Begun next.control other)
    (isFrame : ∀ other prev, frame = .resume other (some prev) → Begun machine.control prev) :
    Arranged trampoline next := by
  constructor
  · exact arranged.controlled.switch switched.control isStarted isCurrent isFrame
  · intro left right isLeft isRight
    rw [switched.region]
    exact arranged.apart left right ((switched.control.mapped left).mp isLeft)
      ((switched.control.mapped right).mp isRight)
  · intro other c found notStarted
    rw [switched.control.deref] at found
    split at found
    next =>
      cases found
      rw [Slot.store_started, isStarted] at notStarted
      cases notStarted
    next notCo =>
      obtain ⟨rsp, memory, waiting⟩ := arranged.fresh other c found notStarted
      refine ⟨rsp, memory, switched.keep arranged waiting
        (arranged.controlled.fresh_away found notStarted) ?_⟩
      rcases arranged.controlled.target switched.control with isCo | begun
      · rw [isCo]
        intro same
        cases same
        exact notCo rfl
      · exact (begun.ne_fresh found notStarted).symm

theorem Moves.arranged {first : Move} {outcome : Option Outcome}
    (moved : Moves trampoline machine first outcome next)
    (arranged : Arranged trampoline machine) : Arranged trampoline next := by
  cases moved with
  | quiet _ _ _ quiet _ _ => exact quiet.arranged arranged
  | created _ _ _ _ _ _ _ _ created _ => exact created.arranged arranged
  | destroyed _ _ _ destroyed _ => exact destroyed.arranged arranged
  | switched _ _ _ _ _ _ _ _ _ _ _ switched isStarted isCurrent isFrame _ _ =>
      exact switched.arranged arranged isStarted isCurrent isFrame

/-! ## A context that waits, over a run -/

/-- The coroutine was freed, so that its stack is not used again. -/
def Gone (machine : Machine) (stack : Stack) : Prop :=
  ∃ co, stack = .coroutine co ∧ co < machine.control.coroutines.length ∧
    machine.control.deref co = none

theorem Gone.away {stack : Stack} (gone : Gone machine stack)
    (arranged : Arranged trampoline machine) : machine.control.stack ≠ stack := by
  obtain ⟨co, rfl, _, isNone⟩ := gone
  intro same
  have here := arranged.controlled.here
  rw [same, Mapped, isNone] at here
  cases here

theorem Gone.move {stack : Stack} {first : Move} {outcome : Option Outcome}
    (gone : Gone machine stack) (moved : Moves trampoline machine first outcome next) :
    Gone next stack := by
  obtain ⟨co, isStack, inside, isNone⟩ := gone
  refine ⟨co, isStack, ?_⟩
  cases moved with
  | quiet _ _ _ quiet _ _ =>
      rw [quiet.control]
      exact ⟨inside, isNone⟩
  | created _ _ _ _ _ _ _ _ created _ =>
      rw [created.control, deref_coCreate, if_neg (Nat.ne_of_lt inside)]
      refine ⟨?_, isNone⟩
      rw [coCreate, List.length_append]
      exact Nat.lt_of_lt_of_le inside (Nat.le_add_right _ _)
  | destroyed other _ _ destroyed _ =>
      rw [destroyed.control.deref, destroyed.control.isNext]
      refine ⟨Nat.lt_of_lt_of_eq inside List.length_set.symm, ?_⟩
      split
      next => rfl
      next => exact isNone
  | switched _ _ written _ _ _ _ _ _ _ _ switched _ _ _ _ _ =>
      obtain ⟨old, isOld, _⟩ := switched.control.found
      rw [switched.control.length, switched.control.deref]
      refine ⟨inside, ?_⟩
      split
      next isWritten =>
        rw [isWritten, isNone] at isOld
        cases isOld
      next => exact isNone

/-- One move while a context waits: it goes on waiting, or is freed, or its call
returns. -/
theorem Waiting.move {stack : Stack} {stamp : Nat} {snapshot : Snapshot} {first : Move}
    {outcome : Option Outcome} (waiting : Waiting machine stack stamp snapshot)
    (arranged : Arranged trampoline machine) (away : machine.control.stack ≠ stack)
    (moved : Moves trampoline machine first outcome next) :
    (next.control.stack ≠ stack ∧ (Waiting next stack stamp snapshot ∨ Gone next stack)) ∨
      (next.control.stack = stack ∧ Returned next stack snapshot) := by
  cases moved with
  | quiet _ _ _ quiet _ _ =>
      apply Or.inl
      rw [quiet.control]
      exact ⟨away, Or.inl (quiet.keep arranged waiting away)⟩
  | created _ _ _ _ _ _ _ _ created _ =>
      apply Or.inl
      rw [created.control]
      exact ⟨away, Or.inl (created.keep arranged waiting)⟩
  | destroyed co _ _ destroyed _ =>
      apply Or.inl
      have sameStack : next.control.stack = machine.control.stack := by
        rw [destroyed.control.isNext]
      rw [sameStack]
      refine ⟨away, ?_⟩
      by_cases isFreed : stack = .coroutine co
      · apply Or.inr
        obtain ⟨c, found⟩ := destroyed.control.exists_
        refine ⟨co, isFreed, ?_, ?_⟩
        · rw [destroyed.control.isNext]
          exact Nat.lt_of_lt_of_eq (State.deref_lt found) List.length_set.symm
        · rw [destroyed.control.deref, if_pos rfl]
      · exact Or.inl (destroyed.keep waiting isFreed)
  | switched _ _ _ _ _ _ _ _ pointer _ _ switched _ _ _ _ _ =>
      rw [switched.control.stack]
      by_cases isTarget : pointer.stack = stack
      · exact Or.inr ⟨isTarget, switched.returns arranged waiting isTarget⟩
      · exact Or.inl ⟨isTarget, Or.inl (switched.keep arranged waiting away isTarget)⟩

end

end Coroutines
end FoundationsLab
