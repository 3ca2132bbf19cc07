import FoundationsLab.Coroutines.Preserved

/-! Switches over whole runs: every call of `co_switch` that returns finds its
registers and its stack, and a fresh coroutine starts in the trampoline. -/

namespace FoundationsLab
namespace Coroutines

variable {trampoline : Word}

/-- The transitions lead from one machine to another. -/
def Connected (trampoline : Word) : Machine → List Transition → Prop
  | _, [] => True
  | machine, first :: rest =>
      first.before = machine ∧ Moves trampoline machine first.move first.outcome first.after ∧
        Connected trampoline first.after rest

theorem moves_connected {machine final : Machine} {program : List Move} {log : List Transition}
    (arranged : Arranged trampoline machine)
    (ran : moves trampoline machine program = some (final, log)) :
    Connected trampoline machine log := by
  induction program generalizing machine final log with
  | nil =>
      cases ran
      trivial
  | cons first rest induction =>
      simp only [moves, Option.bind_eq_bind, Option.bind_eq_some_iff] at ran
      obtain ⟨⟨next, outcome⟩, moved, ⟨last, others⟩, onward, isLog⟩ := ran
      cases isLog
      have isMove := moves_of_move arranged.controlled moved
      exact ⟨rfl, isMove, induction (isMove.arranged arranged) onward⟩

theorem Connected.drop {machine : Machine} {earlier later : List Transition}
    (arranged : Arranged trampoline machine)
    (connected : Connected trampoline machine (earlier ++ later)) :
    ∃ middle, Arranged trampoline middle ∧ Connected trampoline middle later := by
  induction earlier generalizing machine with
  | nil => exact ⟨machine, arranged, connected⟩
  | cons first rest induction =>
      obtain ⟨_, moved, onward⟩ := connected
      exact induction (moved.arranged arranged) onward

/-- A context that waits while others run still waits, or its call has returned in
the first transition that leads back to it. -/
theorem Waiting.run {machine : Machine} {stack : Stack} {stamp : Nat} {snapshot : Snapshot}
    {between later : List Transition} {back : Transition}
    (arranged : Arranged trampoline machine) (away : machine.control.stack ≠ stack)
    (waiting : Waiting machine stack stamp snapshot ∨ Gone machine stack)
    (connected : Connected trampoline machine (between ++ back :: later))
    (elsewhere : ∀ other ∈ between, other.after.control.stack ≠ stack)
    (isBack : back.after.control.stack = stack) : Returned back.after stack snapshot := by
  induction between generalizing machine with
  | nil =>
      obtain ⟨_, moved, _⟩ := connected
      have arrangedNext := moved.arranged arranged
      rcases waiting with waiting | gone
      · rcases waiting.move arranged away moved with ⟨notBack, _⟩ | ⟨_, returned⟩
        · exact absurd isBack notBack
        · exact returned
      · exact absurd isBack ((gone.move moved).away arrangedNext)
  | cons first rest induction =>
      obtain ⟨_, moved, onward⟩ := connected
      have notBack := elsewhere first List.mem_cons_self
      apply induction (moved.arranged arranged) notBack _ onward
      · intro other member
        exact elsewhere other (List.mem_cons_of_mem _ member)
      · rcases waiting with waiting | gone
        · rcases waiting.move arranged away moved with ⟨_, still⟩ | ⟨isTarget, _⟩
          · exact still
          · exact absurd isTarget notBack
        · exact Or.inr (gone.move moved)

/-- What switches keep to in a run. -/
structure SwitchesPreserve (trampoline : Word) (log : List Transition) : Prop where
  /-- The first transition back to a context that switched away ends its call of
  `co_switch`, at the address after it, with the registers, the stack pointer and
  the stack as they were. -/
  returns : ∀ earlier call between back later stack,
    log = earlier ++ call :: (between ++ back :: later) →
    call.before.control.stack = stack → call.after.control.stack ≠ stack →
    (∀ other ∈ between, other.after.control.stack ≠ stack) → back.after.control.stack = stack →
    ∃ returnAddress, call.move.returnAddress = some returnAddress ∧
      Returned back.after stack
        ⟨call.before.cpu.registers, call.before.cpu.rsp, returnAddress, call.before.cpu.memory⟩
  /-- The first switch into a coroutine enters the trampoline with clear registers. -/
  starts : ∀ entry ∈ log, ∀ co input returnAddress c,
    entry.move = .resume co input returnAddress → entry.before.control.deref co = some c →
    c.started = false →
    entry.after.control.stack = .coroutine co ∧ entry.after.cpu.rip = trampoline ∧
      ∀ register, entry.after.cpu.registers register = 0

theorem Moves.switch_away {machine next : Machine} {first : Move} {outcome : Option Outcome}
    (moved : Moves trampoline machine first outcome next)
    (arranged : Arranged trampoline machine)
    (leaves : next.control.stack ≠ machine.control.stack) :
    ∃ returnAddress, first.returnAddress = some returnAddress ∧
      Waiting next machine.control.stack machine.control.clock
        ⟨machine.cpu.registers, machine.cpu.rsp, returnAddress, machine.cpu.memory⟩ := by
  cases moved with
  | quiet _ _ _ quiet _ _ =>
      rw [quiet.control] at leaves
      exact absurd rfl leaves
  | created _ _ _ _ _ _ _ _ created _ =>
      rw [created.control] at leaves
      exact absurd rfl leaves
  | destroyed _ _ _ destroyed _ =>
      rw [destroyed.control.isNext] at leaves
      exact absurd rfl leaves
  | switched _ _ _ returnAddress _ _ _ _ _ _ _ switched _ _ _ isAddress _ =>
      exact ⟨returnAddress, isAddress, switched.parks arranged⟩

theorem Moves.first_switch {machine next : Machine} {co : Co} {input : Value}
    {returnAddress : Word} {outcome : Option Outcome} {c : Coroutine}
    (moved : Moves trampoline machine (.resume co input returnAddress) outcome next)
    (arranged : Arranged trampoline machine) (found : machine.control.deref co = some c)
    (notStarted : c.started = false) :
    next.control.stack = .coroutine co ∧ next.cpu.rip = trampoline ∧
      ∀ register, next.cpu.registers register = 0 := by
  obtain ⟨notDone, isStack, isParked⟩ := arranged.controlled.fresh co c found notStarted
  cases moved with
  | quiet _ _ _ _ _ notFresh =>
      obtain ⟨c', found', isDone⟩ := notFresh co input returnAddress rfl
      rw [found, Option.some.injEq] at found'
      rw [← found', notDone] at isDone
      cases isDone
  | switched _ _ _ _ _ _ _ _ pointer _ _ switched _ _ _ _ isResume =>
      obtain ⟨isSlot, isCo⟩ := isResume co input returnAddress rfl
      subst isSlot isCo
      obtain ⟨c', found', sameSp, _⟩ := switched.control.found
      rw [found, Option.some.injEq] at found'
      subst found'
      have restore := switched.control.restore
      rw [Slot.restores, sameSp, Option.some.injEq] at restore
      have isTarget : pointer.stack = .coroutine _ := restore ▸ isStack
      obtain ⟨rsp, memory, waiting⟩ := arranged.fresh _ c found notStarted
      have returned := switched.returns arranged waiting isTarget
      rw [switched.control.stack]
      refine ⟨isTarget, returned.rip, ?_⟩
      intro register
      rw [returned.registers]

/-- Any code that keeps to its own stack, whatever it computes and in whatever
order it creates, resumes, yields, ends and frees. -/
theorem switches_preserve (trampoline : Word) (machine final : Machine) (program : List Move)
    (log : List Transition) (isInitial : machine.control = .initial)
    (ran : moves trampoline machine program = some (final, log)) :
    SwitchesPreserve trampoline log := by
  have arranged := Arranged.initial trampoline isInitial
  have connected := moves_connected arranged ran
  constructor
  · intro earlier call between back later stack isLog isStack leaves elsewhere isBack
    rw [isLog] at connected
    obtain ⟨middle, arrangedThere, isCall, moved, onward⟩ := connected.drop arranged
    rw [← isCall] at moved arrangedThere
    subst isStack
    obtain ⟨returnAddress, isAddress, waiting⟩ := moved.switch_away arrangedThere leaves
    refine ⟨returnAddress, isAddress, ?_⟩
    exact Waiting.run (moved.arranged arrangedThere) leaves (Or.inl waiting) onward elsewhere
      isBack
  · intro entry member co input returnAddress c isResume found notStarted
    obtain ⟨earlier, later, isLog⟩ := List.append_of_mem member
    rw [isLog] at connected
    obtain ⟨middle, arrangedThere, isEntry, moved, _⟩ := connected.drop arranged
    rw [← isEntry, isResume] at moved
    rw [← isEntry] at arrangedThere
    exact moved.first_switch arrangedThere found notStarted

/-- The main stack of a small machine, with room for some calls. -/
def smallMachine : Machine where
  control := .initial
  cpu := ⟨fun _ => 7, 100, 0, fun _ => 0⟩
  sp _ := 0
  callerSp _ := 0
  region _ := ⟨0, 100⟩

/-- A coroutine is resumed, writes to its stack and yields. -/
def smallProgram : List Move :=
  [.create 4096 4096 8192, .resume 0 5 11, .compute (fun _ => 9) 2040 [(2041, 3)], .yield 6 12]

theorem switches_preserve_small : ∃ final log,
    moves 1 smallMachine smallProgram = some (final, log) ∧ SwitchesPreserve 1 log := by
  have defined : (moves 1 smallMachine smallProgram).isSome = true := by decide
  obtain ⟨⟨final, log⟩, ran⟩ := Option.isSome_iff_exists.mp defined
  exact ⟨final, log, ran, switches_preserve 1 smallMachine final smallProgram log rfl ran⟩

end Coroutines
end FoundationsLab
