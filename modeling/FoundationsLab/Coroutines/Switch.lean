import Mathlib.Logic.Function.Basic
import Mathlib.Tactic.Common

/-! The context switch of `switch.S`. Addresses and words are naturals, and memory
is addressed by words, so a push moves `rsp` down by one. The registers are the
six that a call preserves. -/

namespace FoundationsLab
namespace Coroutines

abbrev Word := Nat

inductive Register where
  | rbp
  | rbx
  | r12
  | r13
  | r14
  | r15
  deriving DecidableEq, Repr

structure Cpu where
  registers : Register → Word
  rsp : Nat
  rip : Word
  memory : Nat → Word

inductive Instruction where
  | push (register : Register)
  /-- `movq %rsp, (%rdi)` -/
  | saveSp
  /-- `movq %rsi, %rsp` -/
  | restoreSp
  | pop (register : Register)
  | ret
  deriving DecidableEq, Repr

namespace Cpu

def push (cpu : Cpu) (word : Word) : Cpu :=
  { cpu with rsp := cpu.rsp - 1, memory := Function.update cpu.memory (cpu.rsp - 1) word }

def pop (cpu : Cpu) (register : Register) : Cpu :=
  { cpu with
    rsp := cpu.rsp + 1
    registers := Function.update cpu.registers register (cpu.memory cpu.rsp) }

/-- `call`, as far as the caller's stack sees it. -/
def call (cpu : Cpu) (returnAddress : Word) : Cpu := cpu.push returnAddress

end Cpu

/-- The second component is the word that `rdi` points to. -/
def exec (rsi : Nat) (state : Cpu × Nat) : Instruction → Cpu × Nat
  | .push register => (state.1.push (state.1.registers register), state.2)
  | .saveSp => (state.1, state.1.rsp)
  | .restoreSp => ({ state.1 with rsp := rsi }, state.2)
  | .pop register => (state.1.pop register, state.2)
  | .ret => ({ state.1 with rsp := state.1.rsp + 1, rip := state.1.memory state.1.rsp }, state.2)

def coSwitchCode : List Instruction :=
  [.push .rbp, .push .rbx, .push .r12, .push .r13, .push .r14, .push .r15,
    .saveSp, .restoreSp,
    .pop .r15, .pop .r14, .pop .r13, .pop .r12, .pop .rbx, .pop .rbp, .ret]

/-- `call co_switch` with `saved` behind `rdi` and `rsi` as the second argument;
the result is what the processor has after the `ret`, and the new `saved`. -/
def Cpu.switch (cpu : Cpu) (returnAddress : Word) (saved rsi : Nat) : Cpu × Nat :=
  coSwitchCode.foldl (exec rsi) (cpu.call returnAddress, saved)

/-- The seven words that a parked stack ends in. -/
structure FrameAt (memory : Nat → Word) (sp : Nat) (registers : Register → Word)
    (returnAddress : Word) : Prop where
  r15 : memory sp = registers .r15
  r14 : memory (sp + 1) = registers .r14
  r13 : memory (sp + 2) = registers .r13
  r12 : memory (sp + 3) = registers .r12
  rbx : memory (sp + 4) = registers .rbx
  rbp : memory (sp + 5) = registers .rbp
  ret : memory (sp + 6) = returnAddress

theorem FrameAt.congr {memory other : Nat → Word} {sp : Nat}
    {registers : Register → Word} {returnAddress : Word}
    (frame : FrameAt memory sp registers returnAddress)
    (same : ∀ address, sp ≤ address → address < sp + 7 → other address = memory address) :
    FrameAt other sp registers returnAddress where
  r15 := (same _ (by omega) (by omega)).trans frame.r15
  r14 := (same _ (by omega) (by omega)).trans frame.r14
  r13 := (same _ (by omega) (by omega)).trans frame.r13
  r12 := (same _ (by omega) (by omega)).trans frame.r12
  rbx := (same _ (by omega) (by omega)).trans frame.rbx
  rbp := (same _ (by omega) (by omega)).trans frame.rbp
  ret := (same _ (by omega) (by omega)).trans frame.ret

/-! ## The two halves of the switch -/

/-- Memory once the return address and the registers are on the stack. -/
def pushedMemory (cpu : Cpu) (returnAddress : Word) : Nat → Word :=
  ((((((cpu.call returnAddress).push (cpu.registers .rbp)).push (cpu.registers .rbx)).push
    (cpu.registers .r12)).push (cpu.registers .r13)).push (cpu.registers .r14)).push
    (cpu.registers .r15) |>.memory

theorem pushedMemory_frame {cpu : Cpu} {sp : Nat} (isRsp : cpu.rsp = sp + 7)
    (returnAddress : Word) :
    FrameAt (pushedMemory cpu returnAddress) sp cpu.registers returnAddress := by
  constructor <;> simp [pushedMemory, Cpu.push, Cpu.call, isRsp]

theorem pushedMemory_other {cpu : Cpu} {sp : Nat} (isRsp : cpu.rsp = sp + 7)
    (returnAddress : Word) {address : Nat} (outside : address < sp ∨ sp + 7 ≤ address) :
    pushedMemory cpu returnAddress address = cpu.memory address := by
  have apart : ∀ offset, offset < 7 → address ≠ sp + offset := by
    intro offset small
    omega
  have notFirst : address ≠ sp := apart 0 (by omega)
  simp [pushedMemory, Cpu.push, Cpu.call, isRsp, notFirst, apart 1 (by omega),
    apart 2 (by omega), apart 3 (by omega), apart 4 (by omega), apart 5 (by omega),
    apart 6 (by omega)]

theorem Cpu.switch_memory (cpu : Cpu) (returnAddress : Word) (saved rsi : Nat) :
    (cpu.switch returnAddress saved rsi).1.memory = pushedMemory cpu returnAddress := rfl

theorem Cpu.switch_saved {cpu : Cpu} {sp : Nat} (isRsp : cpu.rsp = sp + 7)
    (returnAddress : Word) (saved rsi : Nat) :
    (cpu.switch returnAddress saved rsi).2 = sp := by
  have isSaved : (cpu.switch returnAddress saved rsi).2 =
      cpu.rsp - 1 - 1 - 1 - 1 - 1 - 1 - 1 := rfl
  rw [isSaved, isRsp]
  omega

/-- The switch takes over the frame behind `rsi`. -/
theorem Cpu.switch_restores {cpu : Cpu} {returnAddress : Word} {rsi : Nat}
    {registers : Register → Word} {target : Word}
    (frame : FrameAt (pushedMemory cpu returnAddress) rsi registers target) (saved : Nat) :
    (cpu.switch returnAddress saved rsi).1.registers = registers ∧
      (cpu.switch returnAddress saved rsi).1.rip = target ∧
      (cpu.switch returnAddress saved rsi).1.rsp = rsi + 7 := by
  refine ⟨?_, frame.ret, rfl⟩
  funext register
  cases register with
  | rbp => exact frame.rbp
  | rbx => exact frame.rbx
  | r12 => exact frame.r12
  | r13 => exact frame.r13
  | r14 => exact frame.r14
  | r15 => exact frame.r15

end Coroutines
end FoundationsLab
