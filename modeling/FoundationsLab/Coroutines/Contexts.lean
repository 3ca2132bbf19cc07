import FoundationsLab.Coroutines.Begun
import FoundationsLab.Coroutines.Switch
import FoundationsLab.Foundation.Word64

/-! The coroutines on a processor: each context has an area of memory for its
stack, and the bookkeeping's switches are made by the code of `co_switch`. The
bookkeeping says which context goes on; where the processor goes on, and with
which registers, is what it finds behind the restored stack pointer. -/

namespace FoundationsLab
namespace Coroutines

open Foundation

/-- The words from `low` up to `top`, which is not one of them. -/
structure Region where
  low : Nat
  top : Nat
  deriving DecidableEq, Repr

def Region.Contains (region : Region) (address : Nat) : Prop :=
  region.low ≤ address ∧ address < region.top

instance (region : Region) (address : Nat) : Decidable (region.Contains address) :=
  inferInstanceAs (Decidable (_ ∧ _))

def Region.Apart (left right : Region) : Prop :=
  left.top ≤ right.low ∨ right.top ≤ left.low

instance (left right : Region) : Decidable (left.Apart right) :=
  inferInstanceAs (Decidable (_ ∨ _))

/-- `sp` and `callerSp` are the fields of the coroutines as words in memory. -/
structure Machine where
  control : State
  cpu : Cpu
  sp : Co → Nat
  callerSp : Co → Nat
  region : Stack → Region

/-- What the running code does. `compute` is any code of its own: it leaves other
registers and another stack pointer, and it has written the listed words. -/
inductive Move where
  | compute (registers : Register → Word) (rsp : Nat) (writes : List (Nat × Word))
  | create (page stackSize base : Nat)
  | resume (co : Co) (input : Value) (returnAddress : Word)
  | yield (value : Value) (returnAddress : Word)
  | finish (returnAddress : Word)
  | destroy (co : Co)

/-- The return address of the call of `co_switch`, if the move makes one. -/
def Move.returnAddress : Move → Option Word
  | .resume _ _ returnAddress => some returnAddress
  | .yield _ returnAddress => some returnAddress
  | .finish returnAddress => some returnAddress
  | _ => none

namespace Machine

/-- The word that `rdi` points to at a switch. -/
def behind (machine : Machine) (co : Co) : Slot → Nat
  | .sp => machine.sp co
  | .callerSp => machine.callerSp co

/-- `rsi` at a switch. -/
def restores (machine : Machine) (co : Co) : Slot → Nat
  | .sp => machine.callerSp co
  | .callerSp => machine.sp co

def store (machine : Machine) (co : Co) (saved : Nat) : Slot → Machine
  | .sp => { machine with sp := Function.update machine.sp co saved }
  | .callerSp => { machine with callerSp := Function.update machine.callerSp co saved }

/-- `co_switch(&co->slot, ..)`, with `control` as the bookkeeping after it. Without
room for its pushes the stack overflows into the guard page. -/
def switch (machine : Machine) (slot : Slot) (co : Co) (returnAddress : Word)
    (control : State) : Option Machine :=
  let region := machine.region machine.control.stack
  if region.low + 7 ≤ machine.cpu.rsp ∧ machine.cpu.rsp ≤ region.top then
    let switched :=
      machine.cpu.switch returnAddress (machine.behind co slot) (machine.restores co slot)
    some ({ machine with control := control, cpu := switched.1 }.store co switched.2 slot)
  else none

/-- Everything that is mapped lies apart from the area. -/
def Free (machine : Machine) (area : Region) : Prop :=
  (machine.region .main).Apart area ∧
    ∀ co < machine.control.coroutines.length, machine.control.deref co = none ∨
      (machine.region (.coroutine co)).Apart area

instance (machine : Machine) (area : Region) : Decidable (machine.Free area) :=
  inferInstanceAs (Decidable (_ ∧ _))

end Machine

def DEFAULT_STACK : Nat := 64 * 1024

/-- The size of the stack in bytes, in whole pages. -/
def roundedSize (page stackSize : Nat) : Nat :=
  let stackSize := if stackSize = 0 then DEFAULT_STACK else stackSize
  Word64.sub (Word64.add stackSize page) 1 &&& Word64.lnot (Word64.sub page 1)

/-- `*--sp = word`, for each of the words. -/
def pushAll (words : List Word) (memory : Nat → Word) (sp : Nat) : (Nat → Word) × Nat :=
  words.foldl (fun state word =>
    (Function.update state.1 (state.2 - 1) word, state.2 - 1)) (memory, sp)

/-- What `co_create` leaves on the new stack. -/
def fabricate (trampoline : Word) (memory : Nat → Word) (top : Nat) : (Nat → Word) × Nat :=
  pushAll (trampoline :: List.replicate 6 0) memory top

/-- A mapping is free, aligned to pages and filled with zeros; its lowest page is
the guard. -/
def createOn (trampoline : Word) (machine : Machine) (page stackSize base : Nat) :
    Option (Machine × Outcome) :=
  let co := machine.control.coroutines.length
  let mapSize := Word64.add (roundedSize page stackSize) page
  let area : Region := ⟨base / 8, (base + mapSize) / 8⟩
  let region : Region := ⟨(base + page) / 8, (base + mapSize) / 8⟩
  let top := (Word64.add base mapSize &&& Word64.lnot 15) / 8
  if machine.Free area ∧ base % page = 0 ∧ base + mapSize < 2 ^ 64 ∧ region.low + 7 ≤ top then
    let mapped := fun address => if area.Contains address then 0 else machine.cpu.memory address
    let (memory, sp) := fabricate trampoline mapped top
    let (control, outcome) := coCreate machine.control
    some ({ machine with
      control := control
      cpu := { machine.cpu with memory := memory }
      sp := Function.update machine.sp co sp
      callerSp := Function.update machine.callerSp co 0
      region := Function.update machine.region (.coroutine co) region }, outcome)
  else none

def writeAll (writes : List (Nat × Word)) (memory : Nat → Word) : Nat → Word :=
  writes.foldl (fun memory write => Function.update memory write.1 write.2) memory

/-- One move; `none` is a fault, or undefined behaviour. The code writes its own
stack area and no other. -/
def move (trampoline : Word) (machine : Machine) : Move → Option (Machine × Option Outcome)
  | .compute registers rsp writes =>
      let region := machine.region machine.control.stack
      if region.low ≤ rsp ∧ rsp ≤ region.top ∧ ∀ write ∈ writes, region.Contains write.1 then
        some ({ machine with cpu := { machine.cpu with
          registers := registers
          rsp := rsp
          memory := writeAll writes machine.cpu.memory } }, none)
      else none
  | .create page stackSize base => do
      let (next, outcome) ← createOn trampoline machine page stackSize base
      some (next, some outcome)
  | .resume co input returnAddress => do
      let c ← machine.control.deref co
      let (control, outcome) ← coResume machine.control co input
      if c.done then
        some ({ machine with control := control }, some outcome)
      else
        let next ← machine.switch .callerSp co returnAddress control
        some (next, some outcome)
  | .yield value returnAddress => do
      let co ← machine.control.gCurrent
      let (control, outcome) ← coYield machine.control value
      let next ← machine.switch .sp co returnAddress control
      some (next, some outcome)
  | .finish returnAddress =>
      match machine.control.stack with
      | .main => none
      | .coroutine number => do
          let self ← machine.control.self number
          let (control, outcome) ← coTrampolineEnd machine.control
          let next ← machine.switch .sp self returnAddress control
          some (next, some outcome)
  | .destroy co => do
      let (control, outcome) ← coDestroy machine.control co
      some ({ machine with control := control }, some outcome)

structure Transition where
  before : Machine
  move : Move
  outcome : Option Outcome
  after : Machine

def moves (trampoline : Word) (machine : Machine) :
    List Move → Option (Machine × List Transition)
  | [] => some (machine, [])
  | first :: rest => do
      let (next, outcome) ← move trampoline machine first
      let (final, log) ← moves trampoline next rest
      some (final, ⟨machine, first, outcome, next⟩ :: log)

/-! ## Writes stay in their area -/

theorem writeAll_other {region : Region} {address : Nat} : ∀ {writes : List (Nat × Word)}
    {memory : Nat → Word}, (∀ write ∈ writes, region.Contains write.1) →
    ¬ region.Contains address → writeAll writes memory address = memory address := by
  intro writes
  induction writes with
  | nil =>
      intro memory _ _
      rfl
  | cons write rest induction =>
      intro memory inside outside
      rw [writeAll, List.foldl_cons]
      have here : address ≠ write.1 := by
        rintro rfl
        exact outside (inside write List.mem_cons_self)
      have later := @induction (Function.update memory write.1 write.2)
        (fun other member => inside other (List.mem_cons_of_mem _ member)) outside
      rw [Function.update_of_ne here] at later
      exact later

theorem fabricate_sp (trampoline : Word) (memory : Nat → Word) {sp : Nat} :
    (fabricate trampoline memory (sp + 7)).2 = sp := by
  simp [fabricate, pushAll, List.replicate]

theorem fabricate_frame (trampoline : Word) (memory : Nat → Word) (sp : Nat) :
    FrameAt (fabricate trampoline memory (sp + 7)).1 sp (fun _ => 0) trampoline := by
  constructor <;> simp [fabricate, pushAll, List.replicate]

theorem fabricate_other (trampoline : Word) (memory : Nat → Word) {sp address : Nat}
    (outside : address < sp ∨ sp + 7 ≤ address) :
    (fabricate trampoline memory (sp + 7)).1 address = memory address := by
  have apart : ∀ offset, offset < 7 → address ≠ sp + offset := by
    intro offset small
    omega
  have notFirst : address ≠ sp := apart 0 (by omega)
  simp [fabricate, pushAll, List.replicate, notFirst, apart 1 (by omega), apart 2 (by omega),
    apart 3 (by omega), apart 4 (by omega), apart 5 (by omega), apart 6 (by omega)]

end Coroutines
end FoundationsLab
