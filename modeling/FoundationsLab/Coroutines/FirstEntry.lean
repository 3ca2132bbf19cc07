import FoundationsLab.Coroutines.Contexts
import FoundationsLab.Foundation.Memory

/-! The first switch into a coroutine, with the addresses of bytes. The stack that
`co_create` builds in C is taken apart by six pops and a `ret`, so that the stack
pointer at the entry of the trampoline is the sum of both. -/

namespace FoundationsLab
namespace Coroutines

open Foundation
open Foundation.Word64

/-- `reads` has the addresses of the words that were read from the stack. -/
structure Processor where
  registers : Register → Nat
  rsp : Nat
  rip : Nat
  memory : Memory
  reads : List Nat

namespace Processor

def push (processor : Processor) (word : Nat) : Processor :=
  { processor with
    rsp := sub processor.rsp 8
    memory := processor.memory.store64 (sub processor.rsp 8) word }

def pop (processor : Processor) (register : Register) : Processor :=
  { processor with
    rsp := add processor.rsp 8
    registers := Function.update processor.registers register
      (processor.memory.load64 processor.rsp)
    reads := processor.reads ++ [processor.rsp] }

def ret (processor : Processor) : Processor :=
  { processor with
    rsp := add processor.rsp 8
    rip := processor.memory.load64 processor.rsp
    reads := processor.reads ++ [processor.rsp] }

def exec (rdi rsi : Nat) (processor : Processor) : Instruction → Processor
  | .push register => processor.push (processor.registers register)
  | .saveSp => { processor with memory := processor.memory.store64 rdi processor.rsp }
  | .restoreSp => { processor with rsp := rsi }
  | .pop register => processor.pop register
  | .ret => processor.ret

/-- `call co_switch`, up to its `ret`. -/
def coSwitch (processor : Processor) (returnAddress rdi rsi : Nat) : Processor :=
  coSwitchCode.foldl (exec rdi rsi) (processor.push returnAddress)

section Fields

variable (rdi rsi : Nat) (processor : Processor) (register : Register)

theorem push_rsp (word : Nat) : (processor.push word).rsp = sub processor.rsp 8 := by
  rw [push]

theorem push_reads (word : Nat) : (processor.push word).reads = processor.reads := by
  rw [push]

theorem push_registers (word : Nat) :
    (processor.push word).registers = processor.registers := by
  rw [push]

theorem push_memory (word : Nat) : (processor.push word).memory =
    processor.memory.store64 (sub processor.rsp 8) word := by
  rw [push]

theorem exec_push :
    processor.exec rdi rsi (.push register) = processor.push (processor.registers register) := by
  simp only [exec]

theorem saveSp_rsp : (processor.exec rdi rsi .saveSp).rsp = processor.rsp := by
  simp only [exec]

theorem saveSp_reads : (processor.exec rdi rsi .saveSp).reads = processor.reads := by
  simp only [exec]

theorem saveSp_memory : (processor.exec rdi rsi .saveSp).memory =
    processor.memory.store64 rdi processor.rsp := by
  simp only [exec]

theorem restoreSp_rsp : (processor.exec rdi rsi .restoreSp).rsp = rsi := by
  simp only [exec]

theorem restoreSp_reads : (processor.exec rdi rsi .restoreSp).reads = processor.reads := by
  simp only [exec]

theorem restoreSp_memory : (processor.exec rdi rsi .restoreSp).memory = processor.memory := by
  simp only [exec]

theorem pop_rsp :
    (processor.exec rdi rsi (.pop register)).rsp = add processor.rsp 8 := by
  simp only [exec, pop]

theorem pop_reads : (processor.exec rdi rsi (.pop register)).reads =
    processor.reads ++ [processor.rsp] := by
  simp only [exec, pop]

theorem pop_memory :
    (processor.exec rdi rsi (.pop register)).memory = processor.memory := by
  simp only [exec, pop]

theorem ret_rip :
    (processor.exec rdi rsi .ret).rip = processor.memory.load64 processor.rsp := by
  simp only [exec, ret]

theorem ret_rsp : (processor.exec rdi rsi .ret).rsp = add processor.rsp 8 := by
  simp only [exec, ret]

theorem ret_reads :
    (processor.exec rdi rsi .ret).reads = processor.reads ++ [processor.rsp] := by
  simp only [exec, ret]

end Fields

end Processor

/-! ## The stack of a new coroutine -/

def mapSize (page stackSize : Nat) : Nat := add (roundedSize page stackSize) page

/-- `top &= ~(uintptr_t)15` -/
def stackTop (page stackSize base : Nat) : Nat :=
  add base (mapSize page stackSize) &&& lnot 15

/-- `*--sp = word` -/
def pushWord (state : Memory × Nat) (word : Nat) : Memory × Nat :=
  (state.1.store64 (sub state.2 8) word, sub state.2 8)

def pushedWords (words : List Nat) (memory : Memory) (sp : Nat) : Memory × Nat :=
  words.foldl pushWord (memory, sp)

/-- The memory and the `sp` that `co_create` leaves. -/
def buildStack (trampoline : Nat) (memory : Memory) (top : Nat) : Memory × Nat :=
  pushedWords (trampoline :: List.replicate 6 0) memory top

/-- What the System V ABI asks for at the entry of a function, and that nothing was
read but words of the mapping above its guard page. -/
structure StartsConforming (trampoline page stackSize base : Nat) (entered : Processor) :
    Prop where
  enters : entered.rip = trampoline
  aligned : entered.rsp % 16 = 8
  inside : ∀ address ∈ entered.reads,
    base + page ≤ address ∧ address + 8 ≤ base + mapSize page stackSize

/-! ## Where the stack pointer ends up -/

theorem sub_lt (x y : Nat) : sub x y < 2 ^ 64 := Nat.mod_lt _ (Nat.two_pow_pos 64)

/-- A pop undoes the movement of a push, also where it wraps around. -/
theorem add_sub_eight {x : Nat} (word : x < 2 ^ 64) : add (sub x 8) 8 = x := by
  rw [add, sub]
  omega

theorem stackTop_lt (page stackSize base : Nat) : stackTop page stackSize base < 2 ^ 64 :=
  Nat.lt_of_le_of_lt (land_lnot_le _ _) (Nat.mod_lt _ (Nat.two_pow_pos 64))

theorem stackTop_aligned (page stackSize base : Nat) : stackTop page stackSize base % 16 = 0 := by
  have word : add base (mapSize page stackSize) < 2 ^ 64 := Nat.mod_lt _ (Nat.two_pow_pos 64)
  have cleared := land_lnot_low word (by decide : 4 ≤ 64)
  rw [stackTop]
  show (_ &&& lnot (2 ^ 4 - 1)) % 16 = 0
  rw [cleared]
  omega

section Switch

variable {processor : Processor} {returnAddress rdi rsi : Nat}

theorem buildStack_sp (trampoline : Nat) (memory : Memory) (top : Nat) :
    (buildStack trampoline memory top).2 =
      sub (sub (sub (sub (sub (sub (sub top 8) 8) 8) 8) 8) 8) 8 := rfl

theorem Processor.coSwitch_rsp :
    (processor.coSwitch returnAddress rdi rsi).rsp =
      add (add (add (add (add (add (add rsi 8) 8) 8) 8) 8) 8) 8 := by
  simp only [coSwitch, coSwitchCode, List.foldl_cons, List.foldl_nil, ret_rsp, pop_rsp,
    restoreSp_rsp]

/-- Seven words down in C, and seven words up in the switch. -/
theorem first_switch_rsp (trampoline : Nat) (memory : Memory) {top : Nat} (word : top < 2 ^ 64) :
    (processor.coSwitch returnAddress rdi (buildStack trampoline memory top).2).rsp = top := by
  rw [buildStack_sp, Processor.coSwitch_rsp]
  simp only [add_sub_eight (sub_lt _ _), add_sub_eight word]

/-! ## What the switch finds on the new stack -/

theorem Processor.coSwitch_reads :
    (processor.coSwitch returnAddress rdi rsi).reads =
      processor.reads ++ [rsi, add rsi 8, add (add rsi 8) 8, add (add (add rsi 8) 8) 8,
        add (add (add (add rsi 8) 8) 8) 8, add (add (add (add (add rsi 8) 8) 8) 8) 8,
        add (add (add (add (add (add rsi 8) 8) 8) 8) 8) 8] := by
  simp only [coSwitch, coSwitchCode, List.foldl_cons, List.foldl_nil, ret_reads, pop_reads, pop_rsp,
    restoreSp_reads, restoreSp_rsp, saveSp_reads, exec_push, push_reads, List.append_assoc,
    List.cons_append, List.nil_append]

/-- The words of the caller that the switch saves. -/
def savedWords (processor : Processor) (returnAddress : Nat) : List Nat :=
  [returnAddress, processor.registers .rbp, processor.registers .rbx, processor.registers .r12,
    processor.registers .r13, processor.registers .r14, processor.registers .r15]

/-- The `ret` goes to the word above the six registers. -/
theorem Processor.coSwitch_rip :
    (processor.coSwitch returnAddress rdi rsi).rip =
      ((pushedWords (savedWords processor returnAddress) processor.memory processor.rsp).1.store64
        rdi (pushedWords (savedWords processor returnAddress) processor.memory
          processor.rsp).2).load64 (add (add (add (add (add (add rsi 8) 8) 8) 8) 8) 8) := by
  simp only [coSwitch, coSwitchCode, List.foldl_cons, List.foldl_nil, ret_rip, pop_memory, pop_rsp,
    restoreSp_memory, restoreSp_rsp, saveSp_memory, exec_push, push_memory, push_rsp,
    push_registers, pushedWords, savedWords, pushWord]

theorem pushedWords_sp (memory : Memory) {words : List Nat} {sp : Nat} (word : sp < 2 ^ 64)
    (room : 8 * words.length ≤ sp) :
    (pushedWords words memory sp).2 = sp - 8 * words.length := by
  induction words generalizing memory sp with
  | nil => rfl
  | cons head tail induction =>
      rw [List.length_cons] at room
      have moved : sub sp 8 = sp - 8 := sub_of_le word (by omega)
      have rest := induction (memory.store64 (sub sp 8) head) (by omega : sp - 8 < 2 ^ 64)
        (by omega)
      rw [pushedWords, List.foldl_cons, pushWord, moved]
      rw [moved, pushedWords] at rest
      rw [rest, List.length_cons]
      omega

/-- Pushes write below the stack pointer, and no lower than they move it. -/
theorem pushedWords_other {memory : Memory} {words : List Nat} {sp address : Nat}
    (word : sp < 2 ^ 64) (room : 8 * words.length ≤ sp)
    (outside : address + 8 ≤ sp - 8 * words.length ∨ sp ≤ address) :
    (pushedWords words memory sp).1.load64 address = memory.load64 address := by
  induction words generalizing memory sp with
  | nil => rfl
  | cons head tail induction =>
      rw [List.length_cons] at room outside
      have moved : sub sp 8 = sp - 8 := sub_of_le word (by omega)
      have rest := @induction (memory.store64 (sub sp 8) head) (sp - 8) (by omega) (by omega)
        (by omega)
      rw [pushedWords, List.foldl_cons, pushWord, moved]
      rw [moved, pushedWords] at rest
      rw [rest]
      exact Memory.load64_store64_disjoint memory head (by omega)

end Switch

/-! ## The entry of the trampoline -/

/-- A size of pages, an address and a size of stacks as `co_create` gets them, and a
stack that has room for the seven words. -/
structure Mapping (page stackSize base : Nat) : Prop where
  power : ∃ k, page = 2 ^ k
  atLeast : 16 ≤ page
  aligned : page ∣ base
  rounded : (if stackSize = 0 then DEFAULT_STACK else stackSize) ≤ roundedSize page stackSize
  mapped : base + (roundedSize page stackSize + page) < 2 ^ 64
  room : 56 ≤ roundedSize page stackSize

/-- Another context calls the switch: what it writes lies apart from the seven words,
which are there as they were built. -/
structure Calls (processor : Processor) (rdi trampoline top : Nat) (memory : Memory) : Prop where
  word : processor.rsp < 2 ^ 64
  room : 56 ≤ processor.rsp
  apart : processor.rsp + 56 ≤ top ∨ top + 56 ≤ processor.rsp
  slot : rdi + 64 ≤ top ∨ top ≤ rdi
  kept : ∀ address, top ≤ address + 56 → address + 8 ≤ top →
    processor.memory.load64 address = (buildStack trampoline memory top).1.load64 address
  reads : processor.reads = []

section Entry

variable {page stackSize base trampoline rdi : Nat} {memory : Memory} {processor : Processor}

theorem Mapping.mapSize_eq (fits : Mapping page stackSize base) :
    mapSize page stackSize = roundedSize page stackSize + page := by
  have mapped := fits.mapped
  exact add_of_lt (by omega)

theorem Mapping.stackTop_eq (fits : Mapping page stackSize base) :
    stackTop page stackSize base = base + mapSize page stackSize := by
  have mapped := fits.mapped
  have isSize := fits.mapSize_eq
  obtain ⟨k, isPower⟩ := fits.power
  have atLeast := fits.atLeast
  have bound : page < 2 ^ 64 := by omega
  have four : 2 ^ 4 ∣ page := by
    rw [isPower]
    apply pow_dvd_pow
    by_contra small
    have least := Nat.pow_le_pow_right (by decide : 0 < 2) (by omega : k ≤ 3)
    omega
  have whole : 2 ^ 4 ∣ roundedSize page stackSize := dvd_alignUp (by decide) bound four
  have wholeBase : 2 ^ 4 ∣ base := four.trans fits.aligned
  have word : add base (mapSize page stackSize) = base + mapSize page stackSize :=
    add_of_lt (by omega)
  have cleared := land_lnot_low (by omega : base + mapSize page stackSize < 2 ^ 64)
    (by decide : 4 ≤ 64)
  rw [stackTop, word]
  show _ &&& lnot (2 ^ 4 - 1) = _
  rw [cleared]
  omega

theorem buildStack_trampoline (memory : Memory) {top : Nat} (word : top < 2 ^ 64)
    (room : 56 ≤ top) (isWord : trampoline < 2 ^ 64) :
    (buildStack trampoline memory top).1.load64 (top - 8) = trampoline := by
  have moved : sub top 8 = top - 8 := sub_of_le word (by omega)
  have six : (List.replicate 6 0).length = 6 := rfl
  have below := @pushedWords_other (memory.store64 (top - 8) trampoline) (List.replicate 6 0)
    (top - 8) (top - 8) (by omega) (by omega) (.inr (Nat.le_refl _))
  rw [Memory.load64_store64, Nat.mod_eq_of_lt isWord] at below
  rw [buildStack, pushedWords, List.foldl_cons, pushWord, moved]
  exact below

/-- The switch reads the seven words, all of them above the guard page, and enters the
trampoline with the top of the stack in `rsp`. -/
theorem first_switch_enters (fits : Mapping page stackSize base) (isWord : trampoline < 2 ^ 64)
    (calls : Calls processor rdi trampoline (base + mapSize page stackSize) memory)
    (returnAddress : Nat) :
    ∃ entered, entered = processor.coSwitch returnAddress rdi
        (buildStack trampoline memory (stackTop page stackSize base)).2 ∧
      entered.rip = trampoline ∧ entered.rsp = base + mapSize page stackSize ∧
      entered.rsp % 16 = 0 ∧ ∀ address ∈ entered.reads,
        base + page ≤ address ∧ address + 8 ≤ base + mapSize page stackSize := by
  have isSize := fits.mapSize_eq
  have mapped := fits.mapped
  have room := fits.room
  have aligned := stackTop_aligned page stackSize base
  rw [fits.stackTop_eq] at aligned ⊢
  obtain ⟨top, isTop⟩ : ∃ top, top = base + mapSize page stackSize := ⟨_, rfl⟩
  rw [← isTop] at calls aligned ⊢
  have word : top < 2 ^ 64 := by omega
  have isSp : (buildStack trampoline memory top).2 = top - 56 :=
    pushedWords_sp memory word (show 8 * 7 ≤ top by omega)
  -- The seven words, one after the other.
  have up : ∀ offset, offset + 8 < 64 → add (top - 56 + offset) 8 = top - 56 + (offset + 8) := by
    intro offset small
    rw [add_of_lt (by omega), Nat.add_assoc]
  have first : add (top - 56) 8 = top - 56 + 8 := up 0 (by decide)
  refine ⟨_, rfl, ?_, first_switch_rsp trampoline memory word, ?_, ?_⟩
  · have last : top - 56 + 48 = top - 8 := by omega
    have seven : (savedWords processor returnAddress).length = 7 := rfl
    rw [isSp, Processor.coSwitch_rip, first, up 8 (by decide), up 16 (by decide), up 24 (by decide),
      up 32 (by decide), up 40 (by decide), last]
    have apart := calls.apart
    have slot := calls.slot
    rw [Memory.load64_store64_disjoint _ _ (by omega),
      pushedWords_other calls.word (by rw [seven]; exact calls.room) (by rw [seven]; omega),
      calls.kept _ (by omega) (by omega)]
    exact buildStack_trampoline memory word (by omega) isWord
  · rw [first_switch_rsp trampoline memory word]
    exact aligned
  · rw [isSp, Processor.coSwitch_reads, calls.reads, first, up 8 (by decide), up 16 (by decide),
      up 24 (by decide), up 32 (by decide), up 40 (by decide)]
    intro address member
    simp only [List.nil_append, List.mem_cons, List.not_mem_nil, or_false] at member
    omega

/-- Whatever the sizes and the mapping, the trampoline is entered with `rsp` a multiple
of 16, where the ABI has 8 more: no coroutine starts as it asks. -/
theorem fresh_stack_never_conforms (trampoline page stackSize base rdi returnAddress : Nat)
    (memory : Memory) (processor : Processor) :
    ¬ StartsConforming trampoline page stackSize base (processor.coSwitch returnAddress rdi
      (buildStack trampoline memory (stackTop page stackSize base)).2) := by
  intro conforming
  have isAligned := conforming.aligned
  rw [first_switch_rsp trampoline memory (stackTop_lt page stackSize base),
    stackTop_aligned] at isAligned
  cases isAligned

end Entry

/-- Another context, after `co_create` has built a stack in memory filled with zeros. -/
def someCaller (trampoline top : Nat) : Processor where
  registers _ := 7
  rsp := 0x7ffc00000000
  rip := 0
  memory := (buildStack trampoline (fun _ => 0) top).1
  reads := []

/-- A stack of 16 pages of 4096 bytes. -/
theorem fresh_stack_misaligned :
    Mapping 4096 65536 0x7f0000000000 ∧
      ∃ entered, entered = (someCaller 0x401000 (0x7f0000000000 + mapSize 4096 65536)).coSwitch 1
          0x602000 (buildStack 0x401000 (fun _ => 0) (stackTop 4096 65536 0x7f0000000000)).2 ∧
        entered.rip = 0x401000 ∧ entered.rsp % 16 = 0 ∧
        ¬ StartsConforming 0x401000 4096 65536 0x7f0000000000 entered := by
  have fits : Mapping 4096 65536 0x7f0000000000 := by
    constructor
    · exact ⟨12, rfl⟩
    · decide
    · decide
    · decide
    · decide
    · decide
  have isTop : (0x7f0000000000 : Nat) + mapSize 4096 65536 = 0x7f0000011000 := by decide
  have calls : Calls (someCaller 0x401000 (0x7f0000000000 + mapSize 4096 65536)) 0x602000 0x401000
      (0x7f0000000000 + mapSize 4096 65536) (fun _ => 0) := by
    rw [isTop]
    constructor
    · decide
    · decide
    · decide
    · decide
    · intro address _ _
      rw [someCaller]
    · rw [someCaller]
  obtain ⟨entered, isEntered, enters, -, aligned, -⟩ :=
    first_switch_enters fits (by decide) calls 1
  refine ⟨fits, entered, isEntered, enters, aligned, ?_⟩
  intro conforming
  have other := conforming.aligned
  omega

end Coroutines
end FoundationsLab
