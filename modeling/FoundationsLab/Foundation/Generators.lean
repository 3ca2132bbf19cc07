import Mathlib.Data.List.Nodup

/-! Generators as those who use them see them: numbered bodies that are resumed,
hand out values and are resumed again. Nothing is said about how a body is
stopped in the middle. The ones that have been resumed and have not handed
control back form a chain, the latest resumed first, and the one at the front
is the one that runs. -/

namespace FoundationsLab
namespace Generators

inductive Party where
  | outside
  | generator (number : Nat)
  deriving DecidableEq, Repr

inductive Status where
  | fresh
  | suspended
  | active
  | finished
  | discarded
  deriving DecidableEq, Repr

inductive Call (Value : Type) where
  | create
  | resume (number : Nat) (input : Value)
  | yield (output : Value)
  | finish
  | discard (number : Nat)
  deriving DecidableEq, Repr

/-- What a call leads to: whose code continues, with which value. -/
inductive Answer (Value : Type) where
  | created (number : Nat)
  | started (number : Nat)
  | resumeReturns (caller : Party) (number : Nat) (output : Value)
  | yieldReturns (number : Nat) (input : Value)
  | discarded (number : Nat)
  deriving DecidableEq, Repr

structure State where
  statuses : List Status
  chain : List Nat
  deriving DecidableEq, Repr

def partyOf : List Nat → Party
  | [] => .outside
  | number :: _ => .generator number

namespace State

def initial : State := ⟨[], []⟩

def running (state : State) : Party := partyOf state.chain

/-- The generator can be resumed or thrown away: it is there and not active. -/
def Idle (state : State) (number : Nat) : Prop :=
  ∃ status, state.statuses[number]? = some status ∧ status ≠ .active ∧ status ≠ .discarded

instance decidableIdle (state : State) (number : Nat) : Decidable (state.Idle number) :=
  match found : state.statuses[number]? with
  | none => isFalse fun ⟨_, isStatus, _⟩ => by
      rw [found] at isStatus
      cases isStatus
  | some status => decidable_of_iff (status ≠ .active ∧ status ≠ .discarded) (by
      constructor
      · intro idle
        exact ⟨status, found, idle⟩
      · rintro ⟨other, isOther, idle⟩
        rw [found] at isOther
        cases isOther
        exact idle)

/-- Only idle generators are resumed, and only a body hands out values. -/
def Allowed {Value : Type} (state : State) : Call Value → Prop
  | .create => True
  | .resume number _ => state.Idle number
  | .yield _ => state.chain ≠ []
  | .finish => state.chain ≠ []
  | .discard number => state.Idle number

instance decidableAllowed {Value : Type} (state : State) :
    (call : Call Value) → Decidable (state.Allowed call)
  | .create => isTrue trivial
  | .resume number _ => decidableIdle state number
  | .yield _ => inferInstanceAs (Decidable (state.chain ≠ []))
  | .finish => inferInstanceAs (Decidable (state.chain ≠ []))
  | .discard number => decidableIdle state number

end State

section

variable {Value : Type} (ended : Value)

/-- One call by whoever runs. `ended` is what a resume returns when the body is
through. -/
def step (state : State) : Call Value → Option (State × Answer Value)
  | .create =>
      some (⟨state.statuses ++ [.fresh], state.chain⟩, .created state.statuses.length)
  | .resume number input =>
      match state.statuses[number]? with
      | some .fresh =>
          some (⟨state.statuses.set number .active, number :: state.chain⟩, .started number)
      | some .suspended =>
          some (⟨state.statuses.set number .active, number :: state.chain⟩,
            .yieldReturns number input)
      | some .finished => some (state, .resumeReturns state.running number ended)
      | _ => none
  | .yield output =>
      match state.chain with
      | [] => none
      | number :: rest =>
          some (⟨state.statuses.set number .suspended, rest⟩,
            .resumeReturns (partyOf rest) number output)
  | .finish =>
      match state.chain with
      | [] => none
      | number :: rest =>
          some (⟨state.statuses.set number .finished, rest⟩,
            .resumeReturns (partyOf rest) number ended)
  | .discard number =>
      match state.statuses[number]? with
      | some .active => none
      | some .discarded => none
      | none => none
      | _ => some (⟨state.statuses.set number .discarded, state.chain⟩, .discarded number)

/-- A program that keeps to the rules, whatever it computes with the answers. -/
def Legal : State → List (Call Value) → Prop
  | _, [] => True
  | state, call :: calls =>
      state.Allowed call ∧
        ∀ next answer, step ended state call = some (next, answer) → Legal next calls

instance decidableLegal (ended : Value) :
    (state : State) → (calls : List (Call Value)) → Decidable (Legal ended state calls)
  | _, [] => isTrue trivial
  | state, call :: calls =>
      match stepped : step ended state call with
      | none => decidable_of_iff (state.Allowed call) (by simp [Legal, stepped])
      | some (next, answer) =>
          have onward := decidableLegal ended next calls
          decidable_of_iff (state.Allowed call ∧ Legal ended next calls)
            (by simp [Legal, stepped])

end

/-- One step of a run as seen from outside: who called what, and what came of it. -/
structure Observation (Value : Type) where
  actor : Party
  call : Call Value
  answer : Answer Value
  deriving DecidableEq, Repr

/-- The value that a call hands to the resumer, if the call hands control back. -/
def Call.output {Value : Type} (ended : Value) : Call Value → Option Value
  | .yield output => some output
  | .finish => some ended
  | _ => none

/-- Who continues after an answer. -/
def Answer.party {Value : Type} (actor : Party) : Answer Value → Party
  | .created _ => actor
  | .started number => .generator number
  | .resumeReturns caller _ _ => caller
  | .yieldReturns number _ => .generator number
  | .discarded _ => actor

section

variable {Value : Type} (ended : Value)

/-- The observations are those of a run from one state to another. -/
def Runs : State → List (Observation Value) → State → Prop
  | state, [], final => state = final
  | state, observation :: rest, final =>
      observation.actor = state.running ∧
        ∃ next, step ended state observation.call = some (next, observation.answer) ∧
          Runs next rest final

/-! ## What a run owes its users

Each rule looks at two calls of a run and what lies between them. -/

/-- A resume of an unfinished generator returns to the one who called it, when
the generator next hands control back and with the value it hands out; until
then the caller does nothing. -/
def ResumesReturn (log : List (Observation Value)) : Prop :=
  ∀ before call between reply after number input output,
    log = before ++ call :: (between ++ reply :: after) →
    call.call = .resume number input →
    (∀ earlier ∈ before, earlier.actor = .generator number → earlier.call ≠ .finish) →
    (∀ other ∈ between, other.actor = .generator number → other.call.output ended = none) →
    reply.actor = .generator number →
    reply.call.output ended = some output →
    reply.answer = .resumeReturns call.actor number output ∧
      ∀ other ∈ between, other.actor ≠ call.actor

/-- A yield returns at the next resume of the same generator, with its input;
until then the generator does nothing. -/
def YieldsReturn (log : List (Observation Value)) : Prop :=
  ∀ before leave between call after number output input,
    log = before ++ leave :: (between ++ call :: after) →
    leave.actor = .generator number →
    leave.call = .yield output →
    (∀ other ∈ between, ∀ given, other.call ≠ .resume number given) →
    call.call = .resume number input →
    call.answer = .yieldReturns number input ∧
      ∀ other ∈ between, other.actor ≠ .generator number

/-- The first resume of a generator starts its body. -/
def FirstResumeStarts (log : List (Observation Value)) : Prop :=
  ∀ before call after number input,
    log = before ++ call :: after →
    call.call = .resume number input →
    (∀ earlier ∈ before, ∀ given, earlier.call ≠ .resume number given) →
    call.answer = .started number

/-- A finished generator never runs again, and resuming it returns at once. -/
def FinishedStays (log : List (Observation Value)) : Prop :=
  ∀ before last after number,
    log = before ++ last :: after →
    last.actor = .generator number →
    last.call = .finish →
    (∀ later ∈ after, later.actor ≠ .generator number) ∧
      ∀ later ∈ after, ∀ input, later.call = .resume number input →
        later.answer = .resumeReturns later.actor number ended

end

/-! ## What one step does -/

/-- Everything a step can be, with what each needs. -/
inductive Steps {Value : Type} (ended : Value) (state : State) :
    Call Value → State → Answer Value → Prop where
  | create :
      Steps ended state .create ⟨state.statuses ++ [.fresh], state.chain⟩
        (.created state.statuses.length)
  | start (number : Nat) (input : Value) (isFresh : state.statuses[number]? = some .fresh) :
      Steps ended state (.resume number input)
        ⟨state.statuses.set number .active, number :: state.chain⟩ (.started number)
  | continue (number : Nat) (input : Value)
      (isSuspended : state.statuses[number]? = some .suspended) :
      Steps ended state (.resume number input)
        ⟨state.statuses.set number .active, number :: state.chain⟩ (.yieldReturns number input)
  | exhausted (number : Nat) (input : Value)
      (isFinished : state.statuses[number]? = some .finished) :
      Steps ended state (.resume number input) state (.resumeReturns state.running number ended)
  | yield (number : Nat) (rest : List Nat) (output : Value)
      (isChain : state.chain = number :: rest) :
      Steps ended state (.yield output) ⟨state.statuses.set number .suspended, rest⟩
        (.resumeReturns (partyOf rest) number output)
  | finish (number : Nat) (rest : List Nat) (isChain : state.chain = number :: rest) :
      Steps ended state .finish ⟨state.statuses.set number .finished, rest⟩
        (.resumeReturns (partyOf rest) number ended)
  | discard (number : Nat) (isIdle : state.Idle number) :
      Steps ended state (.discard number)
        ⟨state.statuses.set number .discarded, state.chain⟩ (.discarded number)

section

variable {Value : Type} {ended : Value}

theorem steps_of_step {state next : State} {call : Call Value} {answer : Answer Value}
    (stepped : step ended state call = some (next, answer)) :
    Steps ended state call next answer := by
  cases call with
  | create =>
      cases stepped
      exact .create
  | resume number input =>
      simp only [step] at stepped
      split at stepped
      next isFresh =>
        cases stepped
        exact .start number input isFresh
      next isSuspended =>
        cases stepped
        exact .continue number input isSuspended
      next isFinished =>
        cases stepped
        exact .exhausted number input isFinished
      next => cases stepped
  | yield output =>
      simp only [step] at stepped
      split at stepped
      next => cases stepped
      next number rest isChain =>
        cases stepped
        exact .yield number rest output isChain
  | finish =>
      simp only [step] at stepped
      split at stepped
      next => cases stepped
      next number rest isChain =>
        cases stepped
        exact .finish number rest isChain
  | discard number =>
      simp only [step] at stepped
      split at stepped
      next => cases stepped
      next => cases stepped
      next => cases stepped
      next status notActive notDiscarded isStatus =>
        cases stepped
        cases found : state.statuses[number]? with
        | none => exact absurd found isStatus
        | some status =>
            apply Steps.discard
            refine ⟨status, found, ?_, ?_⟩
            · rintro rfl
              exact notActive found
            · rintro rfl
              exact notDiscarded found

/-- A call that keeps to the rules has a step. -/
theorem exists_step {state : State} {call : Call Value} (allowed : state.Allowed call) :
    ∃ next answer, step ended state call = some (next, answer) := by
  cases call with
  | create => exact ⟨_, _, rfl⟩
  | resume number input =>
      obtain ⟨status, found, notActive, notDiscarded⟩ := allowed
      cases status with
      | fresh => exact ⟨_, _, by simp only [step, found]; rfl⟩
      | suspended => exact ⟨_, _, by simp only [step, found]; rfl⟩
      | finished => exact ⟨_, _, by simp only [step, found]; rfl⟩
      | active => exact absurd rfl notActive
      | discarded => exact absurd rfl notDiscarded
  | yield output =>
      cases isChain : state.chain with
      | nil => exact absurd isChain allowed
      | cons number rest => exact ⟨_, _, by simp only [step, isChain]; rfl⟩
  | finish =>
      cases isChain : state.chain with
      | nil => exact absurd isChain allowed
      | cons number rest => exact ⟨_, _, by simp only [step, isChain]; rfl⟩
  | discard number =>
      obtain ⟨status, found, notActive, notDiscarded⟩ := allowed
      cases status with
      | fresh => exact ⟨_, _, by simp only [step, found]; rfl⟩
      | suspended => exact ⟨_, _, by simp only [step, found]; rfl⟩
      | finished => exact ⟨_, _, by simp only [step, found]; rfl⟩
      | active => exact absurd rfl notActive
      | discarded => exact absurd rfl notDiscarded

theorem Steps.party {state next : State} {call : Call Value} {answer : Answer Value}
    (steps : Steps ended state call next answer) :
    next.running = answer.party state.running := by
  cases steps <;> rfl

/-! ## The chain and the statuses agree -/

/-- The active generators are those of the chain, each there once. -/
structure State.Orderly (state : State) : Prop where
  nodup : state.chain.Nodup
  active : ∀ number, number ∈ state.chain ↔ state.statuses[number]? = some .active

theorem State.initial_orderly : State.initial.Orderly := by
  constructor
  · exact List.nodup_nil
  · intro number
    simp [State.initial]

/-- Replacing the status of a generator that is there. -/
theorem getElem?_set_of_some {statuses : List Status} {number : Nat} {old : Status}
    (found : statuses[number]? = some old) (status : Status) (other : Nat) :
    (statuses.set number status)[other]? =
      if number = other then some status else statuses[other]? := by
  have inside : number < statuses.length := by
    apply List.getElem?_eq_some_iff.mp found |>.elim
    intro inside _
    exact inside
  rw [List.getElem?_set, if_pos inside]

/-- Waking an idle generator. -/
theorem State.Orderly.wake {state : State} (orderly : state.Orderly) {number : Nat}
    {old : Status} (found : state.statuses[number]? = some old) (notActive : old ≠ .active) :
    State.Orderly ⟨state.statuses.set number .active, number :: state.chain⟩ := by
  constructor
  · apply List.nodup_cons.mpr
    constructor
    · intro member
      rw [orderly.active, found] at member
      exact notActive (Option.some.inj member)
    · exact orderly.nodup
  · intro other
    rw [List.mem_cons, getElem?_set_of_some found, orderly.active]
    split
    next isNumber => simp [isNumber]
    next notNumber => simp [Ne.symm notNumber]

/-- The running generator hands control back. -/
theorem State.Orderly.leave {state : State} (orderly : state.Orderly) {number : Nat}
    {rest : List Nat} (isChain : state.chain = number :: rest) {status : Status}
    (notActive : status ≠ .active) :
    State.Orderly ⟨state.statuses.set number status, rest⟩ := by
  have nodup := orderly.nodup
  rw [isChain, List.nodup_cons] at nodup
  have found : state.statuses[number]? = some .active := by
    rw [← orderly.active, isChain]
    exact List.mem_cons_self
  constructor
  · exact nodup.2
  · intro other
    rw [getElem?_set_of_some found]
    split
    next isNumber =>
      subst isNumber
      simp [nodup.1, notActive]
    next notNumber =>
      rw [← orderly.active, isChain, List.mem_cons]
      simp [Ne.symm notNumber]

theorem State.Orderly.step {state next : State} {call : Call Value} {answer : Answer Value}
    (orderly : state.Orderly) (steps : Steps ended state call next answer) : next.Orderly := by
  cases steps with
  | create =>
      constructor
      · exact orderly.nodup
      · intro number
        rw [orderly.active]
        by_cases inside : number < state.statuses.length
        · rw [List.getElem?_append_left inside]
        · have outside : state.statuses[number]? = none := by
            apply List.getElem?_eq_none
            omega
          rw [outside, List.getElem?_append_right (by omega)]
          constructor
          · intro isActive
            cases isActive
          · intro isActive
            have member := List.mem_of_getElem? isActive
            simp at member
  | start number input isFresh => exact orderly.wake isFresh (by decide)
  | «continue» number input isSuspended => exact orderly.wake isSuspended (by decide)
  | exhausted number input isFinished => exact orderly
  | yield number rest output isChain => exact orderly.leave isChain (by decide)
  | finish number rest isChain => exact orderly.leave isChain (by decide)
  | discard number isIdle =>
      obtain ⟨status, found, notActive, notDiscarded⟩ := isIdle
      constructor
      · exact orderly.nodup
      · intro other
        rw [getElem?_set_of_some found, orderly.active]
        split
        next isNumber =>
          subst isNumber
          rw [found]
          simp [notActive]
        next => rfl

/-! ## Runs -/

theorem runs_append {state final : State} {first second : List (Observation Value)} :
    Runs ended state (first ++ second) final ↔
      ∃ middle, Runs ended state first middle ∧ Runs ended middle second final := by
  induction first generalizing state with
  | nil => simp [Runs]
  | cons observation rest induction =>
      simp only [List.cons_append, Runs, induction]
      constructor
      · rintro ⟨actor, next, stepped, middle, ran, onward⟩
        exact ⟨middle, ⟨actor, next, stepped, ran⟩, onward⟩
      · rintro ⟨middle, ⟨actor, next, stepped, ran⟩, onward⟩
        exact ⟨actor, next, stepped, middle, ran, onward⟩

theorem State.Orderly.runs {state final : State} {log : List (Observation Value)}
    (orderly : state.Orderly) (ran : Runs ended state log final) : final.Orderly := by
  induction log generalizing state with
  | nil =>
      cases ran
      exact orderly
  | cons observation rest induction =>
      obtain ⟨_, next, stepped, onward⟩ := ran
      exact induction (orderly.step (steps_of_step stepped)) onward

end
end Generators
end FoundationsLab
