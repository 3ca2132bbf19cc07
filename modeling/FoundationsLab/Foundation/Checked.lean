import Mathlib.Algebra.Group.Nat.Defs
import Mathlib.Data.List.Basic
import Mathlib.Tactic.Common

/-! # Checked execution

Programs over arrays where every access is checked. A run ends with a value, with an
error the program itself returns, or with a fault: an access outside an array, a read
of something never written, or a loop that does not end. A safe program has no fault. -/

namespace FoundationsLab

inductive Fault where
  | outOfBounds
  | uninitialized
  | endless

inductive Stop (Error : Type) where
  | fault (fault : Fault)
  | error (error : Error)

abbrev Checked (Error α : Type) := Except (Stop Error) α

namespace Checked

variable {Error α β : Type}

def fail (error : Error) : Checked Error α := .error (.error error)

def endless : Checked Error α := .error (.fault .endless)

def get (xs : List α) (i : Nat) : Checked Error α :=
  match xs[i]? with
  | some x => .ok x
  | none => .error (.fault .outOfBounds)

def set (xs : List α) (i : Nat) (x : α) : Checked Error (List α) :=
  if i < xs.length then .ok (xs.set i x) else .error (.fault .outOfBounds)

/-- Reads an element that has been written. -/
def getInit (xs : List (Option α)) (i : Nat) : Checked Error α :=
  match xs[i]? with
  | some (some x) => .ok x
  | some none => .error (.fault .uninitialized)
  | none => .error (.fault .outOfBounds)

/-- `for (i = start; i < start + count; i++)` -/
def forFrom (body : Nat → α → Checked Error α) : (start count : Nat) → α → Checked Error α
  | _, 0, state => .ok state
  | i, count + 1, state => body i state >>= forFrom body (i + 1) count

/-! ## Safe programs -/

/-- The program has no fault, and its value satisfies the condition. -/
inductive Safe (post : α → Prop) : Checked Error α → Prop
  | ok {value : α} (holds : post value) : Safe post (.ok value)
  | fail (error : Error) : Safe post (.error (.error error))

variable {post post' : α → Prop} {result : Checked Error α}

theorem Safe.mono (safe : Safe post result) (weaker : ∀ value, post value → post' value) :
    Safe post' result := by
  cases safe with
  | ok holds => exact .ok (weaker _ holds)
  | fail error => exact .fail error

theorem Safe.bind {next : α → Checked Error β} {final : β → Prop} (safe : Safe post result)
    (rest : ∀ value, post value → Safe final (next value)) : Safe final (result >>= next) := by
  cases safe with
  | ok holds => exact rest _ holds
  | fail error => exact .fail error

theorem Safe.of_ok (safe : Safe post result) {value : α} (returned : result = .ok value) :
    post value := by
  rw [returned] at safe
  cases safe with
  | ok holds => exact holds

theorem Safe.of_map {f : β → α} {result : Checked Error β} (safe : Safe post (f <$> result)) :
    Safe (fun value => post (f value)) result := by
  cases result with
  | ok value => exact .ok (safe.of_ok rfl)
  | error stop =>
      cases safe with
      | fail error => exact .fail error

theorem safe_get {xs : List α} {i : Nat} (inside : i < xs.length) :
    Safe (fun x => xs[i]? = some x) (get xs i : Checked Error α) := by
  rw [get, List.getElem?_eq_getElem inside]
  exact .ok rfl

theorem safe_set {xs : List α} {i : Nat} (inside : i < xs.length) (x : α) :
    Safe (fun ys => ys = xs.set i x) (set xs i x : Checked Error (List α)) := by
  rw [set, if_pos inside]
  exact .ok rfl

theorem safe_getInit {xs : List (Option α)} {i : Nat} {x : α} (written : xs[i]? = some (some x)) :
    Safe (· = x) (getInit xs i : Checked Error α) := by
  rw [getInit, written]
  exact .ok rfl

/-- A loop is safe if each turn carries the invariant to the next index. -/
theorem safe_forFrom {body : Nat → α → Checked Error α} (inv : Nat → α → Prop)
    {start count : Nat} {state : α} (first : inv start state)
    (turn : ∀ i state, start ≤ i → i < start + count → inv i state →
      Safe (inv (i + 1)) (body i state)) :
    Safe (inv (start + count)) (forFrom body start count state) := by
  induction count generalizing start state with
  | zero => exact .ok first
  | succ count induction =>
      refine (turn start state (Nat.le_refl _) (by omega) first).bind fun state' next => ?_
      have rest := induction next fun i state lower upper =>
        turn i state (by omega) (by omega)
      rw [show start + 1 + count = start + (count + 1) by omega] at rest
      exact rest

/-! ## Programs that return -/

/-- The program ends with a value that satisfies the condition. -/
def Returns (post : α → Prop) (result : Checked Error α) : Prop :=
  ∃ value, result = .ok value ∧ post value

/-- The program does not end with an error of its own. -/
def Sure (result : Checked Error α) : Prop := ∀ error, result ≠ .error (.error error)

theorem Safe.returns (safe : Safe post result) (sure : Sure result) : Returns post result := by
  cases safe with
  | ok holds => exact ⟨_, rfl, holds⟩
  | fail error => exact absurd rfl (sure error)

theorem Returns.mono (returns : Returns post result) (weaker : ∀ value, post value → post' value) :
    Returns post' result := by
  obtain ⟨value, returned, holds⟩ := returns
  exact ⟨value, returned, weaker value holds⟩

theorem Returns.bind {next : α → Checked Error β} {final : β → Prop} (returns : Returns post result)
    (rest : ∀ value, post value → Returns final (next value)) : Returns final (result >>= next) := by
  obtain ⟨value, rfl, holds⟩ := returns
  exact rest value holds

theorem Returns.ok {value : α} (holds : post value) :
    Returns post (.ok value : Checked Error α) := ⟨value, rfl, holds⟩

theorem returns_get {xs : List α} {i : Nat} (inside : i < xs.length) :
    Returns (fun x => xs[i]? = some x) (get xs i : Checked Error α) := by
  rw [get, List.getElem?_eq_getElem inside]
  exact .ok rfl

theorem returns_set {xs : List α} {i : Nat} (inside : i < xs.length) (x : α) :
    Returns (fun ys => ys = xs.set i x) (set xs i x : Checked Error (List α)) := by
  rw [set, if_pos inside]
  exact .ok rfl

/-- A loop returns if each turn does and carries the invariant to the next index. -/
theorem returns_forFrom {body : Nat → α → Checked Error α} (inv : Nat → α → Prop)
    {start count : Nat} {state : α} (first : inv start state)
    (turn : ∀ i state, start ≤ i → i < start + count → inv i state →
      Returns (inv (i + 1)) (body i state)) :
    Returns (inv (start + count)) (forFrom body start count state) := by
  induction count generalizing start state with
  | zero => exact .ok first
  | succ count induction =>
      apply (turn start state (Nat.le_refl _) (by omega) first).bind
      intro state' next
      have rest := induction next fun i state lower upper => turn i state (by omega) (by omega)
      rw [show start + 1 + count = start + (count + 1) by omega] at rest
      exact rest

theorem sure_get (xs : List α) (i : Nat) : Sure (get xs i : Checked Error α) := by
  intro error
  rw [get]
  split <;> simp

theorem sure_set (xs : List α) (i : Nat) (x : α) : Sure (set xs i x : Checked Error (List α)) := by
  intro error
  rw [set]
  split <;> simp

theorem Sure.bind {next : α → Checked Error β} (sure : Sure result)
    (rest : ∀ value, result = .ok value → Sure (next value)) : Sure (result >>= next) := by
  cases result with
  | ok value => exact rest value rfl
  | error stop =>
      intro error same
      exact sure error (congrArg Except.error (Except.error.inj same))

theorem sure_ok (value : α) : Sure (.ok value : Checked Error α) := by
  intro error same
  cases same

theorem sure_forFrom {body : Nat → α → Checked Error α} (turn : ∀ i state, Sure (body i state))
    (start count : Nat) (state : α) : Sure (forFrom body start count state) := by
  induction count generalizing start state with
  | zero => exact sure_ok state
  | succ count induction => exact (turn start state).bind fun state' _ => induction (start + 1) state'

theorem bind_eq_ok {next : α → Checked Error β} {final : β} :
    result >>= next = .ok final ↔ ∃ value, result = .ok value ∧ next value = .ok final := by
  cases result with
  | error stop =>
      constructor
      · intro same
        cases same
      · intro ⟨_, same, _⟩
        cases same
  | ok value =>
      constructor
      · intro same
        exact ⟨value, rfl, same⟩
      · intro ⟨_, same, holds⟩
        cases same
        exact holds

/-! ## Programs with less fuel -/

/-- The first program runs out of fuel, or it is the second one. -/
def Cut (short long : Checked Error α) : Prop := short = endless ∨ short = long

variable {short long : Checked Error α}

theorem Cut.refl (result : Checked Error α) : Cut result result := .inr rfl

theorem Cut.bind {next next' : α → Checked Error β} (cut : Cut short long)
    (rest : ∀ value, Cut (next value) (next' value)) : Cut (short >>= next) (long >>= next') := by
  rcases cut with ranOut | same
  · left
    rw [ranOut]
    rfl
  · rw [same]
    cases long with
    | ok value => exact rest value
    | error stop => exact .refl _

theorem Cut.ite {condition : Prop} [Decidable condition] {short' long' : Checked Error α}
    (cut : Cut short long) (cut' : Cut short' long') :
    Cut (if condition then short else short') (if condition then long else long') := by
  split
  · exact cut
  · exact cut'

theorem Cut.ok (cut : Cut short long) {value : α} (returned : short = .ok value) :
    long = .ok value := by
  rcases cut with ranOut | same
  · rw [ranOut] at returned
    cases returned
  · exact same.symm.trans returned

theorem Cut.eq_of_safe (cut : Cut short long) (safe : Safe post short) : short = long := by
  rcases cut with ranOut | same
  · rw [ranOut] at safe
    cases safe
  · exact same

end Checked

end FoundationsLab
