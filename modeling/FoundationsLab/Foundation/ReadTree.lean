import Mathlib.Data.List.Basic

namespace FoundationsLab

/-- A computation that may read numbered sources before it returns, choosing each source
from the values it has read so far. -/
inductive ReadTree (Value Result : Type) where
  | ret (result : Result)
  | read (source : Nat) (next : Value → ReadTree Value Result)

namespace ReadTree

variable {Value Result : Type}

def run (env : Nat → Value) : ReadTree Value Result → Result
  | ret result => result
  | read source next => (next (env source)).run env

/-- Every read the computation makes, with what it got. -/
def reads (env : Nat → Value) : ReadTree Value Result → List (Nat × Value)
  | ret _ => []
  | read source next => (source, env source) :: (next (env source)).reads env

def sources (env : Nat → Value) : ReadTree Value Result → List Nat
  | ret _ => []
  | read source next => source :: (next (env source)).sources env

/-- The computation over sources that may fail to give a value. -/
def attempt (pull : Nat → Option Value) : ReadTree Value Result → Option Result
  | ret result => some result
  | read source next => (pull source).bind fun value => (next value).attempt pull

theorem reads_fst (env : Nat → Value) (tree : ReadTree Value Result) :
    (tree.reads env).map Prod.fst = tree.sources env := by
  induction tree with
  | ret result => rfl
  | read source next induction => simp only [reads, sources, List.map_cons, induction]

/-! ## Two environments that agree where both are read -/

theorem agree {first second : Nat → Value} (tree : ReadTree Value Result)
    (same : ∀ source ∈ tree.sources first, source ∈ tree.sources second →
      first source = second source) :
    tree.run first = tree.run second ∧ tree.reads first = tree.reads second := by
  induction tree with
  | ret result => exact ⟨rfl, rfl⟩
  | read source next induction =>
      have head : first source = second source :=
        same source List.mem_cons_self List.mem_cons_self
      have tail := induction (second source) fun later inFirst inSecond => by
        apply same later
        · rw [sources, head]
          exact List.mem_cons_of_mem _ inFirst
        · exact List.mem_cons_of_mem _ inSecond
      simp only [run, reads, head]
      exact ⟨tail.1, by rw [tail.2]⟩

theorem sources_eq_of_reads_eq {first second : Nat → Value} {tree : ReadTree Value Result}
    (same : tree.reads first = tree.reads second) :
    tree.sources first = tree.sources second := by
  rw [← reads_fst, ← reads_fst, same]

/-- While the values read so far agree, the next source is the same. -/
theorem mem_sources_of_prefix {first second : Nat → Value} (tree : ReadTree Value Result)
    {before after : List Nat} {source : Nat}
    (isReads : tree.sources first = before ++ source :: after)
    (same : ∀ earlier ∈ before, first earlier = second earlier) :
    source ∈ tree.sources second := by
  induction tree generalizing before with
  | ret result => simp [sources] at isReads
  | read head next induction =>
      cases before with
      | nil =>
          have : head = source := (List.cons.inj isReads).1
          exact this ▸ List.mem_cons_self
      | cons earlier before =>
          obtain ⟨rfl, isTail⟩ := List.cons.inj isReads
          have sameHead : first head = second head := same head List.mem_cons_self
          have inTail := induction (first head) isTail fun earlier member =>
            same earlier (List.mem_cons_of_mem _ member)
          rw [sources, ← sameHead]
          exact List.mem_cons_of_mem _ inTail

/-! ## Attempts -/

theorem attempt_mono {smaller larger : Nat → Option Value}
    (extends_ : ∀ source value, smaller source = some value → larger source = some value)
    (tree : ReadTree Value Result) {result : Result}
    (succeeds : tree.attempt smaller = some result) : tree.attempt larger = some result := by
  induction tree with
  | ret stop => exact succeeds
  | read source next induction =>
      obtain ⟨value, isValue, rest⟩ := Option.bind_eq_some_iff.mp succeeds
      exact Option.bind_eq_some_iff.mpr
        ⟨value, extends_ source value isValue, induction value rest⟩

/-- An attempt that succeeds over partial values of an environment is the run over it, and
every source read had its value. -/
theorem attempt_eq_some {pull : Nat → Option Value} {env : Nat → Value}
    (faithful : ∀ source value, pull source = some value → value = env source)
    (tree : ReadTree Value Result) {result : Result} (succeeds : tree.attempt pull = some result) :
    result = tree.run env ∧ ∀ source ∈ tree.sources env, pull source = some (env source) := by
  induction tree with
  | ret stop =>
      cases succeeds
      exact ⟨rfl, fun source member => nomatch member⟩
  | read source next induction =>
      obtain ⟨value, isValue, rest⟩ := Option.bind_eq_some_iff.mp succeeds
      obtain rfl := faithful source value isValue
      obtain ⟨isRun, tail⟩ := induction (env source) rest
      refine ⟨isRun, fun later member => ?_⟩
      rcases List.mem_cons.mp member with rfl | member
      · exact isValue
      · exact tail later member

theorem attempt_of_sources {pull : Nat → Option Value} {env : Nat → Value}
    (tree : ReadTree Value Result)
    (values : ∀ source ∈ tree.sources env, pull source = some (env source)) :
    tree.attempt pull = some (tree.run env) := by
  induction tree with
  | ret stop => rfl
  | read source next induction =>
      rw [attempt, values source List.mem_cons_self, Option.bind_some, run]
      exact induction (env source) fun later member =>
        values later (List.mem_cons_of_mem _ member)

end ReadTree

end FoundationsLab
