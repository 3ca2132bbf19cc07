import Mathlib.Tactic.Common

/-! # Deterministic machines

A step takes an action, may fail, and otherwise yields a state and an output. A
run feeds a list of actions to it and collects the outputs. -/

namespace FoundationsLab.Foundation

variable {State Spec Action Output : Type*}

def run (step : State → Action → Option (State × Output)) :
    State → List Action → Option (State × List Output)
  | state, [] => some (state, [])
  | state, action :: actions =>
      match step state action with
      | none => none
      | some (next, output) =>
          (run step next actions).map fun (final, outputs) => (final, output :: outputs)

/-- A machine that never fails. -/
def runTotal (step : Spec → Action → Spec × Output) : Spec → List Action → Spec × List Output
  | state, [] => (state, [])
  | state, action :: actions =>
      let (next, output) := step state action
      let (final, outputs) := runTotal step next actions
      (final, output :: outputs)

/-- Every step of the specification is answered by a step with the same output
that reestablishes the relation. -/
def Refines (Related : State → Spec → Prop) (step : State → Action → Option (State × Output))
    (spec : Spec → Action → Spec × Output) : Prop :=
  ∀ state abstract, Related state abstract → ∀ action,
    ∃ next, step state action = some (next, (spec abstract action).2) ∧
      Related next (spec abstract action).1

/-- Refinement of single steps is refinement of whole runs: the concrete machine
does not fail, and the outputs are those of the specification. -/
theorem Refines.run {Related : State → Spec → Prop}
    {step : State → Action → Option (State × Output)} {spec : Spec → Action → Spec × Output}
    (refines : Refines Related step spec) : ∀ (actions : List Action) {state : State}
      {abstract : Spec}, Related state abstract →
    ∃ final, Foundation.run step state actions = some (final, (runTotal spec abstract actions).2) ∧
      Related final (runTotal spec abstract actions).1
  | [], state, abstract, related => ⟨state, rfl, related⟩
  | action :: actions, state, abstract, related => by
      obtain ⟨next, stepped, nextRelated⟩ := refines state abstract related action
      obtain ⟨final, ran, finalRelated⟩ := refines.run actions nextRelated
      exact ⟨final, by simp [Foundation.run, runTotal, stepped, ran], finalRelated⟩

end FoundationsLab.Foundation
