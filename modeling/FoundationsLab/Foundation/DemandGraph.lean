import FoundationsLab.Foundation.ReadTree
import Mathlib.Data.Nat.Find
import Mathlib.Order.Interval.Finset.Nat

namespace FoundationsLab

/-- Evaluating a node from scratch: a node without a function has the value the inputs give
it, any other node runs its function on sources evaluated the same way. -/
def evaluate {Value : Type} (fn : Nat → Option (ReadTree Value Value)) :
    Nat → (Nat → Value) → Nat → Option Value
  | 0, _, _ => none
  | fuel + 1, inputs, node =>
      match fn node with
      | none => some (inputs node)
      | some tree => tree.attempt (evaluate fn fuel inputs)

/-- Finitely many computed nodes over inputs. What a node reads may change with the values it
reads; no evaluation comes back to a node it has not finished. -/
structure DemandGraph (Value : Type) where
  fn : Nat → Option (ReadTree Value Value)
  size : Nat
  inside : ∀ node, size ≤ node → fn node = none
  acyclic : ∀ inputs node, ∃ fuel, (evaluate fn fuel inputs node).isSome

namespace DemandGraph

variable {Value : Type}

/-- The number of nodes on the longest chain of reads below a node, itself included. -/
def depth (graph : DemandGraph Value) (inputs : Nat → Value) (node : Nat) : Nat :=
  Nat.find (graph.acyclic inputs node)

def eval (graph : DemandGraph Value) (inputs : Nat → Value) (node : Nat) : Value :=
  (evaluate graph.fn (graph.depth inputs node) inputs node).get
    (Nat.find_spec (graph.acyclic inputs node))

theorem evaluate_succ (fn : Nat → Option (ReadTree Value Value)) (fuel : Nat)
    (inputs : Nat → Value) (node : Nat) (value : Value)
    (succeeds : evaluate fn fuel inputs node = some value) :
    evaluate fn (fuel + 1) inputs node = some value := by
  induction fuel generalizing node value with
  | zero => nomatch succeeds
  | succ fuel induction =>
      rw [evaluate] at succeeds ⊢
      split at succeeds
      next => exact succeeds
      next tree isFn => exact tree.attempt_mono (fun _ _ => induction _ _) succeeds

theorem evaluate_le (fn : Nat → Option (ReadTree Value Value)) {fuel more : Nat}
    (enough : fuel ≤ more) {inputs : Nat → Value} {node : Nat} {value : Value}
    (succeeds : evaluate fn fuel inputs node = some value) :
    evaluate fn more inputs node = some value := by
  induction enough with
  | refl => exact succeeds
  | step _ induction => exact evaluate_succ fn _ inputs node value induction

section

variable (graph : DemandGraph Value) (inputs : Nat → Value)

theorem evaluate_depth (node : Nat) :
    evaluate graph.fn (graph.depth inputs node) inputs node = some (graph.eval inputs node) :=
  (Option.some_get _).symm

theorem evaluate_of_depth_le {node fuel : Nat} (enough : graph.depth inputs node ≤ fuel) :
    evaluate graph.fn fuel inputs node = some (graph.eval inputs node) :=
  evaluate_le graph.fn enough (graph.evaluate_depth inputs node)

theorem depth_le_of_isSome {node fuel : Nat}
    (succeeds : (evaluate graph.fn fuel inputs node).isSome) : graph.depth inputs node ≤ fuel :=
  Nat.find_min' _ succeeds

theorem eq_eval_of_evaluate {node fuel : Nat} {value : Value}
    (succeeds : evaluate graph.fn fuel inputs node = some value) :
    value = graph.eval inputs node := by
  have enough : graph.depth inputs node ≤ fuel :=
    graph.depth_le_of_isSome inputs (by rw [succeeds]; rfl)
  rw [graph.evaluate_of_depth_le inputs enough] at succeeds
  exact (Option.some.inj succeeds).symm

/-! ## What the evaluation satisfies -/

theorem eval_input {node : Nat} (isInput : graph.fn node = none) :
    graph.eval inputs node = inputs node := by
  have settled : evaluate graph.fn 1 inputs node = some (inputs node) := by
    simp [evaluate, isInput]
  exact (graph.eq_eval_of_evaluate inputs settled).symm

theorem depth_pos (node : Nat) : 0 < graph.depth inputs node := by
  have settled := graph.evaluate_depth inputs node
  rcases Nat.eq_zero_or_pos (graph.depth inputs node) with isZero | positive
  · rw [isZero, evaluate] at settled
    nomatch settled
  · exact positive

theorem depth_input {node : Nat} (isInput : graph.fn node = none) :
    graph.depth inputs node = 1 := by
  have atMost : graph.depth inputs node ≤ 1 :=
    graph.depth_le_of_isSome inputs (by simp [evaluate, isInput])
  have positive := graph.depth_pos inputs node
  omega

/-- A computed node's evaluation runs its function over the evaluation of its sources, which
lie strictly deeper. -/
theorem eval_computed {node : Nat} {tree : ReadTree Value Value}
    (isFn : graph.fn node = some tree) :
    graph.eval inputs node = tree.run (graph.eval inputs) ∧
      ∀ source ∈ tree.sources (graph.eval inputs),
        graph.depth inputs source < graph.depth inputs node := by
  obtain ⟨fuel, isDepth⟩ := Nat.exists_eq_succ_of_ne_zero (graph.depth_pos inputs node).ne'
  have settled := graph.evaluate_depth inputs node
  rw [isDepth, Nat.succ_eq_add_one, evaluate, isFn] at settled
  obtain ⟨isRun, isSources⟩ := tree.attempt_eq_some
    (fun source value succeeds => graph.eq_eval_of_evaluate inputs succeeds) settled
  refine ⟨isRun, fun source member => ?_⟩
  have shallow : graph.depth inputs source ≤ fuel :=
    graph.depth_le_of_isSome inputs (by rw [isSources source member]; rfl)
  omega

theorem depth_le_succ {node bound : Nat} {tree : ReadTree Value Value}
    (isFn : graph.fn node = some tree)
    (below : ∀ source ∈ tree.sources (graph.eval inputs), graph.depth inputs source ≤ bound) :
    graph.depth inputs node ≤ bound + 1 := by
  refine graph.depth_le_of_isSome inputs ?_
  rw [evaluate, isFn]
  simp only
  rw [tree.attempt_of_sources fun source member =>
    graph.evaluate_of_depth_le inputs (below source member)]
  rfl

/-! ## The depth of a finite graph

Below a node of depth `d` there is a node of every smaller depth, so no depth exceeds the
number of computed nodes by more than one. -/

theorem exists_of_depth (node : Nat) {deep : Nat} (atLeast : 2 ≤ deep)
    (atMost : deep ≤ graph.depth inputs node) :
    ∃ computed < graph.size, graph.depth inputs computed = deep := by
  induction isDepth : graph.depth inputs node using Nat.strong_induction_on generalizing node with
  | h current induction =>
      subst isDepth
      cases isFn : graph.fn node with
      | none =>
          have := graph.depth_input inputs isFn
          omega
      | some tree =>
          rcases Nat.lt_or_eq_of_le atMost with lower | isNode
          · -- Some source reaches the depth looked for, or the node would not lie above it.
            have isSource : ∃ source ∈ tree.sources (graph.eval inputs),
                deep ≤ graph.depth inputs source := by
              by_contra none
              have below : graph.depth inputs node ≤ (deep - 1) + 1 :=
                graph.depth_le_succ inputs isFn fun source member => by
                  have isShallow : ¬ deep ≤ graph.depth inputs source :=
                    fun reaches => none ⟨source, member, reaches⟩
                  omega
              omega
            obtain ⟨source, member, reaches⟩ := isSource
            exact induction _ ((graph.eval_computed inputs isFn).2 source member) source reaches rfl
          · refine ⟨node, ?_, isNode.symm⟩
            by_contra outside
            rw [graph.inside node (by omega)] at isFn
            nomatch isFn

theorem depth_le_size (node : Nat) : graph.depth inputs node ≤ graph.size + 1 := by
  have covered : Finset.Icc 2 (graph.depth inputs node) ⊆
      (Finset.range graph.size).image (graph.depth inputs) := by
    intro deep member
    obtain ⟨atLeast, atMost⟩ := Finset.mem_Icc.mp member
    obtain ⟨computed, isInside, isDepth⟩ := graph.exists_of_depth inputs node atLeast atMost
    exact Finset.mem_image.mpr ⟨computed, Finset.mem_range.mpr isInside, isDepth⟩
  have count := (Finset.card_le_card covered).trans Finset.card_image_le
  rw [Nat.card_Icc, Finset.card_range] at count
  omega

end

/-! ## Only the inputs matter -/

theorem evaluate_congr (fn : Nat → Option (ReadTree Value Value)) {first second : Nat → Value}
    (same : ∀ node, fn node = none → first node = second node) (fuel : Nat) :
    evaluate fn fuel first = evaluate fn fuel second := by
  induction fuel with
  | zero => rfl
  | succ fuel induction =>
      funext node
      rw [evaluate, evaluate]
      cases isFn : fn node with
      | none => simp only [same node isFn]
      | some tree => simp only [induction]

theorem eval_congr (graph : DemandGraph Value) {first second : Nat → Value}
    (same : ∀ node, graph.fn node = none → first node = second node) :
    graph.eval first = graph.eval second := by
  funext node
  have settled := graph.evaluate_depth first node
  rw [evaluate_congr graph.fn same] at settled
  exact graph.eq_eval_of_evaluate second settled

/-- A graph whose nodes read only nodes of smaller rank, whatever values they get, is
acyclic. -/
theorem evaluate_isSome_of_rank (fn : Nat → Option (ReadTree Value Value)) (rank : Nat → Nat)
    (lower : ∀ node tree, fn node = some tree →
      ∀ env, ∀ source ∈ tree.sources env, rank source < rank node)
    (inputs : Nat → Value) (node : Nat) : ∃ fuel, (evaluate fn fuel inputs node).isSome := by
  have settles : ∀ fuel node, rank node < fuel → (evaluate fn fuel inputs node).isSome := by
    intro fuel
    induction fuel with
    | zero => omega
    | succ fuel induction =>
        intro node isBelow
        rw [evaluate]
        cases isFn : fn node with
        | none => rfl
        | some tree =>
            simp only
            let env := fun source => (evaluate fn fuel inputs source).getD (inputs source)
            have values : ∀ source ∈ tree.sources env,
                evaluate fn fuel inputs source = some (env source) := by
              intro source member
              have isLower := lower node tree isFn env source member
              obtain ⟨value, isValue⟩ :=
                Option.isSome_iff_exists.mp (induction source (by omega))
              simp only [env, isValue, Option.getD_some]
            rw [tree.attempt_of_sources values]
            rfl
  exact ⟨rank node + 1, settles _ node (by omega)⟩

def ofRank (fn : Nat → Option (ReadTree Value Value)) (size : Nat)
    (inside : ∀ node, size ≤ node → fn node = none) (rank : Nat → Nat)
    (lower : ∀ node tree, fn node = some tree →
      ∀ env, ∀ source ∈ tree.sources env, rank source < rank node) : DemandGraph Value :=
  ⟨fn, size, inside, evaluate_isSome_of_rank fn rank lower⟩

end DemandGraph

end FoundationsLab
