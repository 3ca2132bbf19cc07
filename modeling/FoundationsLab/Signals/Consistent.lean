import FoundationsLab.Signals.Reactive

namespace FoundationsLab.Signals

variable {Value : Type} (graph : DemandGraph Value)

/-! ## What the cells keep between any two steps -/

/-- The function of an effect that has not been disposed of. -/
def Agenda.live (agenda : Agenda Value) (index : Nat) : Option (EffectFn Value) :=
  if agenda.disposed index then none else agenda.effectFn index

def lastRun (runs : List (EffectRun Value)) (index : Nat) : Option (EffectRun Value) :=
  (runs.filter (·.effect = index)).getLast?

/-- Whether there is anything to run at an id: not at a signal or a disposed effect. -/
def Runs (agenda : Agenda Value) : Id → Prop
  | .node index => (graph.fn index).isSome
  | .effect index => (agenda.live index).isSome

/-- A reaction over the stored values is where its last run left it: its sources are what it
would read, its value what it would return. -/
def UpToDate (cells : Cells Value) (agenda : Agenda Value) (runs : List (EffectRun Value)) :
    Id → Prop
  | .node index => ∀ fn, graph.fn index = some fn →
      cells.sources (.node index) = InsertionSet.addAll [] (fn.sources cells.value) ∧
        cells.value index = fn.run cells.value
  | .effect index => ∀ fn, agenda.live index = some fn →
      cells.sources (.effect index) = InsertionSet.addAll [] (fn.sources cells.value) ∧
        ∃ last, lastRun runs index = some last ∧ last.fn = fn ∧
          last.reads = fn.reads cells.value

structure Consistent (cells : Cells Value) (agenda : Agenda Value)
    (runs : List (EffectRun Value)) : Prop where
  edges : ∀ source id, id ∈ cells.observers source ↔ source ∈ cells.sources id
  closed : ∀ id, cells.state id = .clean →
    ∀ source ∈ cells.sources id, cells.state (.node source) = .clean
  idle : ∀ id, ¬ Runs graph agenda id → cells.state id = .clean ∧ cells.sources id = []
  upToDate : ∀ id, cells.state id ≠ .dirty → UpToDate graph cells agenda runs id
  uncreated : ∀ index, agenda.created ≤ index →
    agenda.effectFn index = none ∧ agenda.disposed index = false

/-- A consistent world over given inputs, whose records hold only values that an evaluation
from scratch gives. -/
structure Ready (inputs : Nat → Value) (world : World Value) : Prop where
  consistent : Consistent graph world.toCells world.toAgenda world.runs
  inputs : ∀ node, graph.fn node = none → world.value node = inputs node
  readings : ∀ reading ∈ world.readings,
    reading.result = graph.eval reading.values reading.source
  runs : ∀ run ∈ world.runs, run.reads = run.fn.reads (graph.eval run.values)

section

variable {graph} {inputs : Nat → Value} {world : World Value}

theorem Ready.eval_eq (ready : Ready graph inputs world) :
    graph.eval world.value = graph.eval inputs :=
  graph.eval_congr ready.inputs

/-- Every clean node holds what an evaluation from scratch gives: by induction on its depth,
its sources being clean and the first of them whose value differed having been found. -/
theorem Ready.eval_of_clean (ready : Ready graph inputs world) (node : Nat)
    (isClean : world.state (.node node) = .clean) :
    world.value node = graph.eval inputs node := by
  induction isDepth : graph.depth inputs node using Nat.strong_induction_on generalizing node with
  | h current induction =>
      subst isDepth
      cases isFn : graph.fn node with
      | none => rw [ready.inputs node isFn, graph.eval_input inputs isFn]
      | some fn =>
          obtain ⟨isSources, isValue⟩ :=
            ready.consistent.upToDate (.node node) (by rw [isClean]; decide) fn isFn
          obtain ⟨isRun, deeper⟩ := graph.eval_computed inputs isFn
          rw [isValue, isRun]
          refine (fn.agree fun source inStored inEval => ?_).1
          refine induction _ (deeper source inEval) source ?_ rfl
          refine ready.consistent.closed _ isClean source ?_
          rw [isSources, InsertionSet.mem_addAll]
          exact Or.inr inStored

/-- A run over stored values whose sources are clean is a run over the evaluation. -/
theorem Ready.agree {Result : Type} (ready : Ready graph inputs world)
    (fn : ReadTree Value Result)
    (isClean : ∀ source ∈ fn.sources (graph.eval inputs), world.state (.node source) = .clean) :
    fn.run world.value = fn.run (graph.eval inputs) ∧
      fn.reads world.value = fn.reads (graph.eval inputs) :=
  fn.agree fun source _ inEval => ready.eval_of_clean source (isClean source inEval)

/-! ## Changing one colour, forgetting one reaction -/

theorem UpToDate.congr {cells after : Cells Value} {agenda laterAgenda : Agenda Value}
    {runs laterRuns : List (EffectRun Value)} {id : Id}
    (upToDate : UpToDate graph cells agenda runs id)
    (sameSources : after.sources id = cells.sources id)
    (sameValues : ∀ source ∈ cells.sources id, after.value source = cells.value source)
    (sameNode : ∀ index, id = .node index → after.value index = cells.value index)
    (sameEffect : ∀ index, id = .effect index → laterAgenda.live index = agenda.live index ∧
      lastRun laterRuns index = lastRun runs index) :
    UpToDate graph after laterAgenda laterRuns id := by
  have agree : ∀ {Result : Type} (fn : ReadTree Value Result),
      cells.sources id = InsertionSet.addAll [] (fn.sources cells.value) →
        fn.run cells.value = fn.run after.value ∧ fn.reads cells.value = fn.reads after.value := by
    intro Result fn isSources
    refine fn.agree fun source inBefore _ => (sameValues source ?_).symm
    rw [isSources, InsertionSet.mem_addAll]
    exact Or.inr inBefore
  cases id with
  | node index =>
      intro fn isFn
      obtain ⟨isSources, isValue⟩ := upToDate fn isFn
      obtain ⟨sameRun, sameReads⟩ := agree fn isSources
      rw [sameSources, sameNode index rfl, ← ReadTree.sources_eq_of_reads_eq sameReads, ← sameRun]
      exact ⟨isSources, isValue⟩
  | effect index =>
      obtain ⟨sameLive, sameLast⟩ := sameEffect index rfl
      intro fn isLive
      rw [sameLive] at isLive
      obtain ⟨isSources, last, isLast, isFn, isReads⟩ := upToDate fn isLive
      obtain ⟨-, sameReads⟩ := agree fn isSources
      rw [sameSources, sameLast, ← ReadTree.sources_eq_of_reads_eq sameReads, ← sameReads]
      exact ⟨isSources, last, isLast, isFn, isReads⟩

/-- A node whose sources are clean, and which is where its last run left it, may be called
clean. -/
theorem Ready.setClean (ready : Ready graph inputs world) (id : Id)
    (isClean : ∀ source ∈ world.sources id, world.state (.node source) = .clean)
    (isUpToDate : UpToDate graph world.toCells world.toAgenda world.runs id) :
    Ready graph inputs (world.setState id .clean) where
  consistent :=
    { edges := ready.consistent.edges
      closed := by
        have closed : ∀ other, other = id ∨ world.state other = .clean →
            ∀ source ∈ world.sources other, world.state (.node source) = .clean := by
          rintro other (rfl | otherClean)
          · exact isClean
          · exact ready.consistent.closed other otherClean
        intro other otherClean source member
        have wasClean : other = id ∨ world.state other = .clean := by
          rcases eq_or_ne other id with same | different
          · exact Or.inl same
          · exact Or.inr ((Function.update_of_ne different _ _).symm.trans otherClean)
        have sourceClean := closed other wasClean source member
        rcases eq_or_ne (Id.node source) id with same | different
        · exact (congrArg _ same).trans (Function.update_self ..)
        · exact (Function.update_of_ne different _ _).trans sourceClean
      idle := by
        intro other isIdle
        obtain ⟨wasClean, isEmpty⟩ := ready.consistent.idle other isIdle
        refine ⟨?_, isEmpty⟩
        rcases eq_or_ne other id with same | different
        · exact (congrArg _ same).trans (Function.update_self ..)
        · exact (Function.update_of_ne different _ _).trans wasClean
      upToDate := by
        intro other notDirty
        have still : UpToDate graph world.toCells world.toAgenda world.runs other := by
          rcases eq_or_ne other id with rfl | different
          · exact isUpToDate
          · refine ready.consistent.upToDate other fun isDirty => notDirty ?_
            exact (Function.update_of_ne different _ _).trans isDirty
        exact still.congr rfl (fun _ _ => rfl) (fun _ _ => rfl) fun _ _ => ⟨rfl, rfl⟩
      uncreated := ready.consistent.uncreated }
  inputs := ready.inputs
  readings := ready.readings
  runs := ready.runs

theorem edges_detach (edges : ∀ source id, id ∈ world.observers source ↔ source ∈ world.sources id)
    (id : Id) (source : Nat) (other : Id) :
    other ∈ (world.detach id).observers source ↔ source ∈ (world.detach id).sources other := by
  have isObservers : (world.detach id).observers source =
      if source ∈ world.sources id then (world.observers source).filter (· ≠ id)
      else world.observers source := rfl
  rw [isObservers]
  rcases eq_or_ne other id with rfl | different
  · have isEmpty : (world.detach other).sources other = [] := Function.update_self ..
    rw [isEmpty]
    split
    next => simp
    next notSource => simp [edges, notSource]
  · have same : (world.detach id).sources other = world.sources other :=
      Function.update_of_ne different _ _
    rw [same]
    split
    next => simp [edges, different]
    next => exact edges source other

end

end FoundationsLab.Signals
