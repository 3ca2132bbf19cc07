import FoundationsLab.Foundation.DemandGraph
import FoundationsLab.Foundation.InsertionSet
import Mathlib.Logic.Function.Basic

namespace FoundationsLab.Signals

/-! Signals, computeds and effects under three-colour marking. A write marks what depends on
it without recomputing anything; values are recomputed when they are read, sources first.

The graph of signals and computeds is fixed; effects come and go. The functions of computeds
and effects are read trees: they depend on what they read, and write nothing. -/

/-- A signal or computed of the graph, or an effect by the order of its creation. -/
inductive Id where
  | node (index : Nat)
  | effect (index : Nat)
  deriving DecidableEq

/-- `clean`: the value is current. `check`: a transitive source changed. `dirty`: a direct
source changed. -/
inductive Color where
  | clean
  | check
  | dirty
  deriving DecidableEq

/-- How stale a colour says a node is: the constants `CLEAN`, `CHECK` and `DIRTY`. -/
def Color.staleness : Color → Nat
  | clean => 0
  | check => 1
  | dirty => 2

/-- A function that an effect may return, to be run before its next run and on disposal. -/
abbrev Cleanup (Value : Type) := ReadTree Value Unit

abbrev EffectFn (Value : Type) := ReadTree Value (Option (Cleanup Value))

/-- One call of `get`: the node, what it returned, and the values held at that moment. -/
structure Reading (Value : Type) where
  source : Nat
  result : Value
  values : Nat → Value

/-- One run of an effect: what it read, and the values held when it ended. -/
structure EffectRun (Value : Type) where
  effect : Nat
  fn : EffectFn Value
  reads : List (Nat × Value)
  values : Nat → Value

/-- The fields that every `Reactive` has for the pull and the push phase. -/
structure Cells (Value : Type) where
  value : Nat → Value
  state : Id → Color
  sources : Id → List Nat
  observers : Nat → List Id

/-- The reaction being run, and whether its reads are tracked. -/
structure Context where
  currentReaction : Option Id
  currentlyUntracked : Bool

/-- The effects there are, and what is left to do for them. -/
structure Agenda (Value : Type) where
  effectFn : Nat → Option (EffectFn Value)
  created : Nat
  disposed : Nat → Bool
  pendingEffects : List Nat
  batchDepth : Nat

/-- All the state there is. The records of invocations, readings, runs and disposals are kept
for the statements about them. -/
structure World (Value : Type) extends Cells Value, Context, Agenda Value where
  cleanups : Nat → List (Cleanup Value)
  computations : Nat
  invocations : List Id
  readings : List (Reading Value)
  runs : List (EffectRun Value)

variable {Value : Type}

namespace World

def setState (world : World Value) (id : Id) (color : Color) : World Value :=
  { world with state := Function.update world.state id color }

/-- The edge between the current reaction and what it reads, in both directions. -/
def track (world : World Value) (source : Nat) : World Value :=
  match world.currentReaction with
  | none => world
  | some reaction =>
      if world.currentlyUntracked then world
      else
        { world with
          sources := Function.update world.sources reaction
            (InsertionSet.add (world.sources reaction) source)
          observers := Function.update world.observers source
            (InsertionSet.add (world.observers source) reaction) }

/-- Removes a reaction from the observers of all its sources, and its sources with them. -/
def detach (world : World Value) (id : Id) : World Value :=
  { world with
    sources := Function.update world.sources id []
    observers := fun source =>
      if source ∈ world.sources id then (world.observers source).filter (· ≠ id)
      else world.observers source }

/-- What `update` does when the recomputed value is another one than before. -/
def changeValue (world : World Value) (index : Nat) (next : Value) : World Value :=
  { world with
    value := Function.update world.value index next
    state := fun id => if id ∈ world.observers index then .dirty else world.state id }

/-- Nobody reads an effect. -/
def observersOf (world : World Value) : Id → List Id
  | .node index => world.observers index
  | .effect _ => []

end World

/-! ## The pull phase

`pull` is `updateIfNecessary` on the sources of the node at hand. -/

section Pull

variable [DecidableEq Value] (graph : DemandGraph Value)
  (pull : Nat → World Value → Option (World Value))

/-- The part of `get` that brings a computed up to date. -/
def refresh (source : Nat) (world : World Value) : Option (World Value) :=
  if (graph.fn source).isSome then pull source world else some world

def get (source : Nat) (world : World Value) : Option (Value × World Value) := do
  let world ← refresh graph pull source (world.track source)
  return (world.value source,
    { world with readings := world.readings ++ [⟨source, world.value source, world.value⟩] })

/-- A function's run: its result, and what it read on the way. -/
def runFn {Result : Type} : ReadTree Value Result → World Value →
    Option (Result × List (Nat × Value) × World Value)
  | .ret result, world => some (result, [], world)
  | .read source next, world => do
      let (value, world) ← get graph pull source world
      let (result, reads, world) ← runFn (next value) world
      return (result, (source, value) :: reads, world)

/-- The part of `update` that calls `fn` with this node as the current reaction. -/
def react {Result : Type} (id : Id) (fn : ReadTree Value Result) (world : World Value) :
    Option (Result × List (Nat × Value) × World Value) := do
  let prevReaction := world.currentReaction
  let prevUntracked := world.currentlyUntracked
  let (next, reads, world) ← runFn graph pull fn
    { world with
      currentReaction := some id
      currentlyUntracked := false
      computations := world.computations + 1
      invocations := world.invocations ++ [id] }
  return (next, reads,
    { world with currentReaction := prevReaction, currentlyUntracked := prevUntracked })

def runAll : List (Cleanup Value) → World Value → Option (World Value)
  | [], world => some world
  | cleanup :: rest, world => do
      let (_, _, world) ← runFn graph pull cleanup world
      runAll rest world

def runCleanups (index : Nat) (world : World Value) : Option (World Value) :=
  if world.cleanups index = [] then some world
  else do
    let prev := world.currentlyUntracked
    let world ← runAll graph pull (world.cleanups index)
      { world with currentlyUntracked := true }
    return { world with
      currentlyUntracked := prev
      cleanups := Function.update world.cleanups index [] }

def updateNode (index : Nat) (fn : ReadTree Value Value) (world : World Value) :
    Option (World Value) := do
  let (next, _, world) ← react graph pull (.node index) fn (world.detach (.node index))
  return if next = world.value index then world else world.changeValue index next

def updateEffect (index : Nat) (fn : EffectFn Value) (world : World Value) :
    Option (World Value) := do
  let world ← runCleanups graph pull index world
  let (next, reads, world) ← react graph pull (.effect index) fn (world.detach (.effect index))
  return { world with
    cleanups := Function.update world.cleanups index (world.cleanups index ++ next.toList)
    runs := world.runs ++ [⟨index, fn, reads, world.value⟩] }

/-- `update`. Only computeds and effects are ever dirty. -/
def update (id : Id) (world : World Value) : Option (World Value) :=
  match id with
  | .node index =>
      match graph.fn index with
      | some fn => updateNode graph pull index fn world
      | none => some world
  | .effect index =>
      match world.effectFn index with
      | some fn => updateEffect graph pull index fn world
      | none => some world

/-- The loop over the sources of a node that might be stale, until one has made it dirty. -/
def checkSources (id : Id) : List Nat → World Value → Option (World Value)
  | [], world => some world
  | source :: rest, world => do
      let world ← pull source world
      if world.state id = .dirty then return world else checkSources id rest world

def checkIfMarked (id : Id) (world : World Value) : Option (World Value) :=
  if world.state id = .check then checkSources pull id (world.sources id) world else some world

def updateIfDirty (id : Id) (world : World Value) : Option (World Value) :=
  if world.state id = .dirty then update graph pull id world else some world

/-- The body of `updateIfNecessary`. -/
def bringUpToDate (id : Id) (world : World Value) : Option (World Value) := do
  let checked ← checkIfMarked pull id world
  let updated ← updateIfDirty graph pull id checked
  return updated.setState id .clean

end Pull

section Operations

variable [DecidableEq Value] (graph : DemandGraph Value)

/-- `updateIfNecessary`, with a bound on how deep it may call itself. -/
def updateIfNecessary : Nat → Id → World Value → Option (World Value)
  | 0, _, _ => none
  | fuel + 1, id, world =>
      bringUpToDate graph (fun source => updateIfNecessary fuel (.node source)) id world

/-- `updateIfNecessary` on a source, as deep as the graph allows. -/
def pullNode (source : Nat) (world : World Value) : Option (World Value) :=
  updateIfNecessary graph (graph.size + 1) (.node source) world

def pullEffect (index : Nat) (world : World Value) : Option (World Value) :=
  updateIfNecessary graph (graph.size + 2) (.effect index) world

/-! ## The push phase -/

def markAll (mark : Id → World Value → Option (World Value)) :
    List Id → World Value → Option (World Value)
  | [], world => some world
  | id :: rest, world => (mark id world).bind (markAll mark rest)

/-- The part of `markStale` before it tells the observers. -/
def stain (state : Color) (id : Id) (world : World Value) : World Value :=
  match id with
  | .node _ => world.setState id state
  | .effect index =>
      if world.state id = .clean then
        { world.setState id state with pendingEffects := world.pendingEffects ++ [index] }
      else world.setState id state

def markStale : Nat → Color → Id → World Value → Option (World Value)
  | 0, _, _, _ => none
  | fuel + 1, state, id, world =>
      if state.staleness ≤ (world.state id).staleness then some world
      else
        markAll (markStale fuel .check) (world.observersOf id) (stain state id world)

/-! ## Effects and batches -/

def runIfStale (effect : Nat) (world : World Value) : Option (World Value) :=
  if world.state (.effect effect) = .clean then some world else pullEffect graph effect world

def runEffects : List Nat → World Value → Option (World Value)
  | [], world => some world
  | effect :: rest, world => do
      let world ← runIfStale graph effect world
      runEffects rest world

def flushRounds : Nat → World Value → Option (World Value)
  | 0, world => if world.pendingEffects = [] then some world else none
  | rounds + 1, world =>
      if world.pendingEffects = [] then some world
      else do
        let world ← runEffects graph world.pendingEffects { world with pendingEffects := [] }
        flushRounds rounds world

/-- `flush`. Effects write nothing, so one round leaves none to run. -/
def flush (world : World Value) : Option (World Value) :=
  if 0 < world.batchDepth then some world else flushRounds graph 1 world

/-! ## What a program may do outside reactions -/

inductive Op (Value : Type) where
  | set (signal : Nat) (next : Value)
  | openBatch
  | closeBatch
  | read (source : Nat)
  | effect (fn : EffectFn Value)
  | dispose (index : Nat)

inductive Outcome (Value : Type) where
  | done
  | returned (value : Value)
  | threw (message : String)
  deriving DecidableEq

/-- Deep enough for every chain of marks: each mark that goes on has made a clean node stale. -/
def markFuel (world : World Value) : Nat := graph.size + world.created + 2

def set (signal : Nat) (next : Value) (world : World Value) :
    Option (Outcome Value × World Value) :=
  if (graph.fn signal).isSome then
    some (.threw "cannot set() a computed; only signals are writable", world)
  else if next = world.value signal then some (.done, world)
  else do
    let written := { world with value := Function.update world.value signal next }
    let marked ← markAll (markStale (markFuel graph world) .dirty) (world.observers signal) written
    let world ← flush graph marked
    return (.done, world)

/-- `effect(fn)`: a new node, run at once outside a batch and queued inside one. -/
def createEffect (fn : EffectFn Value) (world : World Value) : Option (World Value) :=
  let index := world.created
  let born := { world with
    created := index + 1
    effectFn := Function.update world.effectFn index (some fn)
    state := Function.update world.state (.effect index) .dirty }
  if 0 < world.batchDepth then
    some { born with pendingEffects := world.pendingEffects ++ [index] }
  else pullEffect graph index born

def dispose (index : Nat) (world : World Value) : Option (World Value) := do
  let world ← runCleanups graph (pullNode graph) index world
  return { (world.detach (.effect index)).setState (.effect index) .clean with
    disposed := Function.update world.disposed index true }

/-- One operation. A batch closes only when one is open, and a disposer exists only for an
effect that was created. -/
def step : Op Value → World Value → Option (Outcome Value × World Value)
  | .set signal next, world => set graph signal next world
  | .openBatch, world => some (.done, { world with batchDepth := world.batchDepth + 1 })
  | .closeBatch, world =>
      if world.batchDepth = 0 then some (.done, world)
      else (flush graph { world with batchDepth := world.batchDepth - 1 }).map (.done, ·)
  | .read source, world =>
      (get graph (pullNode graph) source world).map fun result =>
        (.returned result.1, result.2)
  | .effect fn, world => (createEffect graph fn world).map (.done, ·)
  | .dispose index, world =>
      if index < world.created then (dispose graph index world).map (.done, ·)
      else some (.done, world)

def run : List (Op Value) → World Value → Option (World Value)
  | [], world => some world
  | op :: rest, world => (step graph op world).bind fun result => run rest result.2

/-- Signals hold their initial values, computeds have never been computed. -/
def World.start (initial : Nat → Value) : World Value where
  value := initial
  state
    | .node index => if (graph.fn index).isSome then .dirty else .clean
    | .effect _ => .clean
  sources _ := []
  observers _ := []
  effectFn _ := none
  cleanups _ := []
  created := 0
  pendingEffects := []
  batchDepth := 0
  currentReaction := none
  currentlyUntracked := false
  computations := 0
  invocations := []
  disposed _ := false
  readings := []
  runs := []

end Operations

end FoundationsLab.Signals
