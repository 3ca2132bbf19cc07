import FoundationsLab.Crdt.JsString
import FoundationsLab.Foundation.SortedMap
import Mathlib.Order.WithBot

/-! # The replicated growable array

`RGA` as the code has it. Every node names the node it was inserted after; an
operation whose node is missing waits for it under its key. The order in which the
maps list their keys does not show: siblings are sorted by their ids. -/

namespace FoundationsLab.Crdt

open Foundation
open Foundation.Decimal

/-- A key of the maps: a string, or `undefined` at the bottom. -/
abbrev Key := WithBot JsString

def ROOT : Key := some []

structure NodeId where
  c : Nat
  r : JsString
deriving DecidableEq

def idKey (id : NodeId) : Key := some (decimal id.c ++ colon :: id.r)

structure Node (V : Type) where
  id : NodeId
  key : Key
  after : Key
  value : V
  deleted : Bool

inductive Op (V : Type) where
  | ins (id : NodeId) (after : Key) (value : V)
  | del (target : Key)
deriving DecidableEq

/-- Newer nodes first; ties go by the replica id. -/
def cmpNodes {V : Type} (a b : Node V) : Int :=
  if a.id.c ≠ b.id.c then (b.id.c : Int) - a.id.c
  else if a.id.r < b.id.r then 1
  else if b.id.r < a.id.r then -1
  else 0

structure RGA (V : Type) where
  replicaId : JsString
  clock : Nat
  nodes : SortedMap Key (Node V)
  pending : SortedMap Key (List (Op V))

namespace RGA

variable {V : Type}

def new (replicaId : JsString) : RGA V where
  replicaId := replicaId
  clock := 0
  nodes := .empty
  pending := .empty

/-! ## Applying operations -/

def defer (rga : RGA V) (depKey : Key) (op : Op V) : RGA V :=
  { rga with pending := rga.pending.put depKey ((rga.pending.get depKey).getD [] ++ [op]) }

/-- `apply`, with a bound on the depth of the cascade. -/
def applyLoop : (fuel : Nat) → RGA V → Op V → Option (RGA V)
  | 0, _, _ => none
  | fuel + 1, rga, .ins id after value =>
      let key := idKey id
      if rga.nodes.containsKey key then some rga
      else
        let rga := { rga with clock := max rga.clock id.c }
        if after ≠ ROOT ∧ rga.nodes.containsKey after = false then
          some (rga.defer after (.ins id after value))
        else
          let rga := { rga with nodes := rga.nodes.put key ⟨id, key, after, value, false⟩ }
          -- `_flush`: the operations that waited for this node.
          match rga.pending.get key with
          | none => some rga
          | some waiting =>
              waiting.foldlM (applyLoop fuel) { rga with pending := rga.pending.remove key }
  | _ + 1, rga, .del target =>
      match rga.nodes.get target with
      | none => some (rga.defer target (.del target))
      | some node => some { rga with nodes := rga.nodes.put target { node with deleted := true } }

/-- The number of operations that wait. -/
def waitingCount (rga : RGA V) : Nat := rga.pending.weight List.length

/-- Every round of the cascade takes an operation that waits. -/
def apply (rga : RGA V) (op : Op V) : Option (RGA V) := applyLoop (rga.waitingCount + 1) rga op

/-! ## Reading the sequence -/

def values (rga : RGA V) : List (Node V) := rga.nodes.entries.map Prod.snd

def children (rga : RGA V) (key : Key) : List (Node V) :=
  (rga.values.filter (·.after = key)).mergeSort (cmpNodes · · ≤ 0)

/-- The loop of `walk` over the children of a node. -/
def walkAll (walk : Key → Option (List (Node V))) : List (Node V) → Option (List (Node V))
  | [] => some []
  | child :: rest => do
      let below ← walk child.key
      let after ← walkAll walk rest
      some (child :: below ++ after)

def walk (rga : RGA V) : (fuel : Nat) → Key → Option (List (Node V))
  | 0, _ => none
  | fuel + 1, key => walkAll (walk rga fuel) (rga.children key)

/-- No path is longer than the number of nodes. -/
def ordered (rga : RGA V) : Option (List (Node V)) := rga.walk (rga.nodes.size + 1) ROOT

def visible (rga : RGA V) : Option (List (Node V)) :=
  rga.ordered.map fun nodes => nodes.filter fun node => !node.deleted

def visibleKeys (rga : RGA V) : Option (List Key) := rga.visible.map (·.map Node.key)

def toArray (rga : RGA V) : Option (List V) := rga.visible.map (·.map Node.value)

/-! ## Local editing -/

/-- An element of an array, `undefined` outside of it. -/
def elementAt (keys : List Key) (index : Int) : Key :=
  if 0 ≤ index then keys.getD index.toNat ⊥ else ⊥

def insertAt (rga : RGA V) (index : Int) (value : V) : Option (RGA V × Op V) := do
  let keys ← rga.visibleKeys
  let after := if index ≤ 0 then ROOT else elementAt keys (index - 1)
  let id := ⟨rga.clock + 1, rga.replicaId⟩
  let op := .ins id after value
  let rga ← apply { rga with clock := rga.clock + 1 } op
  some (rga, op)

def deleteAt (rga : RGA V) (index : Int) : Option (RGA V × Option (Op V)) := do
  let keys ← rga.visibleKeys
  let key := elementAt keys index
  if key = ⊥ then some (rga, none)
  else do
    let op := .del key
    let rga ← apply rga op
    some (rga, some op)

end RGA

end FoundationsLab.Crdt
