import FoundationsLab.Deflate.HuffDec
import FoundationsLab.Foundation.HuffmanTree

/-! # Building code lengths

The lengths are the depths of a Huffman tree over the used symbols. If the tree is too
high, all frequencies are halved and the tree is built again. -/

namespace FoundationsLab.Deflate

open Foundation.HuffmanTree

/-- A leaf has no children (`-1` in the source). -/
structure HuffNode where
  freq : Nat
  children : Option (Nat × Nat)

/-- Adds an element to an array of fixed capacity. -/
def push {α : Type} (capacity : Nat) (xs : List α) (x : α) : Df (List α) :=
  if xs.length < capacity then .ok (xs ++ [x]) else .error (.fault .outOfBounds)

def addLeaf (freqs : List Nat) (i : Nat) (state : List HuffNode × List Nat) :
    Df (List HuffNode × List Nat) := do
  let (nodes, heap) := state
  let freq ← Checked.get freqs i
  if freq = 0 then return (nodes, heap)
  else
    let grown ← push (2 * numLiterals) nodes { freq := freq, children := none }
    let heap ← push (numLiterals + 1) heap nodes.length
    return (grown, heap)

/-- `nodes[heap[i]].freq` -/
def freqAt (nodes : List HuffNode) (heap : List Nat) (i : Nat) : Df Nat := do
  let idx ← Checked.get heap i
  let node ← Checked.get nodes idx
  return node.freq

/-- `if (nodes[heap[i]].freq < nodes[heap[a]].freq) a = i` -/
def selectLess (nodes : List HuffNode) (heap : List Nat) (i a : Nat) : Df Nat := do
  let freq ← freqAt nodes heap i
  let least ← freqAt nodes heap a
  return if freq < least then i else a

/-- Takes the least element out, and the last one takes its place. -/
def takeLeast (nodes : List HuffNode) (heap : List Nat) : Df (Nat × List Nat) := do
  let a ← Checked.forFrom (selectLess nodes heap) 1 (heap.length - 1) 0
  let least ← Checked.get heap a
  let last ← Checked.get heap (heap.length - 1)
  let heap ← Checked.set heap a last
  return (least, heap.dropLast)

def mergeTwo (nodes : List HuffNode) (heap : List Nat) : Df (List HuffNode × List Nat) := do
  let (first, heap) ← takeLeast nodes heap
  let (second, heap) ← takeLeast nodes heap
  let left ← Checked.get nodes first
  let right ← Checked.get nodes second
  let grown ← push (2 * numLiterals) nodes
    { freq := (left.freq + right.freq) % 2 ^ 32, children := some (first, second) }
  let heap ← push (numLiterals + 1) heap nodes.length
  return (grown, heap)

/-- `while (heap_len > 1)`: each turn leaves one element less. -/
def mergeAll : (turns : Nat) → List HuffNode → List Nat → Df (List HuffNode × List Nat)
  | 0, nodes, heap => if heap.length > 1 then Checked.endless else .ok (nodes, heap)
  | turns + 1, nodes, heap =>
      if heap.length > 1 then do
        let (nodes, heap) ← mergeTwo nodes heap
        mergeAll turns nodes heap
      else .ok (nodes, heap)

/-- The stack of the walk, the top first. -/
def pushTop (stack : List (Nat × Nat)) (entry : Nat × Nat) : Df (List (Nat × Nat)) :=
  if stack.length < 2 * numLiterals then .ok (entry :: stack) else .error (.fault .outOfBounds)

/-- Records the depth of each leaf, as a byte, and the greatest depth. -/
def walkTree (nodes : List HuffNode) :
    (turns : Nat) → (stack : List (Nat × Nat)) → (lengths : List Nat) → (maxLen : Nat) →
      Df (Nat × List Nat)
  | _, [], lengths, maxLen => .ok (maxLen, lengths)
  | 0, _ :: _, _, _ => Checked.endless
  | turns + 1, (idx, depth) :: stack, lengths, maxLen => do
      let node ← Checked.get nodes idx
      match node.children with
      | none =>
          let lengths ← Checked.set lengths idx ((if depth ≠ 0 then depth else 1) % 2 ^ 8)
          walkTree nodes turns stack lengths (if depth > maxLen then depth else maxLen)
      | some (left, right) =>
          let stack ← pushTop stack (left, depth + 1)
          let stack ← pushTop stack (right, depth + 1)
          walkTree nodes turns stack lengths maxLen

/-- The lengths are by leaf. A tree of one leaf is not built: its length goes to the
place of the symbol. -/
def buildOnce (freqs : List Nat) : Df (Nat × List Nat) := do
  let lengths := List.replicate freqs.length 0
  let (nodes, heap) ← Checked.forFrom (addLeaf freqs) 0 freqs.length ([], [])
  if heap.length = 0 then return (0, lengths)
  else if heap.length = 1 then return (1, lengths.set (freqs.findIdx (· ≠ 0)) 1)
  else
    let (nodes, heap) ← mergeAll heap.length nodes heap
    let root ← Checked.get heap 0
    let stack ← pushTop [] (root, 0)
    let (maxLen, lengths) ← walkTree nodes nodes.length stack lengths 0
    return (if maxLen ≠ 0 then maxLen else 1, lengths)

/-- The symbols with a frequency, in order. -/
def usedSymbols (scaled : List Nat) : List Nat :=
  (List.range scaled.length).filter fun i => scaled.getD i 0 ≠ 0

/-- `lengths[used[i]] = leaf_len[i]` -/
def mapLength (used leafLen : List Nat) (i : Nat) (lengths : List Nat) : Df (List Nat) := do
  let symbol ← Checked.get used i
  let length ← Checked.get leafLen i
  Checked.set lengths symbol length

/-- One turn: the lengths by symbol, and the greatest one. -/
def buildTurn (scaled : List Nat) : Df (Nat × List Nat) := do
  let used := usedSymbols scaled
  let (maxLen, leafLen) ← buildOnce scaled
  let lengths ← Checked.forFrom (mapLength used leafLen) 0 used.length
    (List.replicate scaled.length 0)
  return (maxLen, lengths)

/-- `if (scaled[i]) scaled[i] = (scaled[i] + 1) / 2` -/
def rescale (freq : Nat) : Nat := if freq ≠ 0 then (freq + 1) % 2 ^ 32 / 2 else freq

/-- Frequencies have 32 bits, so after so many turns they are all one. -/
def buildTurns : Nat := 33

/-- The loop, run for at most so many turns. -/
def huffBuildLengths (limit : Nat) : (turns : Nat) → (scaled : List Nat) → Df (List Nat)
  | 0, _ => Checked.endless
  | turns + 1, scaled => do
      let (maxLen, lengths) ← buildTurn scaled
      if maxLen ≤ limit then return lengths
      else huffBuildLengths limit turns (scaled.map rescale)

end FoundationsLab.Deflate
