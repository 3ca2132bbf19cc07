import FoundationsLab.Deflate.HuffDec
import FoundationsLab.Foundation.SlidingWindow
import Mathlib.Algebra.Group.Int.Defs

/-! # Finding matches

The hash chains of `lz77_parse`: the head of each chain is the latest position with the
hash, and a ring of 32768 slots links every position to the one before. Positions are
stored as `int32_t`. -/

namespace FoundationsLab.Deflate

open Foundation.SlidingWindow

def windowSize : Nat := 2 ^ 15
def hashSize : Nat := 2 ^ 15
def minMatch : Nat := 3
def maxMatch : Nat := 258

/-- A literal has the length 0. -/
structure Token where
  length : Nat
  distance : Nat
  literal : UInt8

structure LevelConfig where
  goodLength : Nat
  maxChain : Nat
  isLazy : Bool

def levels : List LevelConfig :=
  [⟨0, 0, false⟩, ⟨4, 4, false⟩, ⟨4, 8, false⟩, ⟨4, 32, false⟩, ⟨4, 16, true⟩, ⟨8, 32, true⟩,
    ⟨8, 128, true⟩, ⟨8, 256, true⟩, ⟨32, 1024, true⟩, ⟨32, 4096, true⟩]

/-- `(int32_t)pos` -/
def toInt32 (pos : Nat) : Int :=
  if pos % 2 ^ 32 < 2 ^ 31 then pos % 2 ^ 32 else pos % 2 ^ 32 - 2 ^ 32

/-- `head` and `prev`; an entry of `prev` that was never written holds nothing. -/
structure Chains where
  head : List Int
  prev : List (Option Int)

def initialChains : Chains where
  head := List.replicate hashSize (-1)
  prev := List.replicate windowSize none

def hash3 (input : List UInt8) (p : Nat) : Df Nat := do
  let first ← Checked.get input p
  let second ← Checked.get input (p + 1)
  let third ← Checked.get input (p + 2)
  return ((first.toNat <<< 10) ^^^ (second.toNat <<< 5) ^^^ third.toNat) &&& (hashSize - 1)

/-- The position becomes the head of its chain. -/
def insertPos (input : List UInt8) (pos : Nat) (chains : Chains) : Df Chains := do
  let h ← hash3 input pos
  let old ← Checked.get chains.head h
  let prev ← Checked.set chains.prev (pos &&& (windowSize - 1)) (some old)
  let head ← Checked.set chains.head h (toInt32 pos)
  return { head := head, prev := prev }

/-- The positions from `k` on up to the end of a match. -/
def insertRun (input : List UInt8) (stop k : Nat) (chains : Chains) : Df Chains :=
  if k < stop ∧ k + minMatch ≤ input.length then do
    let chains ← insertPos input k chains
    insertRun input stop (k + 1) chains
  else .ok chains
termination_by stop - k

/-! ## The search -/

/-- `while (len < max_len && a[len] == b[len]) len++;` -/
def extend (input : List UInt8) (a b maxLen len : Nat) : Df Nat :=
  if len < maxLen then do
    let left ← Checked.get input (a + len)
    let right ← Checked.get input (b + len)
    if left = right then extend input a b maxLen (len + 1) else return len
  else .ok len
termination_by maxLen - len

/-- `best_len > 0 && a[best_len] != b[best_len]` -/
def misses (input : List UInt8) (a b bestLen : Nat) : Df Bool :=
  if 0 < bestLen then do
    let left ← Checked.get input (a + bestLen)
    let right ← Checked.get input (b + bestLen)
    return decide (left ≠ right)
  else .ok false

/-- `if (best_len >= cfg->good_length) chain >>= 2;` -/
def shorten (goodLength len chain : Nat) : Nat := if goodLength ≤ len then chain >>> 2 else chain

theorem shorten_lt (goodLength len chain : Nat) : shorten goodLength len chain < chain + 1 := by
  rw [shorten, Nat.shiftRight_eq_div_pow]
  split <;> omega

/-- The walk down the chain; the best length and distance so far. -/
def searchChain (input : List UInt8) (pos maxLen goodLength : Nat) (prev : List (Option Int))
    (candidate : Int) (bestLen bestDist : Nat) : (chain : Nat) → Df (Nat × Nat)
  | 0 => .ok (bestLen, bestDist)
  | chain + 1 =>
      if candidate < 0 then .ok (bestLen, bestDist)
      else if maxLen ≤ bestLen then .ok (bestLen, bestDist)
      else
        let distance := pos - candidate.toNat
        if distance = 0 ∨ windowSize < distance then .ok (bestLen, bestDist)
        else do
          let isMiss ← misses input pos candidate.toNat bestLen
          if isMiss then
            let next ← Checked.getInit prev (candidate.toNat &&& (windowSize - 1))
            searchChain input pos maxLen goodLength prev next bestLen bestDist chain
          else
            let len ← extend input pos candidate.toNat maxLen 0
            let next ← Checked.getInit prev (candidate.toNat &&& (windowSize - 1))
            if bestLen < len then
              searchChain input pos maxLen goodLength prev next len distance
                (shorten goodLength len chain)
            else searchChain input pos maxLen goodLength prev next bestLen bestDist chain
termination_by chain => chain
decreasing_by
  all_goals first
    | exact shorten_lt ..
    | exact Nat.lt_succ_self _

/-- The length and the distance of the longest match; the length 0 for none. -/
def findMatch (input : List UInt8) (pos : Nat) (chains : Chains) (cfg : LevelConfig) :
    Df (Nat × Nat) := do
  let maxLen := min (input.length - pos) maxMatch
  if maxLen < minMatch then return (0, 0)
  else
    let h ← hash3 input pos
    let candidate ← Checked.get chains.head h
    let (bestLen, bestDist) ←
      searchChain input pos maxLen cfg.goodLength chains.prev candidate 0 0 cfg.maxChain
    if minMatch ≤ bestLen then return (bestLen, bestDist) else return (0, 0)

/-! ## The parse -/

/-- A match that is held back. -/
structure Deferred where
  length : Nat
  distance : Nat
  pos : Nat

/-- The tokens so far, the position, and `have_prev` with what it holds. -/
structure Parse where
  chains : Chains
  tokens : List Token
  pos : Nat
  prev : Option Deferred

/-- `(token){ (uint16_t)len, (uint16_t)dist, 0 }` -/
def matchToken (length distance : Nat) : Token where
  length := length % 2 ^ 16
  distance := distance % 2 ^ 16
  literal := 0

def literalToken (byte : UInt8) : Token where
  length := 0
  distance := 0
  literal := byte

def Parse.emit (parse : Parse) (token : Token) : Parse :=
  { parse with tokens := parse.tokens ++ [token] }

def findAt (input : List UInt8) (pos : Nat) (chains : Chains) (cfg : LevelConfig) : Df (Nat × Nat) :=
  if pos + minMatch ≤ input.length then findMatch input pos chains cfg else .ok (0, 0)

def insertAt (input : List UInt8) (pos : Nat) (chains : Chains) : Df Chains :=
  if pos + minMatch ≤ input.length then insertPos input pos chains else .ok chains

/-- A literal for the byte at a position. -/
def literalAt (input : List UInt8) (pos : Nat) (parse : Parse) : Df Parse := do
  let byte ← Checked.get input pos
  return { parse.emit (literalToken byte) with pos := parse.pos + 1 }

def greedyStep (input : List UInt8) (len dist : Nat) (parse : Parse) : Df Parse :=
  if minMatch ≤ len then do
    let chains ← insertRun input (parse.pos + len) (parse.pos + 1) parse.chains
    return { parse.emit (matchToken len dist) with chains := chains, pos := parse.pos + len }
  else literalAt input parse.pos parse

def lazyStep (input : List UInt8) (len dist : Nat) (parse : Parse) : Df Parse :=
  match parse.prev with
  | some held =>
      if held.length < len then do
        -- The later match wins, and the held byte is a literal.
        let parse' ← literalAt input held.pos parse
        return { parse' with prev := some ⟨len, dist, parse.pos⟩ }
      else do
        let stop := held.pos + held.length
        let chains ← insertRun input stop (parse.pos + 1) parse.chains
        return { parse.emit (matchToken held.length held.distance) with
          chains := chains, pos := stop, prev := none }
  | none =>
      if minMatch ≤ len then
        .ok { parse with pos := parse.pos + 1, prev := some ⟨len, dist, parse.pos⟩ }
      else literalAt input parse.pos parse

def parseStep (input : List UInt8) (cfg : LevelConfig) (parse : Parse) : Df Parse := do
  let (len, dist) ← findAt input parse.pos parse.chains cfg
  let chains ← insertAt input parse.pos parse.chains
  let parse := { parse with chains := chains }
  if cfg.isLazy then lazyStep input len dist parse else greedyStep input len dist parse

/-- `while (pos < in_len)`; every turn goes forward. -/
def parseLoop (input : List UInt8) (cfg : LevelConfig) : (fuel : Nat) → Parse → Df Parse
  | 0, parse => if parse.pos < input.length then Checked.endless else .ok parse
  | fuel + 1, parse =>
      if parse.pos < input.length then do
        let parse ← parseStep input cfg parse
        parseLoop input cfg fuel parse
      else .ok parse

def lz77Parse (input : List UInt8) (level : Nat) : Df (List Token) := do
  let cfg ← Checked.get levels level
  let parse ← parseLoop input cfg input.length
    { chains := initialChains, tokens := [], pos := 0, prev := none }
  match parse.prev with
  | some held => return parse.tokens ++ [matchToken held.length held.distance]
  | none => return parse.tokens

end FoundationsLab.Deflate
