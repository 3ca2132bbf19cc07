import FoundationsLab.Deflate.Crc32
import FoundationsLab.Deflate.DynamicHeader
import FoundationsLab.Deflate.Lz77

/-! # Deflate

The encoder costs the three kinds of blocks in bits before it writes anything, and writes
the kind whose estimate is least. Memory is taken to be available. -/

namespace FoundationsLab.Deflate

/-- `for (int i = n - 1; i >= 0; i--) if (value >= base[i]) return i;` -/
def codeFrom (base : List Nat) (value : Nat) : (n : Nat) → Nat
  | 0 => 0
  | i + 1 => if base.getD i 0 ≤ value then i else codeFrom base value i

def lengthToCode (length : Nat) : Nat := codeFrom lengthBase length 29

def distanceToCode (distance : Nat) : Nat := codeFrom distBase distance 30

/-! ## Frequencies and codes -/

def countToken (freqs : List Nat × List Nat) (token : Token) : Df (List Nat × List Nat) := do
  let (litFreq, distFreq) := freqs
  if token.length = 0 then
    let litFreq ← countSymbol litFreq token.literal.toNat
    return (litFreq, distFreq)
  else
    let litFreq ← countSymbol litFreq (257 + lengthToCode token.length)
    let distFreq ← countSymbol distFreq (distanceToCode token.distance)
    return (litFreq, distFreq)

/-- The frequencies of the literals and lengths, and those of the distances. -/
def countSymbols (tokens : List Token) : Df (List Nat × List Nat) := do
  let (litFreq, distFreq) ← tokens.foldlM countToken
    (List.replicate numLiterals 0, List.replicate numDistances 0)
  let litFreq ← countSymbol litFreq endOfBlock
  return (litFreq, distFreq)

/-- The two codes of a block. -/
structure BlockCodes where
  litLen : List Nat
  litCode : List Nat
  distLen : List Nat
  distCode : List Nat

def blockCodes (litLen distLen : List Nat) : Df BlockCodes := do
  let litCode ← huffAssignCodes litLen numLiterals
  let distCode ← huffAssignCodes distLen numDistances
  return { litLen := litLen, litCode := litCode, distLen := distLen, distCode := distCode }

/-- `if (!any_dist) dyn_dist_len[0] = 1;` -/
def withDistance (distLen : List Nat) : List Nat :=
  if ∀ length ∈ distLen, length = 0 then distLen.set 0 1 else distLen

/-! ## Costs -/

def tokenCost (litLen distLen : List Nat) (bits : Nat) (token : Token) : Df Nat :=
  if token.length = 0 then do
    let length ← Checked.get litLen token.literal.toNat
    return bits + length
  else do
    let lc := lengthToCode token.length
    let dc := distanceToCode token.distance
    let length ← Checked.get litLen (257 + lc)
    let extra ← Checked.get lengthExtra lc
    let length' ← Checked.get distLen dc
    let extra' ← Checked.get distExtra dc
    return bits + (length + extra) + (length' + extra')

def tokenBits (litLen distLen : List Nat) (tokens : List Token) : Df Nat := do
  let bits ← tokens.foldlM (tokenCost litLen distLen) 0
  let length ← Checked.get litLen endOfBlock
  return bits + length

def packedCost (clLen : List Nat) (bits : Nat) (entry : Nat × Nat) : Df Nat := do
  let length ← Checked.get clLen entry.1
  let bits := bits + length
  if entry.1 = 16 then return bits + 2
  else if entry.1 = 17 then return bits + 3
  else if entry.1 = 18 then return bits + 7
  else return bits

/-- `header_bits` -/
def headerCost (header : DynamicHeader) : Df Nat :=
  header.packed.foldlM (packedCost header.clLen) (3 + 5 + 5 + 4 + header.hclen * 3)

/-- What is known before anything is written. -/
structure Candidates where
  tokens : List Token
  fixedCodes : BlockCodes
  dynamicCodes : BlockCodes
  header : DynamicHeader
  storedBits : Nat
  fixedBits : Nat
  dynamicBits : Nat

def candidatesOf (input : List UInt8) (level : Nat) : Df Candidates := do
  let tokens ← lz77Parse input level
  let (litFreq, distFreq) ← countSymbols tokens
  let fixedCodes ← blockCodes fixedLitLen fixedDistLen
  let fixedTokens ← tokenBits fixedLitLen fixedDistLen tokens
  let litLen ← huffBuildLengths maxCodeBits buildTurns litFreq
  let distLen ← huffBuildLengths maxCodeBits buildTurns distFreq
  let distLen := withDistance distLen
  let dynamicCodes ← blockCodes litLen distLen
  let header ← dynamicHeader litLen distLen
  let headerBits ← headerCost header
  let dynamicTokens ← tokenBits litLen distLen tokens
  return {
    tokens := tokens
    fixedCodes := fixedCodes
    dynamicCodes := dynamicCodes
    header := header
    storedBits := 3 + 32 + input.length * 8
    fixedBits := 3 + fixedTokens
    dynamicBits := headerBits + dynamicTokens }

/-! ## Emission -/

/-- `if (extra[code]) bw_bits(w, value - base[code], extra[code]);` -/
def emitExtra (w : Bitwriter) (value base extra : Nat) : Option Bitwriter :=
  if extra ≠ 0 then bwBits w (value - base) extra else some w

def emitToken (codes : BlockCodes) (w : Bitwriter) (token : Token) : Option Bitwriter :=
  if token.length = 0 then do
    let code ← codes.litCode[token.literal.toNat]?
    let length ← codes.litLen[token.literal.toNat]?
    bwCode w code length
  else do
    let lc := lengthToCode token.length
    let code ← codes.litCode[257 + lc]?
    let length ← codes.litLen[257 + lc]?
    let w ← bwCode w code length
    let base ← lengthBase[lc]?
    let extra ← lengthExtra[lc]?
    let w ← emitExtra w token.length base extra
    let dc := distanceToCode token.distance
    let code ← codes.distCode[dc]?
    let length ← codes.distLen[dc]?
    let w ← bwCode w code length
    let base ← distBase[dc]?
    let extra ← distExtra[dc]?
    emitExtra w token.distance base extra

def emitTokens (codes : BlockCodes) (tokens : List Token) (w : Bitwriter) : Option Bitwriter := do
  let w ← tokens.foldlM (emitToken codes) w
  let code ← codes.litCode[endOfBlock]?
  let length ← codes.litLen[endOfBlock]?
  bwCode w code length

def emitByte (w : Bitwriter) (byte : UInt8) : Option Bitwriter := bwBits w byte.toNat 8

/-- `~len` has 64 bits. -/
def emitStored (bytes : List UInt8) (final : Bool) (w : Bitwriter) : Option Bitwriter := do
  let w ← bwBits w (if final then 1 else 0) 1
  let w ← bwBits w 0 2
  let w ← bwAlign w
  let w ← bwBits w (bytes.length &&& 0xFFFF) 16
  let w ← bwBits w ((2 ^ 64 - 1 - bytes.length) &&& 0xFFFF) 16
  bytes.foldlM emitByte w

/-- The most that a stored block holds. -/
def maxStored : Nat := 65535

/-- `while (pos < in_len)` -/
def storedBlocks (input : List UInt8) (pos : Nat) (w : Bitwriter) : Option Bitwriter :=
  if pos < input.length then do
    let chunk := if maxStored < input.length - pos then maxStored else input.length - pos
    let w ← emitStored ((input.drop pos).take chunk) (decide (input.length ≤ pos + chunk)) w
    storedBlocks input (pos + chunk) w
  else some w
termination_by input.length - pos
decreasing_by
  rw [maxStored]
  split <;> omega

/-! ## The choice -/

inductive BlockType where
  | stored
  | fixed
  | dynamic

/-- The estimate for a type of block. -/
def Candidates.bits (candidates : Candidates) : BlockType → Nat
  | .stored => candidates.storedBits
  | .fixed => candidates.fixedBits
  | .dynamic => candidates.dynamicBits

def Candidates.chosen (candidates : Candidates) : BlockType :=
  if candidates.storedBits ≤ candidates.fixedBits ∧
      candidates.storedBits ≤ candidates.dynamicBits then .stored
  else if candidates.fixedBits ≤ candidates.dynamicBits then .fixed
  else .dynamic

/-- The branch that writes a type of block. -/
def Candidates.write (candidates : Candidates) (input : List UInt8) :
    BlockType → Bitwriter → Option Bitwriter
  | .stored, w => storedBlocks input 0 w
  | .fixed, w => do
      let w ← bwBits w 1 1
      let w ← bwBits w 1 2
      emitTokens candidates.fixedCodes candidates.tokens w
  | .dynamic, w => do
      let w ← bwBits w 1 1
      let w ← bwBits w 2 2
      let w ← writeDynamicHeader candidates.header w
      emitTokens candidates.dynamicCodes candidates.tokens w

def levelDefault : Nat := 6

def levelOf (level : Int) : Nat := if level < 0 ∨ 9 < level then levelDefault else level.toNat

/-- The writer at the end, unless a shift was undefined. -/
def compressTo (input : List UInt8) (outCap : Nat) (level : Int) :
    Df (Option (Nat × Bitwriter)) := do
  if input.length = 0 then return emitStored [] true (bwInit outCap) >>= bwFinish
  else if levelOf level = 0 then return storedBlocks input 0 (bwInit outCap) >>= bwFinish
  else
    let candidates ← candidatesOf input (levelOf level)
    return candidates.write input candidates.chosen (bwInit outCap) >>= bwFinish

/-- The return value, and the bytes in the buffer. -/
def deflateCompress (input : List UInt8) (outCap : Nat) (level : Int) :
    Df (Option (Int × List UInt8)) := do
  let finished ← compressTo input outCap level
  return finished.map fun last =>
    (if last.2.overflow then DfError.output.code else (last.1 : Int), last.2.out)

def deflateBound (len : Nat) : Nat :=
  let blocks := len / maxStored + 1
  len + blocks * 5 + 8

/-! ## The gzip container -/

def gzipHeader : List UInt8 := [0x1F, 0x8B, 8, 0, 0, 0, 0, 0, 0, 255]

/-- `out[pos++] = (uint8_t)((value >> (8 * i)) & 0xFF)` for each `i` below 4 -/
def littleEndian (value : Nat) : List UInt8 :=
  (List.range 4).map fun i => .ofNat (value >>> (8 * i) &&& 0xFF)

def gzipCompress (input : List UInt8) (outCap : Nat) (level : Int) :
    Df (Option (Int × List UInt8)) := do
  if outCap < 18 then return some (DfError.output.code, [])
  else
    match ← deflateCompress input (outCap - 18) level with
    | none => return none
    | some (body, bytes) =>
        if body < 0 then return some (body, gzipHeader ++ bytes)
        else
          let crc ← deflateCrc32 input
          return some (10 + body + 8, gzipHeader ++ bytes ++
            littleEndian crc.toNat ++ littleEndian (input.length % 2 ^ 32))

end FoundationsLab.Deflate
