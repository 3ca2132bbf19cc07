import FoundationsLab.Deflate.HuffDec

/-! # Inflate

The decoder of the three kinds of blocks. The output buffer is the caller's: what was
never written to it holds nothing. Sizes are those of buffers in memory, so sums of
sizes do not wrap around. -/

namespace FoundationsLab.Deflate

/-! ## The tables of the format -/

def lengthBase : List Nat :=
  [3, 4, 5, 6, 7, 8, 9, 10, 11, 13, 15, 17, 19, 23, 27, 31,
    35, 43, 51, 59, 67, 83, 99, 115, 131, 163, 195, 227, 258]

def lengthExtra : List Nat :=
  [0, 0, 0, 0, 0, 0, 0, 0, 1, 1, 1, 1, 2, 2, 2, 2,
    3, 3, 3, 3, 4, 4, 4, 4, 5, 5, 5, 5, 0]

def distBase : List Nat :=
  [1, 2, 3, 4, 5, 7, 9, 13, 17, 25, 33, 49, 65, 97, 129, 193,
    257, 385, 513, 769, 1025, 1537, 2049, 3073, 4097, 6145,
    8193, 12289, 16385, 24577]

def distExtra : List Nat :=
  [0, 0, 0, 0, 1, 1, 2, 2, 3, 3, 4, 4, 5, 5, 6, 6,
    7, 7, 8, 8, 9, 9, 10, 10, 11, 11, 12, 12, 13, 13]

def codelenOrder : List Nat :=
  [16, 17, 18, 0, 8, 7, 9, 6, 10, 5, 11, 4, 12, 3, 13, 2, 14, 1, 15]

/-! ## The header of a dynamic block -/

def readCodelen (i : Nat) (state : List Nat × Bitreader) : Df (List Nat × Bitreader) := do
  let (clLen, r) := state
  let symbol ← Checked.get codelenOrder i
  let (length, r) ← brBits r 3
  let clLen ← Checked.set clLen symbol length
  return (clLen, r)

/-- `while (repeat-- > 0 && n < total) lengths[n++] = value;` -/
def repeatLength (value total : Nat) : (repeats : Nat) → List Nat → (n : Nat) → Df (List Nat × Nat)
  | 0, lengths, n => .ok (lengths, n)
  | repeats + 1, lengths, n =>
      if n < total then do
        let lengths ← Checked.set lengths n value
        repeatLength value total repeats lengths (n + 1)
      else .ok (lengths, n)

/-- What one symbol of the code length alphabet writes. -/
def writeLengths (total symbol : Nat) (lengths : List Nat) (n : Nat) (r : Bitreader) :
    Df (List Nat × Nat × Bitreader) :=
  if symbol < 16 then do
    let lengths ← Checked.set lengths n symbol
    return (lengths, n + 1, r)
  else if symbol = 16 then
    if n = 0 then Checked.fail .corrupt
    else do
      let (extra, r) ← brBits r 2
      let prev ← Checked.get lengths (n - 1)
      let (lengths, n) ← repeatLength prev total (3 + extra) lengths n
      return (lengths, n, r)
  else if symbol = 17 then do
    let (extra, r) ← brBits r 3
    let (lengths, n) ← repeatLength 0 total (3 + extra) lengths n
    return (lengths, n, r)
  else do
    let (extra, r) ← brBits r 7
    let (lengths, n) ← repeatLength 0 total (11 + extra) lengths n
    return (lengths, n, r)

/-- `while (n < hlit + hdist)` -/
def readLengths (clDec : HuffDec) (total : Nat) :
    (fuel : Nat) → List Nat → (n : Nat) → Bitreader → Df (List Nat × Bitreader)
  | 0, lengths, n, r => if n < total then Checked.endless else .ok (lengths, r)
  | fuel + 1, lengths, n, r =>
      if n < total then do
        let (symbol, r) ← huffDecode clDec r
        let (lengths, n, r) ← writeLengths total symbol lengths n r
        if r.underflow then Checked.fail .input
        else readLengths clDec total fuel lengths n r
      else .ok (lengths, r)

def readDynamicHeader (r : Bitreader) : Df (HuffDec × HuffDec × Bitreader) := do
  let (hlit, r) ← brBits r 5
  let (hdist, r) ← brBits r 5
  let (hclen, r) ← brBits r 4
  let hlit := hlit + 257
  let hdist := hdist + 1
  let hclen := hclen + 4
  if hlit > numLiterals ∨ hdist > numDistances then Checked.fail .corrupt
  else
    let (clLen, r) ← Checked.forFrom readCodelen 0 hclen (List.replicate numCodelen 0, r)
    let clDec ← huffBuildDecoder clLen numCodelen
    let (lengths, r) ← readLengths clDec (hlit + hdist) (hlit + hdist)
      (List.replicate (numLiterals + numDistances) 0) 0 r
    let lit ← huffBuildDecoder lengths hlit
    let dist ← huffBuildDecoder (lengths.drop hlit) hdist
    return (lit, dist, r)

/-! ## Blocks -/

def fixedLitLen : List Nat :=
  List.replicate 144 8 ++ List.replicate 112 9 ++ List.replicate 24 7 ++
    List.replicate (numLiterals - 280) 8

def fixedDistLen : List Nat := List.replicate numDistances 5

/-- The return codes are not looked at: the lengths are fixed and never rejected. -/
def fixedDecoders : Df (HuffDec × HuffDec) := do
  let lit ← huffBuildDecoder fixedLitLen numLiterals
  let dist ← huffBuildDecoder fixedDistLen numDistances
  return (lit, dist)

/-- The output buffer, and how much of it is written. -/
structure Output where
  out : List (Option UInt8)
  written : Nat

/-- `out[written++] = byte` -/
def Output.put (output : Output) (byte : UInt8) : Df Output := do
  let out ← Checked.set output.out output.written (some byte)
  return { out := out, written := output.written + 1 }

def storeByte (_ : Nat) (state : Output × Bitreader) : Df (Output × Bitreader) := do
  let (output, r) := state
  let (byte, r) ← brBits r 8
  if r.underflow then Checked.fail .input
  else
    let output ← output.put (.ofNat byte)
    return (output, r)

def storedBlock (outCap : Nat) (output : Output) (r : Bitreader) : Df (Output × Bitreader) := do
  let r ← brAlign r
  let (len, r) ← brBits r 16
  let (nlen, r) ← brBits r 16
  if r.underflow then Checked.fail .input
  else if len &&& 0xFFFF ≠ (2 ^ 32 - 1 - nlen) &&& 0xFFFF then Checked.fail .corrupt
  else if output.written + len > outCap then Checked.fail .output
  else Checked.forFrom storeByte 0 len (output, r)

/-- `out[written + i] = out[from + i]` -/
def copyByte (written source i : Nat) (out : List (Option UInt8)) : Df (List (Option UInt8)) := do
  let byte ← Checked.getInit out (source + i)
  Checked.set out (written + i) (some byte)

/-- The match that a length symbol begins. -/
def copyMatch (dist : HuffDec) (outCap symbol : Nat) (output : Output) (r : Bitreader) :
    Df (Output × Bitreader) := do
  let lc := symbol - 257
  if lc ≥ 29 then Checked.fail .corrupt
  else
    let base ← Checked.get lengthBase lc
    let extra ← Checked.get lengthExtra lc
    let (bits, r) ← brBits r extra
    let length := base + bits
    let (dc, r) ← huffDecode dist r
    if dc ≥ numDistances then Checked.fail .corrupt
    else
      let base ← Checked.get distBase dc
      let extra ← Checked.get distExtra dc
      let (bits, r) ← brBits r extra
      let distance := base + bits
      if distance > output.written then Checked.fail .corrupt
      else if output.written + length > outCap then Checked.fail .output
      else
        let source := output.written - distance
        let out ← Checked.forFrom (copyByte output.written source) 0 length output.out
        return ({ out := out, written := output.written + length }, r)

/-- The loop over the symbols of a block. -/
def symbolLoop (lit dist : HuffDec) (outCap : Nat) :
    (fuel : Nat) → Output → Bitreader → Df (Output × Bitreader)
  | 0, _, _ => Checked.endless
  | fuel + 1, output, r => do
      let (symbol, r) ← huffDecode lit r
      if r.underflow then Checked.fail .input
      else if symbol = endOfBlock then return (output, r)
      else if symbol < 256 then
        if output.written ≥ outCap then Checked.fail .output
        else
          let output ← output.put (.ofNat symbol)
          symbolLoop lit dist outCap fuel output r
      else
        let (output, r) ← copyMatch dist outCap symbol output r
        symbolLoop lit dist outCap fuel output r

/-- A turn of either loop that does not end it takes a bit of the input. -/
def turns (r : Bitreader) : Nat := 8 * r.input.length + 2

def decoders (type : Nat) (r : Bitreader) : Df (HuffDec × HuffDec × Bitreader) :=
  if type = 1 then do
    let (lit, dist) ← fixedDecoders
    return (lit, dist, r)
  else readDynamicHeader r

def codedBlock (outCap type : Nat) (output : Output) (r : Bitreader) :
    Df (Output × Bitreader) := do
  let (lit, dist, r) ← decoders type r
  symbolLoop lit dist outCap (turns r) output r

def block (outCap type : Nat) (output : Output) (r : Bitreader) : Df (Output × Bitreader) :=
  if type = 0 then storedBlock outCap output r
  else if type = 3 then Checked.fail .corrupt
  else codedBlock outCap type output r

/-- `while (!final)` -/
def blockLoop (outCap : Nat) : (fuel : Nat) → Output → Bitreader → Df Output
  | 0, _, _ => Checked.endless
  | fuel + 1, output, r => do
      let (final, r) ← brBits r 1
      let (type, r) ← brBits r 2
      if r.underflow then Checked.fail .input
      else
        let (output, r) ← block outCap type output r
        if final ≠ 0 then return output else blockLoop outCap fuel output r

/-- The buffer the caller hands over. -/
def emptyOutput (outCap : Nat) : Output where
  out := List.replicate outCap none
  written := 0

def decompressTo (input : List UInt8) (outCap : Nat) : Df Output :=
  blockLoop outCap (turns (brInit input)) (emptyOutput outCap) (brInit input)

/-- The return value, unless the run has a fault, and the buffer if it is no error. -/
def deflateDecompress (input : List UInt8) (outCap : Nat) :
    Except Fault (Int × List (Option UInt8)) :=
  match decompressTo input outCap with
  | .ok output => .ok (output.written, output.out)
  | .error (.error error) => .ok (error.code, [])
  | .error (.fault fault) => .error fault

end FoundationsLab.Deflate
