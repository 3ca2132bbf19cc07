import FoundationsLab.Foundation.Checked
import FoundationsLab.SimdJson.Parser

/-! # The parser on pointers

The parser once more, with `p_` as an offset into the input and with every access to memory
as the source makes it. A read at or past the end, and a move of `p_` backwards or past the
end, is a fault. -/

namespace FoundationsLab.SimdJson.Pointers

open Lanes

/-- A run ends with a value, with a `ParseError` or with a fault. -/
abbrev Run (α : Type) := Checked ParseError α

section Memory

variable {α : Type} (input : List UInt8)

/-- `*p` -/
def deref (p : Nat) : Run UInt8 := Checked.get input p

/-- `_mm256_loadu_si256(p)` -/
def loadBlock (p : Nat) : Run (List UInt8) :=
  if p + 32 ≤ input.length then .ok ((input.drop p).take 32) else .error (.fault .outOfBounds)

/-- The bytes from `start` to `p`. -/
def slice (start p : Nat) : Run (List UInt8) :=
  if start ≤ p ∧ p ≤ input.length then .ok ((input.drop start).take (p - start))
  else .error (.fault .outOfBounds)

/-- `p_ = q`, from `p`. -/
def move (p q : Nat) : Run Nat :=
  if p ≤ q ∧ q ≤ input.length then .ok q else .error (.fault .outOfBounds)

/-- `p_ += n` -/
def advance (p n : Nat) : Run Nat := move input p (p + n)

def fail (msg : String) (p : Nat) : Run α :=
  Checked.fail { message := msg ++ " at position " ++ toString p, position := p }

/-! ## Scanning -/

/-- `while (p_ < end_ && !stop(*p_)) ++p_;` -/
def scanBytes (stop : UInt8 → Bool) : (fuel p : Nat) → Run Nat
  | 0, _ => Checked.endless
  | fuel + 1, p =>
      if p < input.length then do
        let c ← deref input p
        if stop c then return p
        else
          let p ← advance input p 1
          scanBytes stop fuel p
      else return p

def scanBlocks (mask : List UInt8 → Nat) : (fuel p : Nat) → Run (Nat × Bool)
  | 0, _ => Checked.endless
  | fuel + 1, p =>
      if p + 32 ≤ input.length then do
        let chunk ← loadBlock input p
        let found := mask chunk
        if found ≠ 0 then
          let p ← advance input p (ctz 32 found)
          return (p, true)
        else
          let p ← advance input p 32
          scanBlocks mask fuel p
      else return (p, false)

def skipWs (simd : Bool) (p : Nat) : Run Nat :=
  if simd then do
    let (p, found) ← scanBlocks input nonWsMask (input.length + 1) p
    if found then return p else scanBytes input (fun c => !isWs c) (input.length + 1) p
  else scanBytes input (fun c => !isWs c) (input.length + 1) p

/-- The end of the scan over bytes, with the byte that it has found. -/
def scanToSpecial (p : Nat) : Run (UInt8 × Nat) := do
  let p ← scanBytes input isSpecial (input.length + 1) p
  if p < input.length then
    let c ← deref input p
    return (c, p)
  else return (0, p)

def scanToStringSpecial (simd : Bool) (p : Nat) : Run (UInt8 × Nat) :=
  if simd then do
    let (p, found) ← scanBlocks input specialMask (input.length + 1) p
    if found then
      let c ← deref input p
      return (c, p)
    else scanToSpecial input p
  else scanToSpecial input p

/-- `p_ < end_ && holds(*p_)` -/
def peek (p : Nat) (holds : UInt8 → Bool) : Run Bool :=
  if p < input.length then do
    let c ← deref input p
    return holds c
  else return false

def peekIs (p : Nat) (c : Char) : Run Bool := peek input p (· == c.toUInt8)

/-! ## Strings -/

def readHexDigits : (count cp p : Nat) → Run (Nat × Nat)
  | 0, cp, p => return (cp, p)
  | count + 1, cp, p => do
      let c ← deref input p
      let p ← advance input p 1
      match hexDigit c with
      | some digit => readHexDigits count (cp <<< 4 ||| digit) p
      | none => fail "invalid hex digit" p

def readHex4 (p : Nat) : Run (Nat × Nat) :=
  if input.length - p < 4 then fail "truncated \\u escape" p
  else readHexDigits input 4 0 p

/-- `end_ - p_ >= 2 && p_[0] == '\\' && p_[1] == 'u'` -/
def startsUnicode (p : Nat) : Run Bool :=
  if 2 ≤ input.length - p then do
    let first ← deref input p
    if first = '\\'.toUInt8 then
      let second ← deref input (p + 1)
      return second = 'u'.toUInt8
    else return false
  else return false

def appendUnicode (out : List UInt8) (p : Nat) : Run (List UInt8 × Nat) := do
  let (cp, p) ← readHex4 input p
  if 0xD800 ≤ cp ∧ cp ≤ 0xDBFF then
    let starts ← startsUnicode input p
    if starts then
      let p ← advance input p 2
      let (lo, p) ← readHex4 input p
      if 0xDC00 ≤ lo ∧ lo ≤ 0xDFFF then
        return (out ++ encodeUtf8 (0x10000 + (cp - 0xD800) <<< 10 + (lo - 0xDC00)), p)
      else fail "invalid low surrogate" p
    else fail "missing low surrogate" p
  else return (out ++ encodeUtf8 cp, p)

def parseEscape (out : List UInt8) (p : Nat) : Run (List UInt8 × Nat) :=
  if input.length ≤ p then fail "unterminated escape" p
  else do
    let e ← deref input p
    let p ← advance input p 1
    match simpleEscape e with
    | some c => return (out ++ [c], p)
    | none => if e = 'u'.toUInt8 then appendUnicode input out p else fail "invalid escape" p

def stringLoop (simd : Bool) : (fuel : Nat) → List UInt8 → Nat → Run (List UInt8 × Nat)
  | 0, _, _ => Checked.endless
  | fuel + 1, out, start => do
      let (special, p) ← scanToStringSpecial input simd start
      let run ← slice input start p
      let out := out ++ run
      if special = 0 then fail "unterminated string" p
      else if special = '\"'.toUInt8 then
        let p ← advance input p 1
        return (out, p)
      else
        let p ← advance input p 1
        let (out, p) ← parseEscape input out p
        stringLoop simd fuel out p

def parseString (simd : Bool) (p : Nat) : Run (List UInt8 × Nat) := do
  let start ← advance input p 1
  stringLoop input simd (input.length - p + 1) [] start

/-! ## Literals and numbers -/

def parseLiteral (v : α) : (lit : List Char) → Nat → Run (α × Nat)
  | [], p => return (v, p)
  | l :: lit, p => do
      let same ← peekIs input p l
      if same then
        let p ← advance input p 1
        parseLiteral v lit p
      else fail "invalid literal" p

def skipDigits (p : Nat) : Run Nat := scanBytes input (fun c => !isDigit c) (input.length + 1) p

/-- `if (p_ < end_ && holds(*p_)) ++p_;` -/
def skipIf (p : Nat) (holds : UInt8 → Bool) : Run Nat := do
  let seen ← peek input p holds
  if seen then advance input p 1 else return p

def integerPart (p : Nat) : Run Nat := do
  let p ← skipIf input p (· == '-'.toUInt8)
  let isZero ← peekIs input p '0'
  if isZero then advance input p 1
  else
    let starts ← peek input p fun c => '1'.toUInt8 ≤ c ∧ c ≤ '9'.toUInt8
    if starts then skipDigits input p else fail "invalid number" p

def fractionPart (p : Nat) : Run Nat := do
  let isPoint ← peekIs input p '.'
  if isPoint then
    let p ← advance input p 1
    let starts ← peek input p isDigit
    if starts then skipDigits input p else fail "invalid number (fraction)" p
  else return p

def exponentPart (p : Nat) : Run Nat := do
  let isMarker ← peek input p fun c => c == 'e'.toUInt8 || c == 'E'.toUInt8
  if isMarker then
    let p ← advance input p 1
    let p ← skipIf input p fun c => c == '+'.toUInt8 || c == '-'.toUInt8
    let starts ← peek input p isDigit
    if starts then skipDigits input p else fail "invalid number (exponent)" p
  else return p

section Values

variable {Double : Type} (fromChars : List UInt8 → Option (Nat × Double))

def parseNumber (start : Nat) : Run (Value Double × Nat) := do
  let p ← integerPart input start
  let p ← fractionPart input p
  let p ← exponentPart input p
  let token ← slice input start p
  match fromChars token with
  | some (read, number) =>
      if read = token.length then return (.number number, p) else fail "number out of range" p
  | none => fail "number out of range" p

/-! ## Values -/

mutual

def parseValue (simd : Bool) : (fuel : Nat) → Nat → Run (Value Double × Nat)
  | 0, _ => Checked.endless
  | fuel + 1, p =>
      if input.length ≤ p then fail "unexpected end of input" p
      else do
        let c ← deref input p
        if c = '\x7b'.toUInt8 then parseObject simd fuel p
        else if c = '['.toUInt8 then parseArray simd fuel p
        else if c = '\"'.toUInt8 then
          let (string, p) ← parseString input simd p
          return (.string string, p)
        else if c = 't'.toUInt8 then parseLiteral input (.bool true) ['t', 'r', 'u', 'e'] p
        else if c = 'f'.toUInt8 then parseLiteral input (.bool false) ['f', 'a', 'l', 's', 'e'] p
        else if c = 'n'.toUInt8 then parseLiteral input .null ['n', 'u', 'l', 'l'] p
        else parseNumber input fromChars p

def parseObject (simd : Bool) : (fuel : Nat) → Nat → Run (Value Double × Nat)
  | 0, _ => Checked.endless
  | fuel + 1, p => do
      let p ← advance input p 1
      let p ← skipWs input simd p
      let isEmpty ← peekIs input p '\x7d'
      if isEmpty then
        let p ← advance input p 1
        return (.object [], p)
      else objectLoop simd fuel [] p

def objectLoop (simd : Bool) :
    (fuel : Nat) → List (List UInt8 × Value Double) → Nat → Run (Value Double × Nat)
  | 0, _, _ => Checked.endless
  | fuel + 1, members, p => do
      let p ← skipWs input simd p
      let isKey ← peekIs input p '\"'
      if !isKey then fail "expected string key" p
      else
        let (key, p) ← parseString input simd p
        let p ← skipWs input simd p
        let isColon ← peekIs input p ':'
        if !isColon then fail "expected ':'" p
        else
          let p ← advance input p 1
          let p ← skipWs input simd p
          let (v, p) ← parseValue simd fuel p
          let members := members ++ [(key, v)]
          let p ← skipWs input simd p
          if input.length ≤ p then fail "unterminated object" p
          else
            let c ← deref input p
            if c = ','.toUInt8 then
              let p ← advance input p 1
              objectLoop simd fuel members p
            else if c = '\x7d'.toUInt8 then
              let p ← advance input p 1
              return (.object members, p)
            else fail "expected ',' or '\x7d'" p

def parseArray (simd : Bool) : (fuel : Nat) → Nat → Run (Value Double × Nat)
  | 0, _ => Checked.endless
  | fuel + 1, p => do
      let p ← advance input p 1
      let p ← skipWs input simd p
      let isEmpty ← peekIs input p ']'
      if isEmpty then
        let p ← advance input p 1
        return (.array [], p)
      else arrayLoop simd fuel [] p

def arrayLoop (simd : Bool) :
    (fuel : Nat) → List (Value Double) → Nat → Run (Value Double × Nat)
  | 0, _, _ => Checked.endless
  | fuel + 1, elements, p => do
      let p ← skipWs input simd p
      let (v, p) ← parseValue simd fuel p
      let elements := elements ++ [v]
      let p ← skipWs input simd p
      if input.length ≤ p then fail "unterminated array" p
      else
        let c ← deref input p
        if c = ','.toUInt8 then
          let p ← advance input p 1
          arrayLoop simd fuel elements p
        else if c = ']'.toUInt8 then
          let p ← advance input p 1
          return (.array elements, p)
        else fail "expected ',' or ']'" p

end

def parse (simd : Bool) : Run (Value Double) := do
  let p ← skipWs input simd 0
  let (v, p) ← parseValue input fromChars simd (3 * input.length + 1) p
  let p ← skipWs input simd p
  if p ≠ input.length then fail "trailing characters after JSON value" p else return v

end Values

end Memory

end FoundationsLab.SimdJson.Pointers
