import FoundationsLab.SimdJson.Scan

/-! # The JSON parser

Recursive descent over the cursor. Text is kept as bytes, and the conversion of a number
token to a `double` is a parameter. A run that would not end stops with `fuel`. -/

namespace FoundationsLab.SimdJson

inductive Value (Double : Type) where
  | null
  | bool (boolean : Bool)
  | number (number : Double)
  | string (string : List UInt8)
  | array (array : List (Value Double))
  | object (object : List (List UInt8 × Value Double))

structure ParseError where
  message : String
  position : Nat
deriving DecidableEq

inductive Stop where
  | error (error : ParseError)
  | fuel
deriving DecidableEq

abbrev Parse (α : Type) := Except Stop α

variable {α : Type}

def fail (msg : String) (cursor : Cursor) : Parse α :=
  .error (.error
    { message := msg ++ " at position " ++ toString cursor.position
      position := cursor.position })

/-- `p_ < end_ && holds(*p_)` -/
def peek (cursor : Cursor) (holds : UInt8 → Bool) : Bool :=
  match cursor.rest with
  | c :: _ => holds c
  | [] => false

def peekIs (cursor : Cursor) (c : Char) : Bool := peek cursor (· == c.toUInt8)

/-! ## Strings -/

def hexDigit (c : UInt8) : Option Nat :=
  if '0'.toUInt8 ≤ c ∧ c ≤ '9'.toUInt8 then some (c.toNat - '0'.toNat)
  else if 'a'.toUInt8 ≤ c ∧ c ≤ 'f'.toUInt8 then some (c.toNat - 'a'.toNat + 10)
  else if 'A'.toUInt8 ≤ c ∧ c ≤ 'F'.toUInt8 then some (c.toNat - 'A'.toNat + 10)
  else none

def readHexDigits : (count cp : Nat) → Cursor → Parse (Nat × Cursor)
  | 0, cp, cursor => .ok (cp, cursor)
  | count + 1, cp, cursor =>
      let c := cursor.rest.headD 0
      let cursor := cursor.advance 1
      match hexDigit c with
      | some digit => readHexDigits count (cp <<< 4 ||| digit) cursor
      | none => fail "invalid hex digit" cursor

def readHex4 (cursor : Cursor) : Parse (Nat × Cursor) :=
  if cursor.rest.length < 4 then fail "truncated \\u escape" cursor
  else readHexDigits 4 0 cursor

def encodeUtf8 (cp : Nat) : List UInt8 :=
  if cp ≤ 0x7F then [.ofNat cp]
  else if cp ≤ 0x7FF then [.ofNat (0xC0 ||| cp >>> 6), .ofNat (0x80 ||| cp &&& 0x3F)]
  else if cp ≤ 0xFFFF then
    [.ofNat (0xE0 ||| cp >>> 12), .ofNat (0x80 ||| cp >>> 6 &&& 0x3F),
      .ofNat (0x80 ||| cp &&& 0x3F)]
  else
    [.ofNat (0xF0 ||| cp >>> 18), .ofNat (0x80 ||| cp >>> 12 &&& 0x3F),
      .ofNat (0x80 ||| cp >>> 6 &&& 0x3F), .ofNat (0x80 ||| cp &&& 0x3F)]

/-- A high surrogate has to be followed by a low one. -/
def appendUnicode (out : List UInt8) (cursor : Cursor) : Parse (List UInt8 × Cursor) := do
  let (cp, cursor) ← readHex4 cursor
  if 0xD800 ≤ cp ∧ cp ≤ 0xDBFF then
    if cursor.rest.take 2 = ['\\'.toUInt8, 'u'.toUInt8] then
      let (lo, cursor) ← readHex4 (cursor.advance 2)
      if 0xDC00 ≤ lo ∧ lo ≤ 0xDFFF then
        return (out ++ encodeUtf8 (0x10000 + (cp - 0xD800) <<< 10 + (lo - 0xDC00)), cursor)
      else fail "invalid low surrogate" cursor
    else fail "missing low surrogate" cursor
  else return (out ++ encodeUtf8 cp, cursor)

def simpleEscape (e : UInt8) : Option UInt8 :=
  if e = '\"'.toUInt8 then some '\"'.toUInt8
  else if e = '\\'.toUInt8 then some '\\'.toUInt8
  else if e = '/'.toUInt8 then some '/'.toUInt8
  else if e = 'b'.toUInt8 then some 0x08
  else if e = 'f'.toUInt8 then some 0x0C
  else if e = 'n'.toUInt8 then some 0x0A
  else if e = 'r'.toUInt8 then some 0x0D
  else if e = 't'.toUInt8 then some 0x09
  else none

/-- The escape after a backslash. -/
def parseEscape (out : List UInt8) (cursor : Cursor) : Parse (List UInt8 × Cursor) :=
  match cursor.rest with
  | [] => fail "unterminated escape" cursor
  | e :: _ =>
      let cursor := cursor.advance 1
      match simpleEscape e with
      | some c => .ok (out ++ [c], cursor)
      | none => if e = 'u'.toUInt8 then appendUnicode out cursor else fail "invalid escape" cursor

def stringLoop (simd : Bool) : (fuel : Nat) → List UInt8 → Cursor → Parse (List UInt8 × Cursor)
  | 0, _, _ => .error .fuel
  | fuel + 1, out, start => do
      let (special, cursor) := scanToStringSpecial simd start
      let out := out ++ start.rest.take (cursor.position - start.position)
      if special = 0 then fail "unterminated string" cursor
      else if special = '\"'.toUInt8 then return (out, cursor.advance 1)
      else
        let (out, cursor) ← parseEscape out (cursor.advance 1)
        stringLoop simd fuel out cursor

def parseString (simd : Bool) (cursor : Cursor) : Parse (List UInt8 × Cursor) :=
  stringLoop simd (cursor.rest.length + 1) [] (cursor.advance 1)

/-! ## Literals and numbers -/

def parseLiteral (v : α) : (lit : List Char) → Cursor → Parse (α × Cursor)
  | [], cursor => .ok (v, cursor)
  | l :: lit, cursor =>
      if peekIs cursor l then parseLiteral v lit (cursor.advance 1)
      else fail "invalid literal" cursor

def isDigit (c : UInt8) : Bool := '0'.toUInt8 ≤ c ∧ c ≤ '9'.toUInt8

def skipDigits (cursor : Cursor) : Cursor := scanBytes (fun c => !isDigit c) cursor

def integerPart (cursor : Cursor) : Parse Cursor :=
  let cursor := if peekIs cursor '-' then cursor.advance 1 else cursor
  if peekIs cursor '0' then .ok (cursor.advance 1)
  else if peek cursor fun c => '1'.toUInt8 ≤ c ∧ c ≤ '9'.toUInt8 then .ok (skipDigits cursor)
  else fail "invalid number" cursor

def fractionPart (cursor : Cursor) : Parse Cursor :=
  if peekIs cursor '.' then
    let cursor := cursor.advance 1
    if peek cursor isDigit then .ok (skipDigits cursor)
    else fail "invalid number (fraction)" cursor
  else .ok cursor

def exponentPart (cursor : Cursor) : Parse Cursor :=
  if peekIs cursor 'e' || peekIs cursor 'E' then
    let cursor := cursor.advance 1
    let cursor := if peekIs cursor '+' || peekIs cursor '-' then cursor.advance 1 else cursor
    if peek cursor isDigit then .ok (skipDigits cursor)
    else fail "invalid number (exponent)" cursor
  else .ok cursor

section Values

variable {Double : Type} (fromChars : List UInt8 → Option (Nat × Double))

/-- `fromChars` returns how many bytes it has read and the number, or an error code. -/
def parseNumber (start : Cursor) : Parse (Value Double × Cursor) := do
  let cursor ← integerPart start
  let cursor ← fractionPart cursor
  let cursor ← exponentPart cursor
  let token := start.rest.take (cursor.position - start.position)
  match fromChars token with
  | some (read, number) =>
      if read = token.length then return (.number number, cursor)
      else fail "number out of range" cursor
  | none => fail "number out of range" cursor

/-! ## Values -/

mutual

def parseValue (simd : Bool) : (fuel : Nat) → Cursor → Parse (Value Double × Cursor)
  | 0, _ => .error .fuel
  | fuel + 1, cursor =>
      if cursor.rest = [] then fail "unexpected end of input" cursor
      else if peekIs cursor '\x7b' then parseObject simd fuel cursor
      else if peekIs cursor '[' then parseArray simd fuel cursor
      else if peekIs cursor '\"' then do
        let (string, cursor) ← parseString simd cursor
        return (.string string, cursor)
      else if peekIs cursor 't' then parseLiteral (.bool true) ['t', 'r', 'u', 'e'] cursor
      else if peekIs cursor 'f' then parseLiteral (.bool false) ['f', 'a', 'l', 's', 'e'] cursor
      else if peekIs cursor 'n' then parseLiteral .null ['n', 'u', 'l', 'l'] cursor
      else parseNumber fromChars cursor

def parseObject (simd : Bool) : (fuel : Nat) → Cursor → Parse (Value Double × Cursor)
  | 0, _ => .error .fuel
  | fuel + 1, cursor =>
      let cursor := skipWs simd (cursor.advance 1)
      if peekIs cursor '\x7d' then .ok (.object [], cursor.advance 1)
      else objectLoop simd fuel [] cursor

def objectLoop (simd : Bool) :
    (fuel : Nat) → List (List UInt8 × Value Double) → Cursor → Parse (Value Double × Cursor)
  | 0, _, _ => .error .fuel
  | fuel + 1, members, cursor => do
      let cursor := skipWs simd cursor
      if !peekIs cursor '\"' then fail "expected string key" cursor
      else
        let (key, cursor) ← parseString simd cursor
        let cursor := skipWs simd cursor
        if !peekIs cursor ':' then fail "expected ':'" cursor
        else
          let (v, cursor) ← parseValue simd fuel (skipWs simd (cursor.advance 1))
          let members := members ++ [(key, v)]
          let cursor := skipWs simd cursor
          if cursor.rest = [] then fail "unterminated object" cursor
          else if peekIs cursor ',' then objectLoop simd fuel members (cursor.advance 1)
          else if peekIs cursor '\x7d' then return (.object members, cursor.advance 1)
          else fail "expected ',' or '\x7d'" cursor

def parseArray (simd : Bool) : (fuel : Nat) → Cursor → Parse (Value Double × Cursor)
  | 0, _ => .error .fuel
  | fuel + 1, cursor =>
      let cursor := skipWs simd (cursor.advance 1)
      if peekIs cursor ']' then .ok (.array [], cursor.advance 1)
      else arrayLoop simd fuel [] cursor

def arrayLoop (simd : Bool) :
    (fuel : Nat) → List (Value Double) → Cursor → Parse (Value Double × Cursor)
  | 0, _, _ => .error .fuel
  | fuel + 1, elements, cursor => do
      let (v, cursor) ← parseValue simd fuel (skipWs simd cursor)
      let elements := elements ++ [v]
      let cursor := skipWs simd cursor
      if cursor.rest = [] then fail "unterminated array" cursor
      else if peekIs cursor ',' then arrayLoop simd fuel elements (cursor.advance 1)
      else if peekIs cursor ']' then return (.array elements, cursor.advance 1)
      else fail "expected ',' or ']'" cursor

end

/-- The nesting of the calls is bounded by the bytes that are left. -/
def parse (input : List UInt8) (simd : Bool) : Parse (Value Double) := do
  let cursor := skipWs simd { rest := input, position := 0 }
  let (v, cursor) ← parseValue fromChars simd (3 * input.length + 1) cursor
  let cursor := skipWs simd cursor
  if cursor.rest = [] then return v else fail "trailing characters after JSON value" cursor

end Values

end FoundationsLab.SimdJson
