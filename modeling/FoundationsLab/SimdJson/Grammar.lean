import FoundationsLab.SimdJson.Parser

/-! # The grammar of JSON texts

RFC 8259 as syntax trees. A tree determines the bytes it is written with, and a byte string
is a JSON text when some tree is written so. What a tree means is a value, unless a number
cannot be converted or a surrogate has no partner. -/

namespace FoundationsLab.SimdJson

def quote : UInt8 := '\"'.toUInt8
def backslash : UInt8 := '\\'.toUInt8

/-! ## Strings -/

/-- One character of a string as it is written. -/
inductive Piece where
  | raw (c : UInt8)
  | short (letter : UInt8)
  | unicode (digits : List UInt8)
deriving DecidableEq

namespace Piece

def text : Piece → List UInt8
  | raw c => [c]
  | short letter => [backslash, letter]
  | unicode digits => backslash :: 'u'.toUInt8 :: digits

def Legal : Piece → Prop
  | raw c => c ≠ quote ∧ c ≠ backslash
  | short letter => letter ∈ ['\"', '\\', '/', 'b', 'f', 'n', 'r', 't'].map Char.toUInt8
  | unicode digits => digits.length = 4 ∧ digits.all fun d => (hexDigit d).isSome

/-- The control characters have to be escaped. -/
def Printable : Piece → Prop
  | raw c => 0x20 ≤ c
  | short _ => True
  | unicode _ => True

instance : DecidablePred Legal := fun piece =>
  match piece with
  | raw c => inferInstanceAs (Decidable (c ≠ quote ∧ c ≠ backslash))
  | short letter => inferInstanceAs
      (Decidable (letter ∈ ['\"', '\\', '/', 'b', 'f', 'n', 'r', 't'].map Char.toUInt8))
  | unicode digits => inferInstanceAs
      (Decidable (digits.length = 4 ∧ digits.all fun d => (hexDigit d).isSome))

instance : DecidablePred Printable := fun piece =>
  match piece with
  | raw c => inferInstanceAs (Decidable (0x20 ≤ c))
  | short _ => inferInstanceAs (Decidable True)
  | unicode _ => inferInstanceAs (Decidable True)

end Piece

/-- The code unit that four digits stand for. -/
def unit (digits : List UInt8) : Nat :=
  digits.foldl (fun unit d => unit * 16 + (hexDigit d).getD 0) 0

def isHigh (unit : Nat) : Bool := 0xD800 ≤ unit ∧ unit ≤ 0xDBFF
def isLow (unit : Nat) : Bool := 0xDC00 ≤ unit ∧ unit ≤ 0xDFFF

/-- The code point of a surrogate pair. -/
def combined (high low : Nat) : Nat := 0x10000 + (high - 0xD800) * 0x400 + (low - 0xDC00)

/-- The bytes a string stands for. A high surrogate needs a low one next to it. -/
def decode : List Piece → Option (List UInt8)
  | [] => some []
  | .raw c :: rest => (decode rest).map (c :: ·)
  | .short letter :: rest => (decode rest).map ((simpleEscape letter).toList ++ ·)
  | .unicode digits :: rest =>
      if isHigh (unit digits) then
        match rest with
        | .unicode low :: rest =>
            if isLow (unit low) then
              (decode rest).map (encodeUtf8 (combined (unit digits) (unit low)) ++ ·)
            else none
        | _ => none
      else (decode rest).map (encodeUtf8 (unit digits) ++ ·)

structure Literal where
  pieces : List Piece
  legal : ∀ piece ∈ pieces, piece.Legal

def body (pieces : List Piece) : List UInt8 := pieces.flatMap Piece.text

def Literal.text (literal : Literal) : List UInt8 := quote :: (body literal.pieces ++ [quote])

/-! ## Numbers and white space -/

/-- At least one digit. -/
def Digits (digits : List UInt8) : Prop := digits ≠ [] ∧ ∀ d ∈ digits, isDigit d

def isNonzero (c : UInt8) : Bool := '1'.toUInt8 ≤ c ∧ c ≤ '9'.toUInt8

structure NumberToken where
  minus : Bool
  whole : List UInt8
  fraction : List UInt8
  exponent : List UInt8
  isWhole : whole = ['0'.toUInt8] ∨
    ∃ first others, whole = first :: others ∧ isNonzero first ∧ ∀ d ∈ others, isDigit d
  isFraction : fraction = [] ∨ ∃ digits, fraction = '.'.toUInt8 :: digits ∧ Digits digits
  isExponent : exponent = [] ∨ ∃ marker sign digits, exponent = marker :: (sign ++ digits) ∧
    marker ∈ ['e', 'E'].map Char.toUInt8 ∧ sign ∈ [[], ['+'.toUInt8], ['-'.toUInt8]] ∧ Digits digits

def sign (minus : Bool) : List UInt8 := if minus then ['-'.toUInt8] else []

def NumberToken.text (token : NumberToken) : List UInt8 :=
  sign token.minus ++ (token.whole ++ (token.fraction ++ token.exponent))

structure Blank where
  text : List UInt8
  isBlank : ∀ c ∈ text, isWs c

/-! ## Values -/

mutual

inductive Node where
  | null
  | bool (boolean : Bool)
  | number (token : NumberToken)
  | string (literal : Literal)
  | emptyArray (inside : Blank)
  | array (elements : Elements)
  | emptyObject (inside : Blank)
  | object (members : Members)

inductive Elements where
  | last (before : Blank) (node : Node) (after : Blank)
  | more (before : Blank) (node : Node) (after : Blank) (others : Elements)

inductive Members where
  | last (before : Blank) (key : Literal) (afterKey beforeNode : Blank) (node : Node)
      (after : Blank)
  | more (before : Blank) (key : Literal) (afterKey beforeNode : Blank) (node : Node)
      (after : Blank) (others : Members)

end

/-- White space may stand around the value. -/
structure Document where
  before : Blank
  node : Node
  after : Blank

def ascii (word : List Char) : List UInt8 := word.map Char.toUInt8

def boolWord (boolean : Bool) : List Char :=
  if boolean then ['t', 'r', 'u', 'e'] else ['f', 'a', 'l', 's', 'e']

/-- A key with the colon after it. -/
def keyText (before : Blank) (key : Literal) (afterKey beforeNode : Blank) : List UInt8 :=
  before.text ++ (key.text ++ (afterKey.text ++ (':'.toUInt8 :: beforeNode.text)))

mutual

def Node.text : Node → List UInt8
  | .null => ascii ['n', 'u', 'l', 'l']
  | .bool boolean => ascii (boolWord boolean)
  | .number token => token.text
  | .string literal => literal.text
  | .emptyArray inside => '['.toUInt8 :: (inside.text ++ [']'.toUInt8])
  | .array elements => '['.toUInt8 :: (elements.text ++ [']'.toUInt8])
  | .emptyObject inside => '\x7b'.toUInt8 :: (inside.text ++ ['\x7d'.toUInt8])
  | .object members => '\x7b'.toUInt8 :: (members.text ++ ['\x7d'.toUInt8])

def Elements.text : Elements → List UInt8
  | .last before node after => before.text ++ (node.text ++ after.text)
  | .more before node after others =>
      before.text ++ (node.text ++ (after.text ++ (','.toUInt8 :: others.text)))

def Members.text : Members → List UInt8
  | .last before key afterKey beforeNode node after =>
      keyText before key afterKey beforeNode ++ (node.text ++ after.text)
  | .more before key afterKey beforeNode node after others =>
      keyText before key afterKey beforeNode ++
        (node.text ++ (after.text ++ (','.toUInt8 :: others.text)))

end

def Document.text (document : Document) : List UInt8 :=
  document.before.text ++ (document.node.text ++ document.after.text)

mutual

/-- The strings and the keys of a tree, in their order. -/
def Node.literals : Node → List (List Piece)
  | .string literal => [literal.pieces]
  | .array elements => elements.literals
  | .object members => members.literals
  | _ => []

def Elements.literals : Elements → List (List Piece)
  | .last _ node _ => node.literals
  | .more _ node _ others => node.literals ++ others.literals

def Members.literals : Members → List (List Piece)
  | .last _ key _ _ node _ => key.pieces :: node.literals
  | .more _ key _ _ node _ others => key.pieces :: (node.literals ++ others.literals)

end

/-- A JSON text of RFC 8259: the strings hold no raw control characters. -/
def IsJsonText (input : List UInt8) : Prop :=
  ∃ document : Document, document.text = input ∧
    ∀ pieces ∈ document.node.literals, ∀ piece ∈ pieces, piece.Printable

/-! ## What a tree stands for -/

section Meaning

variable {Double : Type} (fromChars : List UInt8 → Option (Nat × Double))

/-- A token has to be converted as a whole. -/
def NumberToken.value (token : NumberToken) : Option (Value Double) :=
  match fromChars token.text with
  | some (read, number) => if read = token.text.length then some (.number number) else none
  | none => none

mutual

def Node.value : Node → Option (Value Double)
  | .null => some .null
  | .bool boolean => some (.bool boolean)
  | .number token => token.value fromChars
  | .string literal => (decode literal.pieces).map .string
  | .emptyArray _ => some (.array [])
  | .array elements => elements.values.map .array
  | .emptyObject _ => some (.object [])
  | .object members => members.values.map .object

def Elements.values : Elements → Option (List (Value Double))
  | .last _ node _ => node.value.map fun v => [v]
  | .more _ node _ others => node.value.bind fun v => others.values.map (v :: ·)

def Members.values : Members → Option (List (List UInt8 × Value Double))
  | .last _ key _ _ node _ =>
      (decode key.pieces).bind fun key => node.value.map fun v => [(key, v)]
  | .more _ key _ _ node _ others =>
      (decode key.pieces).bind fun key => node.value.bind fun v =>
        others.values.map ((key, v) :: ·)

end

end Meaning

end FoundationsLab.SimdJson
