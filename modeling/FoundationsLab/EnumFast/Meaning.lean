import FoundationsLab.EnumFast.Generator
import Mathlib.Data.List.Nodup

/-! # What the generated methods do

The two methods as syntax, the lines that `Generate` writes for them, and their meaning where
the name of the type stands for the enum that they were generated from. -/

namespace FoundationsLab.EnumFast

/-! ## Methods -/

inductive ResultType where
  | string
  | bool

/-- An expression of a C# type. -/
inductive Expression : ResultType → Type where
  | nameOf (name : String) : Expression .string
  | valueToString : Expression .string
  | literal (flag : Bool) : Expression .bool

/-- The values of a type. -/
abbrev ResultType.Result : ResultType → Type
  | string => String
  | bool => Bool

namespace Expression

variable {type : ResultType}

def text (fullName : String) : Expression type → String
  | nameOf name => "nameof(" ++ fullName ++ "." ++ name ++ ")"
  | valueToString => "value.ToString()"
  | literal true => "true"
  | literal false => "false"

/-- The names of members in it. -/
def names : Expression type → List String
  | nameOf name => [name]
  | valueToString => []
  | literal _ => []

/-- `nameof` is the name itself; `ToString` is the method that every enum has. -/
def eval (valueToStringOf : Int → String) (value : Int) :
    Expression type → type.Result
  | nameOf name => name
  | valueToString => valueToStringOf value
  | literal flag => flag

end Expression

/-- A method that switches over its argument, from member to expression. -/
structure Method (type : ResultType) where
  summary : String
  signature : String
  arms : List (String × Expression type)
  otherwise : Expression type

/-- The lines before the methods. -/
def opening (m : EnumModel) : List String :=
  ["// <auto-generated/>", "#nullable enable"] ++
    (match m.namespace with
      | none => []
      | some text => ["namespace " ++ text, "\x7b"]) ++
    ["    " ++ (if m.isPublic then "public" else "internal") ++ " static class " ++
        (m.name.text ++ "Extensions"),
      "    \x7b"]

/-- The lines behind them. -/
def closing (m : EnumModel) : List String :=
  "    \x7d" :: (match m.namespace with
    | none => []
    | some _ => ["\x7d"])

/-- The reserved words of C#, which are no names. -/
def reserved : List String :=
  ["abstract", "as", "base", "bool", "break", "byte", "case", "catch", "char", "checked", "class",
    "const", "continue", "decimal", "default", "delegate", "do", "double", "else", "enum",
    "event", "explicit", "extern", "false", "finally", "fixed", "float", "for", "foreach", "goto",
    "if", "implicit", "in", "int", "interface", "internal", "is", "lock", "long", "namespace",
    "new", "null", "object", "operator", "out", "override", "params", "private", "protected",
    "public", "readonly", "ref", "return", "sbyte", "sealed", "short", "sizeof", "stackalloc",
    "static", "string", "struct", "switch", "this", "throw", "true", "try", "typeof", "uint",
    "ulong", "unchecked", "unsafe", "ushort", "using", "virtual", "void", "volatile", "while"]

/-- The constant that the name of a member stands for. -/
def resolve (symbol : EnumSymbol) (name : String) : Option Int :=
  if name ∈ reserved then none
  else (symbol.members.find? fun field => field.name.text = name).bind (·.constantValue)

/-- The arms by the constants that they match. A name that stands for none is an error, and so is
an arm for a constant that an earlier arm has. -/
def compileArms {type : ResultType} (symbol : EnumSymbol) :
    List Int → List (String × Expression type) → Option (List (Int × Expression type))
  | _, [] => some []
  | handled, arm :: arms =>
      match resolve symbol arm.1 with
      | none => none
      | some constant =>
          if constant ∈ handled ∨ ∃ name ∈ arm.2.names, resolve symbol name = none then none
          else (compileArms symbol (constant :: handled) arms).map ((constant, arm.2) :: ·)

/-- What a call returns, if the method compiles. `value.ToString()` is the library's. -/
def Method.run {type : ResultType} (symbol : EnumSymbol) (valueToStringOf : Int → String)
    (method : Method type) (value : Int) : Option type.Result :=
  (compileArms symbol [] method.arms).map fun arms =>
    ((arms.lookup value).getD method.otherwise).eval valueToStringOf value

/-- They are the ones with a value that no earlier one has. -/
def kept : List Int → List FieldSymbol → List (String × Int)
  | _, [] => []
  | seen, field :: fields =>
      match field.constantValue with
      | none => kept seen fields
      | some value =>
          if value ∈ seen then kept seen fields
          else (field.name.text, value) :: kept (seen ++ [value]) fields

section Arms

variable {type : ResultType} {symbol : EnumSymbol} {result : String → Expression type}

end Arms

/-- An enum in which two names share a value. -/
def status : EnumSymbol where
  containingNamespace := []
  containingTypes := []
  name := ⟨"Status", by decide⟩
  declaredAccessibility := .«public»
  members := [⟨⟨"Ok", by decide⟩, some 0⟩, ⟨⟨"Error", by decide⟩, some 2⟩,
    ⟨⟨"Fatal", by decide⟩, some 2⟩]

end FoundationsLab.EnumFast
