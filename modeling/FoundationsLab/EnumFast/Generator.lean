import Mathlib.Data.List.Basic
import Mathlib.Tactic.Common

/-! # The source generator

For each marked enum one source file is added to the compilation, with a static class of
extension methods. Roslyn's rendering of namespaces and types is a parameter. -/

namespace FoundationsLab.EnumFast

/-! ## Symbols -/

/-- A name in a C# program. -/
structure Identifier where
  text : String
  noDot : '.' ∉ text.toList
deriving DecidableEq

inductive Accessibility where
  | notApplicable
  | «private»
  | protectedAndInternal
  | «protected»
  | internal
  | protectedOrInternal
  | «public»
deriving DecidableEq

structure FieldSymbol where
  name : Identifier
  /-- The value, where `HasConstantValue` holds. -/
  constantValue : Option Int
deriving DecidableEq

/-- A containing type has a name and a number of type parameters. -/
structure EnumSymbol where
  containingNamespace : List Identifier
  containingTypes : List (Identifier × Nat)
  name : Identifier
  declaredAccessibility : Accessibility
  members : List FieldSymbol
deriving DecidableEq

/-- What tells one enum of a program from another. -/
def EnumSymbol.identity (symbol : EnumSymbol) :
    List Identifier × List (Identifier × Nat) × Identifier :=
  (symbol.containingNamespace, symbol.containingTypes, symbol.name)

structure EnumModel where
  «namespace» : Option String
  name : Identifier
  fullName : String
  isPublic : Bool
  members : List String

end FoundationsLab.EnumFast
