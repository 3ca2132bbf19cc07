import FoundationsLab.EnumFast.Generator

/-! # Generated names

The hint name and the class name of an enum come from its simple name, so that two enums that
differ only in where they are nested are given one name. -/

namespace FoundationsLab.EnumFast

/-! ## Names in a generated file -/

def joined : List Identifier → String
  | [] => ""
  | [name] => name.text
  | name :: rest => name.text ++ "." ++ joined rest

end FoundationsLab.EnumFast
