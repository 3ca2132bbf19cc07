import FoundationsLab.Foundation.Decimal

/-! # Names made of replica ids and clocks

A clock and a replica id with a colon between them, in either order, can be told
apart again: the numeral holds no colon. -/

namespace FoundationsLab.Crdt

open Foundation
open Foundation.Decimal

/-- A string of UTF-16 code units. -/
abbrev JsString := JavaString

def colon : CodeUnit := 0x3A

theorem colon_not_mem_decimal (n : Nat) : colon ∉ decimal n := not_mem_decimal (by decide) n

theorem clock_colon_id_injective {clock clock' : Nat} {id id' : JsString}
    (same : decimal clock ++ colon :: id = decimal clock' ++ colon :: id') :
    clock = clock' ∧ id = id' := by
  obtain ⟨sameClock, sameId⟩ := append_cons_injective (colon_not_mem_decimal clock)
    (colon_not_mem_decimal clock') same
  exact ⟨decimal_injective sameClock, sameId⟩

theorem id_colon_clock_injective {clock clock' : Nat} {id id' : JsString}
    (same : id ++ colon :: decimal clock = id' ++ colon :: decimal clock') :
    id = id' ∧ clock = clock' := by
  have absent : ∀ n, colon ∉ (decimal n).reverse := fun n member =>
    colon_not_mem_decimal n (List.mem_reverse.mp member)
  have reversed := congrArg List.reverse same
  simp only [List.reverse_append, List.reverse_cons, List.append_assoc,
    List.singleton_append] at reversed
  obtain ⟨sameClock, sameId⟩ := append_cons_injective (absent clock) (absent clock') reversed
  exact ⟨List.reverse_injective sameId, decimal_injective (List.reverse_injective sameClock)⟩

end FoundationsLab.Crdt
