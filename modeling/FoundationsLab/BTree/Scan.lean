import FoundationsLab.BTree.Remove

/-! # Lookups and scans

A lookup descends the tree, a scan follows the leaf chain. Both are compared
with the flattened entries of the tree. -/

namespace FoundationsLab.BTree

open Foundation

variable {K V : Type} [LinearOrder K]

variable {minKeys maxKeys height : Nat} {lo hi : Option K}

/-! ## The descent -/

/-- The leaf reached by a descent among the leaves of the subtree. -/
structure Reached (key : K) (leaves : List (Leaf K V)) (leaf : Leaf K V)
    (front back : List (Leaf K V)) : Prop where
  parts : leaves = front ++ leaf :: back
  below : ∀ entry ∈ front.flatMap Leaf.entries, entry.1 < key
  above : ∀ entry ∈ back.flatMap Leaf.entries, key < entry.1
  sorted : leaf.keys.Pairwise (· < ·)
  lengths : leaf.values.length = leaf.keys.length

theorem leafFor_spec {key : K} : ∀ {height : Nat} {lo hi : Option K} {node : Node K V},
    Shape minKeys maxKeys height lo hi node → InRange lo hi key →
    ∃ leaf front back, leafFor node key = some leaf ∧ Reached key node.leaves leaf front back
  | 0, lo, hi, .leaf leaf, shape, inWindow =>
      ⟨leaf, [], [], by simp [leafFor], by simp, by simp, by simp, shape.sorted, shape.lengths⟩
  | height + 1, lo, hi, .internal keys children, shape, inWindow => by
      obtain ⟨notFull, chain, filled⟩ := shape
      obtain ⟨front, child, back, rfl, index, below, above, _, _, a, b, _, _, childShape, inChild,
        _⟩ := chain.route inWindow
      obtain ⟨leaf, leftLeaves, rightLeaves, found, reached⟩ := leafFor_spec childShape inChild
      refine ⟨leaf, front.flatMap Node.leaves ++ leftLeaves,
        rightLeaves ++ back.flatMap Node.leaves, ?_, ?_, ?_, ?_, reached.sorted, reached.lengths⟩
      · rw [leafFor, index]
        split
        · rename_i missing
          simp at missing
        · rename_i found' isChild
          rw [ArrayList.get_append] at isChild
          obtain rfl := Option.some.inj isChild
          exact found
      · simp [reached.parts]
      · intro entry member
        rw [List.flatMap_append, List.mem_append, List.flatMap_assoc] at member
        exact member.elim (below entry) (reached.below entry)
      · intro entry member
        rw [List.flatMap_append, List.mem_append, List.flatMap_assoc] at member
        exact member.elim (reached.above entry) (above entry)

/-- The search inside a leaf. -/
theorem leafIndex_lookup {leaf : Leaf K V} (key : K) (sorted : leaf.keys.Pairwise (· < ·))
    (lengths : leaf.values.length = leaf.keys.length) :
    leafIndex leaf.keys key = none ∧ leaf.entries.lookup key = none ∨
      ∃ i value, leafIndex leaf.keys key = some i ∧ leaf.values[i]? = some value ∧
        leaf.entries.lookup key = some value := by
  obtain ⟨id, keys, values, next⟩ := leaf
  simp only at sorted lengths
  simp only [Leaf.entries]
  rcases leafIndex_cases key sorted with ⟨absent, notMember⟩ | ⟨front, back, rfl, found⟩
  · refine .inl ⟨absent, lookup_eq_none_of_ne ?_⟩
    intro entry member equal
    exact notMember (equal ▸ (List.of_mem_zip member).1)
  · obtain ⟨frontValues, tailValues, rfl, frontLength, tailLength⟩ := exists_parallel_split lengths
    obtain ⟨value, backValues, rfl⟩ : ∃ value backValues, tailValues = value :: backValues :=
      List.exists_cons_of_length_pos (by simp [tailLength])
    have order := List.pairwise_append.mp sorted
    have frontOther : ∀ entry ∈ front.zip frontValues, entry.1 ≠ key :=
      forall_zip_fst fun other member => (order.2.2 other member key List.mem_cons_self).ne
    refine .inr ⟨front.length, value, found, by simp [← frontLength], ?_⟩
    rw [List.zip_append frontLength.symm, lookup_append_of_ne_left frontOther]
    simp

theorem Reached.lookup {key : K} {leaves front back : List (Leaf K V)} {leaf : Leaf K V}
    (reached : Reached key leaves leaf front back) :
    (leaves.flatMap Leaf.entries).lookup key = leaf.entries.lookup key := by
  rw [reached.parts, List.flatMap_append, List.flatMap_cons,
    lookup_append_of_ne_left fun entry member => (reached.below entry member).ne,
    lookup_append_of_ne_right fun entry member => (reached.above entry member).ne']

/-! ## The scan -/

section Scan

variable (fromKey toKey : Option K)

theorem any_lt_iff (key : K) :
    fromKey.any (key < ·) = true ↔ ¬ ∀ bound, fromKey = some bound → bound ≤ key := by
  cases fromKey <;> simp

theorem any_le_iff (key : K) :
    toKey.any (· ≤ key) = true ↔ ∃ bound, toKey = some bound ∧ bound ≤ key := by
  cases toKey <;> simp

/-- From the upper bound on, nothing is in range any more. -/
theorem entriesInRange_eq_nil {upper : K} (atTo : toKey = some upper) (entries : List (K × V))
    (beyond : ∀ entry ∈ entries, upper ≤ entry.1) : entriesInRange fromKey toKey entries = [] := by
  apply List.filter_eq_nil_iff.mpr
  intro entry member inside
  have inRange : InRange fromKey toKey entry.1 := by simpa using inside
  exact absurd (inRange.2 upper atTo) (not_lt.mpr (beyond entry member))

theorem entriesInRange_append (front back : List (K × V)) :
    entriesInRange fromKey toKey (front ++ back) =
      entriesInRange fromKey toKey front ++ entriesInRange fromKey toKey back :=
  List.filter_append front back

theorem entriesInRange_cons (entry : K × V) (rest : List (K × V)) :
    entriesInRange fromKey toKey (entry :: rest) =
      if InRange fromKey toKey entry.1 then entry :: entriesInRange fromKey toKey rest
      else entriesInRange fromKey toKey rest := by
  simp only [entriesInRange, List.filter_cons, decide_eq_true_eq]

theorem rangeLeaf_spec : ∀ (keys : List K) (values : List V) (front : List V)
    (out : List (K × V)), values.length = keys.length → Ascending (keys.zip values) →
    ∃ returned, rangeLeaf fromKey toKey (front ++ values) keys front.length out =
        some (out ++ entriesInRange fromKey toKey (keys.zip values), returned) ∧
      (returned = true → ∃ upper entry, toKey = some upper ∧ entry ∈ keys.zip values ∧
        upper ≤ entry.1)
  | [], [], front, out, _, _ => ⟨false, by simp [rangeLeaf, entriesInRange], by simp⟩
  | key :: keys, value :: values, front, out, lengths, ascending => by
      have parts := ascending_cons.mp ascending
      have again := fun out => rangeLeaf_spec keys values (front ++ [value]) out
        (by simpa using lengths) parts.2
      simp only [List.append_assoc, List.singleton_append, List.length_append,
        List.length_singleton] at again
      simp only [rangeLeaf, List.zip_cons_cons, entriesInRange_cons]
      by_cases early : fromKey.any (key < ·)
      · -- `continue`: the key is still below the window
        have outside : ¬ InRange fromKey toKey key := fun inside =>
          (any_lt_iff fromKey key).mp early inside.1
        obtain ⟨returned, result, stop⟩ := again out
        refine ⟨returned, by simp [early, outside, result], fun isReturned => ?_⟩
        obtain ⟨upper, entry, atTo, member, beyond⟩ := stop isReturned
        exact ⟨upper, entry, atTo, List.mem_cons_of_mem _ member, beyond⟩
      · have notBelow : ∀ bound, fromKey = some bound → bound ≤ key :=
          not_not.mp (mt (any_lt_iff fromKey key).mpr early)
        by_cases late : toKey.any (· ≤ key)
        · -- `return out`: this key and all later ones are beyond the window
          obtain ⟨upper, atTo, beyond⟩ := (any_le_iff toKey key).mp late
          have outside : ¬ InRange fromKey toKey key := fun inside =>
            absurd (inside.2 upper atTo) (not_lt.mpr beyond)
          have none := entriesInRange_eq_nil fromKey toKey atTo (keys.zip values)
            fun entry member => beyond.trans (parts.1 entry member).le
          refine ⟨true, by simp [early, late, outside, none], fun _ => ?_⟩
          exact ⟨upper, (key, value), atTo, List.mem_cons_self, beyond⟩
        · have inside : InRange fromKey toKey key := by
            refine ⟨notBelow, fun bound atTo => not_le.mp fun beyond => late ?_⟩
            exact (any_le_iff toKey key).mpr ⟨bound, atTo, beyond⟩
          obtain ⟨returned, result, stop⟩ := again (out ++ [(key, value)])
          refine ⟨returned, by simp [early, late, inside, result], fun isReturned => ?_⟩
          obtain ⟨upper, entry, atTo, member, beyond⟩ := stop isReturned
          exact ⟨upper, entry, atTo, List.mem_cons_of_mem _ member, beyond⟩

/-- The scan from some leaf on. Induction is on the leaves that remain, whose
references the chain resolves among all leaves of the tree. -/
theorem rangeLoop_spec (rest : List (Leaf K V)) : ∀ (visited : List (Leaf K V)) (fuel : Nat)
    (out : List (K × V)), (leafIds (visited ++ rest)).Nodup → Linked rest none →
    (∀ leaf ∈ rest, leaf.values.length = leaf.keys.length) →
    Ascending (rest.flatMap Leaf.entries) → rest.length < fuel →
    rangeLoop (visited ++ rest) fromKey toKey fuel (firstId rest none) out =
      some (out ++ entriesInRange fromKey toKey (rest.flatMap Leaf.entries)) := by
  induction rest with
  | nil =>
      intro visited fuel out _ _ _ _ enough
      obtain ⟨fuel, rfl⟩ : ∃ less, fuel = less + 1 := ⟨fuel - 1, by simp at enough; omega⟩
      simp [rangeLoop, firstId, entriesInRange]
  | cons leaf rest induction =>
      intro visited fuel out nodup linked lengths ascending enough
      obtain ⟨fuel, rfl⟩ : ∃ less, fuel = less + 1 := ⟨fuel - 1, by simp at enough; omega⟩
      rw [List.flatMap_cons] at ascending ⊢
      have parts := ascending_append.mp ascending
      obtain ⟨returned, scanned, stop⟩ := rangeLeaf_spec fromKey toKey leaf.keys leaf.values [] out
        (lengths leaf List.mem_cons_self) parts.1
      simp only [List.nil_append, List.length_nil] at scanned
      simp only [firstId, rangeLoop, derefLeaf_of_nodup nodup, Option.bind_eq_bind,
        Option.bind_some, scanned, entriesInRange_append]
      cases returned with
      | true =>
          obtain ⟨upper, entry, atTo, member, beyond⟩ := stop rfl
          have none := entriesInRange_eq_nil fromKey toKey atTo (rest.flatMap Leaf.entries)
            fun later inRest => beyond.trans (parts.2.2 entry member later inRest).le
          simp [none, Leaf.entries]
      | false =>
          have continued := induction (visited ++ [leaf]) fuel
            (out ++ entriesInRange fromKey toKey leaf.entries) (by simpa using nodup) linked.2
            (fun other member => lengths other (List.mem_cons_of_mem _ member)) parts.2.1
            (by simpa using enough)
          rw [List.append_assoc, List.singleton_append, ← linked.1] at continued
          simpa [Leaf.entries] using continued

end Scan

end FoundationsLab.BTree
