import FoundationsLab.BTree.LeafChain

/-! # Insertion

`insert` returns the node it worked on and, after a split, a right sibling with
the separator between the two. `Inserted` is everything the caller may rely on;
it is proved for a leaf, for the two splits, and by induction on the height. -/

namespace FoundationsLab.BTree

open Foundation

variable {K V : Type}

/-! ## What an insertion hands back -/

def separators : Option (Split K V) → List K
  | none => []
  | some split => [split.key]

def siblings : Option (Split K V) → List (Node K V)
  | none => []
  | some split => [split.right]

variable [LinearOrder K]

/-- The nodes that replace one subtree: a chain of the same height in the same
window, with the entries `contents`. -/
structure Pieces (minKeys maxKeys height : Nat) (lo hi : Option K) (nextId nextId' : Nat)
    (old : List (Leaf K V)) (contents : List (K × V))
    (node : Node K V) (split : Option (Split K V)) : Prop where
  chain : Chain (Shape minKeys maxKeys height) lo (separators split) (node :: siblings split) hi
  entries : (node :: siblings split).flatMap Node.entries = contents
  leaves : Rethreads nextId nextId' old ((node :: siblings split).flatMap Node.leaves)
  filled : split.isSome → ∀ piece ∈ node :: siblings split, minKeys ≤ piece.keys.length

/-- The full contract of `insert` on a subtree. -/
structure Inserted (minKeys maxKeys height : Nat) (lo hi : Option K) (key : K) (value : V)
    (fields : Fields V) (old node : Node K V) (split : Option (Split K V))
    (fields' : Fields V) : Prop where
  pieces : Pieces minKeys maxKeys height lo hi fields.nextId fields'.nextId old.leaves
    (putEntry key value old.entries) node split
  grows : old.keys.length ≤ node.keys.length ∨ split.isSome
  lastPut : fields'.lastPut = old.entries.lookup key
  size : fields'.size + old.entries.length =
    fields.size + (putEntry key value old.entries).length

variable {minKeys maxKeys height : Nat} {lo hi : Option K}

/-! ## The leaf -/

/-- The keys before the insertion position are below the key, the keys from it
on are not. -/
theorem insertPosition_split (key : K) : ∀ {keys : List K}, keys.Pairwise (· < ·) →
    ∃ front back, keys = front ++ back ∧ insertPosition keys key = front.length ∧
      (∀ other ∈ front, other < key) ∧ ∀ other ∈ back, key ≤ other
  | [], _ => ⟨[], [], rfl, rfl, by simp, by simp⟩
  | head :: keys, sorted => by
      have parts := List.pairwise_cons.mp sorted
      by_cases below : head < key
      · obtain ⟨front, back, rfl, position, small, large⟩ := insertPosition_split key parts.2
        refine ⟨head :: front, back, rfl, by simp [insertPosition, below, position], ?_, large⟩
        simpa [below] using small
      · refine ⟨[], head :: keys, rfl, by simp [insertPosition, below], by simp, ?_⟩
        intro other member
        rcases List.mem_cons.mp member with rfl | inTail
        · exact not_lt.mp below
        · exact (not_lt.mp below).trans (parts.1 other inTail).le

omit [LinearOrder K] in
/-- Where `splitLeaf` cuts. -/
theorem splitLeaf_append {front back : List K} {separator : K} {frontValues backValues : List V}
    (id : Nat) (next : Option Nat) (fields : Fields V)
    (mid : (front ++ separator :: back).length / 2 = front.length)
    (parallel : frontValues.length = front.length) :
    splitLeaf ⟨id, front ++ separator :: back, frontValues ++ backValues, next⟩ fields =
      some (.leaf ⟨id, front, frontValues, some fields.nextId⟩,
        some ⟨separator, .leaf ⟨fields.nextId, separator :: back, backValues, next⟩⟩,
        { fields with nextId := fields.nextId + 1 }) := by
  simp only [splitLeaf, mid]
  rw [List.drop_left, List.take_left, ← parallel, List.drop_left, List.take_left]
  rfl

/-- A leaf that took one key too many splits in two halves. -/
theorem splitLeaf_spec {leaf : Leaf K V} (fields : Fields V) (two : 2 ≤ maxKeys)
    (half : minKeys = maxKeys / 2) (shape : LeafShape (maxKeys + 1) lo hi leaf)
    (full : leaf.keys.length = maxKeys + 1) :
    ∃ node split, splitLeaf leaf fields =
        some (node, some split, { fields with nextId := fields.nextId + 1 }) ∧
      Pieces minKeys maxKeys 0 lo hi fields.nextId (fields.nextId + 1) [leaf]
        leaf.entries node (some split) := by
  obtain ⟨id, keys, values, next⟩ := leaf
  obtain ⟨opens, lengths, sorted, inside, -⟩ := shape
  simp only at full lengths sorted inside
  obtain ⟨front, separator, back, rfl, frontLength⟩ :=
    ArrayList.exists_append_of_lt (show keys.length / 2 < keys.length by omega)
  obtain ⟨frontValues, backValues, rfl, frontValuesLength, backValuesLength⟩ :=
    exists_parallel_split lengths
  refine ⟨_, _, splitLeaf_append id next fields frontLength.symm frontValuesLength, ?_⟩
  have sizes : front.length + (back.length + 1) = maxKeys + 1 := by simpa using full
  have mid : front.length = (maxKeys + 1) / 2 := by rw [frontLength, full]
  have order := List.pairwise_append.mp sorted
  have aboveFront : ∀ key ∈ front, key < separator := fun key member =>
    order.2.2 key member separator List.mem_cons_self
  have notBelow : ∀ key ∈ separator :: back, separator ≤ key := by
    intro key member
    rcases List.mem_cons.mp member with rfl | later
    · exact le_rfl
    · exact ((List.pairwise_cons.mp order.2.1).1 key later).le
  have separatorInside : InRange lo hi separator := inside separator (by simp)
  obtain ⟨first, rest, frontShape⟩ : ∃ first rest, front = first :: rest :=
    List.exists_cons_of_length_pos (by omega)
  have firstMember : first ∈ front := by simp [frontShape]
  have firstInside := inside first (List.mem_append_left _ firstMember)
  constructor
  · refine ⟨⟨?_, frontValuesLength, order.1, ?_, ?_⟩, ⟨?_, backValuesLength, order.2.1, ?_, ?_⟩⟩
    · intro lower upper atLo atHi
      obtain rfl := Option.some.inj atHi
      exact lt_of_le_of_lt (firstInside.1 lower atLo) (aboveFront first firstMember)
    · intro key member
      refine ⟨(inside key (List.mem_append_left _ member)).1, fun _ equal => ?_⟩
      exact Option.some.inj equal ▸ aboveFront key member
    · simp only; omega
    · intro lower upper atLo atHi
      obtain rfl := Option.some.inj atLo
      exact separatorInside.2 upper atHi
    · intro key member
      refine ⟨fun _ equal => Option.some.inj equal ▸ notBelow key member, ?_⟩
      exact (inside key (List.mem_append_right _ member)).2
    · simp only [List.length_cons]; omega
  · simp [siblings, Leaf.entries, List.zip_append frontValuesLength.symm]
  · simpa [siblings] using Rethreads.split
      (⟨id, front ++ separator :: back, frontValues ++ backValues, next⟩ : Leaf K V)
      ⟨id, front, frontValues, some fields.nextId⟩
      ⟨fields.nextId, separator :: back, backValues, next⟩ rfl rfl rfl rfl
  · intro _ piece member
    simp only [siblings, List.mem_cons, List.not_mem_nil, or_false] at member
    rcases member with rfl | rfl
    · simp only [Node.keys_leaf]; omega
    · simp only [Node.keys_leaf, List.length_cons]; omega

/-- A key that the leaf does not hold yet goes between the smaller and the
larger ones. -/
theorem putEntry_zip_absent {front back : List K} {frontValues backValues : List V} (key : K)
    (value : V) (parallel : frontValues.length = front.length)
    (small : ∀ other ∈ front, other < key) (large : ∀ other ∈ back, key < other) :
    putEntry key value ((front ++ back).zip (frontValues ++ backValues)) =
      (front ++ key :: back).zip (frontValues ++ value :: backValues) := by
  rw [List.zip_append parallel.symm, List.zip_append parallel.symm,
    putEntry_append_of_lt (forall_zip_fst small)]
  have alone : putEntry key value ([] ++ back.zip backValues) =
      putEntry key value [] ++ back.zip backValues :=
    putEntry_append_of_gt (forall_zip_fst large)
  simpa [putEntry] using alone

theorem insertLeaf_spec {leaf : Leaf K V} (key : K) (value : V) (fields : Fields V)
    (two : 2 ≤ maxKeys) (half : minKeys = maxKeys / 2) (shape : LeafShape maxKeys lo hi leaf)
    (inWindow : InRange lo hi key) :
    ∃ node split fields', insertLeaf maxKeys leaf key value fields = some (node, split, fields') ∧
      Inserted minKeys maxKeys 0 lo hi key value fields (.leaf leaf) node split fields' := by
  obtain ⟨id, keys, values, next⟩ := leaf
  obtain ⟨opens, lengths, sorted, inside, notFull⟩ := shape
  simp only at lengths sorted inside notFull
  obtain ⟨front, back, rfl, position, small, large⟩ := insertPosition_split key sorted
  obtain ⟨frontValues, backValues, rfl, frontLength, backLength⟩ := exists_parallel_split lengths
  have order := List.pairwise_append.mp sorted
  have frontOther : ∀ entry ∈ front.zip frontValues, entry.1 ≠ key :=
    forall_zip_fst fun other member => (small other member).ne
  by_cases present : ∃ rest, back = key :: rest
  · obtain ⟨rest, rfl⟩ := present
    obtain ⟨old, restValues, rfl⟩ : ∃ old restValues, backValues = old :: restValues :=
      List.exists_cons_of_length_pos (by simp [backLength])
    have overwritten : putEntry key value ((front ++ key :: rest).zip (frontValues ++ old :: restValues)) =
        (front ++ key :: rest).zip (frontValues ++ value :: restValues) := by
      rw [List.zip_append frontLength.symm, List.zip_append frontLength.symm,
        putEntry_append_of_lt (forall_zip_fst small)]
      simp [putEntry]
    refine ⟨.leaf ⟨id, front ++ key :: rest, frontValues ++ value :: restValues, next⟩, none,
      { fields with lastPut := some old }, ?_, ?_⟩
    · simp only [insertLeaf, position, ArrayList.get_append, if_true]
      rw [← frontLength, ArrayList.get_append, ArrayList.set_append]
      rfl
    · refine ⟨⟨?_, ?_, ?_, by simp⟩, .inl le_rfl, ?_, ?_⟩
      · exact ⟨opens, by simpa using lengths, sorted, inside, notFull⟩
      · simp [siblings, overwritten]
      · simp only [siblings, Node.leaves_leaf, List.flatMap_cons, List.flatMap_nil, List.append_nil]
        apply Rethreads.update <;> rfl
      · rw [Node.entries_leaf, List.zip_append frontLength.symm,
          lookup_append_of_ne_left frontOther]
        simp
      · simp [overwritten, frontLength]
  · have above : ∀ other ∈ back, key < other := by
      intro other member
      refine lt_of_le_of_ne (large other member) fun equal => present ?_
      obtain ⟨first, rest, rfl⟩ := List.exists_cons_of_length_pos (List.length_pos_of_mem member)
      have firstLe : first ≤ other := by
        rcases List.mem_cons.mp member with rfl | later
        · exact le_rfl
        · exact ((List.pairwise_cons.mp order.2.1).1 other later).le
      exact ⟨rest, by rw [le_antisymm (large first List.mem_cons_self) (equal ▸ firstLe)]⟩
    let leaf : Leaf K V := ⟨id, front ++ key :: back, frontValues ++ value :: backValues, next⟩
    let taken : Fields V := { fields with lastPut := none, size := fields.size + 1 }
    have backOther : ∀ entry ∈ back.zip backValues, entry.1 ≠ key :=
      forall_zip_fst fun other member => (above other member).ne'
    have entered : putEntry key value ((front ++ back).zip (frontValues ++ backValues)) =
        leaf.entries := putEntry_zip_absent key value frontLength small above
    have widened : LeafShape (maxKeys + 1) lo hi leaf := by
      refine ⟨opens, by simp [leaf, frontLength, backLength], ?_, ?_, ?_⟩
      · refine List.pairwise_append.mpr ⟨order.1, List.pairwise_cons.mpr ⟨above, order.2.1⟩, ?_⟩
        intro first inFront second inBack
        rcases List.mem_cons.mp inBack with rfl | later
        · exact small first inFront
        · exact order.2.2 first inFront second later
      · intro other member
        simp only [leaf, List.mem_append, List.mem_cons] at member
        rcases member with inFront | rfl | inBack
        · exact inside other (List.mem_append_left _ inFront)
        · exact inWindow
        · exact inside other (List.mem_append_right _ inBack)
      · simp only [leaf, List.length_append, List.length_cons] at notFull ⊢
        omega
    have notFound : ¬ (front ++ back)[front.length]? = some key := by
      rw [List.getElem?_append_right le_rfl, Nat.sub_self]
      intro found
      cases back with
      | nil => simp at found
      | cons first rest => exact present ⟨rest, by simpa using found⟩
    have lookedUp : ((front ++ back).zip (frontValues ++ backValues)).lookup key = none := by
      rw [List.zip_append frontLength.symm, lookup_append_of_ne_left frontOther,
        lookup_eq_none_of_ne backOther]
    have unfolded : insertLeaf maxKeys ⟨id, front ++ back, frontValues ++ backValues, next⟩
          key value fields =
        if maxKeys < leaf.keys.length then splitLeaf leaf taken
        else some (.leaf leaf, none, taken) := by
      simp only [insertLeaf, position, notFound, if_false, ArrayList.add_append]
      rw [← frontLength, ArrayList.add_append]
      rfl
    have sized : fields.size + 1 + ((front ++ back).zip (frontValues ++ backValues)).length =
        fields.size + leaf.entries.length := by
      simp only [leaf, Leaf.entries, List.length_zip, List.length_append, List.length_cons,
        frontLength, backLength]
      omega
    have updated : Rethreads taken.nextId taken.nextId
        [⟨id, front ++ back, frontValues ++ backValues, next⟩] [leaf] := by
      apply Rethreads.update <;> rfl
    rw [unfolded]
    by_cases full : maxKeys < leaf.keys.length
    · have exactlyFull : leaf.keys.length = maxKeys + 1 := by
        have := widened.notFull
        omega
      obtain ⟨node, split, isSplit, pieces⟩ := splitLeaf_spec taken two half widened exactlyFull
      refine ⟨node, some split, _, by rw [if_pos full, isSplit], ?_, .inr rfl, ?_, ?_⟩
      · exact ⟨pieces.chain, by rw [pieces.entries, Node.entries_leaf, entered],
          by simpa using updated.trans pieces.leaves, pieces.filled⟩
      · rw [Node.entries_leaf, lookedUp]
      · rw [Node.entries_leaf, entered, ← sized]
    · refine ⟨.leaf leaf, none, taken, by rw [if_neg full], ⟨?_, ?_, ?_, by simp⟩, .inl ?_, ?_, ?_⟩
      · exact ⟨opens, widened.lengths, widened.sorted, widened.inside, not_lt.mp full⟩
      · rw [Node.entries_leaf, entered]
        simp [siblings, Leaf.entries]
      · simpa [siblings] using updated
      · simp [leaf]
      · rw [Node.entries_leaf, lookedUp]
      · rw [Node.entries_leaf, entered, ← sized]

/-! ## Internal nodes -/

/-- An internal node that took one separator too many splits around the middle
one, which moves up. -/
theorem splitInternal_spec {keys : List K} {children : List (Node K V)} (fields : Fields V)
    (half : minKeys = maxKeys / 2) (full : keys.length = maxKeys + 1)
    (chain : Chain (Shape minKeys maxKeys height) lo keys children hi)
    (filled : ∀ child ∈ children, minKeys ≤ child.keys.length) :
    ∃ node split, splitInternal keys children fields = some (node, some split, fields) ∧
      Pieces minKeys maxKeys (height + 1) lo hi fields.nextId fields.nextId
        (children.flatMap Node.leaves) (children.flatMap Node.entries) node (some split) := by
  obtain ⟨front, up, back, rfl, frontLength⟩ :=
    ArrayList.exists_append_of_lt (show keys.length / 2 < keys.length by omega)
  have sizes : front.length + (back.length + 1) = maxKeys + 1 := by simpa using full
  have mid : front.length = (maxKeys + 1) / 2 := by rw [frontLength, full]
  have count := chain.length
  obtain ⟨left, right, rfl, leftLength⟩ :
      ∃ left right, children = left ++ right ∧ left.length = front.length + 1 :=
    ⟨children.take (front.length + 1), children.drop (front.length + 1),
      (List.take_append_drop _ _).symm, by
        simp only [List.length_take, List.length_append, List.length_cons] at count ⊢
        omega⟩
  obtain ⟨leftChain, rightChain⟩ := (chain_append leftLength).mp chain
  refine ⟨.internal front left, ⟨up, .internal back right⟩, ?_, ?_⟩
  · simp only [splitInternal, ← frontLength, ArrayList.get_append]
    rw [List.take_left, ← leftLength, List.take_left, List.drop_left, leftLength]
    simp
  · constructor
    · refine ⟨⟨by omega, leftChain, ?_⟩, ⟨by omega, rightChain, ?_⟩⟩
      · exact fun child member => filled child (List.mem_append_left _ member)
      · exact fun child member => filled child (List.mem_append_right _ member)
    · simp [siblings]
    · simpa [siblings] using Rethreads.refl fields.nextId ((left ++ right).flatMap Node.leaves)
    · intro _ piece member
      simp only [siblings, List.mem_cons, List.not_mem_nil, or_false] at member
      rcases member with rfl | rfl
      · simp only [Node.keys_internal]; omega
      · simp only [Node.keys_internal]; omega

/-- The step of `insert` at an internal node, once the child is known. -/
theorem insert_internal {keys : List K} {front back : List (Node K V)} {child : Node K V}
    {key : K} (value : V) (fields : Fields V) (index : childIndex keys key = front.length) :
    insert maxKeys (.internal keys (front ++ child :: back)) key value fields = (do
      let (child', childSplit, fields) ← insert maxKeys child key value fields
      match childSplit with
      | none => some (.internal keys (front ++ child' :: back), none, fields)
      | some split =>
          let keys ← ArrayList.add keys front.length split.key
          let children := front ++ child' :: split.right :: back
          if maxKeys < keys.length then splitInternal keys children fields
          else some (.internal keys children, none, fields)) := by
  rw [insert, index]
  split
  · rename_i missing
    simp at missing
  · rename_i found isChild
    rw [ArrayList.get_append] at isChild
    obtain rfl := Option.some.inj isChild
    refine bind_congr fun result => ?_
    obtain ⟨child', childSplit, fields'⟩ := result
    simp only [ArrayList.set_append]
    cases childSplit with
    | none => rfl
    | some split =>
        have behind : ArrayList.add (front ++ child' :: back) (front.length + 1) split.right =
            some (front ++ child' :: split.right :: back) := by
          simpa using ArrayList.add_append (front ++ [child']) back split.right
        simp [behind]

theorem insert_spec (two : 2 ≤ maxKeys) (half : minKeys = maxKeys / 2) (key : K) (value : V)
    (fields : Fields V) : ∀ {height : Nat} {lo hi : Option K} {node : Node K V},
    Shape minKeys maxKeys height lo hi node → InRange lo hi key →
    ∃ node' split fields', insert maxKeys node key value fields = some (node', split, fields') ∧
      Inserted minKeys maxKeys height lo hi key value fields node node' split fields'
  | 0, lo, hi, .leaf leaf, shape, inWindow => by
      rw [insert]
      exact insertLeaf_spec key value fields two half shape inWindow
  | height + 1, lo, hi, .internal keys children, shape, inWindow => by
      obtain ⟨notFull, chain, filled⟩ := shape
      obtain ⟨front, child, back, rfl, index, below, above, frontKeys, backKeys, a, b, rfl,
        keysLength, childShape, inChild, fill⟩ := chain.route inWindow
      obtain ⟨child', split, fields', inserted, contract⟩ :=
        insert_spec two half key value fields childShape inChild
      have pieces := contract.pieces
      have childFilled : minKeys ≤ child.keys.length := filled child (by simp)
      have piecesFilled : ∀ piece ∈ child' :: siblings split, minKeys ≤ piece.keys.length := by
        rcases contract.grows with grows | isSplit
        · cases split with
          | none => simpa [siblings] using childFilled.trans grows
          | some _ => exact pieces.filled rfl
        · exact pieces.filled isSplit
      have whole : (front ++ child :: back).flatMap Node.entries =
          front.flatMap Node.entries ++ (child.entries ++ back.flatMap Node.entries) := by simp
      have entered : putEntry key value ((front ++ child :: back).flatMap Node.entries) =
          (front ++ (child' :: siblings split) ++ back).flatMap Node.entries := by
        rw [whole, putEntry_append_of_lt below, putEntry_append_of_gt above, ← pieces.entries]
        simp
      have lookedUp : ((front ++ child :: back).flatMap Node.entries).lookup key =
          child.entries.lookup key := by
        rw [whole, lookup_append_of_ne_left fun entry member => (below entry member).ne,
          lookup_append_of_ne_right fun entry member => (above entry member).ne']
      have sized : fields'.size + ((front ++ child :: back).flatMap Node.entries).length =
          fields.size +
            (putEntry key value ((front ++ child :: back).flatMap Node.entries)).length := by
        have childSize := contract.size
        rw [whole, putEntry_append_of_lt below, putEntry_append_of_gt above]
        simp only [List.length_append]
        omega
      have newChain := fill _ _ pieces.chain
      have newFilled : ∀ piece ∈ front ++ (child' :: siblings split) ++ back,
          minKeys ≤ piece.keys.length := by
        intro piece member
        rcases List.mem_append.mp member with inFrontOrPieces | inBack
        · rcases List.mem_append.mp inFrontOrPieces with inFront | inPieces
          · exact filled piece (by simp [inFront])
          · exact piecesFilled piece inPieces
        · exact filled piece (by simp [inBack])
      have threaded : Rethreads fields.nextId fields'.nextId
          ((front ++ child :: back).flatMap Node.leaves)
          ((front ++ (child' :: siblings split) ++ back).flatMap Node.leaves) := by
        simpa using pieces.leaves.frame (front.flatMap Node.leaves) (back.flatMap Node.leaves)
      rw [insert_internal value fields index, inserted]
      cases split with
      | none =>
          simp only [siblings, separators, List.append_assoc, List.nil_append,
            List.cons_append] at newChain newFilled threaded entered
          refine ⟨_, none, fields', rfl, ⟨?_, ?_, ?_, by simp⟩, .inl le_rfl, ?_, ?_⟩
          · exact ⟨notFull, newChain, newFilled⟩
          · simpa [siblings] using entered.symm
          · simpa [siblings] using threaded
          · rw [Node.entries_internal, lookedUp, contract.lastPut]
          · rw [Node.entries_internal, sized]
      | some split =>
          simp only [siblings, separators, List.append_assoc, List.nil_append,
            List.cons_append] at newChain newFilled threaded entered
          have added := ArrayList.add_append frontKeys backKeys split.key
          rw [keysLength] at added
          simp only [Option.bind_eq_bind, Option.bind_some, added]
          by_cases full : maxKeys < (frontKeys ++ split.key :: backKeys).length
          · have exactlyFull : (frontKeys ++ split.key :: backKeys).length = maxKeys + 1 := by
              simp only [List.length_append, List.length_cons] at notFull full ⊢
              omega
            obtain ⟨node, up, isSplit, halves⟩ :=
              splitInternal_spec fields' half exactlyFull newChain newFilled
            refine ⟨node, some up, fields', by rw [if_pos full, isSplit], ?_, .inr rfl, ?_, ?_⟩
            · exact ⟨halves.chain, by rw [halves.entries, Node.entries_internal, entered],
                by simpa using threaded.trans halves.leaves, halves.filled⟩
            · rw [Node.entries_internal, lookedUp, contract.lastPut]
            · rw [Node.entries_internal, sized]
          · refine ⟨_, none, fields', by rw [if_neg full], ⟨?_, ?_, ?_, by simp⟩, .inl ?_, ?_, ?_⟩
            · exact ⟨not_lt.mp full, newChain, newFilled⟩
            · simpa [siblings] using entered.symm
            · simpa [siblings] using threaded
            · simp
            · rw [Node.entries_internal, lookedUp, contract.lastPut]
            · rw [Node.entries_internal, sized]

end FoundationsLab.BTree
