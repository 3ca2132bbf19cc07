import FoundationsLab.BTree.LeafChain

/-! # Repairing an under-full child

Borrowing and merging work on two adjacent children and the separator between
them. `Repaired` is their common contract: the pair is replaced by a chain in
the same window, with the same entries, in which every node is filled. -/

namespace FoundationsLab.BTree

open Foundation

variable {K V : Type} [LinearOrder K]

structure Repaired (minKeys maxKeys height : Nat) (a b : Option K) (left right : Node K V)
    (fillKeys : List K) (filling : List (Node K V)) : Prop where
  chain : Chain (Shape minKeys maxKeys height) a fillKeys filling b
  filled : ∀ node ∈ filling, minKeys ≤ node.keys.length
  entries : filling.flatMap Node.entries = left.entries ++ right.entries
  leaves : ∀ nextId, Rethreads nextId nextId (left.leaves ++ right.leaves)
    (filling.flatMap Node.leaves)

variable {minKeys maxKeys height : Nat} {a b : Option K} {separator : K}
  {frontKeys backKeys : List K} {front back : List (Node K V)}

/-! ## Positions around a pair of children -/

section Positions

omit [LinearOrder K]

theorem set_succ_append (front : List (Node K V)) (left old new : Node K V)
    (back : List (Node K V)) :
    ArrayList.set (front ++ left :: old :: back) (front.length + 1) new =
      some (front ++ left :: new :: back) := by
  simpa using ArrayList.set_append (front ++ [left]) old new back

theorem remove_succ_append (front : List (Node K V)) (left right : Node K V)
    (back : List (Node K V)) :
    ArrayList.remove (front ++ left :: right :: back) (front.length + 1) =
      some (right, front ++ left :: back) := by
  simpa using ArrayList.remove_append (front ++ [left]) right back

end Positions

/-! ## Borrowing -/

variable (backKeys back) in
theorem borrowFromLeft_spec {left child : Node K V} (lengths : frontKeys.length = front.length)
    (half : 2 * minKeys ≤ maxKeys)
    (onLeft : Shape minKeys maxKeys height a (some separator) left)
    (onChild : Shape minKeys maxKeys height (some separator) b child)
    (spare : minKeys < left.keys.length) (lacking : child.keys.length < minKeys)
    (almost : minKeys ≤ child.keys.length + 1) :
    ∃ key left' child',
      borrowFromLeft (frontKeys ++ separator :: backKeys) (front ++ left :: child :: back)
          (front.length + 1) =
        some (frontKeys ++ key :: backKeys, front ++ left' :: child' :: back) ∧
      Repaired minKeys maxKeys height a b left child [key] [left', child'] := by
  have getSeparator := ArrayList.get_append frontKeys separator backKeys
  have setSeparator := fun key => ArrayList.set_append frontKeys separator key backKeys
  rw [lengths] at getSeparator setSeparator
  match height, left, child, onLeft, onChild with
  | 0, .leaf ⟨leftId, leftKeys, leftValues, leftNext⟩, .leaf ⟨childId, childKeys, childValues, childNext⟩,
      onLeft, onChild =>
      obtain ⟨leftOpens, leftLengths, leftSorted, leftInside, leftRoom⟩ := onLeft
      obtain ⟨childOpens, childLengths, childSorted, childInside, childRoom⟩ := onChild
      simp only [Node.keys_leaf] at *
      obtain ⟨keys, key, rfl⟩ := ArrayList.exists_append_singleton (show 0 < leftKeys.length by omega)
      obtain ⟨values, value, rfl⟩ :=
        ArrayList.exists_append_singleton (show 0 < leftValues.length by omega)
      simp only [List.length_append, List.length_singleton, Nat.add_right_cancel_iff] at *
      obtain ⟨first, rest, keysShape⟩ : ∃ first rest, keys = first :: rest :=
        List.exists_cons_of_length_pos (by omega)
      have order := List.pairwise_append.mp leftSorted
      have keyInside := leftInside key (by simp)
      have belowSeparator : key < separator := keyInside.2 separator rfl
      have aboveKeys : ∀ other ∈ keys, other < key := fun other member =>
        order.2.2 other member key (by simp)
      refine ⟨key, .leaf ⟨leftId, keys, values, leftNext⟩,
        .leaf ⟨childId, key :: childKeys, value :: childValues, childNext⟩, ?_, ?_⟩
      · simp [borrowFromLeft, ArrayList.removeLast_append, setSeparator,
          ArrayList.set_append, set_succ_append]
      · constructor
        · refine ⟨⟨?_, leftLengths, order.1, ?_, by simp only; omega⟩,
            ⟨?_, by simpa using childLengths, ?_, ?_, by simp only [List.length_cons]; omega⟩⟩
          · intro lower upper atLo atHi
            obtain rfl := Option.some.inj atHi
            exact lt_of_le_of_lt ((leftInside first (by simp [keysShape])).1 lower atLo)
              (aboveKeys first (by simp [keysShape]))
          · intro other member
            refine ⟨(leftInside other (List.mem_append_left _ member)).1, fun _ equal => ?_⟩
            exact Option.some.inj equal ▸ aboveKeys other member
          · intro lower upper atLo atHi
            obtain rfl := Option.some.inj atLo
            exact lt_trans belowSeparator (childOpens separator upper rfl atHi)
          · refine List.pairwise_cons.mpr ⟨fun other member => ?_, childSorted⟩
            exact lt_of_lt_of_le belowSeparator ((childInside other member).1 separator rfl)
          · intro other member
            rcases List.mem_cons.mp member with rfl | later
            · refine ⟨fun _ equal => (Option.some.inj equal).ge, fun upper atHi => ?_⟩
              exact lt_trans belowSeparator (childOpens separator upper rfl atHi)
            · refine ⟨fun _ equal => Option.some.inj equal ▸ ?_, (childInside other later).2⟩
              exact (lt_of_lt_of_le belowSeparator ((childInside other later).1 separator rfl)).le
        · intro node member
          simp only [List.mem_cons, List.not_mem_nil, or_false] at member
          rcases member with rfl | rfl
          · simp only [Node.keys_leaf]; omega
          · simp only [Node.keys_leaf, List.length_cons]; omega
        · simp [List.zip_append leftLengths.symm]
        · intro nextId
          simp only [Node.leaves_leaf, List.flatMap_cons, List.flatMap_nil, List.append_nil,
            List.singleton_append]
          apply Rethreads.updatePair <;> rfl
  | height + 1, .internal leftKeys leftChildren, .internal childKeys childChildren,
      onLeft, onChild =>
      obtain ⟨leftRoom, leftChain, leftFilled⟩ := onLeft
      obtain ⟨childRoom, childChain, childFilled⟩ := onChild
      simp only [Node.keys_internal] at *
      have leftCount := leftChain.length
      obtain ⟨keys, key, rfl⟩ := ArrayList.exists_append_singleton (show 0 < leftKeys.length by omega)
      obtain ⟨children, moved, rfl⟩ :=
        ArrayList.exists_append_singleton (show 0 < leftChildren.length by omega)
      simp only [List.length_append, List.length_singleton, Nat.add_right_cancel_iff] at *
      obtain ⟨keptChain, movedShape⟩ := (chain_append leftCount).mp leftChain
      refine ⟨key, .internal keys children,
        .internal (separator :: childKeys) (moved :: childChildren), ?_, ?_⟩
      · simp [borrowFromLeft, getSeparator, ArrayList.removeLast_append,
          setSeparator, ArrayList.set_append, set_succ_append]
      · constructor
        · refine ⟨⟨by omega, keptChain, ?_⟩,
            ⟨by simp only [List.length_cons]; omega, ⟨movedShape, childChain⟩, ?_⟩⟩
          · exact fun node member => leftFilled node (List.mem_append_left _ member)
          · intro node member
            rcases List.mem_cons.mp member with rfl | later
            · exact leftFilled node (by simp)
            · exact childFilled node later
        · intro node member
          simp only [List.mem_cons, List.not_mem_nil, or_false] at member
          rcases member with rfl | rfl
          · simp only [Node.keys_internal]; omega
          · simp only [Node.keys_internal, List.length_cons]; omega
        · simp
        · intro nextId
          simpa using Rethreads.refl nextId ((children ++ moved :: childChildren).flatMap Node.leaves)

variable (backKeys back) in
theorem borrowFromRight_spec {child right : Node K V} (lengths : frontKeys.length = front.length)
    (half : 2 * minKeys ≤ maxKeys)
    (onChild : Shape minKeys maxKeys height a (some separator) child)
    (onRight : Shape minKeys maxKeys height (some separator) b right)
    (spare : minKeys < right.keys.length) (lacking : child.keys.length < minKeys)
    (almost : minKeys ≤ child.keys.length + 1) :
    ∃ key child' right',
      borrowFromRight (frontKeys ++ separator :: backKeys) (front ++ child :: right :: back)
          front.length =
        some (frontKeys ++ key :: backKeys, front ++ child' :: right' :: back) ∧
      Repaired minKeys maxKeys height a b child right [key] [child', right'] := by
  have getSeparator := ArrayList.get_append frontKeys separator backKeys
  have setSeparator := fun key => ArrayList.set_append frontKeys separator key backKeys
  rw [lengths] at getSeparator setSeparator
  match height, child, right, onChild, onRight with
  | 0, .leaf ⟨childId, childKeys, childValues, childNext⟩, .leaf ⟨rightId, rightKeys, rightValues, rightNext⟩,
      onChild, onRight =>
      obtain ⟨childOpens, childLengths, childSorted, childInside, childRoom⟩ := onChild
      obtain ⟨rightOpens, rightLengths, rightSorted, rightInside, rightRoom⟩ := onRight
      simp only [Node.keys_leaf] at *
      obtain ⟨key, next, keys, rfl⟩ : ∃ key next keys, rightKeys = key :: next :: keys := by
        match rightKeys, spare with
        | key :: next :: keys, _ => exact ⟨key, next, keys, rfl⟩
        | [_], spare => simp only [List.length_singleton] at spare; omega
      obtain ⟨value, values, rfl⟩ : ∃ value values, rightValues = value :: values :=
        List.exists_cons_of_length_pos (by simp only [rightLengths, List.length_cons]; omega)
      simp only [List.length_cons, Nat.add_right_cancel_iff] at *
      have keySmallest := (List.pairwise_cons.mp rightSorted).1
      have rest := (List.pairwise_cons.mp rightSorted).2
      have keyInside := rightInside key List.mem_cons_self
      have nextInside := rightInside next (by simp)
      have separatorLe : separator ≤ key := keyInside.1 separator rfl
      have keyBelow : key < next := keySmallest next List.mem_cons_self
      have belowKey : ∀ other ∈ childKeys, other < key := fun other member =>
        lt_of_lt_of_le ((childInside other member).2 separator rfl) separatorLe
      refine ⟨next, .leaf ⟨childId, childKeys ++ [key], childValues ++ [value], childNext⟩,
        .leaf ⟨rightId, next :: keys, values, rightNext⟩, ?_, ?_⟩
      · simp [borrowFromRight, ArrayList.remove, setSeparator, ArrayList.set_append,
          set_succ_append]
      · constructor
        · refine ⟨⟨?_, by simp [childLengths], ?_, ?_,
              by simp only [List.length_append, List.length_singleton]; omega⟩,
            ⟨?_, rightLengths, rest, ?_, by simp only [List.length_cons]; omega⟩⟩
          · intro lower upper atLo atHi
            obtain rfl := Option.some.inj atHi
            exact lt_of_lt_of_le (childOpens lower separator atLo rfl) (separatorLe.trans keyBelow.le)
          · exact List.pairwise_append.mpr ⟨childSorted, by simp, by simpa using belowKey⟩
          · intro other member
            rcases List.mem_append.mp member with inChild | atEnd
            · refine ⟨(childInside other inChild).1, fun _ equal => ?_⟩
              exact Option.some.inj equal ▸ lt_trans (belowKey other inChild) keyBelow
            · obtain rfl := List.mem_singleton.mp atEnd
              refine ⟨fun lower atLo => ?_, fun _ equal => Option.some.inj equal ▸ keyBelow⟩
              exact (lt_of_lt_of_le (childOpens lower separator atLo rfl) separatorLe).le
          · intro lower upper atLo atHi
            obtain rfl := Option.some.inj atLo
            exact nextInside.2 upper atHi
          · intro other member
            refine ⟨fun _ equal => Option.some.inj equal ▸ ?_,
              (rightInside other (List.mem_cons_of_mem _ member)).2⟩
            rcases List.mem_cons.mp member with rfl | later
            · exact le_rfl
            · exact ((List.pairwise_cons.mp rest).1 other later).le
        · intro node member
          simp only [List.mem_cons, List.not_mem_nil, or_false] at member
          rcases member with rfl | rfl
          · simp only [Node.keys_leaf, List.length_append, List.length_singleton]; omega
          · simp only [Node.keys_leaf, List.length_cons]; omega
        · simp [List.zip_append childLengths.symm]
        · intro nextId
          simp only [Node.leaves_leaf, List.flatMap_cons, List.flatMap_nil, List.append_nil,
            List.singleton_append]
          apply Rethreads.updatePair <;> rfl
  | height + 1, .internal childKeys childChildren, .internal rightKeys rightChildren,
      onChild, onRight =>
      obtain ⟨childRoom, childChain, childFilled⟩ := onChild
      obtain ⟨rightRoom, rightChain, rightFilled⟩ := onRight
      simp only [Node.keys_internal] at *
      have rightCount := rightChain.length
      obtain ⟨key, keys, rfl⟩ : ∃ key keys, rightKeys = key :: keys :=
        List.exists_cons_of_length_pos (by omega)
      obtain ⟨moved, children, rfl⟩ : ∃ moved children, rightChildren = moved :: children :=
        List.exists_cons_of_length_pos (by omega)
      simp only [List.length_cons, Nat.add_right_cancel_iff] at *
      refine ⟨key, .internal (childKeys ++ [separator]) (childChildren ++ [moved]),
        .internal keys children, ?_, ?_⟩
      · simp [borrowFromRight, ArrayList.remove, getSeparator, setSeparator,
          ArrayList.set_append, set_succ_append]
      · constructor
        · refine ⟨⟨by simp only [List.length_append, List.length_singleton]; omega,
              (chain_append childChain.length).mpr ⟨childChain, rightChain.1⟩, ?_⟩,
            ⟨by omega, rightChain.2, ?_⟩⟩
          · intro node member
            rcases List.mem_append.mp member with inChild | atEnd
            · exact childFilled node inChild
            · exact rightFilled node (by simp [List.mem_singleton.mp atEnd])
          · exact fun node member => rightFilled node (List.mem_cons_of_mem _ member)
        · intro node member
          simp only [List.mem_cons, List.not_mem_nil, or_false] at member
          rcases member with rfl | rfl
          · simp only [Node.keys_internal, List.length_append, List.length_singleton]; omega
          · simp only [Node.keys_internal]; omega
        · simp
        · intro nextId
          simpa using Rethreads.refl nextId ((childChildren ++ moved :: children).flatMap Node.leaves)

/-! ## Merging -/

variable (backKeys back) in
theorem mergeInto_spec {left right : Node K V} (lengths : frontKeys.length = front.length)
    (onLeft : Shape minKeys maxKeys height a (some separator) left)
    (onRight : Shape minKeys maxKeys height (some separator) b right)
    (room : left.keys.length + right.keys.length < maxKeys)
    (enough : minKeys ≤ left.keys.length + right.keys.length) :
    ∃ merged,
      mergeInto (frontKeys ++ separator :: backKeys) (front ++ left :: right :: back)
          front.length = some (frontKeys ++ backKeys, front ++ merged :: back) ∧
      Repaired minKeys maxKeys height a b left right [] [merged] := by
  have getSeparator := ArrayList.get_append frontKeys separator backKeys
  have removeSeparator := ArrayList.remove_append frontKeys separator backKeys
  rw [lengths] at getSeparator removeSeparator
  match height, left, right, onLeft, onRight with
  | 0, .leaf ⟨leftId, leftKeys, leftValues, leftNext⟩, .leaf ⟨rightId, rightKeys, rightValues, rightNext⟩,
      onLeft, onRight =>
      obtain ⟨leftOpens, leftLengths, leftSorted, leftInside, leftRoom⟩ := onLeft
      obtain ⟨rightOpens, rightLengths, rightSorted, rightInside, rightRoom⟩ := onRight
      simp only [Node.keys_leaf] at *
      refine ⟨.leaf ⟨leftId, leftKeys ++ rightKeys, leftValues ++ rightValues, rightNext⟩, ?_, ?_⟩
      · simp [mergeInto, getSeparator, removeSeparator, ArrayList.set_append, remove_succ_append]
      · constructor
        · refine ⟨leftOpens.trans rightOpens, by simp [leftLengths, rightLengths], ?_, ?_,
            by simp only [List.length_append]; omega⟩
          · refine List.pairwise_append.mpr ⟨leftSorted, rightSorted, ?_⟩
            intro first inLeft second inRight
            exact lt_of_lt_of_le ((leftInside first inLeft).2 separator rfl)
              ((rightInside second inRight).1 separator rfl)
          · intro other member
            rcases List.mem_append.mp member with inLeft | inRight
            · exact inRange_widenUpper (leftInside other inLeft) rightOpens
            · exact inRange_widenLower (rightInside other inRight) leftOpens
        · simpa using enough
        · simp [List.zip_append leftLengths.symm]
        · intro nextId
          simp only [Node.leaves_leaf, List.flatMap_cons, List.flatMap_nil, List.append_nil,
            List.singleton_append]
          apply Rethreads.merge <;> rfl
  | height + 1, .internal leftKeys leftChildren, .internal rightKeys rightChildren,
      onLeft, onRight =>
      obtain ⟨leftRoom, leftChain, leftFilled⟩ := onLeft
      obtain ⟨rightRoom, rightChain, rightFilled⟩ := onRight
      simp only [Node.keys_internal] at *
      refine ⟨.internal (leftKeys ++ separator :: rightKeys) (leftChildren ++ rightChildren), ?_, ?_⟩
      · simp [mergeInto, getSeparator, removeSeparator, ArrayList.set_append, remove_succ_append]
      · constructor
        · refine ⟨by simp only [List.length_append, List.length_cons]; omega,
            (chain_append leftChain.length).mpr ⟨leftChain, rightChain⟩, ?_⟩
          intro node member
          exact (List.mem_append.mp member).elim (leftFilled node) (rightFilled node)
        · intro node member
          obtain rfl := List.mem_singleton.mp member
          simp only [Node.keys_internal, List.length_append, List.length_cons]
          omega
        · simp
        · intro nextId
          simpa using Rethreads.refl nextId ((leftChildren ++ rightChildren).flatMap Node.leaves)

/-! ## Choosing the repair -/

/-- What `rebalance` gives back to the parent. -/
structure Rebalanced (minKeys maxKeys height : Nat) (lo hi : Option K)
    (keys : List K) (children : List (Node K V)) (keys' : List K)
    (children' : List (Node K V)) : Prop where
  chain : Chain (Shape minKeys maxKeys height) lo keys' children' hi
  filled : ∀ node ∈ children', minKeys ≤ node.keys.length
  entries : children'.flatMap Node.entries = children.flatMap Node.entries
  leaves : ∀ nextId, Rethreads nextId nextId (children.flatMap Node.leaves)
    (children'.flatMap Node.leaves)
  notGrown : keys'.length ≤ keys.length
  almost : keys.length ≤ keys'.length + 1

/-- Putting a repaired pair back between its neighbours. -/
theorem Repaired.rebalanced {lo hi : Option K} {left right : Node K V} {fillKeys : List K}
    {filling : List (Node K V)}
    (repaired : Repaired minKeys maxKeys height a b left right fillKeys filling)
    (fill : ∀ fillKeys filling, Chain (Shape minKeys maxKeys height) a fillKeys filling b →
      Chain (Shape minKeys maxKeys height) lo (frontKeys ++ fillKeys ++ backKeys)
        (front ++ filling ++ back) hi)
    (frontFilled : ∀ node ∈ front, minKeys ≤ node.keys.length)
    (backFilled : ∀ node ∈ back, minKeys ≤ node.keys.length)
    (atMostOne : fillKeys.length ≤ 1) :
    Rebalanced minKeys maxKeys height lo hi (frontKeys ++ separator :: backKeys)
      (front ++ left :: right :: back) (frontKeys ++ fillKeys ++ backKeys)
      (front ++ filling ++ back) where
  chain := fill fillKeys filling repaired.chain
  filled node member := by
    rcases List.mem_append.mp member with inFrontOrFilling | inBack
    · exact (List.mem_append.mp inFrontOrFilling).elim (frontFilled node) (repaired.filled node)
    · exact backFilled node inBack
  entries := by simp [repaired.entries]
  leaves nextId := by
    simpa using (repaired.leaves nextId).frame (front.flatMap Node.leaves) (back.flatMap Node.leaves)
  notGrown := by
    simp only [List.length_append, List.length_cons]
    omega
  almost := by
    simp only [List.length_append, List.length_cons]
    omega

section RebalanceCases

variable {lo hi : Option K} {keys : List K} {child : Node K V}

/-- Only the right sibling is looked at when it has keys to spare. -/
theorem rebalance_fromRight {right : Node K V} (half : 2 * minKeys ≤ maxKeys)
    (chain : Chain (Shape minKeys maxKeys height) lo keys (front ++ child :: right :: back) hi)
    (frontFilled : ∀ node ∈ front, minKeys ≤ node.keys.length)
    (backFilled : ∀ node ∈ back, minKeys ≤ node.keys.length)
    (lacking : child.keys.length < minKeys) (almost : minKeys ≤ child.keys.length + 1)
    (spare : minKeys < right.keys.length) :
    ∃ keys' children',
      borrowFromRight keys (front ++ child :: right :: back) front.length =
        some (keys', children') ∧
      Rebalanced minKeys maxKeys height lo hi keys (front ++ child :: right :: back)
        keys' children' := by
  obtain ⟨frontKeys, separator, backKeys, a, b, rfl, lengths, onChild, onRight, fill⟩ := chain.pair
  obtain ⟨key, child', right', borrowed, repaired⟩ :=
    borrowFromRight_spec backKeys back lengths half onChild onRight spare
      lacking almost
  refine ⟨_, _, borrowed, ?_⟩
  simpa using repaired.rebalanced fill frontFilled backFilled (by simp)

theorem rebalance_fromLeft {left : Node K V} (half : 2 * minKeys ≤ maxKeys)
    (chain : Chain (Shape minKeys maxKeys height) lo keys (front ++ left :: child :: back) hi)
    (frontFilled : ∀ node ∈ front, minKeys ≤ node.keys.length)
    (backFilled : ∀ node ∈ back, minKeys ≤ node.keys.length)
    (lacking : child.keys.length < minKeys) (almost : minKeys ≤ child.keys.length + 1)
    (spare : minKeys < left.keys.length) :
    ∃ keys' children',
      borrowFromLeft keys (front ++ left :: child :: back) (front.length + 1) =
        some (keys', children') ∧
      Rebalanced minKeys maxKeys height lo hi keys (front ++ left :: child :: back)
        keys' children' := by
  obtain ⟨frontKeys, separator, backKeys, a, b, rfl, lengths, onLeft, onChild, fill⟩ := chain.pair
  obtain ⟨key, left', child', borrowed, repaired⟩ :=
    borrowFromLeft_spec backKeys back lengths half onLeft onChild spare
      lacking almost
  refine ⟨_, _, borrowed, ?_⟩
  simpa using repaired.rebalanced fill frontFilled backFilled (by simp)

theorem rebalance_merge {left right : Node K V}
    (chain : Chain (Shape minKeys maxKeys height) lo keys (front ++ left :: right :: back) hi)
    (frontFilled : ∀ node ∈ front, minKeys ≤ node.keys.length)
    (backFilled : ∀ node ∈ back, minKeys ≤ node.keys.length)
    (room : left.keys.length + right.keys.length < maxKeys)
    (enough : minKeys ≤ left.keys.length + right.keys.length) :
    ∃ keys' children',
      mergeInto keys (front ++ left :: right :: back) front.length = some (keys', children') ∧
      Rebalanced minKeys maxKeys height lo hi keys (front ++ left :: right :: back)
        keys' children' := by
  obtain ⟨frontKeys, separator, backKeys, a, b, rfl, lengths, onLeft, onRight, fill⟩ := chain.pair
  obtain ⟨merged, isMerged, repaired⟩ :=
    mergeInto_spec backKeys back lengths onLeft onRight room enough
  refine ⟨_, _, isMerged, ?_⟩
  simpa using repaired.rebalanced fill frontFilled backFilled (by simp)

omit [LinearOrder K] in
/-- The choice for the leftmost child. -/
theorem rebalance_leftmost (minKeys : Nat) (keys : List K) (child : Node K V)
    (back : List (Node K V)) :
    rebalance minKeys keys (child :: back) 0 =
      if back.head?.any (minKeys < ·.keys.length) then borrowFromRight keys (child :: back) 0
      else mergeInto keys (child :: back) 0 := by
  simp [rebalance, List.head?_eq_getElem?]

omit [LinearOrder K] in
/-- The choice for a child with a left sibling. -/
theorem rebalance_behind (minKeys : Nat) (keys : List K) (front : List (Node K V))
    (left child : Node K V) (back : List (Node K V)) :
    rebalance minKeys keys (front ++ left :: child :: back) (front.length + 1) =
      if minKeys < left.keys.length then
        borrowFromLeft keys (front ++ left :: child :: back) (front.length + 1)
      else if back.head?.any (minKeys < ·.keys.length) then
        borrowFromRight keys (front ++ left :: child :: back) (front.length + 1)
      else mergeInto keys (front ++ left :: child :: back) front.length := by
  have getRight : (front ++ left :: child :: back)[front.length + 1 + 1]? = back.head? := by
    rw [List.getElem?_append_right (by omega), List.head?_eq_getElem?]
    simp [show front.length + 1 + 1 - front.length = 2 by omega]
  simp [rebalance, getRight]

theorem rebalance_spec (half : 2 * minKeys ≤ maxKeys)
    (chain : Chain (Shape minKeys maxKeys height) lo keys (front ++ child :: back) hi)
    (frontFilled : ∀ node ∈ front, minKeys ≤ node.keys.length)
    (backFilled : ∀ node ∈ back, minKeys ≤ node.keys.length)
    (lacking : child.keys.length < minKeys) (almost : minKeys ≤ child.keys.length + 1)
    (hasSibling : 0 < keys.length) :
    ∃ keys' children',
      rebalance minKeys keys (front ++ child :: back) front.length = some (keys', children') ∧
      Rebalanced minKeys maxKeys height lo hi keys (front ++ child :: back) keys' children' := by
  have count := chain.length
  rcases List.eq_nil_or_concat front with rfl | ⟨front, left, rfl⟩
  · obtain ⟨right, rest, rfl⟩ : ∃ right rest, back = right :: rest :=
      List.exists_cons_of_length_pos (by simp at count; omega)
    have restFilled : ∀ node ∈ rest, minKeys ≤ node.keys.length :=
      fun node member => backFilled node (List.mem_cons_of_mem _ member)
    have rightFilled := backFilled right List.mem_cons_self
    simp only [List.nil_append, List.length_nil, rebalance_leftmost]
    by_cases rightSpare : minKeys < right.keys.length
    · simpa [rightSpare] using
        rebalance_fromRight half chain frontFilled restFilled lacking almost rightSpare
    · simpa [rightSpare] using
        rebalance_merge chain frontFilled restFilled (by omega) (by omega)
  · simp only [List.concat_eq_append, List.append_assoc, List.singleton_append,
      List.length_append, List.length_singleton] at chain frontFilled ⊢
    have leftFilled := frontFilled left (by simp)
    have farFilled : ∀ node ∈ front, minKeys ≤ node.keys.length :=
      fun node member => frontFilled node (List.mem_append_left _ member)
    rw [rebalance_behind]
    by_cases leftSpare : minKeys < left.keys.length
    · rw [if_pos leftSpare]
      exact rebalance_fromLeft half chain farFilled backFilled lacking almost leftSpare
    · rw [if_neg leftSpare]
      by_cases rightSpare : (back.head?.any fun right => decide (minKeys < right.keys.length)) = true
      · rw [if_pos rightSpare]
        obtain ⟨right, rest, rfl⟩ : ∃ right rest, back = right :: rest := by
          cases back with
          | nil => simp at rightSpare
          | cons right rest => exact ⟨right, rest, rfl⟩
        have chain' : Chain (Shape minKeys maxKeys height) lo keys
            ((front ++ [left]) ++ child :: right :: rest) hi := by simpa using chain
        simpa using rebalance_fromRight half chain' frontFilled
          (fun node member => backFilled node (List.mem_cons_of_mem _ member)) lacking almost
          (by simpa using rightSpare)
      · rw [if_neg rightSpare]
        exact rebalance_merge chain farFilled backFilled (by omega) (by omega)

end RebalanceCases

end FoundationsLab.BTree
