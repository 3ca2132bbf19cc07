import FoundationsLab.BTree.Shape

/-! # The leaf chain

`Linked` says that the `next` references of a list of leaves visit exactly these
leaves in order. `Rethreads` is what an operation may do to the leaves below a
node without disturbing the chain around them. -/

namespace FoundationsLab.BTree

open Foundation

variable {K V : Type}

/-- The reference to the first of the leaves, or to whatever follows them. -/
def firstId (leaves : List (Leaf K V)) (tail : Option Nat) : Option Nat :=
  match leaves with
  | [] => tail
  | leaf :: _ => some leaf.id

/-- Each leaf refers to the one after it, and the last one to `tail`. -/
def Linked : List (Leaf K V) → Option Nat → Prop
  | [], _ => True
  | leaf :: leaves, tail => leaf.next = firstId leaves tail ∧ Linked leaves tail

theorem firstId_append (front back : List (Leaf K V)) (tail : Option Nat) :
    firstId (front ++ back) tail = firstId front (firstId back tail) := by
  cases front <;> rfl

theorem linked_append (front back : List (Leaf K V)) (tail : Option Nat) :
    Linked (front ++ back) tail ↔ Linked front (firstId back tail) ∧ Linked back tail := by
  induction front with
  | nil => simp [Linked]
  | cons leaf front induction =>
      simp only [List.cons_append, Linked, induction, firstId_append, and_assoc]

def leafIds (leaves : List (Leaf K V)) : List Nat := leaves.map (·.id)

theorem leafIds_append (front back : List (Leaf K V)) :
    leafIds (front ++ back) = leafIds front ++ leafIds back := by
  simp [leafIds]

/-- The identities of the leaves are distinct and already allocated. -/
structure Allocated (nextId : Nat) (leaves : List (Leaf K V)) : Prop where
  nodup : (leafIds leaves).Nodup
  below : ∀ id ∈ leafIds leaves, id < nextId

theorem allocated_append {nextId : Nat} {front back : List (Leaf K V)} :
    Allocated nextId (front ++ back) ↔
      Allocated nextId front ∧ Allocated nextId back ∧
        ∀ id ∈ leafIds front, id ∉ leafIds back := by
  constructor
  · rintro ⟨nodup, below⟩
    rw [leafIds_append] at nodup below
    have parts := List.nodup_append.mp nodup
    exact ⟨⟨parts.1, fun id member => below id (List.mem_append_left _ member)⟩,
      ⟨parts.2.1, fun id member => below id (List.mem_append_right _ member)⟩,
      fun id inFront inBack => parts.2.2 id inFront id inBack rfl⟩
  · rintro ⟨⟨frontNodup, frontBelow⟩, ⟨backNodup, backBelow⟩, disjoint⟩
    constructor
    · rw [leafIds_append]
      exact List.nodup_append.mpr ⟨frontNodup, backNodup,
        fun first inFront second inBack equal => disjoint first inFront (equal ▸ inBack)⟩
    · rw [leafIds_append]
      intro id member
      exact (List.mem_append.mp member).elim (frontBelow id) (backBelow id)

/-- Some leaves are replaced by others under the same entrance and exit of the
chain. New leaves carry identities allocated on the way. -/
structure Rethreads (nextId nextId' : Nat) (old new : List (Leaf K V)) : Prop where
  mono : nextId ≤ nextId'
  first : ∀ tail, firstId new tail = firstId old tail
  linked : ∀ tail, Linked old tail → Linked new tail
  nodup : Allocated nextId old → (leafIds new).Nodup
  origin : ∀ id ∈ leafIds new, id ∈ leafIds old ∨ nextId ≤ id ∧ id < nextId'

namespace Rethreads

variable {nextId nextId' nextId'' : Nat} {old middle new : List (Leaf K V)}

theorem refl (nextId : Nat) (leaves : List (Leaf K V)) :
    Rethreads nextId nextId leaves leaves where
  mono := le_rfl
  first _ := rfl
  linked _ linked := linked
  nodup allocated := allocated.nodup
  origin _ member := .inl member

theorem allocated (step : Rethreads nextId nextId' old new) (before : Allocated nextId old) :
    Allocated nextId' new where
  nodup := step.nodup before
  below id member := by
    rcases step.origin id member with known | fresh
    · exact lt_of_lt_of_le (before.below id known) step.mono
    · exact fresh.2

theorem trans (left : Rethreads nextId nextId' old middle)
    (right : Rethreads nextId' nextId'' middle new) : Rethreads nextId nextId'' old new where
  mono := left.mono.trans right.mono
  first tail := (right.first tail).trans (left.first tail)
  linked tail linked := right.linked tail (left.linked tail linked)
  nodup before := right.nodup (left.allocated before)
  origin id member := by
    rcases right.origin id member with known | fresh
    · rcases left.origin id known with known | fresh
      · exact .inl known
      · exact .inr ⟨fresh.1, lt_of_lt_of_le fresh.2 right.mono⟩
    · exact .inr ⟨left.mono.trans fresh.1, fresh.2⟩

/-- The leaves around the replaced ones are not affected. -/
theorem frame (step : Rethreads nextId nextId' old new) (front back : List (Leaf K V)) :
    Rethreads nextId nextId' (front ++ old ++ back) (front ++ new ++ back) where
  mono := step.mono
  first tail := by simp only [firstId_append, step.first]
  linked tail linked := by
    rw [linked_append, linked_append] at linked ⊢
    rw [step.first]
    exact ⟨⟨linked.1.1, step.linked _ linked.1.2⟩, linked.2⟩
  nodup before := by
    obtain ⟨frontAndOld, onBack, apartBack⟩ := allocated_append.mp before
    obtain ⟨onFront, onOld, apartFront⟩ := allocated_append.mp frontAndOld
    have after := step.nodup onOld
    rw [leafIds_append, leafIds_append]
    refine List.nodup_append.mpr ⟨List.nodup_append.mpr ⟨onFront.nodup, after, ?_⟩,
      onBack.nodup, ?_⟩
    · rintro id inFront _ inNew rfl
      rcases step.origin id inNew with known | fresh
      · exact apartFront id inFront known
      · exact absurd (onFront.below id inFront) (not_lt.mpr fresh.1)
    · rintro id inFrontOrNew _ inBack rfl
      rcases List.mem_append.mp inFrontOrNew with inFront | inNew
      · exact apartBack id (by simp [leafIds_append, inFront]) inBack
      · rcases step.origin id inNew with known | fresh
        · exact apartBack id (by simp [leafIds_append, known]) inBack
        · exact absurd (onBack.below id inBack) (not_lt.mpr fresh.1)
  origin id member := by
    simp only [leafIds_append, List.mem_append] at member ⊢
    rcases member with (inFront | inNew) | inBack
    · exact .inl (.inl (.inl inFront))
    · exact (step.origin id inNew).imp (fun known => .inl (.inr known)) fun fresh => fresh
    · exact .inl (.inr inBack)

/-- Rewriting the keys and values of a leaf leaves the chain alone. -/
theorem update (leaf leaf' : Leaf K V) (sameId : leaf'.id = leaf.id)
    (sameNext : leaf'.next = leaf.next) (nextId : Nat) :
    Rethreads nextId nextId [leaf] [leaf'] where
  mono := le_rfl
  first _ := by simp [firstId, sameId]
  linked _ := by simp [Linked, firstId, sameNext]
  nodup _ := by simp [leafIds]
  origin id member := .inl (by simpa [leafIds, sameId] using member)

/-- Rewriting two adjacent leaves in place. -/
theorem updatePair (left left' right right' : Leaf K V) (leftId : left'.id = left.id)
    (leftNext : left'.next = left.next) (rightId : right'.id = right.id)
    (rightNext : right'.next = right.next) (nextId : Nat) :
    Rethreads nextId nextId [left, right] [left', right'] :=
  ((update left left' leftId leftNext nextId).frame [] [right]).trans
    ((update right right' rightId rightNext nextId).frame [left'] [])

/-- Splitting a leaf links a freshly allocated one behind it. -/
theorem split (leaf left right : Leaf K V) {nextId : Nat} (leftId : left.id = leaf.id)
    (leftNext : left.next = some right.id) (rightId : right.id = nextId)
    (rightNext : right.next = leaf.next) :
    Rethreads nextId (nextId + 1) [leaf] [left, right] where
  mono := Nat.le_succ nextId
  first _ := by simp [firstId, leftId]
  linked _ := by simp [Linked, firstId, leftNext, rightNext]
  nodup before := by
    have below : leaf.id < nextId := before.below leaf.id (by simp [leafIds])
    simp [leafIds, leftId, rightId, below.ne]
  origin id member := by
    simp only [leafIds, List.map_cons, List.map_nil, List.mem_cons, List.not_mem_nil, or_false,
      leftId, rightId] at member ⊢
    omega

/-- Merging a leaf into its left neighbour unlinks it. -/
theorem merge (left right merged : Leaf K V) (sameId : merged.id = left.id)
    (sameNext : merged.next = right.next) (nextId : Nat) :
    Rethreads nextId nextId [left, right] [merged] where
  mono := le_rfl
  first _ := by simp [firstId, sameId]
  linked _ := by simp [Linked, firstId, sameNext]
  nodup _ := by simp [leafIds]
  origin id member := .inl (by
    simp only [leafIds, List.map_cons, List.map_nil, List.mem_cons, List.not_mem_nil, or_false,
      sameId] at member ⊢
    exact .inl member)

end Rethreads

/-! ## Following references -/

theorem derefLeaf_of_nodup {front back : List (Leaf K V)} {leaf : Leaf K V}
    (nodup : (leafIds (front ++ leaf :: back)).Nodup) :
    derefLeaf (front ++ leaf :: back) leaf.id = some leaf := by
  rw [leafIds_append] at nodup
  have apart := (List.nodup_append.mp nodup).2.2
  rw [derefLeaf, List.find?_append, List.find?_eq_none.mpr, List.find?_cons]
  · simp
  · intro other member same
    have sameId : other.id = leaf.id := by simpa using same
    exact apart other.id (List.mem_map_of_mem member) leaf.id (by simp [leafIds]) sameId

end FoundationsLab.BTree
