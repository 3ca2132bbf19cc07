import FoundationsLab.Crdt.ORSet

/-! # Objects that share replica ids

A program may make several sets under one replica id, by the constructor or by
`clone`, and may edit and merge them in any order. Their tags come from separate
clocks. -/

namespace FoundationsLab.Crdt

open Foundation
open Foundation.JavaString (ofAscii)

namespace ORSet

variable {α : Type} [LinearOrder α]

/-- Values are copied when they are changed, so a copy is the set itself. -/
def clone (set : ORSet α) : ORSet α where
  replicaId := set.replicaId
  adds := set.adds
  removed := set.removed
  clock := set.clock

/-- The tag that the next addition mints. -/
def nextTag (set : ORSet α) : JsString := tag set.replicaId (set.clock + 1)

/-- The tag is one of an element or is retired, as far as the set knows. -/
def Knows (set : ORSet α) (t : JsString) : Prop :=
  t ∈ set.removed ∨ ∃ element, t ∈ set.tags element

theorem has_add (set : ORSet α) (element : α) :
    (set.add element).has element = true ↔
      set.nextTag ∉ set.removed ∨ set.has element = true := by
  have sameRemoved : (set.add element).removed = set.removed := rfl
  rw [has_iff, has_iff, tags_add, if_pos rfl, sameRemoved]
  constructor
  · rintro ⟨t, member, kept⟩
    rcases Finset.mem_insert.mp member with isNew | isOld
    · rw [isNew] at kept
      exact Or.inl kept
    · exact Or.inr ⟨t, isOld, kept⟩
  · rintro (kept | ⟨t, isOld, kept⟩)
    · exact ⟨_, Finset.mem_insert_self _ _, kept⟩
    · exact ⟨t, Finset.mem_insert_of_mem isOld, kept⟩

end ORSet

/-- The calls of a program; objects are numbered in the order they are made. -/
inductive ObjectCall (α : Type) where
  | construct (replicaId : JsString)
  | clone (object : Nat)
  | add (object : Nat) (element : α)
  | remove (object : Nat) (element : α)
  | merge (object other : Nat)

namespace ObjectCall

variable {α : Type} [LinearOrder α]

def step (objects : List (ORSet α)) : ObjectCall α → Option (List (ORSet α))
  | .construct replicaId => some (objects ++ [ORSet.new replicaId])
  | .clone object => do
      let set ← objects[object]?
      some (objects ++ [set.clone])
  | .add object element => do
      let set ← objects[object]?
      some (objects.set object (set.add element))
  | .remove object element => do
      let set ← objects[object]?
      some (objects.set object (set.remove element))
  | .merge object other => do
      let set ← objects[object]?
      let source ← objects[other]?
      some (objects.set object (set.merge source))

def run (objects : List (ORSet α)) : List (ObjectCall α) → Option (List (ORSet α))
  | [] => some objects
  | call :: calls => do
      let next ← step objects call
      run next calls

/-- The additions under each replica id all go through one object. -/
def OneEditor (editor : JsString → Nat) : List (ORSet α) → List (ObjectCall α) → Prop
  | _, [] => True
  | objects, call :: calls =>
      (∀ object element set, call = .add object element → objects[object]? = some set →
        editor set.replicaId = object) ∧
      ∀ next, step objects call = some next → OneEditor editor next calls

/-- The clock of the object that edits under a replica id. -/
def editorClock (editor : JsString → Nat) (objects : List (ORSet α)) (replicaId : JsString) : Nat :=
  match objects[editor replicaId]? with
  | some set => if set.replicaId = replicaId then set.clock else 0
  | none => 0

/-- Every tag that an object knows was minted by the editor of its replica id. -/
def Minted (editor : JsString → Nat) (objects : List (ORSet α)) : Prop :=
  ∀ set ∈ objects, ∀ replicaId clock, set.Knows (ORSet.tag replicaId clock) →
    clock ≤ editorClock editor objects replicaId

theorem editorClock_append (editor : JsString → Nat) (objects : List (ORSet α)) (set : ORSet α)
    (replicaId : JsString) :
    editorClock editor objects replicaId ≤ editorClock editor (objects ++ [set]) replicaId := by
  rw [editorClock, editorClock]
  by_cases inside : editor replicaId < objects.length
  · rw [List.getElem?_append_left inside]
  · rw [List.getElem?_eq_none (Nat.le_of_not_lt inside)]
    exact Nat.zero_le _

theorem editorClock_set (editor : JsString → Nat) {objects : List (ORSet α)} {object : Nat}
    {old new : ORSet α} (found : objects[object]? = some old)
    (sameId : new.replicaId = old.replicaId) (later : old.clock ≤ new.clock)
    (replicaId : JsString) :
    editorClock editor objects replicaId ≤ editorClock editor (objects.set object new) replicaId := by
  rw [editorClock, editorClock, List.getElem?_set]
  have inside := (List.getElem?_eq_some_iff.mp found).1
  by_cases isEditor : object = editor replicaId
  · rw [if_pos isEditor, if_pos inside, ← isEditor, found]
    simp only [sameId]
    split
    next => exact later
    next => exact Nat.le_refl _
  · rw [if_neg isEditor]

/-- An object in which some tags are known more than in the objects before. -/
theorem Minted.of_knows {editor : JsString → Nat} {objects next : List (ORSet α)}
    (minted : Minted editor objects)
    (grows : ∀ replicaId, editorClock editor objects replicaId ≤ editorClock editor next replicaId)
    (knows : ∀ set ∈ next, ∀ replicaId clock, set.Knows (ORSet.tag replicaId clock) →
      (∃ old ∈ objects, old.Knows (ORSet.tag replicaId clock)) ∨
        clock ≤ editorClock editor next replicaId) :
    Minted editor next := by
  intro set member replicaId clock isKnown
  rcases knows set member replicaId clock isKnown with ⟨old, isOld, wasKnown⟩ | isMinted
  · exact (minted old isOld replicaId clock wasKnown).trans (grows replicaId)
  · exact isMinted

theorem Minted.append {editor : JsString → Nat} {objects : List (ORSet α)} {set : ORSet α}
    (minted : Minted editor objects)
    (knows : ∀ t, set.Knows t → ∃ old ∈ objects, old.Knows t) :
    Minted editor (objects ++ [set]) := by
  apply minted.of_knows (editorClock_append editor objects set)
  intro other member replicaId clock isKnown
  rcases List.mem_append.mp member with isOld | isNew
  · exact Or.inl ⟨other, isOld, isKnown⟩
  · rw [List.mem_singleton.mp isNew] at isKnown
    exact Or.inl (knows _ isKnown)

theorem Minted.replace {editor : JsString → Nat} {objects : List (ORSet α)} {object : Nat}
    {old new : ORSet α} (minted : Minted editor objects) (found : objects[object]? = some old)
    (sameId : new.replicaId = old.replicaId) (later : old.clock ≤ new.clock)
    (knows : ∀ replicaId clock, new.Knows (ORSet.tag replicaId clock) →
      (∃ source ∈ objects, source.Knows (ORSet.tag replicaId clock)) ∨
        clock ≤ editorClock editor (objects.set object new) replicaId) :
    Minted editor (objects.set object new) := by
  apply minted.of_knows (editorClock_set editor found sameId later)
  intro other member replicaId clock isKnown
  rcases List.mem_or_eq_of_mem_set member with isOld | isNew
  · exact Or.inl ⟨other, isOld, isKnown⟩
  · rw [isNew] at isKnown
    exact knows replicaId clock isKnown

theorem Minted.step {editor : JsString → Nat} {objects next : List (ORSet α)}
    {call : ObjectCall α} (minted : Minted editor objects)
    (allowed : ∀ object element set, call = .add object element → objects[object]? = some set →
      editor set.replicaId = object)
    (stepped : step objects call = some next) : Minted editor next := by
  cases call with
  | construct replicaId =>
      cases stepped
      apply minted.append
      rintro t (isRemoved | ⟨element, isTag⟩)
      · simp [ORSet.new] at isRemoved
      · simp [ORSet.new, ORSet.tags, SortedMap.get_empty] at isTag
  | clone object =>
      obtain ⟨set, found, isNext⟩ := Option.bind_eq_some_iff.mp stepped
      cases isNext
      apply minted.append
      intro t isKnown
      exact ⟨set, List.mem_of_getElem? found, isKnown⟩
  | add object element =>
      obtain ⟨set, found, isNext⟩ := Option.bind_eq_some_iff.mp stepped
      cases isNext
      have isOld : set ∈ objects := List.mem_of_getElem? found
      have sameId : (set.add element).replicaId = set.replicaId := rfl
      have later : set.clock ≤ (set.add element).clock := Nat.le_succ _
      apply minted.replace found sameId later
      intro replicaId clock isKnown
      rcases isKnown with isRemoved | ⟨other, isTag⟩
      · exact Or.inl ⟨set, isOld, Or.inl isRemoved⟩
      · rw [ORSet.tags_add] at isTag
        split at isTag
        next isElement =>
          rcases Finset.mem_insert.mp isTag with isNew | wasTag
          · obtain ⟨rfl, rfl⟩ := ORSet.tag_injective isNew
            apply Or.inr
            have isEditor := allowed object element set rfl found
            have inside := (List.getElem?_eq_some_iff.mp found).1
            rw [editorClock, isEditor, List.getElem?_set_self inside]
            simp [ORSet.add]
          · exact Or.inl ⟨set, isOld, Or.inr ⟨element, wasTag⟩⟩
        next => exact Or.inl ⟨set, isOld, Or.inr ⟨other, isTag⟩⟩
  | remove object element =>
      obtain ⟨set, found, isNext⟩ := Option.bind_eq_some_iff.mp stepped
      cases isNext
      have isOld : set ∈ objects := List.mem_of_getElem? found
      apply minted.replace found
      · rw [ORSet.remove]
        split <;> rfl
      · rw [ORSet.remove]
        split <;> exact Nat.le_refl _
      · intro replicaId clock isKnown
        rcases isKnown with isRemoved | ⟨other, isTag⟩
        · rw [ORSet.removed_remove, Finset.mem_union] at isRemoved
          rcases isRemoved with wasRemoved | isTag
          · exact Or.inl ⟨set, isOld, Or.inl wasRemoved⟩
          · exact Or.inl ⟨set, isOld, Or.inr ⟨element, isTag⟩⟩
        · rw [ORSet.tags_remove] at isTag
          exact Or.inl ⟨set, isOld, Or.inr ⟨other, isTag⟩⟩
  | merge object other =>
      obtain ⟨set, found, isRest⟩ := Option.bind_eq_some_iff.mp stepped
      obtain ⟨source, isSource, isNext⟩ := Option.bind_eq_some_iff.mp isRest
      cases isNext
      have isOld : set ∈ objects := List.mem_of_getElem? found
      have isOther : source ∈ objects := List.mem_of_getElem? isSource
      have sameId : (set.merge source).replicaId = set.replicaId := rfl
      have later : set.clock ≤ (set.merge source).clock := Nat.le_refl _
      apply minted.replace found sameId later
      intro replicaId clock isKnown
      rcases isKnown with isRemoved | ⟨element, isTag⟩
      · rcases Finset.mem_union.mp isRemoved with mine | theirs
        · exact Or.inl ⟨set, isOld, Or.inl mine⟩
        · exact Or.inl ⟨source, isOther, Or.inl theirs⟩
      · rw [ORSet.tags_merge, Finset.mem_union] at isTag
        rcases isTag with mine | theirs
        · exact Or.inl ⟨set, isOld, Or.inr ⟨element, mine⟩⟩
        · exact Or.inl ⟨source, isOther, Or.inr ⟨element, theirs⟩⟩

theorem Minted.run {editor : JsString → Nat} {objects final : List (ORSet α)}
    {calls : List (ObjectCall α)} (minted : Minted editor objects)
    (oneEditor : OneEditor editor objects calls) (ran : run objects calls = some final) :
    Minted editor final := by
  induction calls generalizing objects with
  | nil =>
      cases ran
      exact minted
  | cons call calls induction =>
      obtain ⟨next, stepped, onward⟩ := Option.bind_eq_some_iff.mp ran
      exact induction (minted.step oneEditor.1 stepped) (oneEditor.2 next stepped) onward

/-- A tag that the editor of a replica id is about to mint is not known anywhere. -/
theorem Minted.fresh {editor : JsString → Nat} {objects : List (ORSet α)} {object : Nat}
    {set : ORSet α} (minted : Minted editor objects) (found : objects[object]? = some set)
    (isEditor : editor set.replicaId = object) : set.nextTag ∉ set.removed := by
  intro isRemoved
  have bound := minted set (List.mem_of_getElem? found) _ _ (Or.inl isRemoved)
  rw [editorClock, isEditor, found] at bound
  simp at bound

/-- An addition takes effect exactly when its tag is not retired yet or the element
is there anyway; so it does in every run in which each replica id is edited
through one object. -/
theorem add_takes_effect :
    (∀ (set : ORSet α) (element : α), (set.add element).has element = true ↔
      set.nextTag ∉ set.removed ∨ set.has element = true) ∧
    ∀ (editor : JsString → Nat) (calls : List (ObjectCall α)) (objects : List (ORSet α)),
      OneEditor editor [] calls → run [] calls = some objects →
      ∀ object set element, objects[object]? = some set → editor set.replicaId = object →
        (set.add element).has element = true := by
  constructor
  · exact ORSet.has_add
  · intro editor calls objects oneEditor ran object set element found isEditor
    have empty : Minted editor ([] : List (ORSet α)) := by
      intro set member
      cases member
    have minted := empty.run oneEditor ran
    exact (ORSet.has_add set element).mpr (Or.inl (minted.fresh found isEditor))

/-- A replica adds an element and removes it; an object that is made under its id
after a restart merges that state. -/
def restarted : List (ObjectCall Nat) :=
  [.construct (ofAscii ['r']), .add 0 7, .remove 0 7, .construct (ofAscii ['r']), .merge 1 0]

/-- What the restarted object adds is not there. -/
theorem added_element_is_missing :
    ∃ objects set, run [] restarted = some objects ∧ objects[1]? = some set ∧
      (set.add 7).has 7 = false := by
  have defined : (run [] restarted).isSome = true := by decide +kernel
  obtain ⟨objects, ran⟩ := Option.isSome_iff_exists.mp defined
  have there : ((run [] restarted).bind fun objects => objects[1]?.map fun set =>
      (set.add 7).has 7) = some false := by decide +kernel
  rw [ran, Option.bind_some, Option.map_eq_some_iff] at there
  obtain ⟨set, found, isMissing⟩ := there
  exact ⟨objects, set, ran, found, isMissing⟩

end ObjectCall

end FoundationsLab.Crdt
