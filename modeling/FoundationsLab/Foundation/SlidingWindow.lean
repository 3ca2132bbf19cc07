import Mathlib.Data.List.Basic
import Mathlib.Tactic.Common

/-! # Pieces of a text

A text as a sequence of pieces: an element of its own, or a copy of what stands some
way back. A copy may overlap what it writes, so it goes element by element. -/

namespace FoundationsLab.Foundation.SlidingWindow

variable {α : Type*}

inductive Piece (α : Type*) where
  | literal (element : α)
  | copy (length distance : Nat)

/-- Appends elements from the distance back. -/
def copyBack (out : List α) (distance : Nat) : (length : Nat) → Option (List α)
  | 0 => some out
  | length + 1 => do
      let out ← copyBack out distance length
      let element ← out[out.length - distance]?
      return out ++ [element]

/-- A copy that reaches before the beginning has no meaning. -/
def expandPiece (out : List α) : Piece α → Option (List α)
  | .literal element => some (out ++ [element])
  | .copy length distance =>
      if 1 ≤ distance ∧ distance ≤ out.length then copyBack out distance length else none

/-- The text that the pieces spell after what there is. -/
def expandFrom (out : List α) (pieces : List (Piece α)) : Option (List α) :=
  pieces.foldlM expandPiece out

def expand (pieces : List (Piece α)) : Option (List α) := expandFrom [] pieces

theorem expandFrom_append (out : List α) (pieces pieces' : List (Piece α)) :
    expandFrom out (pieces ++ pieces') =
      (expandFrom out pieces).bind fun out' => expandFrom out' pieces' :=
  List.foldlM_append

theorem expand_concat (pieces : List (Piece α)) (piece : Piece α) :
    expand (pieces ++ [piece]) = (expand pieces).bind fun out => expandPiece out piece := by
  rw [expand, expandFrom_append, expand]
  congr 1
  funext out
  exact List.foldlM_cons.trans (bind_pure (expandPiece out piece))

/-! ## Renaming the elements -/

section Map

variable {β : Type*} {f : α → β} {out : List α}

def Piece.map (f : α → β) : Piece α → Piece β
  | .literal element => .literal (f element)
  | .copy length distance => .copy length distance

theorem copyBack_map (distance length : Nat) :
    copyBack (out.map f) distance length = (copyBack out distance length).map (List.map f) := by
  induction length with
  | zero => rfl
  | succ length induction =>
      rw [copyBack, copyBack, induction]
      cases copyBack out distance length with
      | none => rfl
      | some copied =>
          dsimp only [bind, Option.bind, Option.map]
          rw [List.length_map, List.getElem?_map]
          cases copied[copied.length - distance]? with
          | none => rfl
          | some element =>
              dsimp only [Option.map, pure]
              rw [List.map_append]
              rfl

/-- The renamed pieces spell the renamed text: a copy does not look at what it copies. -/
theorem expandFrom_map (pieces : List (Piece α)) :
    expandFrom (out.map f) (pieces.map (Piece.map f)) =
      (expandFrom out pieces).map (List.map f) := by
  induction pieces generalizing out with
  | nil => rfl
  | cons piece pieces induction =>
      have first : expandPiece (out.map f) (piece.map f) =
          (expandPiece out piece).map (List.map f) := by
        cases piece with
        | literal element =>
            rw [Piece.map, expandPiece, expandPiece, Option.map, List.map_append]
            rfl
        | copy length distance =>
            rw [Piece.map, expandPiece, expandPiece, List.length_map]
            split
            · exact copyBack_map distance length
            · rfl
      rw [List.map_cons, expandFrom, List.foldlM_cons, first, expandFrom, List.foldlM_cons]
      cases expandPiece out piece with
      | none => rfl
      | some next => exact induction

end Map

/-- The text repeats itself at the place, from the distance back. -/
structure Repeats (text : List α) (place length distance : Nat) : Prop where
  positive : 1 ≤ distance
  inText : distance ≤ place
  fits : place + length ≤ text.length
  same : ∀ i < length, text[place + i]? = text[place - distance + i]?

theorem copyBack_take {text : List α} {place length distance : Nat}
    (repeats : Repeats text place length distance) :
    copyBack (text.take place) distance length = some (text.take (place + length)) := by
  induction length with
  | zero => rfl
  | succ length induction =>
      obtain ⟨positive, inText, fits, same⟩ := repeats
      have before := induction ⟨positive, inText, by omega, fun i less => same i (by omega)⟩
      have inside : place + length < text.length := by omega
      have isLong : (text.take (place + length)).length = place + length := by
        rw [List.length_take]
        omega
      have isElement : (text.take (place + length))[place + length - distance]? =
          some text[place + length] := by
        rw [List.getElem?_take_of_lt (by omega), show place + length - distance =
          place - distance + length by omega, ← same length (Nat.lt_succ_self _),
          List.getElem?_eq_getElem inside]
      rw [copyBack, before]
      dsimp only [bind, Option.bind]
      rw [isLong, isElement, ← Nat.add_assoc, List.take_add_one, List.getElem?_eq_getElem inside]
      rfl

/-- A literal steps from a part of the text to the next one. -/
theorem expand_literal {text : List α} {pieces : List (Piece α)} {place : Nat}
    (expanded : expand pieces = some (text.take place)) (inside : place < text.length) :
    expand (pieces ++ [.literal text[place]]) = some (text.take (place + 1)) := by
  rw [expand_concat, expanded, Option.bind_some, expandPiece, List.take_add_one,
    List.getElem?_eq_getElem inside]
  rfl

/-- A copy steps over what repeats itself. -/
theorem expand_copy {text : List α} {pieces : List (Piece α)} {place length distance : Nat}
    (expanded : expand pieces = some (text.take place))
    (repeats : Repeats text place length distance) :
    expand (pieces ++ [.copy length distance]) = some (text.take (place + length)) := by
  have isLong : (text.take place).length = place := by
    have fits := repeats.fits
    rw [List.length_take]
    omega
  rw [expand_concat, expanded, Option.bind_some, expandPiece, isLong,
    if_pos ⟨repeats.positive, repeats.inText⟩, copyBack_take repeats]

end FoundationsLab.Foundation.SlidingWindow
