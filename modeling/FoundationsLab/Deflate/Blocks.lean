import FoundationsLab.Deflate.HeaderRoundTrip
import FoundationsLab.Foundation.SlidingWindow

/-! # Streams of blocks

What a stream of blocks says, apart from how it is written or read: the bits of each
block, and the pieces of text that it stands for. The decoder follows every such stream,
also one that this encoder would not write. -/

namespace FoundationsLab.Deflate

open Foundation Foundation.BitStream Foundation.CanonicalCode Foundation.SlidingWindow

/-! ## The format -/

/-- A symbol of a coded block before its end. A copy is named by the two symbols and the
extra bits of each. -/
inductive Item where
  | literal (byte : UInt8)
  | copy (lc lengthBits dc distBits : Nat)

/-- The code word of a symbol. -/
def symbolWord (lengths : List Nat) (symbol : Nat) : List Bool :=
  wordOf (code lengths symbol) (lengths.getD symbol 0)

def Item.bits (litLen distLen : List Nat) : Item → List Bool
  | .literal byte => symbolWord litLen byte.toNat
  | .copy lc lengthBits dc distBits =>
      symbolWord litLen (257 + lc) ++ (BitStream.bitsOf (lengthExtra.getD lc 0) lengthBits ++
        (symbolWord distLen dc ++ BitStream.bitsOf (distExtra.getD dc 0) distBits))

def Item.piece : Item → Piece UInt8
  | .literal byte => .literal byte
  | .copy lc lengthBits dc distBits =>
      .copy (lengthBase.getD lc 0 + lengthBits) (distBase.getD dc 0 + distBits)

/-- The symbols have codes, and the extra bits fit. -/
def Item.Legal (litLen distLen : List Nat) : Item → Prop
  | .literal byte => litLen.getD byte.toNat 0 ≠ 0
  | .copy lc lengthBits dc distBits =>
      (lc < 29 ∧ litLen.getD (257 + lc) 0 ≠ 0 ∧ lengthBits < 2 ^ lengthExtra.getD lc 0) ∧
        dc < numDistances ∧ distLen.getD dc 0 ≠ 0 ∧ distBits < 2 ^ distExtra.getD dc 0

/-- The symbols of a block and its end. -/
def codedBits (litLen distLen : List Nat) (items : List Item) : List Bool :=
  items.flatMap (Item.bits litLen distLen) ++ symbolWord litLen endOfBlock

/-- Both codes of a block, with a code for its end. -/
structure CodePair (litLen distLen : List Nat) : Prop where
  litSize : litLen.length = numLiterals
  distSize : distLen.length = numDistances
  litBounded : ∀ length ∈ litLen, length ≤ maxCodeBits
  distBounded : ∀ length ∈ distLen, length ≤ maxCodeBits
  kraftLit : Kraft litLen
  kraftDist : Kraft distLen
  ends : litLen.getD endOfBlock 0 ≠ 0

/-- The bits before the length of a stored block may be anything. -/
inductive Block where
  | stored (filler : List Bool) (bytes : List UInt8)
  | fixed (items : List Item)
  | dynamic (litLen distLen : List Nat) (header : DynamicHeader) (items : List Item)

def Block.type : Block → Nat
  | .stored _ _ => 0
  | .fixed _ => 1
  | .dynamic _ _ _ _ => 2

def Block.body : Block → List Bool
  | .stored filler bytes => filler ++ (BitStream.bitsOf 16 bytes.length ++
      (BitStream.bitsOf 16 (2 ^ 16 - 1 - bytes.length) ++ bitsOfBytes bytes))
  | .fixed items => codedBits fixedLitLen fixedDistLen items
  | .dynamic litLen distLen header items => headerBits header ++ codedBits litLen distLen items

def Block.bits (final : Bool) (block : Block) : List Bool :=
  BitStream.bitsOf 1 final.toNat ++ (BitStream.bitsOf 2 block.type ++ block.body)

def Block.pieces : Block → List (Piece UInt8)
  | .stored _ bytes => bytes.map .literal
  | .fixed items => items.map Item.piece
  | .dynamic _ _ _ items => items.map Item.piece

/-- A block may stand after so many bits. -/
def Block.Legal (before : Nat) : Block → Prop
  | .stored filler bytes => filler.length = padding (before + 3) ∧ bytes.length < 2 ^ 16
  | .fixed items => ∀ item ∈ items, item.Legal fixedLitLen fixedDistLen
  | .dynamic litLen distLen header items => Plan litLen distLen header ∧
      CodePair litLen distLen ∧ ∀ item ∈ items, item.Legal litLen distLen

/-- Blocks one after the other, the last one marked, with what they say. -/
inductive Stream : Nat → List Bool → List (Piece UInt8) → Prop
  | last {before : Nat} {block : Block} (legal : block.Legal before) :
      Stream before (block.bits true) block.pieces
  | next {before : Nat} {block : Block} {bits : List Bool} {pieces : List (Piece UInt8)}
      (legal : block.Legal before)
      (rest : Stream (before + (block.bits false).length) bits pieces) :
      Stream before (block.bits false ++ bits) (block.pieces ++ pieces)

/-! ## The output buffer -/

/-- The buffer when this has been written. -/
def outputOf (outCap : Nat) (data : List UInt8) : Output where
  out := data.map some ++ List.replicate (outCap - data.length) none
  written := data.length

/-- The run goes on behind the data, unless there is no room for all of it. -/
structure Yields (outCap : Nat) (data : List UInt8) (rest : List Bool)
    (result : Df (Output × Bitreader)) : Prop where
  fits : data.length ≤ outCap →
    ∃ r, result = .ok (outputOf outCap data, r) ∧ Delivers r rest
  full : outCap < data.length → result = Checked.fail .output

section Output

variable {outCap : Nat} {data : List UInt8}

theorem set_filled {filled : List UInt8} (room : filled.length < outCap) (byte : UInt8) :
    (Checked.set (filled.map some ++ List.replicate (outCap - filled.length) none) filled.length
        (some byte) : Df (List (Option UInt8))) =
      .ok ((filled ++ [byte]).map some ++
        List.replicate (outCap - (filled ++ [byte]).length) none) := by
  obtain ⟨left, isLeft⟩ := Nat.exists_eq_add_one.mpr (Nat.sub_pos_of_lt room)
  have isLess : outCap - (filled ++ [byte]).length = left := by
    rw [List.length_append, List.length_singleton]
    omega
  have isLong : (filled.map some).length = filled.length := List.length_map _
  rw [Checked.set, if_pos (by rw [List.length_append, isLong, List.length_replicate]; omega),
    List.set_append_right _ _ (by omega), isLong, Nat.sub_self, isLeft, List.replicate_succ,
    List.set_cons_zero, isLess, List.map_append, List.append_assoc]
  rfl

theorem outputOf_put (room : data.length < outCap) (byte : UInt8) :
    (outputOf outCap data).put byte = .ok (outputOf outCap (data ++ [byte])) := by
  rw [Output.put, outputOf]
  dsimp only
  rw [set_filled room]
  dsimp only [bind, Except.bind]
  rw [outputOf, List.length_append]
  rfl

theorem getInit_filled {i : Nat} {byte : UInt8} (isByte : data[i]? = some byte) :
    (Checked.getInit (data.map some ++ List.replicate (outCap - data.length) none) i : Df UInt8) =
      .ok byte := by
  have inside := (List.getElem?_eq_some_iff.mp isByte).1
  rw [Checked.getInit, List.getElem?_append_left (by rw [List.length_map]; exact inside),
    List.getElem?_map, isByte]
  rfl

theorem length_copyBack {distance length : Nat} {copied : List UInt8}
    (isCopied : copyBack data distance length = some copied) :
    copied.length = data.length + length := by
  induction length generalizing copied with
  | zero => rw [← Option.some.inj isCopied, Nat.add_zero]
  | succ length induction =>
      rw [copyBack] at isCopied
      obtain ⟨middle, isMiddle, rest⟩ := Option.bind_eq_some_iff.mp isCopied
      obtain ⟨element, -, isLast⟩ := Option.bind_eq_some_iff.mp rest
      rw [← Option.some.inj isLast, List.length_append, List.length_singleton, induction isMiddle]
      exact Nat.add_assoc _ _ _

/-- The loop of a copy writes what the piece means, from where it is. -/
theorem copy_filled {distance : Nat} (positive : 1 ≤ distance) (inside : distance ≤ data.length)
    (count : Nat) : ∀ {i : Nat} {copied : List UInt8}, copyBack data distance i = some copied →
      copied.length + count ≤ outCap →
      ∃ final, copyBack data distance (i + count) = some final ∧
        Checked.forFrom (copyByte data.length (data.length - distance)) i count
          (copied.map some ++ List.replicate (outCap - copied.length) none) =
        .ok (final.map some ++ List.replicate (outCap - final.length) none) := by
  induction count with
  | zero =>
      intro i copied isCopied _
      exact ⟨copied, isCopied, rfl⟩
  | succ count induction =>
      intro i copied isCopied room
      have isLong := length_copyBack isCopied
      have isInside : data.length - distance + i < copied.length := by omega
      have isPlace : copied.length - distance = data.length - distance + i := by omega
      have isByte : copied[data.length - distance + i]? =
          some copied[data.length - distance + i] := List.getElem?_eq_getElem isInside
      have step : copyByte data.length (data.length - distance) i
          (copied.map some ++ List.replicate (outCap - copied.length) none) =
          .ok ((copied ++ [copied[data.length - distance + i]]).map some ++ List.replicate
            (outCap - (copied ++ [copied[data.length - distance + i]]).length) none) := by
        rw [copyByte, getInit_filled isByte]
        dsimp only [bind, Except.bind]
        rw [← isLong, set_filled (by omega)]
      have next : copyBack data distance (i + 1) =
          some (copied ++ [copied[data.length - distance + i]]) := by
        rw [copyBack, isCopied]
        dsimp only [bind, Option.bind]
        rw [isPlace, isByte]
        rfl
      obtain ⟨final, isFinal, rest⟩ := induction next (by
        rw [List.length_append, List.length_singleton]
        omega)
      refine ⟨final, ?_, ?_⟩
      · rw [← isFinal, Nat.add_assoc, Nat.add_comm 1]
      · rw [Checked.forFrom, step]
        exact rest

/-- A text only grows. -/
theorem expandFrom_grows {pieces : List (Piece UInt8)} {final : List UInt8}
    (expands : expandFrom data pieces = some final) : data.length ≤ final.length := by
  induction pieces generalizing data with
  | nil => exact Nat.le_of_eq (congrArg List.length (Option.some.inj expands))
  | cons piece pieces induction =>
      rw [expandFrom, List.foldlM_cons] at expands
      obtain ⟨middle, first, rest⟩ := Option.bind_eq_some_iff.mp expands
      apply Nat.le_trans _ (induction rest)
      cases piece with
      | literal element =>
          rw [← Option.some.inj first, List.length_append]
          exact Nat.le_add_right _ _
      | copy length distance =>
          rw [expandPiece] at first
          split at first
          · rw [length_copyBack first]
            exact Nat.le_add_right _ _
          · exact absurd first (Option.some_ne_none _).symm

end Output

end FoundationsLab.Deflate
