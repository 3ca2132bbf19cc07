import FoundationsLab.Foundation.Lanes

/-! # Scanning

The two loops over bytes of the parser, each with a path over blocks of 32 bytes and a
path over single bytes. Both leave the cursor at the same byte. -/

namespace FoundationsLab.SimdJson

open Lanes

/-! ## The cursor -/

/-- The bytes from `p_` to `end_`, and how many come before. -/
structure Cursor where
  rest : List UInt8
  position : Nat

namespace Cursor

def advance (cursor : Cursor) (n : Nat) : Cursor where
  rest := cursor.rest.drop n
  position := cursor.position + n

theorem advance_advance (cursor : Cursor) (n k : Nat) :
    (cursor.advance n).advance k = cursor.advance (n + k) := by
  rw [advance, advance, advance, List.drop_drop, Nat.add_assoc]

theorem length_advance (cursor : Cursor) (n : Nat) :
    (cursor.advance n).rest.length = cursor.rest.length - n :=
  List.length_drop

end Cursor

/-! ## Loops -/

/-- `while (p_ < end_ && !stop(*p_)) ++p_;` -/
def scanBytes (stop : UInt8 → Bool) (cursor : Cursor) : Cursor :=
  go cursor.rest cursor.position
where
  go : List UInt8 → Nat → Cursor
    | [], position => ⟨[], position⟩
    | c :: rest, position => if stop c then ⟨c :: rest, position⟩ else go rest (position + 1)

/-- The loop over blocks of 32 bytes, and whether it has found something. -/
def scanBlocks (mask : List UInt8 → Nat) (cursor : Cursor) : Cursor × Bool :=
  if 32 ≤ cursor.rest.length then
    let found := mask (cursor.rest.take 32)
    if found ≠ 0 then (cursor.advance (ctz 32 found), true)
    else scanBlocks mask (cursor.advance 32)
  else (cursor, false)
termination_by cursor.rest.length
decreasing_by
  rw [Cursor.length_advance]
  omega

def isWs (c : UInt8) : Bool :=
  c = ' '.toUInt8 || c = '\t'.toUInt8 || c = '\n'.toUInt8 || c = '\r'.toUInt8

def isSpecial (c : UInt8) : Bool := c = '\"'.toUInt8 || c = '\\'.toUInt8

def nonWsMask (chunk : List UInt8) : Nat :=
  let ws := or (or (cmpeq chunk ' '.toUInt8) (cmpeq chunk '\t'.toUInt8))
    (or (cmpeq chunk '\n'.toUInt8) (cmpeq chunk '\r'.toUInt8))
  complement 32 (movemask ws)

def specialMask (chunk : List UInt8) : Nat :=
  movemask (or (cmpeq chunk '\"'.toUInt8) (cmpeq chunk '\\'.toUInt8))

def skipWs (simd : Bool) (cursor : Cursor) : Cursor :=
  if simd then
    match scanBlocks nonWsMask cursor with
    | (cursor, true) => cursor
    | (cursor, false) => scanBytes (fun c => !isWs c) cursor
  else scanBytes (fun c => !isWs c) cursor

/-- The byte at the cursor is `0` at the end. -/
def scanToStringSpecial (simd : Bool) (cursor : Cursor) : UInt8 × Cursor :=
  if simd then
    match scanBlocks specialMask cursor with
    | (cursor, true) => (cursor.rest.headD 0, cursor)
    | (cursor, false) =>
        let cursor := scanBytes isSpecial cursor
        (cursor.rest.headD 0, cursor)
  else
    let cursor := scanBytes isSpecial cursor
    (cursor.rest.headD 0, cursor)

/-! ## Where the loops stop -/

theorem scanBytes_eq (stop : UInt8 → Bool) (cursor : Cursor) :
    scanBytes stop cursor = cursor.advance (cursor.rest.findIdx stop) := by
  have go : ∀ rest position, scanBytes.go stop rest position =
      ⟨rest.drop (rest.findIdx stop), position + rest.findIdx stop⟩ := by
    intro rest
    induction rest with
    | nil => exact fun _ => rfl
    | cons c rest induction =>
        intro position
        rw [scanBytes.go, List.findIdx_cons]
        cases stop c
        · rw [if_neg (by decide), induction]
          exact congrArg (Cursor.mk _) (by show _ = position + (_ + 1); omega)
        · rfl
  exact go cursor.rest cursor.position

/-- The byte loop does not move past a stop. -/
theorem scanBytes_advance {stop : UInt8 → Bool} {cursor : Cursor} {n : Nat}
    (inside : n ≤ cursor.rest.findIdx stop) :
    scanBytes stop (cursor.advance n) = scanBytes stop cursor := by
  rw [scanBytes_eq, scanBytes_eq, Cursor.advance_advance]
  have rest : (cursor.advance n).rest.findIdx stop = cursor.rest.findIdx stop - n := by
    show (cursor.rest.drop n).findIdx stop = _
    induction n generalizing cursor with
    | zero => rfl
    | succ n induction =>
        obtain ⟨bytes, position⟩ := cursor
        cases bytes with
        | nil => simp
        | cons c bytes =>
            rw [List.findIdx_cons] at inside ⊢
            cases isStop : stop c with
            | true =>
                rw [isStop] at inside
                exact absurd inside (Nat.not_succ_le_zero n)
            | false =>
                rw [isStop] at inside
                have shorter : n ≤ bytes.findIdx stop := Nat.le_of_succ_le_succ inside
                have rest := @induction ⟨bytes, position⟩ shorter
                rw [List.drop_succ_cons, rest]
                exact (Nat.succ_sub_succ ..).symm
  rw [rest]
  congr 1
  omega

/-- A mask whose bits are the stops of a block. -/
def MarksStops (mask : List UInt8 → Nat) (stop : UInt8 → Bool) : Prop :=
  ∀ chunk : List UInt8, chunk.length = 32 → mask chunk = bits (chunk.map stop)

theorem nonWsMask_marks : MarksStops nonWsMask fun c => !isWs c := by
  intro chunk length
  have hits : (chunk.map isWs).length = 32 := by rw [List.length_map, length]
  have flip : chunk.map (fun c => !isWs c) = (chunk.map isWs).map (!·) := by
    rw [List.map_map]
    rfl
  rw [flip, ← complement_bits, hits, nonWsMask, cmpeq_eq, cmpeq_eq, cmpeq_eq, cmpeq_eq, or_eq,
    or_eq, or_eq, movemask_eq]
  congr 2
  refine List.map_congr_left fun c _ => ?_
  simp only [isWs, Bool.or_assoc]
  rfl

theorem specialMask_marks : MarksStops specialMask isSpecial := by
  intro chunk _
  rw [specialMask, cmpeq_eq, cmpeq_eq, or_eq, movemask_eq]
  rfl

/-- The first stop of a block, or its end. -/
theorem ctz_mask {mask : List UInt8 → Nat} {stop : UInt8 → Bool} (marks : MarksStops mask stop)
    {rest : List UInt8} (long : 32 ≤ rest.length) :
    ctz 32 (mask (rest.take 32)) = min 32 (rest.findIdx stop) := by
  have length : (rest.take 32).length = 32 := by rw [List.length_take, Nat.min_eq_left long]
  have hits : ((rest.take 32).map stop).length = 32 := by rw [List.length_map, length]
  have first := ctz_bits ((rest.take 32).map stop)
  rw [hits, List.findIdx_map] at first
  rw [marks _ length, first]
  exact List.findIdx_take

/-- A block without a stop has an empty mask, and only such a block. -/
theorem mask_eq_zero_iff {mask : List UInt8 → Nat} {stop : UInt8 → Bool}
    (marks : MarksStops mask stop) {rest : List UInt8} (long : 32 ≤ rest.length) :
    mask (rest.take 32) = 0 ↔ 32 ≤ rest.findIdx stop := by
  have length : (rest.take 32).length = 32 := by rw [List.length_take, Nat.min_eq_left long]
  have first := ctz_mask marks long
  constructor
  · intro zero
    rw [zero] at first
    have none : ctz 32 0 = 32 := by decide
    omega
  · intro none
    have noStop : ∀ hit ∈ (rest.take 32).map stop, hit = false := by
      have whole : (rest.take 32).findIdx stop = (rest.take 32).length := by
        rw [List.findIdx_take, length, Nat.min_eq_left none]
      intro hit member
      obtain ⟨c, inside, rfl⟩ := List.mem_map.mp member
      exact List.findIdx_eq_length.mp whole c inside
    rw [marks _ length]
    exact bits_of_false noStop

/-- The block loop ends at the stop it has found, or before it. -/
theorem scanBlocks_spec {mask : List UInt8 → Nat} {stop : UInt8 → Bool}
    (marks : MarksStops mask stop) (cursor : Cursor) :
    scanBytes stop (scanBlocks mask cursor).1 = scanBytes stop cursor ∧
      ((scanBlocks mask cursor).2 = true →
        scanBytes stop (scanBlocks mask cursor).1 = (scanBlocks mask cursor).1) := by
  induction cursor using scanBlocks.induct mask with
  | case1 cursor long found isFound =>
      have first := ctz_mask marks long
      have early : ¬ 32 ≤ cursor.rest.findIdx stop :=
        fun none => isFound ((mask_eq_zero_iff marks long).mpr none)
      have isFirst : ctz 32 found = cursor.rest.findIdx stop := by
        show ctz 32 (mask (cursor.rest.take 32)) = _
        omega
      have step : scanBlocks mask cursor = (cursor.advance (ctz 32 found), true) := by
        rw [scanBlocks, if_pos long]
        exact if_pos isFound
      have same : scanBytes stop (cursor.advance (ctz 32 found)) = scanBytes stop cursor :=
        scanBytes_advance (Nat.le_of_eq isFirst)
      rw [step]
      refine ⟨same, fun _ => same.trans ?_⟩
      rw [scanBytes_eq, isFirst]
  | case2 cursor long found notFound induction =>
      have step : scanBlocks mask cursor = scanBlocks mask (cursor.advance 32) := by
        rw [scanBlocks, if_pos long]
        exact if_neg notFound
      have none := (mask_eq_zero_iff marks long).mp (not_not.mp notFound)
      rw [step]
      exact ⟨induction.1.trans (scanBytes_advance none), induction.2⟩
  | case3 cursor short =>
      have step : scanBlocks mask cursor = (cursor, false) := by rw [scanBlocks, if_neg short]
      rw [step]
      exact ⟨rfl, nofun⟩

/-! ## Both paths -/

/-- `skip_ws` ends at the first byte that is not white space, on either path. -/
theorem skipWs_eq (simd : Bool) (cursor : Cursor) :
    skipWs simd cursor = scanBytes (fun c => !isWs c) cursor := by
  rw [skipWs]
  split
  · obtain ⟨same, found⟩ := scanBlocks_spec nonWsMask_marks cursor
    generalize scanBlocks nonWsMask cursor = result at *
    obtain ⟨reached, isFound⟩ := result
    cases isFound
    · exact same
    · exact (found rfl).symm.trans same
  · rfl

/-- `scan_to_string_special` ends at the first quote or backslash, on either path, and
returns it. -/
theorem scanToStringSpecial_eq (simd : Bool) (cursor : Cursor) :
    scanToStringSpecial simd cursor =
      ((scanBytes isSpecial cursor).rest.headD 0, scanBytes isSpecial cursor) := by
  rw [scanToStringSpecial]
  split
  · obtain ⟨same, found⟩ := scanBlocks_spec specialMask_marks cursor
    generalize scanBlocks specialMask cursor = result at *
    obtain ⟨reached, isFound⟩ := result
    cases isFound
    · show ((scanBytes isSpecial reached).rest.headD 0, scanBytes isSpecial reached) = _
      rw [same]
    · have isReached : reached = scanBytes isSpecial cursor := (found rfl).symm.trans same
      show (reached.rest.headD 0, reached) = _
      rw [isReached]
  · rfl

end FoundationsLab.SimdJson
