import FoundationsLab.Foundation.Checked

/-! # The bit reader

Bits come least significant first out of a buffer that is filled byte by byte. Past the
end of the input the reader supplies zeros and sets a flag that stays set. -/

namespace FoundationsLab.Deflate

inductive DfError where
  | output
  | input
  | corrupt
deriving DecidableEq

/-- `DF_ERR_OUTPUT`, `DF_ERR_INPUT` and `DF_ERR_CORRUPT` -/
def DfError.code : DfError → Int
  | .output => -1
  | .input => -2
  | .corrupt => -3

abbrev Df (α : Type) := Checked DfError α

/-- No call asks for more than 16 bits, so the buffer of 32 bits does not overflow. -/
structure Bitreader where
  input : List UInt8
  pos : Nat
  bitBuf : Nat
  bitCount : Nat
  underflow : Bool

def brInit (input : List UInt8) : Bitreader where
  input := input
  pos := 0
  bitBuf := 0
  bitCount := 0
  underflow := false

/-- `while (r->bit_count < count)` -/
def fill (r : Bitreader) (count : Nat) : Df Bitreader :=
  if r.bitCount < count then
    if r.input.length ≤ r.pos then
      fill { r with underflow := true, bitCount := r.bitCount + 8 } count
    else do
      let byte ← Checked.get r.input r.pos
      fill { r with
        bitBuf := r.bitBuf ||| byte.toNat <<< r.bitCount
        pos := r.pos + 1
        bitCount := r.bitCount + 8 } count
  else .ok r
termination_by count - r.bitCount

def brBits (r : Bitreader) (count : Nat) : Df (Nat × Bitreader) := do
  let r ← fill r count
  let value := r.bitBuf &&& (1 <<< count - 1)
  return (value, { r with bitBuf := r.bitBuf >>> count, bitCount := r.bitCount - count })

def brAlign (r : Bitreader) : Df Bitreader := do
  let drop := r.bitCount % 8
  if drop ≠ 0 then
    let (_, r) ← brBits r drop
    return r
  else return r

/-! ## What a read does -/

/-- The bits of the input that have not been delivered. -/
def Bitreader.available (r : Bitreader) : Nat := 8 * (r.input.length - r.pos) + r.bitCount

/-- A bound for the reads to come: the flag ends a program that looks at it. -/
def Bitreader.budget (r : Bitreader) : Nat := if r.underflow then 0 else r.available + 1

/-- Reading takes at least this many bits, or hits the end of the input. -/
structure Reads (count : Nat) (r r' : Bitreader) : Prop where
  input : r'.input = r.input
  flag : r.underflow = true → r'.underflow = true
  bits : r'.underflow = false → r'.available + count ≤ r.available

theorem Reads.refl (r : Bitreader) : Reads 0 r r := ⟨rfl, id, fun _ => Nat.le_refl _⟩

theorem Reads.trans {n k : Nat} {r r' r'' : Bitreader} (first : Reads n r r')
    (second : Reads k r' r'') : Reads (n + k) r r'' := by
  refine ⟨second.input.trans first.input, fun flag => second.flag (first.flag flag), fun clear => ?_⟩
  have clear' : r'.underflow = false := by
    by_contra set
    rw [second.flag (by simpa using set)] at clear
    cases clear
  have bound := first.bits clear'
  have bound' := second.bits clear
  omega

theorem Reads.weaken {n k : Nat} {r r' : Bitreader} (reads : Reads n r r') (less : k ≤ n) :
    Reads k r r' := by
  refine ⟨reads.input, reads.flag, fun clear => ?_⟩
  have bound := reads.bits clear
  omega

/-- A read of at least one bit uses the budget, unless the flag was set before. -/
theorem Reads.budget_lt {n : Nat} {r r' : Bitreader} (reads : Reads (n + 1) r r')
    (clear : r.underflow = false) : r'.budget < r.budget := by
  rw [Bitreader.budget, Bitreader.budget, clear]
  split
  · exact Nat.succ_pos _
  · rename_i notSet
    have bound := reads.bits (by simpa using notSet)
    show r'.available + 1 < r.available + 1
    omega

theorem Reads.budget_le {n : Nat} {r r' : Bitreader} (reads : Reads n r r') :
    r'.budget ≤ r.budget := by
  rw [Bitreader.budget, Bitreader.budget]
  split
  · exact Nat.zero_le _
  · rename_i notSet
    have clear : r.underflow ≠ true := fun flag => notSet (reads.flag flag)
    have bound := reads.bits (by simpa using notSet)
    rw [if_neg clear]
    omega

theorem fill_reads (r : Bitreader) (count : Nat) :
    Checked.Safe (fun r' => Reads 0 r r' ∧ (r'.underflow = false → count ≤ r'.bitCount))
      (fill r count) := by
  induction r using fill.induct count with
  | case1 r short atEnd induction =>
      rw [fill, if_pos short, if_pos atEnd]
      refine induction.mono fun r' ⟨reads, full⟩ => ⟨⟨reads.input, fun _ => reads.flag rfl, ?_⟩, full⟩
      intro clear
      rw [reads.flag rfl] at clear
      cases clear
  | case2 r short inside induction =>
      rw [fill, if_pos short, if_neg inside]
      refine (Checked.safe_get (by omega)).bind fun byte _ => ?_
      refine (induction byte).mono fun r' ⟨reads, full⟩ => ⟨⟨reads.input, reads.flag, ?_⟩, full⟩
      intro clear
      have bound := reads.bits clear
      simp only [Bitreader.available] at bound ⊢
      omega
  | case3 r full =>
      rw [fill, if_neg full]
      exact .ok ⟨.refl r, fun _ => Nat.le_of_not_lt full⟩

theorem brBits_reads (r : Bitreader) (count : Nat) :
    Checked.Safe (fun (value, r') => value < 2 ^ count ∧ Reads count r r') (brBits r count) := by
  refine (fill_reads r count).bind fun r' ⟨reads, full⟩ =>
    .ok ⟨?_, reads.input, reads.flag, ?_⟩
  · show r'.bitBuf &&& (1 <<< count - 1) < 2 ^ count
    rw [Nat.one_shiftLeft, Nat.and_two_pow_sub_one_eq_mod]
    exact Nat.mod_lt _ (Nat.two_pow_pos count)
  · intro clear
    have bound := reads.bits clear
    have enough := full clear
    simp only [Bitreader.available] at bound ⊢
    omega

theorem brAlign_reads (r : Bitreader) : Checked.Safe (Reads 0 r) (brAlign r) := by
  rw [brAlign]
  dsimp only
  split
  · exact (brBits_reads r _).bind fun _ ⟨_, reads⟩ => .ok (reads.weaken (Nat.zero_le _))
  · exact .ok (.refl r)

end FoundationsLab.Deflate
