import FoundationsLab.Deflate.Prefixes

/-! # Truncated streams

The decoder needs all the bytes that it takes from its input, and none of those behind
them: a shorter input is an error, and a longer one is decoded alike. -/

namespace FoundationsLab.Deflate

open Checked (Safe Cut)

/-! ## The bytes that are taken -/

/-- `blockLoop`, with the reader behind the last block. -/
def blockLoopReading (outCap : Nat) : (fuel : Nat) → Output → Bitreader → Df (Output × Bitreader)
  | 0, _, _ => Checked.endless
  | fuel + 1, output, r => do
      let (final, r) ← brBits r 1
      let (type, r) ← brBits r 2
      if r.underflow then Checked.fail .input
      else
        let (output, r) ← block outCap type output r
        if final ≠ 0 then return (output, r) else blockLoopReading outCap fuel output r

def decompressReading (input : List UInt8) (outCap : Nat) : Df (Output × Bitreader) :=
  blockLoopReading outCap (turns (brInit input)) (emptyOutput outCap) (brInit input)

/-- How many bytes of the input a successful run has taken. -/
def consumed (input : List UInt8) (outCap : Nat) : Option Nat :=
  match decompressReading input outCap with
  | .ok (_, r) => some r.pos
  | .error _ => none

theorem blockLoopReading_map (outCap fuel : Nat) (output : Output) (r : Bitreader) :
    Prod.fst <$> blockLoopReading outCap fuel output r = blockLoop outCap fuel output r := by
  induction fuel generalizing output r with
  | zero => rfl
  | succ fuel induction =>
      rw [blockLoopReading, blockLoop, map_bind]
      congr 1
      funext read
      rcases read with ⟨final, r₁⟩
      dsimp only
      rw [map_bind]
      congr 1
      funext read
      rcases read with ⟨type, r₂⟩
      dsimp only
      split
      · rfl
      · rw [map_bind]
        congr 1
        funext read
        rcases read with ⟨output₁, r₃⟩
        dsimp only
        split
        · rfl
        · exact induction output₁ r₃

/-- A turn reads a header and a block, and is the last one or goes on behind it. -/
theorem blockLoopReading_succ {outCap fuel : Nat} {output : Output} {r : Bitreader}
    {result : Output × Bitreader} :
    blockLoopReading outCap (fuel + 1) output r = .ok result ↔
      ∃ final r₁ type r₂ output₁ r₃, brBits r 1 = .ok (final, r₁) ∧
        brBits r₁ 2 = .ok (type, r₂) ∧ r₂.underflow = false ∧
        block outCap type output r₂ = .ok (output₁, r₃) ∧
        (if final ≠ 0 then .ok (output₁, r₃) else blockLoopReading outCap fuel output₁ r₃) =
          .ok result := by
  rw [blockLoopReading]
  constructor
  · intro ran
    obtain ⟨⟨final, r₁⟩, isFinal, ran⟩ := Checked.bind_eq_ok.mp ran
    obtain ⟨⟨type, r₂⟩, isType, ran⟩ := Checked.bind_eq_ok.mp ran
    dsimp only at ran
    split at ran
    · cases ran
    · rename_i notSet
      obtain ⟨⟨output₁, r₃⟩, isBlock, ran⟩ := Checked.bind_eq_ok.mp ran
      exact ⟨final, r₁, type, r₂, output₁, r₃, isFinal, isType, by simpa using notSet, isBlock, ran⟩
  · rintro ⟨final, r₁, type, r₂, output₁, r₃, isFinal, isType, clear, isBlock, ran⟩
    apply Checked.bind_eq_ok.mpr
    refine ⟨(final, r₁), isFinal, Checked.bind_eq_ok.mpr ⟨(type, r₂), isType, ?_⟩⟩
    dsimp only
    rw [clear, if_neg Bool.false_ne_true]
    exact Checked.bind_eq_ok.mpr ⟨(output₁, r₃), isBlock, ran⟩

/-! ## The blocks over another input -/

section Blocks

variable {other : List UInt8} {k : Nat}

theorem storeByte_steady (i : Nat) (output : Output) :
    Steady other k Prod.mk fun r => storeByte i (output, r) := by
  apply Steady.bind (brBits_steady 8)
  intro byte
  apply Steady.ite_underflow
  apply Steady.step
  intro output'
  exact .pure _ _

theorem storedBlock_steady (outCap : Nat) (output : Output) :
    Steady other k Prod.mk (storedBlock outCap output) := by
  apply Steady.bind brAlign_steady
  intro _
  apply Steady.bind (brBits_steady 16)
  intro len
  apply Steady.bind (brBits_steady 16)
  intro nlen
  apply Steady.ite_underflow
  apply Steady.ite
  · exact .fail _ _
  · apply Steady.ite
    · exact .fail _ _
    · exact Steady.forFrom storeByte_steady 0 len output

theorem copyMatch_steady (dist : HuffDec) (outCap symbol : Nat) (output : Output) :
    Steady other k Prod.mk fun r => copyMatch dist outCap symbol output r := by
  unfold copyMatch
  apply Steady.ite
  · exact .fail _ _
  · apply Steady.step
    intro base
    apply Steady.step
    intro extra
    apply Steady.bind (brBits_steady extra)
    intro bits
    apply Steady.bind (huffDecode_steady dist)
    intro dc
    apply Steady.ite
    · exact .fail _ _
    · apply Steady.step
      intro base'
      apply Steady.step
      intro extra'
      apply Steady.bind (brBits_steady extra')
      intro bits'
      apply Steady.ite
      · exact .fail _ _
      · apply Steady.ite
        · exact .fail _ _
        · apply Steady.step
          intro out
          exact .pure _ _

theorem symbolLoop_steady (lit dist : HuffDec) (outCap fuel : Nat) (output : Output) :
    Steady other k Prod.mk (symbolLoop lit dist outCap fuel output) := by
  induction fuel generalizing output with
  | zero => exact .fault _ _
  | succ fuel induction =>
      apply Steady.bind (huffDecode_steady lit)
      intro symbol
      apply Steady.ite_underflow
      apply Steady.ite
      · exact .pure _ _
      · apply Steady.ite
        · apply Steady.ite
          · exact .fail _ _
          · apply Steady.step
            intro output'
            exact induction output'
        · exact Steady.bind (copyMatch_steady dist outCap symbol output) induction

theorem readCodelen_steady (i : Nat) (clLen : List Nat) :
    Steady other k Prod.mk fun r => readCodelen i (clLen, r) := by
  apply Steady.step
  intro symbol
  apply Steady.bind (brBits_steady 3)
  intro length
  apply Steady.step
  intro clLen'
  exact .pure _ _

theorem writeLengths_steady (total symbol : Nat) (lengths : List Nat) (n : Nat) :
    Steady other k (fun (written : List Nat × Nat) r => (written.1, written.2, r))
      (writeLengths total symbol lengths n) := by
  have repeats : ∀ value extra, Steady other k
      (fun (written : List Nat × Nat) r => (written.1, written.2, r)) fun r =>
        repeatLength value total extra lengths n >>= fun written =>
          .ok (written.1, written.2, r) := by
    intro value extra
    apply Steady.step
    intro written
    exact .pure _ written
  apply Steady.ite
  · apply Steady.step
    intro lengths'
    exact .pure _ (lengths', n + 1)
  · apply Steady.ite
    · apply Steady.ite
      · exact .fail _ _
      · apply Steady.bind (brBits_steady 2)
        intro extra
        apply Steady.step
        intro prev
        exact repeats prev _
    · apply Steady.ite
      · exact Steady.bind (brBits_steady 3) fun extra => repeats 0 _
      · exact Steady.bind (brBits_steady 7) fun extra => repeats 0 _

theorem readLengths_steady (clDec : HuffDec) (total fuel : Nat) (lengths : List Nat) (n : Nat) :
    Steady other k Prod.mk (readLengths clDec total fuel lengths n) := by
  induction fuel generalizing lengths n with
  | zero =>
      apply Steady.ite
      · exact .fault _ _
      · exact .pure _ _
  | succ fuel induction =>
      apply Steady.ite
      · apply Steady.bind (huffDecode_steady clDec)
        intro symbol
        apply Steady.bind (writeLengths_steady total symbol lengths n)
        intro written
        apply Steady.ite_underflow
        exact induction written.1 written.2
      · exact .pure _ _

/-- Two decoders, and the reader behind them. -/
def withDecoders (decoders : HuffDec × HuffDec) (r : Bitreader) : HuffDec × HuffDec × Bitreader :=
  (decoders.1, decoders.2, r)

theorem readDynamicHeader_steady : Steady other k withDecoders readDynamicHeader := by
  apply Steady.bind (brBits_steady 5)
  intro hlit
  apply Steady.bind (brBits_steady 5)
  intro hdist
  apply Steady.bind (brBits_steady 4)
  intro hclen
  apply Steady.ite
  · exact .fail _ _
  · apply Steady.bind (Steady.forFrom readCodelen_steady 0 _ _)
    intro clLen
    apply Steady.step
    intro clDec
    apply Steady.bind (readLengths_steady clDec _ _ _ 0)
    intro lengths
    apply Steady.step
    intro lit
    apply Steady.step
    intro dist
    exact .pure withDecoders (lit, dist)

theorem decoders_steady (type : Nat) : Steady other k withDecoders (decoders type) := by
  apply Steady.ite
  · apply Steady.step
    intro fixed
    exact .pure withDecoders fixed
  · exact readDynamicHeader_steady

/-! ## Loops with different fuel -/

theorem symbolLoop_cut (lit dist : HuffDec) (outCap : Nat) {fuel more : Nat} (less : fuel ≤ more)
    (output : Output) (r : Bitreader) :
    Cut (symbolLoop lit dist outCap fuel output r) (symbolLoop lit dist outCap more output r) := by
  induction fuel generalizing more output r with
  | zero => exact .inl rfl
  | succ fuel induction =>
      obtain ⟨more, rfl⟩ : ∃ others, more = others + 1 := ⟨more - 1, by omega⟩
      have shorter : fuel ≤ more := by omega
      rw [symbolLoop, symbolLoop]
      apply Cut.bind (.refl _)
      rintro ⟨symbol, r₁⟩
      apply Cut.ite (.refl _)
      apply Cut.ite (.refl _)
      apply Cut.ite
      · apply Cut.ite (.refl _)
        apply Cut.bind (.refl _)
        intro output'
        exact induction shorter output' r₁
      · apply Cut.bind (.refl _)
        rintro ⟨output', r₂⟩
        exact induction shorter output' r₂

theorem blockLoopReading_cut (outCap : Nat) {fuel more : Nat} (less : fuel ≤ more)
    (output : Output) (r : Bitreader) :
    Cut (blockLoopReading outCap fuel output r) (blockLoopReading outCap more output r) := by
  induction fuel generalizing more output r with
  | zero => exact .inl rfl
  | succ fuel induction =>
      obtain ⟨more, rfl⟩ : ∃ others, more = others + 1 := ⟨more - 1, by omega⟩
      have shorter : fuel ≤ more := by omega
      rw [blockLoopReading, blockLoopReading]
      apply Cut.bind (.refl _)
      rintro ⟨final, r₁⟩
      apply Cut.bind (.refl _)
      rintro ⟨type, r₂⟩
      apply Cut.ite (.refl _)
      apply Cut.bind (.refl _)
      rintro ⟨output', r₃⟩
      apply Cut.ite (.refl _)
      exact induction shorter output' r₃

/-! ## Whole runs over another input -/

variable {outCap : Nat} {output output₁ : Output} {r r₁ : Bitreader}

/-- The loop over the symbols has enough fuel over either input. -/
theorem codedBlock_follows {type : Nat} (valid : output.Valid outCap)
    (same : other.take k = r.input.take k)
    (ran : codedBlock outCap type output r = .ok (output₁, r₁)) :
    Advances r r₁ ∧ (r₁.Within k → r.Within k ∧ (Reads 0 (brInit other) (r.over other) →
      codedBlock outCap type output (r.over other) = .ok (output₁, r₁.over other))) := by
  obtain ⟨middle, begun, ran⟩ := Checked.bind_eq_ok.mp ran
  obtain ⟨⟨lit, dist⟩, r₂, rfl, advances, follows⟩ := decoders_steady type r middle same begun
  have same₂ : other.take k = r₂.input.take k := by
    rw [advances.input]
    exact same
  have ranLonger : symbolLoop lit dist outCap (max (turns r₂) (turns (r₂.over other))) output r₂ =
      .ok (output₁, r₁) :=
    (symbolLoop_cut lit dist outCap (Nat.le_max_left _ _) output r₂).ok ran
  obtain ⟨_, _, isResult, advances', follows'⟩ :=
    symbolLoop_steady lit dist outCap _ output r₂ _ same₂ ranLonger
  obtain ⟨rfl, rfl⟩ := Prod.mk.inj isResult
  refine ⟨advances.trans advances', ?_⟩
  intro within
  obtain ⟨within₂, ranOther⟩ := follows' within
  obtain ⟨within₀, begunOther⟩ := follows within₂
  constructor
  · exact within₀
  · intro reads
    obtain ⟨ready, reads₂⟩ := (decoders_safe type (r.over other)).of_ok begunOther
    have enough := (reads.trans reads₂).budget_lt_turns
    have loopSafe := symbolLoop_safe ready valid (r₂.over other) enough
    have loops := (symbolLoop_cut lit dist outCap (Nat.le_max_right (turns r₂) _) output
      (r₂.over other)).eq_of_safe loopSafe
    rw [codedBlock, begunOther]
    exact loops.trans ranOther

theorem block_follows {type : Nat} (valid : output.Valid outCap)
    (same : other.take k = r.input.take k)
    (ran : block outCap type output r = .ok (output₁, r₁)) :
    Advances r r₁ ∧ (r₁.Within k → r.Within k ∧ (Reads 0 (brInit other) (r.over other) →
      block outCap type output (r.over other) = .ok (output₁, r₁.over other))) := by
  rw [block] at ran ⊢
  split at ran
  · rename_i isStored
    obtain ⟨_, _, isResult, advances, follows⟩ := storedBlock_steady outCap output r _ same ran
    obtain ⟨rfl, rfl⟩ := Prod.mk.inj isResult
    rw [if_pos isStored]
    exact ⟨advances, fun within => ⟨(follows within).1, fun _ => (follows within).2⟩⟩
  · rename_i notStored
    split at ran
    · cases ran
    · rename_i notReserved
      rw [if_neg notStored, if_neg notReserved]
      exact codedBlock_follows valid same ran

/-- A run that stays within the bytes that the inputs share is a run over the other
input, too. It is an induction on the blocks: each one leaves a valid output. -/
theorem blockLoopReading_follows {fuel : Nat} (valid : output.Valid outCap)
    (same : other.take k = r.input.take k) (reads : Reads 0 (brInit r.input) r)
    (ran : blockLoopReading outCap fuel output r = .ok (output₁, r₁)) :
    Advances r r₁ ∧ r₁.underflow = false ∧
      (r₁.Within k → r.Within k ∧ (Reads 0 (brInit other) (r.over other) →
        blockLoopReading outCap fuel output (r.over other) = .ok (output₁, r₁.over other))) := by
  induction fuel generalizing output r with
  | zero => cases ran
  | succ fuel induction =>
      obtain ⟨final, r₂, type, r₃, output₂, r₄, isFinal, isType, clear, isBlock, goes⟩ :=
        blockLoopReading_succ.mp ran
      obtain ⟨_, _, isFirst, advances₂, follows₂⟩ := brBits_steady 1 r _ same isFinal
      obtain ⟨rfl, rfl⟩ := Prod.mk.inj isFirst
      have same₂ : other.take k = r₂.input.take k := by rw [advances₂.input, same]
      obtain ⟨_, _, isSecond, advances₃, follows₃⟩ := brBits_steady 2 r₂ _ same₂ isType
      obtain ⟨rfl, rfl⟩ := Prod.mk.inj isSecond
      have same₃ : other.take k = r₃.input.take k := by rw [advances₃.input, same₂]
      obtain ⟨advances₄, follows₄⟩ := block_follows valid same₃ isBlock
      have same₄ : other.take k = r₄.input.take k := by rw [advances₄.input, same₃]
      have header := (((brBits_reads r 1).of_ok isFinal).2).trans
        (((brBits_reads r₂ 2).of_ok isType).2)
      have reads₃ := (reads.trans header).weaken (Nat.zero_le _)
      obtain ⟨valid₂, reads₄, clear₂⟩ := (block_safe valid reads₃).of_ok isBlock
      have reads' : Reads 0 (brInit r₄.input) r₄ := by
        rw [advances₄.input, advances₃.input, advances₂.input]
        exact reads₃.trans reads₄
      have rest : Advances r₄ r₁ ∧ r₁.underflow = false ∧
          (r₁.Within k → r₄.Within k ∧ (Reads 0 (brInit other) (r₄.over other) →
            (if final ≠ 0 then .ok (output₂, r₄.over other)
              else blockLoopReading outCap fuel output₂ (r₄.over other)) =
                .ok (output₁, r₁.over other))) := by
        split at goes
        · rename_i isLast
          obtain ⟨rfl, rfl⟩ := Prod.mk.inj (Except.ok.inj goes)
          exact ⟨.refl r₄, clear₂, fun within => ⟨within, fun _ => if_pos isLast⟩⟩
        · rename_i notLast
          rw [if_neg notLast]
          exact induction valid₂ same₄ reads' goes
      obtain ⟨advances₅, clear₁, follows₅⟩ := rest
      refine ⟨((advances₂.trans advances₃).trans advances₄).trans advances₅, clear₁, ?_⟩
      intro within
      obtain ⟨within₄, goesOther⟩ := follows₅ within
      obtain ⟨within₃, blockOther⟩ := follows₄ within₄
      obtain ⟨within₂, typeOther⟩ := follows₃ within₃
      obtain ⟨within₀, finalOther⟩ := follows₂ within₂
      constructor
      · exact within₀
      · intro readsOther
        have headerOther := (((brBits_reads (r.over other) 1).of_ok finalOther).2).trans
          (((brBits_reads (r₂.over other) 2).of_ok typeOther).2)
        have readsOther₃ := (readsOther.trans headerOther).weaken (Nat.zero_le _)
        have ranOther := blockOther readsOther₃
        obtain ⟨-, readsOther₄, -⟩ := (block_safe valid readsOther₃).of_ok ranOther
        exact blockLoopReading_succ.mpr ⟨final, r₂.over other, type, r₃.over other, output₂,
          r₄.over other, finalOther, typeOther, clear, ranOther,
          goesOther (readsOther₃.trans readsOther₄)⟩

end Blocks

/-! ## What the decoder needs of its input -/

section Decoding

variable {input other : List UInt8} {outCap : Nat} {output : Output} {r : Bitreader}

theorem decompressReading_safe (input : List UInt8) (outCap : Nat) :
    Safe (fun result => result.1.Valid outCap) (decompressReading input outCap) := by
  have start : Reads 0 (brInit input) (brInit input) := .refl _
  have safe := blockLoop_safe (emptyOutput_valid outCap) start start.budget_lt_turns
  rw [← blockLoopReading_map] at safe
  exact safe.of_map

/-- Another input with the bytes that were taken is decoded alike. -/
theorem decompressReading_follows (same : other.take r.pos = input.take r.pos)
    (ran : decompressReading input outCap = .ok (output, r)) :
    r.pos ≤ input.length ∧ decompressReading other outCap = .ok (output, r.over other) := by
  have ranLonger := (blockLoopReading_cut outCap
    (Nat.le_max_left (turns (brInit input)) (turns (brInit other))) (emptyOutput outCap)
    (brInit input)).ok ran
  obtain ⟨advances, clear, follows⟩ := blockLoopReading_follows (emptyOutput_valid outCap)
    (same : other.take r.pos = (brInit input).input.take r.pos) (.refl _) ranLonger
  constructor
  · have inside := advances.inside (Nat.zero_le _)
    rw [advances.input] at inside
    exact inside
  · have ranOther := (follows ⟨clear, Nat.le_refl _⟩).2 (.refl _)
    have loops := (blockLoopReading_cut outCap
      (Nat.le_max_right (turns (brInit input)) (turns (brInit other))) (emptyOutput outCap)
      (brInit other)).eq_of_safe (decompressReading_safe other outCap)
    exact loops.trans ranOther

theorem deflateDecompress_eq (input : List UInt8) (outCap : Nat) :
    deflateDecompress input outCap =
      match decompressReading input outCap with
      | .ok (output, _) => .ok (output.written, output.out)
      | .error (.error error) => .ok (error.code, [])
      | .error (.fault fault) => .error fault := by
  rw [deflateDecompress, decompressTo, ← blockLoopReading_map, ← decompressReading]
  cases decompressReading input outCap with
  | ok result => rfl
  | error stop => cases stop <;> rfl

theorem code_neg (error : DfError) : error.code < 0 := by
  cases error <;> decide

/-- A run succeeds where it returns no error code. -/
theorem exists_reading {result : Int} {out : List (Option UInt8)}
    (decoded : deflateDecompress input outCap = .ok (result, out)) (succeeds : 0 ≤ result) :
    ∃ output r, decompressReading input outCap = .ok (output, r) ∧ result = output.written ∧
      out = output.out := by
  rw [deflateDecompress_eq] at decoded
  cases ran : decompressReading input outCap with
  | ok reading =>
      rw [ran] at decoded
      cases decoded
      exact ⟨reading.1, reading.2, rfl, rfl, rfl⟩
  | error stop =>
      rw [ran] at decoded
      cases stop with
      | fault fault => cases decoded
      | error error =>
          cases decoded
          exact absurd succeeds (Int.not_le.mpr (code_neg error))

/-- Of a stream that is decoded, the bytes that the decoder took are all needed, and no
others matter: with fewer of them it returns an error, and whatever comes behind them
it returns the same length and the same output. -/
theorem truncation_is_detected {result : Int} {out : List (Option UInt8)}
    (decoded : deflateDecompress input outCap = .ok (result, out)) (succeeds : 0 ≤ result) :
    ∃ k, consumed input outCap = some k ∧ k ≤ input.length ∧
      (∀ j < k, ∃ code out', deflateDecompress (input.take j) outCap = .ok (code, out') ∧ code < 0) ∧
      ∀ rest, deflateDecompress (input.take k ++ rest) outCap = .ok (result, out) := by
  obtain ⟨output, r, ran, rfl, rfl⟩ := exists_reading decoded succeeds
  obtain ⟨inside, -⟩ := decompressReading_follows rfl ran
  refine ⟨r.pos, by rw [consumed, ran], inside, ?_, ?_⟩
  · intro j early
    obtain ⟨code, out', decoded', outcome⟩ := deflateDecompress_safe (input.take j) outCap
    refine ⟨code, out', decoded', ?_⟩
    by_contra notNegative
    -- The shorter run would be the run over the whole input, which takes more bytes.
    obtain ⟨output', r', ran', -, -⟩ := exists_reading decoded' (Int.not_lt.mp notNegative)
    obtain ⟨inside', -⟩ := decompressReading_follows rfl ran'
    rw [List.length_take] at inside'
    have same : input.take r'.pos = (input.take j).take r'.pos := by
      rw [List.take_take, Nat.min_eq_left (by omega)]
    obtain ⟨-, ranOther⟩ := decompressReading_follows same ran'
    rw [ran] at ranOther
    have samePos : r.pos = r'.pos :=
      congrArg (fun result : Output × Bitreader => result.2.pos) (Except.ok.inj ranOther)
    omega
  · intro rest
    have same : (input.take r.pos ++ rest).take r.pos = input.take r.pos := by
      apply List.take_left'
      rw [List.length_take, Nat.min_eq_left inside]
    obtain ⟨-, ranOther⟩ := decompressReading_follows same ran
    rw [deflateDecompress_eq, ranOther]

end Decoding

/-- One stored byte. -/
theorem stored_decoded :
    deflateDecompress [0x01, 0x01, 0x00, 0xFE, 0xFF, 0x61] 1 = .ok (1, [some 0x61]) := by
  rw [deflateDecompress_eq, decompressReading, show turns _ = 49 + 1 from rfl, blockLoopReading]
  simp [brInit, brBits, fill, Checked.get, block, storedBlock, brAlign, emptyOutput,
    Checked.forFrom, storeByte, Output.put, Checked.set, pure, Except.pure, bind, Except.bind]

theorem truncation_is_detected_stored :
    ∃ k, consumed [0x01, 0x01, 0x00, 0xFE, 0xFF, 0x61] 1 = some k ∧ k ≤ 6 ∧
      (∀ j < k, ∃ code out', deflateDecompress
        (([0x01, 0x01, 0x00, 0xFE, 0xFF, 0x61] : List UInt8).take j) 1 = .ok (code, out') ∧
          code < 0) ∧
      ∀ rest, deflateDecompress
        (([0x01, 0x01, 0x00, 0xFE, 0xFF, 0x61] : List UInt8).take k ++ rest) 1 =
          .ok (1, [some 0x61]) :=
  truncation_is_detected stored_decoded (by decide)

end FoundationsLab.Deflate
