import FoundationsLab.Deflate.CompressBound
import FoundationsLab.Deflate.StreamDecoding
import FoundationsLab.Deflate.StreamEncoding

/-! # Round trip

The decoder gets back what the encoder was given, at every level and whichever kind of
block is chosen, and a buffer that is too small is noticed on either side. -/

namespace FoundationsLab.Deflate

open Foundation Foundation.BitStream Foundation.SlidingWindow

/-! ## The encoder's stream -/

/-- No dynamic block is written in which a distance has no code. -/
def Codable (input : List UInt8) (level : Int) : Prop :=
  input ≠ [] → levelOf level ≠ 0 → ∀ candidates,
    candidatesOf input (levelOf level) = .ok candidates → candidates.chosen = .dynamic →
      DistancesCoded candidates.tokens

theorem compressTo_stream {input : List UInt8} {level : Int} (small : input.length + 1 < 2 ^ 32)
    (codable : Codable input level) :
    ∃ program pieces, EmitsStream program pieces ∧ expand pieces = some input ∧
      ∀ outCap, compressTo input outCap level = .ok (program (bwInit outCap) >>= bwFinish) := by
  by_cases isEmpty : input = []
  · refine ⟨emitStored [] true, [], emitStored_emits (by decide), congrArg some isEmpty.symm, ?_⟩
    intro outCap
    rw [compressTo, if_pos (List.length_eq_zero_iff.mpr isEmpty)]
    rfl
  · have positive := List.length_pos_of_ne_nil isEmpty
    have stored := storedBlocks_emits input 0 positive
    have isText : expand (input.map .literal) = some input := expandFrom_literals [] input
    by_cases isStore : levelOf level = 0
    · refine ⟨storedBlocks input 0, _, stored, isText, ?_⟩
      intro outCap
      rw [compressTo, if_neg (Nat.ne_of_gt positive), if_pos isStore]
      rfl
    · obtain ⟨candidates, isMeasured, built⟩ := candidatesOf_built input (levelOf_le level)
      have isProgram := compressTo_chosen isEmpty isStore isMeasured
      cases isChosen : candidates.chosen with
      | stored =>
          rw [isChosen] at isProgram
          exact ⟨candidates.write input .stored, _, stored, isText, isProgram⟩
      | fixed =>
          rw [isChosen] at isProgram
          exact ⟨_, _, built.emits_fixed, built.expands, isProgram⟩
      | dynamic =>
          have coded := codable isEmpty isStore candidates isMeasured isChosen
          rw [isChosen] at isProgram
          exact ⟨_, _, built.emits_dynamic isEmpty small coded, built.expands, isProgram⟩

/-! ## The buffer -/

/-- What the encoder makes of its output in a buffer of this size. -/
def intoBuffer (out : List UInt8) (outCap : Nat) : Option (Int × List UInt8) :=
  if out.length ≤ outCap then some (out.length, out)
  else if out.length = outCap + 1 then some (DfError.output.code, out.take outCap)
  else none

/-- The return value for what a run wrote. -/
theorem deflateCompress_of_run {input : List UInt8} {level : Int}
    {program : Bitwriter → Option Bitwriter} {stream : List Bool → List Bool}
    (appends : Appends program stream) (isProgram : ∀ outCap, compressTo input outCap level =
      .ok (program (bwInit outCap) >>= bwFinish)) (outCap : Nat) :
    deflateCompress input outCap level = .ok (intoBuffer (streamBytes stream) outCap) := by
  rw [deflateCompress, isProgram, intoBuffer]
  by_cases defined : (streamBytes stream).length ≤ outCap + 1
  · obtain ⟨w, finished, isFlag, isOut⟩ := appends.run defined
    rw [finished]
    dsimp only [bind, Except.bind, Option.map_some]
    by_cases room : (streamBytes stream).length ≤ outCap
    · rw [List.take_of_length_le room] at isOut
      rw [if_pos room, isFlag, decide_eq_false (Nat.not_lt_of_le room), isOut]
      rfl
    · have one : (streamBytes stream).length = outCap + 1 := by omega
      rw [if_neg room, if_pos one, isFlag, decide_eq_true (Nat.lt_of_not_le room), isOut]
      rfl
  · have notFits : ¬ (streamBytes stream).length ≤ outCap := by omega
    have notOne : (streamBytes stream).length ≠ outCap + 1 := by omega
    rw [appends.run_undefined (Nat.lt_of_not_le defined), if_neg notFits, if_neg notOne]
    rfl

/-- The output does not depend on the buffer. -/
theorem compressed_bytes (input : List UInt8) (level : Int) :
    ∃ out, out.length ≤ deflateBound input.length ∧
      ∀ outCap, deflateCompress input outCap level = .ok (intoBuffer out outCap) := by
  obtain ⟨program, total, ⟨stream, appends, isTotal⟩, bound, isProgram⟩ :=
    compressTo_counts input level
  have isSize := length_streamBytes stream
  rw [isTotal [], List.length_nil] at isSize
  exact ⟨streamBytes stream, by omega, deflateCompress_of_run appends isProgram⟩

/-- For every input and level there is one output. A buffer with room for it gets it, a
buffer that lacks a byte gets the rest of it and an error, and with any smaller buffer a
shift goes out of bounds. -/
theorem compress_into_any_buffer (input : List UInt8) (level : Int) :
    ∃ out, out.length ≤ deflateBound input.length ∧
      (∀ outCap, out.length ≤ outCap →
        deflateCompress input outCap level = .ok (some (out.length, out))) ∧
      (∀ outCap, out.length = outCap + 1 →
        deflateCompress input outCap level =
          .ok (some (DfError.output.code, out.take outCap))) ∧
      ∀ outCap, outCap + 1 < out.length → deflateCompress input outCap level = .ok none := by
  obtain ⟨out, bound, compressed⟩ := compressed_bytes input level
  refine ⟨out, bound, ?_, ?_, ?_⟩
  · intro outCap room
    rw [compressed, intoBuffer, if_pos room]
  · intro outCap lacks
    rw [compressed, intoBuffer, if_neg (by omega), if_pos lacks]
  · intro outCap lacks
    rw [compressed, intoBuffer, if_neg (by omega), if_neg (by omega)]

/-! ## Round trip -/

section RoundTrip

variable {input : List UInt8} {level : Int}

/-- The output holds a stream that says the input. -/
theorem compressed_stream (small : input.length + 1 < 2 ^ 32) (codable : Codable input level) :
    ∃ out bits pieces, out.length ≤ deflateBound input.length ∧
      (∀ outCap, deflateCompress input outCap level = .ok (intoBuffer out outCap)) ∧
      Stream 0 bits pieces ∧ expand pieces = some input ∧ bits <+: bitsOfBytes out := by
  obtain ⟨program, pieces, ⟨stream, appends, isStream⟩, expands, isProgram⟩ :=
    compressTo_stream small codable
  obtain ⟨bits, isBits, isBlocks⟩ := isStream []
  rw [List.nil_append] at isBits
  rw [List.length_nil] at isBlocks
  have isRun := deflateCompress_of_run appends isProgram
  obtain ⟨out, bound, compressed⟩ := compressed_bytes input level
  have whole := compressed (max out.length (streamBytes stream).length)
  rw [isRun, intoBuffer, intoBuffer, if_pos (Nat.le_max_right _ _),
    if_pos (Nat.le_max_left _ _)] at whole
  have same : streamBytes stream = out :=
    congrArg Prod.snd (Option.some.inj (Except.ok.inj whole))
  have isLong := length_align bits
  have isPacked : bitsOfBytes out = align bits := by
    rw [← same, streamBytes, isBits, bitsOfBytes_packBytes, List.take_of_length_le (by omega)]
  refine ⟨out, bits, pieces, bound, compressed, isBlocks, expands, ?_⟩
  rw [isPacked]
  exact List.prefix_append _ _

/-- The output is decoded to the input, whatever follows it. -/
theorem compressed_decodes (small : input.length + 1 < 2 ^ 32) (codable : Codable input level) :
    ∃ out, out.length ≤ deflateBound input.length ∧
      (∀ outCap, out.length ≤ outCap →
        deflateCompress input outCap level = .ok (some (out.length, out))) ∧
      ∀ trailer cap, decompressTo (out ++ trailer) cap =
        if input.length ≤ cap then .ok (outputOf cap input) else Checked.fail .output := by
  obtain ⟨out, bits, pieces, bound, compressed, isBlocks, expands, isPrefix⟩ :=
    compressed_stream small codable
  refine ⟨out, bound, ?_, ?_⟩
  · intro outCap room
    rw [compressed, intoBuffer, if_pos room]
  · intro trailer cap
    apply decompressTo_stream isBlocks expands
    rw [bitsOfBytes_append]
    exact isPrefix.trans (List.prefix_append _ _)

end RoundTrip

/-- What the encoder returns is decoded to its input, also with other bytes behind it, in
every buffer with room for the input; a smaller one is an error. -/
theorem compress_round_trip (input : List UInt8) (level : Int) (small : input.length + 1 < 2 ^ 32)
    (codable : Codable input level) :
    ∃ out, out.length ≤ deflateBound input.length ∧
      (∀ outCap, out.length ≤ outCap →
        deflateCompress input outCap level = .ok (some (out.length, out))) ∧
      ∀ trailer cap, deflateDecompress (out ++ trailer) cap = if input.length ≤ cap
        then .ok (input.length, input.map some ++ List.replicate (cap - input.length) none)
        else .ok (DfError.output.code, []) := by
  obtain ⟨out, bound, compressed, decoded⟩ := compressed_decodes small codable
  exact ⟨out, bound, compressed, fun trailer cap => deflateDecompress_of_run (decoded trailer cap)⟩

theorem compress_round_trip_stored : ∃ out,
    deflateCompress [1, 2, 3] 16 0 = .ok (some (out.length, out)) ∧
    deflateDecompress out 3 = .ok (3, [some 1, some 2, some 3]) := by
  have codable : Codable [1, 2, 3] 0 := fun _ measured => absurd rfl measured
  obtain ⟨out, bound, compressed, decompressed⟩ :=
    compress_round_trip [1, 2, 3] 0 (by decide) codable
  refine ⟨out, compressed 16 bound, ?_⟩
  have isText := decompressed [] 3
  rwa [List.append_nil] at isText

/-! ## The gzip container -/

end FoundationsLab.Deflate
