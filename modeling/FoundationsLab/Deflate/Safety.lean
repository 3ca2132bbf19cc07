import FoundationsLab.Deflate.HuffTables
import FoundationsLab.Deflate.Inflate

/-! # The decoder is safe

On any input the decoder ends without an access outside its tables, the input or the
part of the output it has written. -/

namespace FoundationsLab.Deflate

open Checked (Safe safe_get safe_set safe_getInit safe_forFrom)

/-! ## The header of a dynamic block -/

theorem codelenOrder_lt : ∀ symbol ∈ codelenOrder, symbol < numCodelen := by decide

theorem readCodelen_safe {r : Bitreader} {i : Nat} (inside : i < numCodelen)
    {state : List Nat × Bitreader} (size : state.1.length = numCodelen) (reads : Reads 0 r state.2) :
    Safe (fun state => state.1.length = numCodelen ∧ Reads 0 r state.2) (readCodelen i state) := by
  obtain ⟨clLen, r'⟩ := state
  refine (safe_get inside).bind fun symbol isSymbol => ?_
  have small := codelenOrder_lt symbol (List.mem_of_getElem? isSymbol)
  refine (brBits_reads r' 3).bind fun (length, r'') ⟨_, reads'⟩ => ?_
  dsimp only at size reads reads' ⊢
  refine (safe_set (by omega) length).bind fun clLen' isSet => ?_
  subst isSet
  exact .ok ⟨by rw [List.length_set, size], (reads.trans reads').weaken (Nat.zero_le _)⟩

theorem repeatLength_safe (value total repeats : Nat) {lengths : List Nat} {n : Nat}
    (inside : n ≤ total) (room : total ≤ lengths.length) :
    Safe (fun (lengths', n') => lengths'.length = lengths.length ∧ n ≤ n' ∧ n' ≤ total ∧
      (0 < repeats → n < total → n < n')) (repeatLength value total repeats lengths n) := by
  induction repeats generalizing lengths n with
  | zero => exact .ok ⟨rfl, Nat.le_refl n, inside, fun absurd' => absurd absurd' (Nat.lt_irrefl 0)⟩
  | succ repeats induction =>
      rw [repeatLength]
      split
      · rename_i less
        refine (safe_set (by omega) value).bind fun lengths' isSet => ?_
        subst isSet
        have room' : total ≤ (lengths.set n value).length := by
          rw [List.length_set]
          exact room
        have rest := induction less room'
        refine rest.mono fun (lengths', n') ⟨size, grows, bound, _⟩ => ?_
        rw [List.length_set] at size
        exact ⟨size, by omega, bound, fun _ _ => by omega⟩
      · rename_i full
        exact .ok ⟨rfl, Nat.le_refl n, inside, fun _ less => absurd less full⟩

/-- Every symbol writes at least one length. -/
theorem writeLengths_safe {total symbol n : Nat} {lengths : List Nat} (r : Bitreader)
    (less : n < total) (room : total ≤ lengths.length) :
    Safe (fun (lengths', n', r') => lengths'.length = lengths.length ∧ n < n' ∧ n' ≤ total ∧
      Reads 0 r r') (writeLengths total symbol lengths n r) := by
  have runs : ∀ (value repeats : Nat) (r' : Bitreader), 0 < repeats → Reads 0 r r' →
      Safe (fun (lengths', n', r') => lengths'.length = lengths.length ∧ n < n' ∧ n' ≤ total ∧
        Reads 0 r r') (do
          let (lengths, n) ← repeatLength value total repeats lengths n
          return (lengths, n, r') : Df (List Nat × Nat × Bitreader)) := by
    intro value repeats r' positive reads
    refine (repeatLength_safe value total repeats (Nat.le_of_lt less) room).bind
      fun (lengths', n') ⟨size, _, bound, grows⟩ => ?_
    exact .ok ⟨size, grows positive less, bound, reads⟩
  rw [writeLengths]
  split
  · refine (safe_set (by omega) symbol).bind fun lengths' isSet => ?_
    subst isSet
    exact .ok ⟨List.length_set, Nat.lt_succ_self n, less, .refl r⟩
  · split
    · split
      · exact .fail _
      · refine (brBits_reads r 2).bind fun (extra, r') ⟨_, reads⟩ => ?_
        refine (safe_get (by omega)).bind fun prev _ => ?_
        exact runs prev _ r' (by omega) (reads.weaken (Nat.zero_le _))
    · split
      · refine (brBits_reads r 3).bind fun (extra, r') ⟨_, reads⟩ => ?_
        exact runs 0 _ r' (by omega) (reads.weaken (Nat.zero_le _))
      · refine (brBits_reads r 7).bind fun (extra, r') ⟨_, reads⟩ => ?_
        exact runs 0 _ r' (by omega) (reads.weaken (Nat.zero_le _))

theorem readLengths_safe {clDec : HuffDec} {clLen : List Nat} (decodes : Decodes clDec clLen)
    {total fuel n : Nat} {lengths : List Nat} (r : Bitreader) (enough : total ≤ n + fuel)
    (inside : n ≤ total) (room : total ≤ lengths.length) :
    Safe (fun (lengths', r') => lengths'.length = lengths.length ∧ Reads 0 r r')
      (readLengths clDec total fuel lengths n r) := by
  induction fuel generalizing lengths n r with
  | zero =>
      rw [readLengths, if_neg (by omega)]
      exact .ok ⟨rfl, .refl r⟩
  | succ fuel induction =>
      rw [readLengths]
      split
      · rename_i less
        refine (huffDecode_safe decodes r).bind fun (symbol, r') ⟨_, reads⟩ => ?_
        refine (writeLengths_safe r' less room).bind
          fun (lengths', n', r'') ⟨size, grows, bound, reads'⟩ => ?_
        dsimp only at size grows bound reads reads' ⊢
        split
        · exact .fail _
        · refine (induction r'' (by omega) bound (by omega)).mono
            fun (lengths'', r''') ⟨size', reads''⟩ => ?_
          exact ⟨size'.trans size, ((reads.trans reads').trans reads'').weaken (Nat.zero_le _)⟩
      · exact .ok ⟨rfl, .refl r⟩

/-- Both decoders of a block are built for some lengths, of at most 286 symbols. -/
structure Ready (lit dist : HuffDec) : Prop where
  lit : ∃ lengths, Decodes lit lengths ∧ lengths.length ≤ numLiterals
  dist : ∃ lengths, Decodes dist lengths ∧ lengths.length ≤ numLiterals

theorem build_ready {lengths : List Nat} {n : Nat} (inside : n ≤ lengths.length)
    (fits : n ≤ numLiterals) :
    Safe (fun d => ∃ lengths, Decodes d lengths ∧ lengths.length ≤ numLiterals)
      (huffBuildDecoder lengths n) := by
  refine (huffBuildDecoder_safe inside fits).mono fun d decodes => ⟨_, decodes, ?_⟩
  rw [List.length_take]
  omega

theorem readDynamicHeader_safe (r : Bitreader) :
    Safe (fun (lit, dist, r') => Ready lit dist ∧ Reads 0 r r') (readDynamicHeader r) := by
  rw [readDynamicHeader]
  refine (brBits_reads r 5).bind fun (hlit, r₁) ⟨_, reads₁⟩ => ?_
  refine (brBits_reads r₁ 5).bind fun (hdist, r₂) ⟨_, reads₂⟩ => ?_
  refine (brBits_reads r₂ 4).bind fun (hclen, r₃) ⟨isSmall, reads₃⟩ => ?_
  dsimp only at isSmall reads₁ reads₂ reads₃ ⊢
  split
  · exact .fail _
  · rename_i sizes
    have reads := ((reads₁.trans reads₂).trans reads₃).weaken (Nat.zero_le _)
    have hclenSmall : hclen + 4 ≤ numCodelen := by
      have bound : (2 : Nat) ^ 4 = 16 := rfl
      show hclen + 4 ≤ 19
      omega
    refine (safe_forFrom (fun _ state => state.1.length = numCodelen ∧ Reads 0 r state.2)
      ⟨List.length_replicate, reads⟩ fun i state _ upper ⟨size, reads⟩ =>
        readCodelen_safe (by omega) size reads).bind fun (clLen, r₄) ⟨size, reads₄⟩ => ?_
    dsimp only at size reads₄ ⊢
    refine (huffBuildDecoder_safe (by omega) (by decide)).bind fun clDec decodes => ?_
    refine (readLengths_safe decodes r₄ (by omega) (Nat.zero_le _) ?_).bind
      fun (lengths, r₅) ⟨size', reads₅⟩ => ?_
    · rw [List.length_replicate]
      omega
    · dsimp only at size' reads₅ ⊢
      rw [List.length_replicate] at size'
      refine (build_ready (by omega) (by omega)).bind fun lit isLit => ?_
      refine (build_ready (by rw [List.length_drop]; omega) ?_).bind fun dist isDist => ?_
      · have small : numDistances ≤ numLiterals := by decide
        omega
      · exact .ok ⟨⟨isLit, isDist⟩, (reads₄.trans reads₅).weaken (Nat.zero_le _)⟩

theorem length_fixedLitLen : fixedLitLen.length = numLiterals := by
  simp only [fixedLitLen, List.length_append, List.length_replicate]
  decide

theorem length_fixedDistLen : fixedDistLen.length = numDistances := List.length_replicate

theorem fixedDecoders_safe : Safe (fun (lit, dist) => Ready lit dist) fixedDecoders := by
  have isLit := build_ready (Nat.le_of_eq length_fixedLitLen.symm) (Nat.le_refl numLiterals)
  have isDist := build_ready (Nat.le_of_eq length_fixedDistLen.symm)
    (by decide : numDistances ≤ numLiterals)
  exact isLit.bind fun lit lit' => isDist.bind fun dist dist' => .ok ⟨lit', dist'⟩

theorem decoders_safe (type : Nat) (r : Bitreader) :
    Safe (fun (lit, dist, r') => Ready lit dist ∧ Reads 0 r r') (decoders type r) := by
  rw [decoders]
  split
  · exact fixedDecoders_safe.bind fun (lit, dist) ready => .ok ⟨ready, .refl r⟩
  · exact readDynamicHeader_safe r

/-! ## The output -/

/-- The buffer has its size, and all that counts as written is written. -/
structure Output.Valid (outCap : Nat) (output : Output) : Prop where
  size : output.out.length = outCap
  fits : output.written ≤ outCap
  filled : ∀ i < output.written, ∃ byte, output.out[i]? = some (some byte)

theorem Output.Valid.put_safe {outCap : Nat} {output : Output} (valid : output.Valid outCap)
    (free : output.written < outCap) (byte : UInt8) :
    Safe (fun output' => output'.Valid outCap ∧ output'.written = output.written + 1)
      (output.put byte) := by
  have size := valid.size
  rw [Output.put]
  refine (safe_set (by omega) _).bind fun out isSet => ?_
  subst isSet
  refine .ok ⟨⟨by rw [← size]; exact List.length_set, free, fun i early => ?_⟩, rfl⟩
  show ∃ byte', (output.out.set output.written (some byte))[i]? = some (some byte')
  rw [List.getElem?_set]
  split
  · exact ⟨byte, if_pos (by omega)⟩
  · rename_i different
    have earlier : i < output.written + 1 := early
    exact valid.filled i (by omega)

/-- The turns of a copy keep the buffer valid, one byte further each. -/
theorem copyByte_safe {outCap distance i : Nat} {output : Output} (positive : 0 < distance)
    (inside : distance ≤ output.written) (room : output.written + i < outCap)
    {out : List (Option UInt8)}
    (valid : Output.Valid outCap { out := out, written := output.written + i }) :
    Safe (fun out => Output.Valid outCap { out := out, written := output.written + (i + 1) })
      (copyByte output.written (output.written - distance) i out) := by
  obtain ⟨size, fits, filled⟩ := valid
  dsimp only at size fits filled
  obtain ⟨byte, isByte⟩ := filled (output.written - distance + i) (by omega)
  refine (safe_getInit isByte).bind fun byte' same => ?_
  refine (safe_set (by omega) _).mono fun out' isSet => ?_
  subst isSet
  refine ⟨by rw [← size]; exact List.length_set, by dsimp only; omega, fun j early => ?_⟩
  dsimp only at early ⊢
  rw [List.getElem?_set]
  split
  · exact ⟨byte', if_pos (by omega)⟩
  · exact filled j (by omega)

/-- A match copies from the part that is written, its own beginning included. -/
theorem copy_safe {outCap distance length : Nat} {output : Output} (valid : output.Valid outCap)
    (positive : 0 < distance) (inside : distance ≤ output.written)
    (room : output.written + length ≤ outCap) :
    Safe (fun out => Output.Valid outCap { out := out, written := output.written + length })
      (Checked.forFrom (copyByte output.written (output.written - distance)) 0 length output.out) := by
  have copied := safe_forFrom
    (fun i out => Output.Valid outCap { out := out, written := output.written + i }) valid
    fun i out (_ : 0 ≤ i) (upper : i < 0 + length) valid =>
      copyByte_safe positive inside (by omega) valid
  rw [Nat.zero_add] at copied
  exact copied

theorem storedBlock_safe {outCap : Nat} {output : Output} (valid : output.Valid outCap)
    (r : Bitreader) :
    Safe (fun (output', r') => output'.Valid outCap ∧ Reads 0 r r' ∧ r'.underflow = false)
      (storedBlock outCap output r) := by
  rw [storedBlock]
  refine (brAlign_reads r).bind fun r₁ reads₁ => ?_
  refine (brBits_reads r₁ 16).bind fun (len, r₂) ⟨_, reads₂⟩ => ?_
  refine (brBits_reads r₂ 16).bind fun (nlen, r₃) ⟨_, reads₃⟩ => ?_
  dsimp only at reads₁ reads₂ reads₃ ⊢
  split
  · exact .fail _
  rename_i notSet
  have clear : r₃.underflow = false := by simpa using notSet
  split
  · exact .fail _
  split
  · exact .fail _
  rename_i room
  have reads := ((reads₁.trans reads₂).trans reads₃).weaken (Nat.zero_le _)
  have stored := safe_forFrom
    (fun i (state : Output × Bitreader) => state.1.Valid outCap ∧
      state.1.written = output.written + i ∧ Reads 0 r state.2 ∧ state.2.underflow = false)
    (⟨valid, rfl, reads, clear⟩ : (output, r₃).1.Valid outCap ∧ _) fun i state (_ : 0 ≤ i)
      (upper : i < 0 + len) ⟨valid', isWritten, reads', _⟩ => by
    obtain ⟨output', r'⟩ := state
    show Safe _ (storeByte i (output', r'))
    rw [storeByte]
    refine (brBits_reads r' 8).bind fun (byte, r'') ⟨_, reads''⟩ => ?_
    dsimp only at valid' isWritten reads' reads'' ⊢
    split
    · exact .fail _
    · rename_i notSet'
      refine (valid'.put_safe (by omega) _).bind fun output'' ⟨valid'', grown⟩ =>
        .ok ⟨valid'', ?_, ?_, ?_⟩
      · dsimp only
        omega
      · exact (reads'.trans reads'').weaken (Nat.zero_le _)
      · simpa using notSet'
  exact stored.mono fun state ⟨valid', _, reads', clear'⟩ => ⟨valid', reads', clear'⟩

theorem lengthExtra_size : lengthBase.length = 29 ∧ lengthExtra.length = 29 := by decide

theorem distExtra_size : distBase.length = numDistances ∧ distExtra.length = numDistances := by
  decide

theorem distBase_pos : ∀ base ∈ distBase, 0 < base := by decide

theorem copyMatch_safe {dist : HuffDec} {outCap symbol : Nat} {output : Output} {lengths : List Nat}
    (decodes : Decodes dist lengths) (valid : output.Valid outCap) (r : Bitreader) :
    Safe (fun (output', r') => output'.Valid outCap ∧ Reads 0 r r')
      (copyMatch dist outCap symbol output r) := by
  obtain ⟨lengthSize, lengthSize'⟩ := lengthExtra_size
  obtain ⟨distSize, distSize'⟩ := distExtra_size
  rw [copyMatch]
  dsimp only
  split
  · exact .fail _
  refine (safe_get (by omega)).bind fun base _ => ?_
  refine (safe_get (by omega)).bind fun extra _ => ?_
  refine (brBits_reads r extra).bind fun (bits, r₁) ⟨_, reads₁⟩ => ?_
  refine (huffDecode_safe decodes r₁).bind fun (dc, r₂) ⟨_, reads₂⟩ => ?_
  dsimp only at reads₁ reads₂ ⊢
  split
  · exact .fail _
  refine (safe_get (by omega)).bind fun base' isBase => ?_
  refine (safe_get (by omega)).bind fun extra' _ => ?_
  refine (brBits_reads r₂ extra').bind fun (bits', r₃) ⟨_, reads₃⟩ => ?_
  have positive := distBase_pos base' (List.mem_of_getElem? isBase)
  dsimp only at reads₃ ⊢
  split
  · exact .fail _
  split
  · exact .fail _
  refine (copy_safe valid (by omega : 0 < base' + bits') (by omega) (by omega)).bind
    fun out valid' => .ok ⟨valid', ?_⟩
  exact ((reads₁.trans reads₂).trans reads₃).weaken (Nat.zero_le _)

/-! ## Loops over the input -/

theorem symbolLoop_safe {lit dist : HuffDec} (ready : Ready lit dist) {outCap fuel : Nat}
    {output : Output} (valid : output.Valid outCap) (r : Bitreader) (enough : r.budget < fuel) :
    Safe (fun (output', r') => output'.Valid outCap ∧ Reads 0 r r' ∧ r'.underflow = false)
      (symbolLoop lit dist outCap fuel output r) := by
  obtain ⟨litLengths, litDecodes, _⟩ := ready.lit
  obtain ⟨distLengths, distDecodes, _⟩ := ready.dist
  induction fuel generalizing output r with
  | zero => exact absurd enough (Nat.not_lt_zero _)
  | succ fuel induction =>
      rw [symbolLoop]
      refine (huffDecode_safe litDecodes r).bind fun (symbol, r₁) ⟨_, reads₁⟩ => ?_
      dsimp only at reads₁ ⊢
      split
      · exact .fail _
      rename_i notSet
      have clear : r.underflow = false := by
        by_contra set
        exact notSet (reads₁.flag (by simpa using set))
      have less := reads₁.budget_lt clear
      split
      · exact .ok ⟨valid, reads₁.weaken (Nat.zero_le _), by simpa using notSet⟩
      split
      · split
        · exact .fail _
        · refine (valid.put_safe (by omega) _).bind fun output' ⟨valid', _⟩ => ?_
          refine (induction valid' r₁ (by omega)).mono
            fun (output'', r₂) ⟨valid'', reads₂, clear₂⟩ => ?_
          exact ⟨valid'', (reads₁.trans reads₂).weaken (Nat.zero_le _), clear₂⟩
      · refine (copyMatch_safe distDecodes valid r₁).bind fun (output', r₂) ⟨valid', reads₂⟩ => ?_
        have less' := reads₂.budget_le
        refine (induction valid' r₂ (by omega)).mono
          fun (output'', r₃) ⟨valid'', reads₃, clear₃⟩ => ?_
        exact ⟨valid'', ((reads₁.trans reads₂).trans reads₃).weaken (Nat.zero_le _), clear₃⟩

/-- The reader has delivered no bit twice. -/
theorem Reads.budget_lt_turns {n : Nat} {input : List UInt8} {r : Bitreader}
    (reads : Reads n (brInit input) r) : r.budget < turns r := by
  have bound := reads.budget_le
  have whole : (brInit input).budget = 8 * input.length + 1 := rfl
  have isInput : r.input = input := reads.input
  rw [turns, isInput]
  omega

theorem block_safe {outCap type : Nat} {input : List UInt8} {output : Output}
    (valid : output.Valid outCap) {r : Bitreader} (reads : Reads 0 (brInit input) r) :
    Safe (fun (output', r') => output'.Valid outCap ∧ Reads 0 r r' ∧ r'.underflow = false)
      (block outCap type output r) := by
  rw [block]
  split
  · exact storedBlock_safe valid r
  split
  · exact .fail _
  rw [codedBlock]
  refine (decoders_safe type r).bind fun (lit, dist, r₁) ⟨ready, reads₁⟩ => ?_
  dsimp only at ready reads₁ ⊢
  have fresh := (reads.trans reads₁).budget_lt_turns
  refine (symbolLoop_safe ready valid r₁ fresh).mono fun (output', r₂) ⟨valid', reads₂, clear⟩ => ?_
  exact ⟨valid', reads₁.trans reads₂, clear⟩

theorem blockLoop_safe {outCap fuel : Nat} {input : List UInt8} {output : Output}
    (valid : output.Valid outCap) {r : Bitreader} (reads : Reads 0 (brInit input) r)
    (enough : r.budget < fuel) :
    Safe (fun output' => output'.Valid outCap) (blockLoop outCap fuel output r) := by
  induction fuel generalizing output r with
  | zero => exact absurd enough (Nat.not_lt_zero _)
  | succ fuel induction =>
      rw [blockLoop]
      refine (brBits_reads r 1).bind fun (final, r₁) ⟨_, reads₁⟩ => ?_
      refine (brBits_reads r₁ 2).bind fun (type, r₂) ⟨_, reads₂⟩ => ?_
      dsimp only at reads₁ reads₂ ⊢
      split
      · exact .fail _
      rename_i notSet
      have header : Reads 3 r r₂ := reads₁.trans reads₂
      have clear : r.underflow = false := by
        by_contra set
        exact notSet (header.flag (by simpa using set))
      have less := header.budget_lt clear
      have before := (reads.trans header).weaken (Nat.zero_le _)
      refine (block_safe valid before).bind fun (output', r₃) ⟨valid', reads₃, _⟩ => ?_
      have less' := reads₃.budget_le
      dsimp only
      split
      · exact .ok valid'
      · exact induction valid' (before.trans reads₃) (by omega)

theorem emptyOutput_valid (outCap : Nat) : (emptyOutput outCap).Valid outCap where
  size := List.length_replicate
  fits := Nat.zero_le _
  filled _ early := absurd early (Nat.not_lt_zero _)

/-- For every input and every size of the buffer the decoder comes to an end without a
fault, and returns a length that fits the buffer, all of it written, or an error code. -/
theorem deflateDecompress_safe (input : List UInt8) (outCap : Nat) :
    ∃ result out, deflateDecompress input outCap = .ok (result, out) ∧
      ((∃ written : Nat, result = written ∧ written ≤ outCap ∧ out.length = outCap ∧
          ∀ i < written, ∃ byte, out[i]? = some (some byte)) ∨
        ∃ error : DfError, result = error.code ∧ result < 0) := by
  have start : Reads 0 (brInit input) (brInit input) := .refl _
  have safe := blockLoop_safe (emptyOutput_valid outCap) start start.budget_lt_turns
  rw [deflateDecompress, decompressTo]
  generalize blockLoop outCap (turns (brInit input)) (emptyOutput outCap) (brInit input) = run
    at safe ⊢
  cases safe with
  | ok valid =>
      rename_i output
      exact ⟨output.written, output.out, rfl, .inl ⟨output.written, rfl, valid.fits, valid.size,
        valid.filled⟩⟩
  | fail error =>
      refine ⟨error.code, [], rfl, .inr ⟨error, rfl, ?_⟩⟩
      cases error <;> decide

end FoundationsLab.Deflate
