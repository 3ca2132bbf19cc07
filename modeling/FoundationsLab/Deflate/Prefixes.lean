import FoundationsLab.Deflate.Safety

/-! # Inputs that agree

Two inputs with the same first bytes are decoded alike as long as only these bytes are
read. A run is followed on another input at the same place. -/

namespace FoundationsLab.Deflate

/-- The reader at the same place of another input. -/
def Bitreader.over (r : Bitreader) (input : List UInt8) : Bitreader := { r with input := input }

/-- It has not read behind the first `k` bytes, and not behind the end. -/
structure Bitreader.Within (r : Bitreader) (k : Nat) : Prop where
  clear : r.underflow = false
  pos : r.pos ≤ k

/-- Reading goes on in one input, and takes its bytes only where there are some. -/
structure Advances (r r₁ : Bitreader) : Prop where
  input : r₁.input = r.input
  inside : r.pos ≤ r.input.length → r₁.pos ≤ r₁.input.length

theorem Advances.refl (r : Bitreader) : Advances r r := ⟨rfl, id⟩

theorem Advances.trans {r r₁ r₂ : Bitreader} (first : Advances r r₁) (second : Advances r₁ r₂) :
    Advances r r₂ :=
  ⟨second.input.trans first.input, fun inside => second.inside (first.inside inside)⟩

section Following

variable {α β γ δ : Type} {other : List UInt8} {k : Nat}

/-- Where the run stays within the first `k` bytes, it is the same over another input
with these bytes. The result of a program is some data and the reader behind it. -/
def Steady (other : List UInt8) (k : Nat) (join : α → Bitreader → γ)
    (program : Bitreader → Df γ) : Prop :=
  ∀ r result, other.take k = r.input.take k → program r = .ok result →
    ∃ data r₁, result = join data r₁ ∧ Advances r r₁ ∧
      (r₁.Within k → r.Within k ∧ program (r.over other) = .ok (join data (r₁.over other)))

theorem Steady.pure (join : α → Bitreader → γ) (data : α) :
    Steady other k join fun r => .ok (join data r) := by
  intro r result _ ran
  obtain rfl := Except.ok.inj ran
  exact ⟨data, r, rfl, .refl r, fun within => ⟨within, rfl⟩⟩

theorem Steady.fail (join : α → Bitreader → γ) (error : DfError) :
    Steady other k join fun _ => Checked.fail error := by
  intro r result _ ran
  cases ran

theorem Steady.fault (join : α → Bitreader → γ) (fault : Fault) :
    Steady other k join fun _ => .error (.fault fault) := by
  intro r result _ ran
  cases ran

theorem Steady.bind {join : α → Bitreader → γ} {join' : β → Bitreader → δ}
    {program : Bitreader → Df γ} {next : γ → Df δ} (first : Steady other k join program)
    (rest : ∀ data, Steady other k join' fun r => next (join data r)) :
    Steady other k join' fun r => program r >>= next := by
  intro r result same ran
  cases begun : program r with
  | error stop =>
      dsimp only at ran
      rw [begun] at ran
      cases ran
  | ok middle =>
      dsimp only at ran
      rw [begun] at ran
      obtain ⟨data, r₁, rfl, advances, follows⟩ := first r middle same begun
      have same₁ : other.take k = r₁.input.take k := by
        rw [advances.input]
        exact same
      obtain ⟨data', r₂, rfl, advances', follows'⟩ := rest data r₁ result same₁ ran
      refine ⟨data', r₂, rfl, advances.trans advances', ?_⟩
      intro within
      obtain ⟨within₁, ran'⟩ := follows' within
      obtain ⟨within₀, begun'⟩ := follows within₁
      constructor
      · exact within₀
      · dsimp only
        rw [begun']
        exact ran'

/-- A step that does not read. -/
theorem Steady.step {join : β → Bitreader → γ} {value : Df α} {program : α → Bitreader → Df γ}
    (rest : ∀ data, Steady other k join (program data)) :
    Steady other k join fun r => value >>= fun data => program data r := by
  cases value with
  | error stop =>
      intro r result _ ran
      cases ran
  | ok data => exact rest data

theorem Steady.ite {join : β → Bitreader → γ} {condition : Prop} [Decidable condition]
    {program program' : Bitreader → Df γ} (first : Steady other k join program)
    (second : Steady other k join program') :
    Steady other k join fun r => if condition then program r else program' r := by
  by_cases holds : condition
  · simp only [if_pos holds]
    exact first
  · simp only [if_neg holds]
    exact second

/-- The flag is the same over both inputs. -/
theorem Steady.ite_underflow {join : β → Bitreader → γ} {program : Bitreader → Df γ}
    (rest : Steady other k join program) :
    Steady other k join fun r => if r.underflow then Checked.fail .input else program r := by
  intro r result same ran
  dsimp only at ran
  split at ran
  · cases ran
  · rename_i notSet
    obtain ⟨data, r₁, isResult, advances, follows⟩ := rest r result same ran
    refine ⟨data, r₁, isResult, advances, ?_⟩
    intro within
    obtain ⟨within₀, ran'⟩ := follows within
    constructor
    · exact within₀
    · exact (if_neg notSet).trans ran'

theorem Steady.forFrom {body : Nat → α × Bitreader → Df (α × Bitreader)}
    (turn : ∀ i data, Steady other k Prod.mk fun r => body i (data, r)) (start count : Nat)
    (data : α) :
    Steady other k Prod.mk fun r => Checked.forFrom body start count (data, r) := by
  induction count generalizing start data with
  | zero => exact .pure Prod.mk data
  | succ count induction =>
      exact Steady.bind (turn start data) fun data' => induction (start + 1) data'

/-! ## The bit reader -/

theorem fill_flag {r r₁ : Bitreader} {count : Nat} (ran : fill r count = .ok r₁)
    (set : r.underflow = true) : r₁.underflow = true := by
  have safe := fill_reads r count
  rw [ran] at safe
  cases safe with
  | ok holds => exact holds.1.flag set

theorem fill_steady (count : Nat) :
    Steady other k (fun (_ : Unit) r => r) fun r => fill r count := by
  intro r result same ran
  refine ⟨(), result, rfl, ?_⟩
  dsimp only at ran ⊢
  induction r using fill.induct count with
  | case1 r short atEnd induction =>
      rw [fill, if_pos short, if_pos atEnd] at ran
      obtain ⟨advances, -⟩ := induction same ran
      refine ⟨⟨advances.input, advances.inside⟩, ?_⟩
      intro within
      have set := fill_flag ran rfl
      rw [within.clear] at set
      cases set
  | case2 r short inside induction =>
      have isByte : r.pos < r.input.length := by omega
      rw [fill, if_pos short, if_neg inside, Checked.get, List.getElem?_eq_getElem isByte] at ran
      obtain ⟨advances, follows⟩ := induction r.input[r.pos] same ran
      refine ⟨⟨advances.input, fun _ => advances.inside isByte⟩, ?_⟩
      intro within
      obtain ⟨within₁, ran'⟩ := follows within
      have early : r.pos < k := within₁.pos
      have sameByte : other[r.pos]? = r.input[r.pos]? := by
        rw [← List.getElem?_take_of_lt early, same, List.getElem?_take_of_lt early]
      have isByte' : r.pos < other.length := by
        by_contra outside
        rw [List.getElem?_eq_none (Nat.not_lt.mp outside), List.getElem?_eq_getElem isByte]
          at sameByte
        cases sameByte
      constructor
      · exact ⟨within₁.clear, Nat.le_of_lt early⟩
      · have short' : (r.over other).bitCount < count := short
        have inside' : ¬ (r.over other).input.length ≤ (r.over other).pos := Nat.not_le.mpr isByte'
        have sameByte' : (r.over other).input[(r.over other).pos]? = some r.input[r.pos] :=
          sameByte.trans (List.getElem?_eq_getElem isByte)
        rw [fill, if_pos short', if_neg inside', Checked.get, sameByte']
        exact ran'
  | case3 r full =>
      rw [fill, if_neg full] at ran
      obtain rfl := Except.ok.inj ran
      refine ⟨.refl r, ?_⟩
      intro within
      constructor
      · exact within
      · rw [fill]
        exact if_neg full

theorem brBits_steady (count : Nat) : Steady other k Prod.mk fun r => brBits r count := by
  intro r result same ran
  cases filled : fill r count with
  | error stop =>
      dsimp only at ran
      rw [brBits, filled] at ran
      cases ran
  | ok r₁ =>
      dsimp only at ran
      rw [brBits, filled] at ran
      obtain rfl := Except.ok.inj ran
      obtain ⟨_, _, rfl, advances, follows⟩ := fill_steady count r r₁ same filled
      refine ⟨_, _, rfl, ⟨advances.input, advances.inside⟩, ?_⟩
      intro within
      obtain ⟨within₀, filled'⟩ := follows ⟨within.clear, within.pos⟩
      constructor
      · exact within₀
      · dsimp only at filled' ⊢
        rw [brBits, filled']
        rfl

theorem brAlign_steady : Steady other k (fun (_ : Unit) r => r) brAlign := by
  intro r result same ran
  have drops : Steady other k (fun (_ : Unit) r => r) fun r' =>
      brBits r' (r.bitCount % 8) >>= fun read => .ok read.2 := by
    apply Steady.bind (brBits_steady _)
    intro bits
    exact .pure _ ()
  have sameCount : (r.over other).bitCount = r.bitCount := rfl
  rw [brAlign] at ran ⊢
  rw [sameCount]
  dsimp only at ran ⊢
  split at ran
  · rename_i some'
    rw [if_pos some']
    exact drops r result same ran
  · rename_i none'
    obtain rfl := Except.ok.inj ran
    rw [if_neg none']
    exact ⟨(), r, rfl, .refl r, fun within => ⟨within, rfl⟩⟩

/-! ## The Huffman decoder -/

theorem huffDecodeFrom_steady (d : HuffDec) (turns len code first index : Nat) :
    Steady other k Prod.mk fun r => huffDecodeFrom d turns len code first index r := by
  induction turns generalizing len code first index with
  | zero => exact .fail _ _
  | succ turns induction =>
      apply Steady.bind (brBits_steady 1)
      intro bit
      apply Steady.step
      intro count
      apply Steady.ite
      · apply Steady.ite
        · exact .fault _ _
        · apply Steady.step
          intro symbol
          exact .pure _ _
      · exact induction _ _ _ _

theorem huffDecode_steady (d : HuffDec) : Steady other k Prod.mk (huffDecode d) :=
  huffDecodeFrom_steady d maxCodeBits 1 0 0 0

end Following

end FoundationsLab.Deflate
