import FoundationsLab.Lsm.FileNames
import FoundationsLab.Lsm.TableWrite

/-! # Tables in the order of their names

Opening a directory sorts the names of the tables as text. The padding to eight
digits keeps that the order of the generations up to `10 ^ 8`. Beyond it, a shorter
name is compared with the leading digits of a longer one. -/

namespace FoundationsLab.Lsm

open Foundation
open Foundation.Decimal
open Foundation.JavaString
open Foundation.Directory

/-! ## Names of several lengths -/

theorem nameWidth_mono {gen gen' : Nat} (below : gen ≤ gen') : nameWidth gen ≤ nameWidth gen' := by
  have fits : gen < 10 ^ nameWidth gen' := Nat.lt_of_le_of_lt below (lt_pow_nameWidth gen')
  have positive : 0 < nameWidth gen' := by
    rw [nameWidth]
    omega
  have short := (Nat.length_toDigits_le_iff (by decide) positive).mpr fits
  have wide : 8 ≤ nameWidth gen' := Nat.le_max_left _ _
  exact Nat.max_le.mpr ⟨wide, short⟩

theorem numeral_mod (width n : Nat) : numeral width (n % 10 ^ width) = numeral width n := by
  cases width with
  | zero => rfl
  | succ width =>
      have top : n % 10 ^ (width + 1) / 10 ^ width = n / 10 ^ width % 10 := by
        rw [pow_succ, Nat.mod_mul_right_div_self]
      have low : n % 10 ^ (width + 1) % 10 ^ width = n % 10 ^ width :=
        Nat.mod_mod_of_dvd n (Nat.pow_dvd_pow 10 (Nat.le_succ width))
      have sameDigit : digit (n / 10 ^ width % 10) = digit (n / 10 ^ width) := by
        apply Fin.ext
        rw [digit_val, digit_val, Nat.mod_mod]
      rw [numeral, numeral, top, low, sameDigit]

/-- A numeral is the numeral of its leading digits, then that of the others. -/
theorem numeral_add (front back n : Nat) :
    numeral (front + back) n = numeral front (n / 10 ^ back) ++ numeral back n := by
  induction front generalizing n with
  | zero => rw [Nat.zero_add, numeral, List.nil_append]
  | succ front induction =>
      have width : front + 1 + back = front + back + 1 := by omega
      have top : n / 10 ^ (front + back) = n / 10 ^ back / 10 ^ front := by
        rw [Nat.div_div_eq_div_mul, ← pow_add, Nat.add_comm back front]
      have middle : n % 10 ^ (front + back) / 10 ^ back = n / 10 ^ back % 10 ^ front := by
        rw [Nat.add_comm front back, pow_add, Nat.mod_mul_right_div_self]
      have low : numeral back (n % 10 ^ (front + back)) = numeral back n := by
        rw [← numeral_mod back (n % 10 ^ (front + back)),
          Nat.mod_mod_of_dvd n (Nat.pow_dvd_pow 10 (Nat.le_add_left back front)), numeral_mod]
      rw [width, numeral, numeral, induction, middle, low, top, List.cons_append]

/-- The suffix sorts before every digit. -/
theorem tableSuffix_lt_numeral {width n : Nat} (positive : 0 < width) (rest : JavaString) :
    tableSuffix < numeral width n ++ rest := by
  obtain ⟨less, rfl⟩ : ∃ less, width = less + 1 := ⟨width - 1, by omega⟩
  have isDigit := digit_range (n / 10 ^ less)
  have dot : tableSuffix = ofAscii ['.'] ++ ofAscii ['d', 'b'] := rfl
  rw [numeral, List.cons_append, dot]
  refine List.cons_lt_cons_iff.mpr (.inl ?_)
  have value : (Fin.ofNat (2 ^ 16) '.'.toNat : CodeUnit).val = 0x2E := rfl
  rw [Fin.lt_def, value]
  omega

/-- A smaller generation has the smaller name when it is not above the leading
digits of the other one. -/
theorem sstFile_lt_of_le {gen gen' : Nat} (below : gen < gen')
    (leading : gen ≤ gen' / 10 ^ (nameWidth gen' - nameWidth gen)) : sstFile gen < sstFile gen' := by
  have wider := nameWidth_mono (Nat.le_of_lt below)
  obtain ⟨more, isMore⟩ : ∃ more, nameWidth gen' = nameWidth gen + more :=
    ⟨nameWidth gen' - nameWidth gen, by omega⟩
  have difference : nameWidth gen' - nameWidth gen = more := by omega
  rw [difference] at leading
  have fits : gen' / 10 ^ more < 10 ^ nameWidth gen := by
    apply Nat.div_lt_of_lt_mul
    have bound := lt_pow_nameWidth gen'
    rwa [isMore, pow_add, Nat.mul_comm] at bound
  rw [sstFile_eq_numeral, sstFile_eq_numeral, isMore, numeral_add, List.append_assoc]
  apply List.append_left_lt
  rcases Nat.lt_or_eq_of_le leading with less | equal
  · apply append_lt_append_of_lt _ _ (numeral_lt less fits)
    rw [length_numeral, length_numeral]
  · rw [← equal]
    apply List.append_left_lt
    apply tableSuffix_lt_numeral
    -- With as many digits the numbers would be the same.
    rcases Nat.eq_zero_or_pos more with isZero | positive
    · rw [isZero, pow_zero, Nat.div_one] at equal
      omega
    · exact positive

theorem sstFile_gt_of_gt {gen gen' : Nat} (below : gen < gen')
    (leading : gen' / 10 ^ (nameWidth gen' - nameWidth gen) < gen) : sstFile gen' < sstFile gen := by
  have wider := nameWidth_mono (Nat.le_of_lt below)
  obtain ⟨more, isMore⟩ : ∃ more, nameWidth gen' = nameWidth gen + more :=
    ⟨nameWidth gen' - nameWidth gen, by omega⟩
  have difference : nameWidth gen' - nameWidth gen = more := by omega
  rw [difference] at leading
  rw [sstFile_eq_numeral, sstFile_eq_numeral, isMore, numeral_add, List.append_assoc]
  apply List.append_left_lt
  apply append_lt_append_of_lt _ _ (numeral_lt leading (lt_pow_nameWidth gen))
  rw [length_numeral, length_numeral]

/-- The generations whose names are in their own order: no smaller one is above
the leading digits of a larger one. -/
def InNameOrder (gens : List Nat) : Prop :=
  ∀ gen ∈ gens, ∀ gen' ∈ gens, gen < gen' →
    gen ≤ gen' / 10 ^ (nameWidth gen' - nameWidth gen)

theorem inNameOrder_iff {gens : List Nat} : InNameOrder gens ↔
    ∀ gen ∈ gens, ∀ gen' ∈ gens, gen < gen' → sstFile gen < sstFile gen' := by
  constructor
  · intro order gen member gen' member' below
    exact sstFile_lt_of_le below (order gen member gen' member' below)
  · intro order gen member gen' member' below
    by_contra above
    exact lt_asymm (order gen member gen' member' below) (sstFile_gt_of_gt below (not_le.mp above))

/-! ## What is opened -/

/-- The tables of a directory: their generations are positive values of `int`, no
other file has the name of a table, and every one of them can be opened. -/
structure Present (disk : Directory FileName) (gens : List Nat) : Prop where
  range : ∀ gen ∈ gens, 0 < gen ∧ gen < 2 ^ 31
  names : ∀ name, isTable name = true → (name ∈ disk.names ↔ ∃ gen ∈ gens, name = sstFile gen)
  opens : ∀ gen ∈ gens, (LsmTree.openTable disk (sstFile gen)).isSome

/-- The tables are opened with the newest in front, and the largest generation is
known. -/
def ReopensNewestFirst (disk : Directory FileName) (gens : List Nat) : Prop :=
  ∃ (sstables : List SSTable) (maxGen : Nat) (order : List Nat),
    LsmTree.openExistingSSTables disk = some (sstables, maxGen) ∧
    sstables.map (·.file) = order.map sstFile ∧ order.Pairwise (· > ·) ∧
    (∀ gen, gen ∈ order ↔ gen ∈ gens) ∧ maxGen = gens.foldr max 0

theorem file_of_new {file : FileName} {data : Bytes} {table : SSTable}
    (opened : SSTable.new file data = some table) : table.file = file := by
  simp only [SSTable.new, Option.bind_eq_bind, Option.bind_eq_some_iff] at opened
  rcases opened with ⟨footer, -, index, -, bloom, -, count, -, magic, -, opened⟩
  split at opened
  · cases opened
  · simp only [Option.bind_eq_some_iff] at opened
    rcases opened with ⟨atIndex, -, entries, -, sparse, -, atBloom, -, filter, -, opened⟩
    split at opened
    · cases opened
    · cases opened
      rfl

theorem file_of_openTable {disk : Directory FileName} {name : FileName} {table : SSTable}
    (opened : LsmTree.openTable disk name = some table) : table.file = name := by
  rcases Option.bind_eq_some_iff.mp opened with ⟨data, -, isTable⟩
  exact file_of_new isTable

/-- The loop puts each table in front of those before it. -/
theorem openTables_returns {disk : Directory FileName} {rest : List Nat}
    (range : ∀ gen ∈ rest, gen < 2 ^ 31)
    (opens : ∀ gen ∈ rest, (LsmTree.openTable disk (sstFile gen)).isSome)
    (done : List SSTable) (maxGen : Nat) :
    ∃ sstables, LsmTree.openTables disk (rest.map sstFile) done maxGen =
        some (sstables, rest.foldl max maxGen) ∧
      sstables.map (·.file) = rest.reverse.map sstFile ++ done.map (·.file) := by
  induction rest generalizing done maxGen with
  | nil => exact ⟨done, rfl, rfl⟩
  | cons gen rest induction =>
      rcases Option.isSome_iff_exists.mp (opens gen List.mem_cons_self) with ⟨table, opened⟩
      rcases induction (fun other member => range other (List.mem_cons_of_mem _ member))
        (fun other member => opens other (List.mem_cons_of_mem _ member)) (table :: done)
        (max maxGen gen) with ⟨sstables, later, files⟩
      refine ⟨sstables, ?_, ?_⟩
      · rw [List.map_cons, LsmTree.openTables,
          generation_sstFile_of_int (range gen List.mem_cons_self)]
        simp only [Option.bind_eq_bind, Option.bind_some, opened, Int.toNat_natCast]
        exact later
      · rw [files, List.map_cons, file_of_openTable opened]
        simp

theorem foldl_max_eq (gens : List Nat) (largest : Nat) :
    gens.foldl max largest = max largest (gens.foldr max 0) := by
  induction gens generalizing largest with
  | nil => simp
  | cons gen gens induction =>
      rw [List.foldl_cons, induction, List.foldr_cons, Nat.max_assoc]

theorem foldr_max_le {gens others : List Nat} (inside : ∀ gen ∈ gens, gen ∈ others) :
    gens.foldr max 0 ≤ others.foldr max 0 := by
  have bounded : ∀ gen ∈ others, gen ≤ others.foldr max 0 := by
    clear inside
    induction others with
    | nil => simp
    | cons other others induction =>
        intro gen member
        rw [List.foldr_cons]
        rcases List.mem_cons.mp member with rfl | isLater
        · exact Nat.le_max_left _ _
        · exact Nat.le_trans (induction gen isLater) (Nat.le_max_right _ _)
  induction gens with
  | nil => exact Nat.zero_le _
  | cons gen gens induction =>
      rw [List.foldr_cons]
      exact Nat.max_le.mpr ⟨bounded gen (inside gen List.mem_cons_self),
        induction fun other member => inside other (List.mem_cons_of_mem _ member)⟩

/-- The tables come in the order of their names, the last one in front. -/
theorem Present.openExistingSSTables {disk : Directory FileName} {gens : List Nat}
    (present : Present disk gens) :
    ∃ (sstables : List SSTable) (order : List Nat),
      LsmTree.openExistingSSTables disk = some (sstables, gens.foldr max 0) ∧
      sstables.map (·.file) = order.map sstFile ∧ (∀ gen, gen ∈ order ↔ gen ∈ gens) ∧
      order.Pairwise fun gen gen' => sstFile gen' < sstFile gen := by
  have sorted : (disk.names.filter isTable).Pairwise (· < ·) :=
    (names_sorted disk).sublist List.filter_sublist
  have unchanged := (sorted.imp fun below => le_of_lt below).insertionSort_eq
  have named : ∀ name ∈ disk.names.filter isTable, ∃ gen ∈ gens, name = sstFile gen := by
    intro name member
    rcases List.mem_filter.mp member with ⟨inDisk, isTable⟩
    exact (present.names name isTable).mp inDisk
  -- The list of names is read back as a list of generations.
  obtain ⟨found, isFound⟩ : ∃ found : List Nat, found =
    (disk.names.filter isTable).map fun name => ((generation name).getD 0).toNat := ⟨_, rfl⟩
  have back : ∀ gen ∈ gens, ((generation (sstFile gen)).getD 0).toNat = gen := by
    intro gen member
    rw [generation_sstFile_of_int (present.range gen member).2]
    rfl
  have files : disk.names.filter isTable = found.map sstFile := by
    rw [isFound, List.map_map]
    symm
    refine (List.map_congr_left (g := id) ?_).trans (List.map_id _)
    intro name member
    rcases named name member with ⟨gen, isGen, rfl⟩
    exact congrArg sstFile (back gen isGen)
  have members : ∀ gen, gen ∈ found ↔ gen ∈ gens := by
    intro gen
    rw [isFound, List.mem_map]
    constructor
    · rintro ⟨name, member, rfl⟩
      rcases named name member with ⟨gen, isGen, rfl⟩
      rwa [back gen isGen]
    · intro member
      refine ⟨sstFile gen, ?_, back gen member⟩
      rw [List.mem_filter]
      exact ⟨(present.names _ (isTable_sstFile gen)).mpr ⟨gen, member, rfl⟩, isTable_sstFile gen⟩
  rcases openTables_returns (fun gen member => (present.range gen ((members gen).mp member)).2)
    (fun gen member => present.opens gen ((members gen).mp member)) [] 0
    with ⟨sstables, opened, isSstables⟩
  have largest : found.foldl max 0 = gens.foldr max 0 := by
    rw [foldl_max_eq, Nat.zero_max]
    exact Nat.le_antisymm (foldr_max_le fun gen => (members gen).mp)
      (foldr_max_le fun gen => (members gen).mpr)
  refine ⟨sstables, found.reverse, ?_, ?_, ?_, ?_⟩
  · rw [LsmTree.openExistingSSTables, unchanged, files, opened, largest]
  · rw [isSstables, List.map_nil, List.append_nil]
  · intro gen
    rw [List.mem_reverse, members]
  · rw [List.pairwise_reverse]
    rw [files] at sorted
    exact List.pairwise_map.mp sorted

/-- When the names are not in the order of the generations, the order is wrong. -/
theorem Present.inNameOrder {disk : Directory FileName} {gens : List Nat}
    (present : Present disk gens) (newestFirst : ReopensNewestFirst disk gens) :
    InNameOrder gens := by
  rcases present.openExistingSSTables with ⟨sstables, byName, opened, files, members, sorted⟩
  rcases newestFirst with ⟨sstables', maxGen, order, opened', files', descending, members', -⟩
  rw [opened] at opened'
  cases opened'
  -- The two lists have the same files, so they are the same generations.
  have same : order = byName := by
    have isFile := files'.symm.trans files
    have read := congrArg (List.map fun name => ((generation name).getD 0).toNat) isFile
    have back : ∀ found : List Nat, (∀ gen, gen ∈ found ↔ gen ∈ gens) →
        (found.map sstFile).map (fun name => ((generation name).getD 0).toNat) = found := by
      intro found isFound
      rw [List.map_map]
      refine (List.map_congr_left (g := id) ?_).trans (List.map_id _)
      intro gen member
      have isInt := (present.range gen ((isFound gen).mp member)).2
      simp [generation_sstFile_of_int isInt]
    rwa [back order members', back byName members] at read
  rw [← same] at sorted
  rw [inNameOrder_iff]
  intro gen member gen' member' below
  have both := descending.and sorted
  rcases List.append_of_mem ((members' gen').mpr member') with ⟨front, back, split⟩
  have isMember := (members' gen).mpr member
  rw [split] at both isMember
  rcases List.mem_append.mp isMember with isFront | isRest
  · have later := (List.pairwise_append.mp both).2.2 gen isFront gen' List.mem_cons_self
    exact absurd later.1 (by omega)
  · rcases List.mem_cons.mp isRest with equal | isBack
    · exact absurd equal (by omega)
    · exact ((List.pairwise_cons.mp (List.pairwise_append.mp both).2.1).1 gen isBack).2

/-- Reopening finds the newest table in front exactly when the names of the tables
are in the order of their generations. -/
theorem reopens_newest_first_iff {disk : Directory FileName} {gens : List Nat}
    (present : Present disk gens) : ReopensNewestFirst disk gens ↔ InNameOrder gens := by
  constructor
  · intro newestFirst
    exact present.inNameOrder newestFirst
  · intro order
    rcases present.openExistingSSTables with ⟨sstables, byName, opened, files, members, sorted⟩
    refine ⟨sstables, gens.foldr max 0, byName, opened, files, ?_, members, rfl⟩
    refine List.Pairwise.imp_of_mem ?_ sorted
    intro gen gen' member member' nameBelow
    rcases Nat.lt_trichotomy gen gen' with below | equal | above
    · have nameAbove := inNameOrder_iff.mp order gen ((members gen).mp member) gen'
        ((members gen').mp member') below
      exact absurd nameAbove (lt_asymm nameBelow)
    · rw [equal] at nameBelow
      exact absurd nameBelow (lt_irrefl _)
    · exact above

/-! ## Two tables -/

/-- The directory with two empty tables. -/
def twoTables (gen gen' : Nat) : Directory FileName :=
  [.write (sstFile gen) (SSTable.write ⟨fun _ => 0, fun _ _ => 0, fun _ _ => by decide⟩ [] 0),
    .write (sstFile gen') (SSTable.write ⟨fun _ => 0, fun _ _ => 0, fun _ _ => by decide⟩ [] 0)]

theorem twoTables_present {gen gen' : Nat} (range : 0 < gen ∧ gen < 2 ^ 31)
    (range' : 0 < gen' ∧ gen' < 2 ^ 31) : Present (twoTables gen gen') [gen, gen'] := by
  obtain ⟨bytes, isBytes⟩ : ∃ bytes, bytes =
    SSTable.write ⟨fun _ => 0, fun _ _ => 0, fun _ _ => by decide⟩ [] 0 := ⟨_, rfl⟩
  have contents : ∀ name, read (twoTables gen gen') name =
      if name = sstFile gen' ∨ name = sstFile gen then some bytes else none := by
    intro name
    have parts : twoTables gen gen' = [] ++ [.write (sstFile gen) bytes] ++
        [.write (sstFile gen') bytes] := by
      rw [isBytes]
      rfl
    have nothing : read ([] : Directory FileName) name = none := rfl
    rw [parts, read_write, read_write, nothing]
    by_cases isSecond : name = sstFile gen'
    · rw [if_pos isSecond, if_pos (.inl isSecond)]
    · by_cases isFirst : name = sstFile gen
      · rw [if_neg isSecond, if_pos isFirst, if_pos (.inr isFirst)]
      · rw [if_neg isSecond, if_neg isFirst, if_neg (not_or.mpr ⟨isSecond, isFirst⟩)]
  have either : ∀ {number : Nat}, number ∈ [gen, gen'] → number = gen ∨ number = gen' := by
    intro number member
    simpa using member
  have opens : ∀ name, (SSTable.new name bytes).isSome := by
    intro name
    rcases @SSTable.new_write ⟨fun _ => 0, fun _ _ => 0, fun _ _ => by decide⟩ SortedMap.empty 0
      name (by simp) (by decide +kernel) with ⟨table, opened, -⟩
    rw [isBytes, Option.isSome_iff_exists]
    exact ⟨table, opened⟩
  constructor
  · intro number member
    rcases either member with rfl | rfl
    · exact range
    · exact range'
  · intro name _
    rw [mem_names, contents]
    constructor
    · intro found
      by_cases isEither : name = sstFile gen' ∨ name = sstFile gen
      · rcases isEither with isSecond | isFirst
        · exact ⟨gen', by simp, isSecond⟩
        · exact ⟨gen, by simp, isFirst⟩
      · rw [if_neg isEither] at found
        cases found
    · rintro ⟨number, member, rfl⟩
      rcases either member with rfl | rfl
      · rw [if_pos (.inr rfl)]
        rfl
      · rw [if_pos (.inl rfl)]
        rfl
  · intro number member
    rw [LsmTree.openTable, contents]
    rcases either member with rfl | rfl
    · rw [if_pos (.inr rfl)]
      exact opens _
    · rw [if_pos (.inl rfl)]
      exact opens _

/-- The tables of two flushes one after the other. -/
theorem two_flushes_reopen_newest_first : ReopensNewestFirst (twoTables 1 2) [1, 2] := by
  apply (reopens_newest_first_iff (twoTables_present (by decide) (by decide))).mpr
  intro gen member gen' member' below
  have width : nameWidth 1 = 8 := by decide
  have width' : nameWidth 2 = 8 := by decide
  simp only [List.mem_cons, List.not_mem_nil, or_false] at member member'
  rcases member with rfl | rfl <;> rcases member' with rfl | rfl
  · omega
  · rw [width, width']
    decide
  · omega
  · omega

/-- Generation `10 ^ 8` sorts before the one that it follows, and is taken for the
older one. -/
theorem ninth_digit_reopens_oldest_first :
    Present (twoTables 99999999 100000000) [99999999, 100000000] ∧
      ¬ReopensNewestFirst (twoTables 99999999 100000000) [99999999, 100000000] := by
  have present : Present (twoTables 99999999 100000000) [99999999, 100000000] :=
    twoTables_present (by decide) (by decide)
  refine ⟨present, ?_⟩
  intro newestFirst
  have order := present.inNameOrder newestFirst 99999999 (by simp) 100000000 (by simp) (by decide)
  have width : nameWidth 99999999 = 8 := by decide
  have width' : nameWidth 100000000 = 9 := by decide
  rw [width, width'] at order
  exact absurd order (by decide)

end FoundationsLab.Lsm
