import FoundationsLab.ZeroCsv.CsvReader

/-! # What the fields of a row cover

Every field stands at a place in its row. A row is covered as far as the enumeration of
its fields goes, and that is to its end unless something other than a delimiter follows a
closing quote. -/

namespace FoundationsLab.ZeroCsv

open Foundation (CodeUnit)

/-! ## Where the fields stand -/

/-- Where the span of a field is in the row, and whether quotes stand around it. -/
structure Extent where
  opened : Bool
  start : Nat
  stop : Nat
  closed : Bool

namespace Extent

/-- Where the field begins, its opening quote included. -/
def first (extent : Extent) : Nat := extent.start - extent.opened.toNat

/-- Where the field has ended, its closing quote included. -/
def next (extent : Extent) : Nat := extent.stop + extent.closed.toNat

/-- Inside the span, or the opening or the closing quote. -/
def Covers (extent : Extent) (i : Nat) : Prop :=
  (extent.start ≤ i ∧ i < extent.stop) ∨ (extent.opened = true ∧ i + 1 = extent.start) ∨
    (extent.closed = true ∧ i = extent.stop)

end Extent

namespace FieldEnumerator

/-- The place of the field that `MoveNext` makes the current one. -/
def extent (fields : FieldEnumerator) : Extent :=
  if fields.row[fields.pos]? = some quote then
    let stop := (closingQuote fields.row (fields.pos + 1) false).1
    ⟨true, fields.pos + 1, stop, fields.row[stop]? = some quote⟩
  else ⟨false, fields.pos, nextDelimiter fields.row fields.delimiter fields.pos, false⟩

/-- The places of all fields. -/
def extents (fields : FieldEnumerator) : List Extent :=
  match _moved : fields.moveNext with
  | none => []
  | some (_, next) => fields.extent :: next.extents
termination_by fields.remaining
decreasing_by exact FieldEnumerator.remaining_lt ‹_›

theorem extent_raw (fields : FieldEnumerator) :
    fields.field.1.raw = slice fields.row fields.extent.start fields.extent.stop := by
  rw [field, extent]
  split <;> rfl

theorem extent_next (fields : FieldEnumerator) : fields.field.2 = fields.extent.next := by
  rw [field, extent]
  split
  · simp only [Extent.next]
    split
    · next isQuote => simp [isQuote]
    · next notQuote => simp [notQuote]
  · rfl

theorem extent_first (fields : FieldEnumerator) : fields.extent.first = fields.pos := by
  rw [extent]
  split <;> rfl

theorem moveNext_row {fields next : FieldEnumerator} {field : CsvField}
    (moved : fields.moveNext = some (field, next)) :
    field = fields.field.1 ∧ next.row = fields.row ∧ next.delimiter = fields.delimiter := by
  rw [moveNext] at moved
  split at moved
  · dsimp only at moved
    split at moved <;> (cases moved; exact ⟨rfl, rfl, rfl⟩)
  · cases moved

/-- The spans of the enumerated fields are the slices at these places. -/
theorem all_raw (fields : FieldEnumerator) :
    fields.all.map CsvField.raw =
      fields.extents.map fun extent => slice fields.row extent.start extent.stop := by
  fun_induction all fields with
  | case1 fields moved =>
      rw [extents]
      split
      · rfl
      · next other => rw [moved] at other; cases other
  | case2 fields field next moved induction =>
      obtain ⟨isField, sameRow, -⟩ := moveNext_row moved
      rw [extents]
      split
      · next other => rw [moved] at other; cases other
      · next otherField otherNext other =>
          rw [moved] at other
          cases other
          rw [List.map_cons, List.map_cons, induction, sameRow, isField, extent_raw]

end FieldEnumerator

/-- Inside a field or one of its quotes, or a delimiter between two consecutive fields. -/
def FieldEnumerator.Accounts (fields : FieldEnumerator) (i : Nat) : Prop :=
  (∃ extent ∈ fields.extents, extent.Covers i) ∨
    ∃ before left right after, fields.extents = before ++ left :: right :: after ∧
      left.next ≤ i ∧ i < right.first ∧ fields.row[i]? = some fields.delimiter

/-- The fields of the row account for every one of its characters. -/
def CsvRow.Accounted (row : CsvRow) : Prop :=
  ∀ i < row.row.length, (FieldEnumerator.new row.row row.delimiter).Accounts i

/-! ## The condition -/

/-- Where a character stands in its row. -/
inductive Mode where
  | fieldStart
  | plain
  | quoted
  | quoteSeen

/-- A quote that closes a field is followed by a delimiter or by the end of the row. -/
def wellClosed (delimiter : CodeUnit) : Mode → Span → Bool
  | _, [] => true
  | .fieldStart, c :: rest =>
      if c = quote then wellClosed delimiter .quoted rest
      else if c = delimiter then wellClosed delimiter .fieldStart rest
      else wellClosed delimiter .plain rest
  | .plain, c :: rest =>
      if c = delimiter then wellClosed delimiter .fieldStart rest
      else wellClosed delimiter .plain rest
  | .quoted, c :: rest =>
      if c = quote then wellClosed delimiter .quoteSeen rest
      else wellClosed delimiter .quoted rest
  | .quoteSeen, c :: rest =>
      if c = quote then wellClosed delimiter .quoted rest
      else c = delimiter && wellClosed delimiter .fieldStart rest

/-! ## How far the enumeration goes -/

namespace FieldEnumerator

/-- The position at which the enumeration ends. -/
def finish (fields : FieldEnumerator) : Nat :=
  match _moved : fields.moveNext with
  | none => fields.pos
  | some (_, next) => next.finish
termination_by fields.remaining
decreasing_by exact FieldEnumerator.remaining_lt ‹_›

variable {fields : FieldEnumerator}

theorem ended (notEmit : fields.emit = false) :
    fields.extents = [] ∧ fields.finish = fields.pos := by
  have moved : fields.moveNext = none := by
    rw [moveNext, notEmit]
    rfl
  constructor
  · rw [extents]
    split
    · rfl
    · next other => rw [moved] at other; cases other
  · rw [finish]
    split
    · rfl
    · next other => rw [moved] at other; cases other

theorem unfold_of_moveNext {field : CsvField} {next : FieldEnumerator}
    (moved : fields.moveNext = some (field, next)) :
    fields.extents = fields.extent :: next.extents ∧ fields.finish = next.finish := by
  constructor
  · rw [extents]
    split
    · next other => rw [moved] at other; cases other
    · next other => rw [moved] at other; cases other; rfl
  · rw [finish]
    split
    · next other => rw [moved] at other; cases other
    · next other => rw [moved] at other; cases other; rfl

/-- A field with a delimiter after it. -/
theorem goesOn (emit : fields.emit = true)
    (isDelimiter : fields.row[fields.extent.next]? = some fields.delimiter) :
    let next := { fields with pos := fields.extent.next + 1 }
    fields.extents = fields.extent :: next.extents ∧ fields.finish = next.finish := by
  apply @unfold_of_moveNext _ fields.field.1
  simp only [moveNext, emit, if_true, extent_next, isDelimiter]

/-- The last field. -/
theorem stops (emit : fields.emit = true)
    (notDelimiter : fields.row[fields.extent.next]? ≠ some fields.delimiter) :
    fields.extents = [fields.extent] ∧ fields.finish = fields.extent.next := by
  have moved : fields.moveNext =
      some (fields.field.1, { fields with pos := fields.extent.next, emit := false }) := by
    simp only [moveNext, emit, if_true, extent_next, notDelimiter, if_false]
  obtain ⟨isExtents, isFinish⟩ := unfold_of_moveNext moved
  rw [isExtents, isFinish]
  obtain ⟨noExtents, atEnd⟩ :=
    @ended { fields with pos := fields.extent.next, emit := false } rfl
  rw [noExtents, atEnd]
  exact ⟨rfl, rfl⟩

theorem extent_start_le (fields : FieldEnumerator) :
    fields.extent.start ≤ fields.extent.stop ∧ fields.pos ≤ fields.extent.start := by
  rw [extent]
  split
  · exact ⟨le_closingQuote .., Nat.le_succ _⟩
  · exact ⟨le_nextDelimiter .., Nat.le_refl _⟩

/-- A field covers everything between its beginning and its end. -/
theorem extent_covers (fields : FieldEnumerator) (i : Nat) :
    fields.extent.Covers i ↔ fields.pos ≤ i ∧ i < fields.extent.next := by
  have first := fields.extent_first
  have order := fields.extent_start_le
  rw [Extent.first] at first
  rw [Extent.Covers, Extent.next]
  have opened : fields.extent.opened = true → fields.extent.start = fields.pos + 1 := by
    intro isOpened
    rw [extent] at isOpened ⊢
    split at isOpened
    · next isQuote => rw [if_pos isQuote]
    · cases isOpened
  cases isOpened : fields.extent.opened <;> cases isClosed : fields.extent.closed <;>
    simp only [isOpened, Bool.toNat_true, Bool.toNat_false, true_and, Bool.false_eq_true,
      false_and, or_false, false_or, Nat.sub_zero, Nat.add_zero, forall_const] at first opened ⊢ <;>
    omega

theorem next_le_finish (fields : FieldEnumerator) (emit : fields.emit = true) :
    fields.extent.next ≤ fields.finish := by
  induction fields using all.induct with
  | case1 fields moved =>
      rw [moveNext, if_pos emit] at moved
      dsimp only at moved
      split at moved <;> cases moved
  | case2 fields field next moved induction =>
      by_cases isDelimiter : fields.row[fields.extent.next]? = some fields.delimiter
      · have isNext : next = { fields with pos := fields.extent.next + 1 } := by
          simp only [moveNext, emit, if_true, extent_next, isDelimiter] at moved
          cases moved
          rw [emit]
        have further := induction (by rw [isNext]; exact emit)
        have order := next.extent_start_le
        rw [(unfold_of_moveNext moved).2]
        have atNext : next.pos = fields.extent.next + 1 := by rw [isNext]
        have isStop : next.extent.stop ≤ next.extent.next := Nat.le_add_right _ _
        omega
      · rw [(stops emit isDelimiter).2]

/-- What the fields account for lies before the end of the enumeration. -/
theorem lt_finish_of_accounts (emit : fields.emit = true) {i : Nat} (accounts : fields.Accounts i) :
    i < fields.finish := by
  induction fields using all.induct with
  | case1 fields moved =>
      rw [moveNext, if_pos emit] at moved
      dsimp only at moved
      split at moved <;> cases moved
  | case2 fields field next moved induction =>
      have reach := next_le_finish fields emit
      by_cases isDelimiter : fields.row[fields.extent.next]? = some fields.delimiter
      · have isNext : next = { fields with pos := fields.extent.next + 1 } := by
          simp only [moveNext, emit, if_true, extent_next, isDelimiter] at moved
          cases moved
          rw [emit]
        have nextEmit : next.emit = true := by rw [isNext]; exact emit
        have sameRow : next.row = fields.row ∧ next.delimiter = fields.delimiter := by
          rw [isNext]
          exact ⟨rfl, rfl⟩
        obtain ⟨isExtents, isFinish⟩ := unfold_of_moveNext moved
        have nextReach := next_le_finish next nextEmit
        have nextOrder := next.extent_start_le
        have nextStop : next.extent.stop ≤ next.extent.next := Nat.le_add_right _ _
        have nextPos : next.pos = fields.extent.next + 1 := by rw [isNext]
        rw [isFinish]
        rcases accounts with ⟨extent, member, covers⟩ | ⟨before, left, right, after, same, place⟩
        · rw [isExtents] at member
          rcases List.mem_cons.mp member with rfl | later
          · have inside := (fields.extent_covers i).mp covers
            omega
          · exact induction nextEmit (Or.inl ⟨extent, later, covers⟩)
        · rw [isExtents] at same
          cases before with
          | nil =>
              -- The delimiter stands between this field and the next one.
              obtain ⟨-, isRest⟩ := List.cons.inj same
              have isRight : right = next.extent := by
                by_cases more : next.row[next.extent.next]? = some next.delimiter
                · rw [(goesOn nextEmit more).1] at isRest
                  exact (List.cons.inj isRest).1.symm
                · rw [(stops nextEmit more).1] at isRest
                  exact (List.cons.inj isRest).1.symm
              have isFirst := next.extent_first
              rw [isRight, isFirst] at place
              omega
          | cons extent before =>
              have isRest := (List.cons.inj same).2
              refine induction nextEmit (Or.inr ⟨before, left, right, after, isRest, ?_⟩)
              rw [sameRow.1, sameRow.2]
              exact place
      · obtain ⟨isExtents, isFinish⟩ := stops emit isDelimiter
        rw [isFinish]
        rcases accounts with ⟨extent, member, covers⟩ | ⟨before, left, right, after, same, -⟩
        · rw [isExtents] at member
          rw [List.mem_singleton.mp member] at covers
          exact ((fields.extent_covers i).mp covers).2
        · have length := congrArg List.length (isExtents ▸ same)
          simp only [List.length_append, List.length_cons, List.length_nil] at length
          omega

/-- Up to the end of the enumeration the fields account for everything. -/
theorem accounts_of_lt_finish (emit : fields.emit = true) {i : Nat} (further : fields.pos ≤ i)
    (before : i < fields.finish) : fields.Accounts i := by
  induction fields using all.induct with
  | case1 fields moved =>
      rw [moveNext, if_pos emit] at moved
      dsimp only at moved
      split at moved <;> cases moved
  | case2 fields field next moved induction =>
      by_cases isDelimiter : fields.row[fields.extent.next]? = some fields.delimiter
      · have isNext : next = { fields with pos := fields.extent.next + 1 } := by
          simp only [moveNext, emit, if_true, extent_next, isDelimiter] at moved
          cases moved
          rw [emit]
        have nextEmit : next.emit = true := by rw [isNext]; exact emit
        have nextPos : next.pos = fields.extent.next + 1 := by rw [isNext]
        obtain ⟨isExtents, isFinish⟩ := unfold_of_moveNext moved
        rw [isFinish] at before
        rcases Nat.lt_trichotomy i fields.extent.next with inside | atEnd | beyond
        · left
          refine ⟨fields.extent, ?_, (fields.extent_covers i).mpr ⟨further, inside⟩⟩
          rw [isExtents]
          exact List.mem_cons_self
        · right
          have nextFirst : ∃ after, next.extents = next.extent :: after := by
            by_cases more : next.row[next.extent.next]? = some next.delimiter
            · exact ⟨_, (goesOn nextEmit more).1⟩
            · exact ⟨[], (stops nextEmit more).1⟩
          obtain ⟨after, isRest⟩ := nextFirst
          refine ⟨[], fields.extent, next.extent, after, ?_, Nat.le_of_eq atEnd.symm, ?_, ?_⟩
          · rw [isExtents, isRest]
            rfl
          · rw [next.extent_first, nextPos]
            omega
          · rw [atEnd]
            exact isDelimiter
        · rcases induction nextEmit (by omega) before with
            ⟨extent, member, covers⟩ | ⟨front, left, right, after, same, place⟩
          · left
            refine ⟨extent, ?_, covers⟩
            rw [isExtents]
            exact List.mem_cons_of_mem _ member
          · right
            refine ⟨fields.extent :: front, left, right, after, ?_, ?_⟩
            · rw [isExtents, same]
              rfl
            · rw [isNext] at place
              exact place
      · obtain ⟨isExtents, isFinish⟩ := stops emit isDelimiter
        rw [isFinish] at before
        left
        refine ⟨fields.extent, ?_, (fields.extent_covers i).mpr ⟨further, before⟩⟩
        rw [isExtents]
        exact List.mem_singleton_self _

/-! ## When it goes to the end -/

theorem wellClosed_plain (row : Span) (delimiter : CodeUnit) (pos : Nat) :
    wellClosed delimiter .plain (row.drop pos) =
      if row[nextDelimiter row delimiter pos]? = some delimiter then
        wellClosed delimiter .fieldStart (row.drop (nextDelimiter row delimiter pos + 1))
      else true := by
  fun_induction nextDelimiter row delimiter pos with
  | case1 pos inside isDelimiter =>
      have isHead : row[pos] = delimiter := by simpa [inside] using isDelimiter
      rw [List.drop_eq_getElem_cons inside, if_pos isDelimiter, wellClosed, if_pos isHead]
  | case2 pos inside notDelimiter induction =>
      have notHead : row[pos] ≠ delimiter := by simpa [inside] using notDelimiter
      rw [List.drop_eq_getElem_cons inside, wellClosed, if_neg notHead, induction]
  | case3 pos outside =>
      have isEnd : row[pos]? = none := List.getElem?_eq_none (Nat.le_of_not_lt outside)
      rw [List.drop_eq_nil_of_le (Nat.le_of_not_lt outside), isEnd, if_neg (by simp)]
      rfl

theorem wellClosed_quoted (row : Span) (delimiter : CodeUnit) (pos : Nat) (flag : Bool) :
    wellClosed delimiter .quoted (row.drop pos) =
      if row[(closingQuote row pos flag).1]? = some quote then
        wellClosed delimiter .quoteSeen (row.drop ((closingQuote row pos flag).1 + 1))
      else true := by
  fun_induction closingQuote row pos flag with
  | case1 pos flag inside isQuote isDoubled induction =>
      have isHead : row[pos] = quote := by simpa [inside] using isQuote
      have nextInside := (List.getElem?_eq_some_iff.mp isDoubled).1
      have isNext : row[pos + 1] = quote := (List.getElem?_eq_some_iff.mp isDoubled).2
      rw [List.drop_eq_getElem_cons inside, wellClosed, if_pos isHead,
        List.drop_eq_getElem_cons nextInside, wellClosed, if_pos isNext, ← induction]
  | case2 pos flag inside isQuote notDoubled =>
      have isHead : row[pos] = quote := by simpa [inside] using isQuote
      rw [List.drop_eq_getElem_cons inside, wellClosed, if_pos isHead, if_pos isQuote]
  | case3 pos flag inside notQuote induction =>
      have notHead : row[pos] ≠ quote := by simpa [inside] using notQuote
      rw [List.drop_eq_getElem_cons inside, wellClosed, if_neg notHead, induction]
  | case4 pos flag outside =>
      have isEnd : row[pos]? = none := List.getElem?_eq_none (Nat.le_of_not_lt outside)
      rw [List.drop_eq_nil_of_le (Nat.le_of_not_lt outside), isEnd, if_neg (by simp)]
      rfl

theorem nextDelimiter_end {row : Span} {delimiter : CodeUnit} {pos : Nat}
    (notDelimiter : row[nextDelimiter row delimiter pos]? ≠ some delimiter) :
    row.length ≤ nextDelimiter row delimiter pos := by
  fun_induction nextDelimiter row delimiter pos with
  | case1 pos inside isDelimiter => exact absurd isDelimiter notDelimiter
  | case2 pos inside isOther induction => exact induction notDelimiter
  | case3 pos outside => exact Nat.le_of_not_lt outside

/-- A closing quote is not doubled. Without one the field goes to the end of the row. -/
theorem closingQuote_end (row : Span) (pos : Nat) (flag : Bool) :
    (row[(closingQuote row pos flag).1]? = some quote →
        row[(closingQuote row pos flag).1 + 1]? ≠ some quote) ∧
      (row[(closingQuote row pos flag).1]? ≠ some quote →
        row.length ≤ (closingQuote row pos flag).1) := by
  fun_induction closingQuote row pos flag with
  | case1 pos flag inside isQuote isDoubled induction => exact induction
  | case2 pos flag inside isQuote notDoubled =>
      exact ⟨fun _ => notDoubled, fun notQuote => absurd isQuote notQuote⟩
  | case3 pos flag inside notQuote induction => exact induction
  | case4 pos flag outside =>
      have isEnd : row[pos]? = none := List.getElem?_eq_none (Nat.le_of_not_lt outside)
      refine ⟨fun isQuote => ?_, fun _ => Nat.le_of_not_lt outside⟩
      rw [isEnd] at isQuote
      cases isQuote

/-- What is left of the condition after the field at the position. -/
theorem wellClosed_field (fields : FieldEnumerator) :
    wellClosed fields.delimiter .fieldStart (fields.row.drop fields.pos) = true ↔
      (fields.row[fields.extent.next]? = some fields.delimiter →
        wellClosed fields.delimiter .fieldStart (fields.row.drop (fields.extent.next + 1)) =
          true) ∧
      (fields.row[fields.extent.next]? ≠ some fields.delimiter →
        fields.row.length ≤ fields.extent.next) := by
  obtain ⟨row, delimiter, pos, emit⟩ := fields
  dsimp only
  by_cases isQuote : row[pos]? = some quote
  · -- A field in quotes.
    have inside := (List.getElem?_eq_some_iff.mp isQuote).1
    have isHead : row[pos] = quote := (List.getElem?_eq_some_iff.mp isQuote).2
    have after := closingQuote_end row (pos + 1) false
    rw [extent, if_pos isQuote, List.drop_eq_getElem_cons inside, wellClosed, if_pos isHead,
      wellClosed_quoted row delimiter (pos + 1) false]
    generalize (closingQuote row (pos + 1) false).1 = stop at after
    simp only [Extent.next]
    by_cases isClosed : row[stop]? = some quote
    · simp only [isClosed, if_true, decide_true, Bool.toNat_true]
      have notDoubled := after.1 isClosed
      cases isNext : row[stop + 1]? with
      | none =>
          have atEnd := List.getElem?_eq_none_iff.mp isNext
          simp [List.drop_eq_nil_of_le atEnd, wellClosed, atEnd]
      | some c =>
          obtain ⟨nextInside, isNextHead⟩ := List.getElem?_eq_some_iff.mp isNext
          have notQuote : c ≠ quote := fun isDoubled => notDoubled (isNext.trans (by rw [isDoubled]))
          rw [List.drop_eq_getElem_cons nextInside, wellClosed, isNextHead, if_neg notQuote]
          by_cases isDelimiter : c = delimiter
          · simp [isDelimiter]
          · have notEnd : ¬ row.length ≤ stop + 1 := by omega
            simp [isDelimiter, notEnd]
    · have atEnd := after.2 isClosed
      simp [atEnd]
  · -- A field without quotes.
    have sameMode : wellClosed delimiter .fieldStart (row.drop pos) =
        wellClosed delimiter .plain (row.drop pos) := by
      by_cases inside : pos < row.length
      · have notHead : row[pos] ≠ quote := by simpa [inside] using isQuote
        rw [List.drop_eq_getElem_cons inside, wellClosed, if_neg notHead, wellClosed]
      · rw [List.drop_eq_nil_of_le (Nat.le_of_not_lt inside)]
        rfl
    rw [sameMode, extent, if_neg isQuote, wellClosed_plain]
    simp only [Extent.next, Bool.toNat_false, Nat.add_zero]
    by_cases isDelimiter : row[nextDelimiter row delimiter pos]? = some delimiter
    · simp [isDelimiter]
    · simp [nextDelimiter_end isDelimiter]

theorem length_le_finish_iff (emit : fields.emit = true) :
    fields.row.length ≤ fields.finish ↔
      wellClosed fields.delimiter .fieldStart (fields.row.drop fields.pos) = true := by
  induction fields using all.induct with
  | case1 fields moved =>
      rw [moveNext, if_pos emit] at moved
      dsimp only at moved
      split at moved <;> cases moved
  | case2 fields field next moved induction =>
      rw [wellClosed_field]
      by_cases isDelimiter : fields.row[fields.extent.next]? = some fields.delimiter
      · have isNext : next = { fields with pos := fields.extent.next + 1 } := by
          simp only [moveNext, emit, if_true, extent_next, isDelimiter] at moved
          cases moved
          rw [emit]
        have nextEmit : next.emit = true := by rw [isNext]; exact emit
        have later := induction nextEmit
        rw [(unfold_of_moveNext moved).2]
        rw [isNext] at later ⊢
        simpa [isDelimiter] using later
      · rw [(stops emit isDelimiter).2]
        simp [isDelimiter]

end FieldEnumerator

/-- The fields of a row account for all of it if and only if nothing but a delimiter follows a
closing quote. -/
theorem CsvRow.accounted_iff (row : CsvRow) :
    row.Accounted ↔ wellClosed row.delimiter .fieldStart row.row = true := by
  have reaches := @FieldEnumerator.length_le_finish_iff
    (FieldEnumerator.new row.row row.delimiter) rfl
  refine Iff.trans ?_ reaches
  constructor
  · intro accounted
    apply Nat.le_of_not_lt
    intro short
    have inside := FieldEnumerator.lt_finish_of_accounts rfl (accounted _ short)
    exact Nat.lt_irrefl _ inside
  · intro whole i inside
    exact FieldEnumerator.accounts_of_lt_finish rfl (Nat.zero_le i) (Nat.lt_of_lt_of_le inside whole)

theorem RowEnumerator.all_delimiter (rows : RowEnumerator) :
    ∀ row ∈ rows.all, row.delimiter = rows.delimiter := by
  fun_induction RowEnumerator.all rows with
  | case1 rows moved => simp
  | case2 rows row next moved induction =>
      have same : row.delimiter = rows.delimiter ∧ next.delimiter = rows.delimiter := by
        rw [RowEnumerator.moveNext] at moved
        split at moved
        · cases moved
        · cases moved
          exact ⟨rfl, rfl⟩
      intro other member
      rcases List.mem_cons.mp member with rfl | later
      · exact same.1
      · exact (induction other later).trans same.2

/-- No character of a row is lost if and only if each closing quote in the row is followed by a
delimiter or by the end of the row. -/
theorem row_accounted_iff (text : Span) (delimiter : CodeUnit) (row : CsvRow)
    (member : row ∈ (RowEnumerator.new text delimiter).all) :
    row.Accounted ↔ wellClosed delimiter .fieldStart row.row = true := by
  have same : row.delimiter = delimiter := RowEnumerator.all_delimiter _ row member
  rw [← same]
  exact row.accounted_iff

/-- `"ab"cd,ef` -/
def textAfterQuote : Span := [0x22, 0x61, 0x62, 0x22, 0x63, 0x64, 0x2C, 0x65, 0x66]

/-- `"ab",cd` -/
def textAfterDelimiter : Span := [0x22, 0x61, 0x62, 0x22, 0x2C, 0x63, 0x64]

theorem mem_textAfterQuote :
    (⟨textAfterQuote, 0x2C⟩ : CsvRow) ∈ (RowEnumerator.new textAfterQuote 0x2C).all := by
  simp [RowEnumerator.all, RowEnumerator.moveNext, RowEnumerator.new, textAfterQuote, rowEnd, quote,
    lineFeed, carriageReturn, slice]

theorem row_accounted_iff_delimiter :
    (⟨textAfterDelimiter, 0x2C⟩ : CsvRow) ∈ (RowEnumerator.new textAfterDelimiter 0x2C).all ∧
      (⟨textAfterDelimiter, 0x2C⟩ : CsvRow).Accounted := by
  have member :
      (⟨textAfterDelimiter, 0x2C⟩ : CsvRow) ∈ (RowEnumerator.new textAfterDelimiter 0x2C).all := by
    simp [RowEnumerator.all, RowEnumerator.moveNext, RowEnumerator.new, textAfterDelimiter, rowEnd,
      quote, lineFeed, carriageReturn, slice]
  exact ⟨member, (row_accounted_iff textAfterDelimiter 0x2C _ member).mpr (by decide)⟩

/-- What stands between the closing quote and the end of the row is lost. -/
theorem row_not_accounted :
    ¬ ∀ (text : Span) (delimiter : CodeUnit), delimiter ≠ quote → delimiter ≠ carriageReturn →
      delimiter ≠ lineFeed → ∀ row ∈ (RowEnumerator.new text delimiter).all, row.Accounted := by
  intro accounted
  have whole := accounted textAfterQuote 0x2C (by decide) (by decide) (by decide) _
    mem_textAfterQuote
  rw [CsvRow.accounted_iff] at whole
  exact absurd whole (by decide)

end FoundationsLab.ZeroCsv
