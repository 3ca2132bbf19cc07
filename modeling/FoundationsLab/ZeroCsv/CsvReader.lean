import FoundationsLab.Foundation.JavaString

/-! # The CSV reader

Rows and fields are slices of the text, found by two enumerators. Each walks with a
position of its own, and each keeps track of quotes by itself. -/

namespace FoundationsLab.ZeroCsv

open Foundation (CodeUnit)

/-- A span of UTF-16 code units. -/
abbrev Span := List CodeUnit

def quote : CodeUnit := 0x22
def lineFeed : CodeUnit := 0x0A
def carriageReturn : CodeUnit := 0x0D

/-- `text.Slice(start, stop - start)` -/
def slice (text : Span) (start stop : Nat) : Span := (text.drop start).take (stop - start)

/-! ## Fields -/

structure CsvField where
  raw : Span
  needsUnescape : Bool

namespace CsvField

/-- What `Unescape` writes: of two quotes next to each other the second one is skipped. -/
def unescape : Span → Span
  | [] => []
  | [c] => [c]
  | c :: d :: rest =>
      if c = quote ∧ d = quote then c :: unescape rest else c :: unescape (d :: rest)

def toString (field : CsvField) : Span :=
  if field.needsUnescape then unescape field.raw else field.raw

end CsvField

/-- The loop inside a quoted field: where the closing quote or the end of the row is, and
whether there was a doubled quote. -/
def closingQuote (row : Span) (pos : Nat) (needsUnescape : Bool) : Nat × Bool :=
  if pos < row.length then
    if row[pos]? = some quote then
      if row[pos + 1]? = some quote then closingQuote row (pos + 2) true
      else (pos, needsUnescape)
    else closingQuote row (pos + 1) needsUnescape
  else (pos, needsUnescape)
termination_by row.length - pos

/-- The loop inside an unquoted field. -/
def nextDelimiter (row : Span) (delimiter : CodeUnit) (pos : Nat) : Nat :=
  if pos < row.length then
    if row[pos]? = some delimiter then pos else nextDelimiter row delimiter (pos + 1)
  else pos
termination_by row.length - pos

structure FieldEnumerator where
  row : Span
  delimiter : CodeUnit
  pos : Nat
  emit : Bool

namespace FieldEnumerator

/-- An empty row still has one empty field. -/
def new (row : Span) (delimiter : CodeUnit) : FieldEnumerator where
  row := row
  delimiter := delimiter
  pos := 0
  emit := true

/-- The field at the position, and the position after it. -/
def field (fields : FieldEnumerator) : CsvField × Nat :=
  if fields.row[fields.pos]? = some quote then
    let (stop, needsUnescape) := closingQuote fields.row (fields.pos + 1) false
    (⟨slice fields.row (fields.pos + 1) stop, needsUnescape⟩,
      if fields.row[stop]? = some quote then stop + 1 else stop)
  else
    let stop := nextDelimiter fields.row fields.delimiter fields.pos
    (⟨slice fields.row fields.pos stop, false⟩, stop)

/-- `MoveNext`, with the field that becomes the current one. -/
def moveNext (fields : FieldEnumerator) : Option (CsvField × FieldEnumerator) :=
  if fields.emit then
    let (field, pos) := fields.field
    if fields.row[pos]? = some fields.delimiter then
      some (field, { fields with pos := pos + 1 })
    else some (field, { fields with pos := pos, emit := false })
  else none

/-- The number of fields is bounded by the length of the row. -/
def remaining (fields : FieldEnumerator) : Nat :=
  if fields.emit then fields.row.length - fields.pos + 1 else 0

end FieldEnumerator

/-! ## Rows -/

structure CsvRow where
  row : Span
  delimiter : CodeUnit

/-- The loop of a row: where its text ends, and where the next row begins. -/
def rowEnd (text : Span) (pos : Nat) (inQuotes : Bool) : Nat × Nat :=
  if pos < text.length then
    if inQuotes then
      if text[pos]? = some quote then
        if text[pos + 1]? = some quote then rowEnd text (pos + 2) true
        else rowEnd text (pos + 1) false
      else rowEnd text (pos + 1) true
    else if text[pos]? = some quote then rowEnd text (pos + 1) true
    else if text[pos]? = some lineFeed then (pos, pos + 1)
    else if text[pos]? = some carriageReturn then
      (pos, if text[pos + 1]? = some lineFeed then pos + 2 else pos + 1)
    else rowEnd text (pos + 1) false
  else (pos, pos)
termination_by text.length - pos

structure RowEnumerator where
  text : Span
  delimiter : CodeUnit
  pos : Nat

namespace RowEnumerator

def new (text : Span) (delimiter : CodeUnit) : RowEnumerator where
  text := text
  delimiter := delimiter
  pos := 0

/-- `MoveNext`, with the row that becomes the current one. -/
def moveNext (rows : RowEnumerator) : Option (CsvRow × RowEnumerator) :=
  if rows.text.length ≤ rows.pos then none
  else
    let (stop, next) := rowEnd rows.text rows.pos false
    some (⟨slice rows.text rows.pos stop, rows.delimiter⟩, { rows with pos := next })

end RowEnumerator

/-! ## Both enumerations come to an end -/

theorem le_closingQuote (row : Span) (pos : Nat) (needsUnescape : Bool) :
    pos ≤ (closingQuote row pos needsUnescape).1 := by
  fun_induction closingQuote row pos needsUnescape with
  | case1 pos needsUnescape inside isQuote isDoubled induction => omega
  | case2 pos needsUnescape inside isQuote notDoubled => exact Nat.le_refl pos
  | case3 pos needsUnescape inside notQuote induction => omega
  | case4 pos needsUnescape outside => exact Nat.le_refl pos

theorem le_nextDelimiter (row : Span) (delimiter : CodeUnit) (pos : Nat) :
    pos ≤ nextDelimiter row delimiter pos := by
  fun_induction nextDelimiter row delimiter pos with
  | case1 pos inside isDelimiter => exact Nat.le_refl pos
  | case2 pos inside notDelimiter induction => omega
  | case3 pos outside => exact Nat.le_refl pos

theorem FieldEnumerator.le_field (fields : FieldEnumerator) : fields.pos ≤ fields.field.2 := by
  rw [field]
  split
  · have further := le_closingQuote fields.row (fields.pos + 1) false
    dsimp only
    split
    · omega
    · omega
  · exact le_nextDelimiter fields.row fields.delimiter fields.pos

theorem FieldEnumerator.remaining_lt {fields next : FieldEnumerator} {field : CsvField}
    (moved : fields.moveNext = some (field, next)) : next.remaining < fields.remaining := by
  have further := fields.le_field
  rw [moveNext] at moved
  split at moved
  next isEmit =>
    dsimp only at moved
    split at moved
    next isDelimiter =>
      cases moved
      have inside := (List.getElem?_eq_some_iff.mp isDelimiter).1
      simp only [remaining, isEmit, if_true]
      omega
    next =>
      cases moved
      simp only [remaining, isEmit, if_true, Bool.false_eq_true, if_false]
      omega
  next => cases moved

theorem le_rowEnd (text : Span) (pos : Nat) (inQuotes : Bool) :
    pos ≤ (rowEnd text pos inQuotes).2 := by
  fun_induction rowEnd text pos inQuotes with
  | case1 pos inside isQuote isDoubled induction => omega
  | case2 pos inside isQuote notDoubled induction => omega
  | case3 pos inside notQuote induction => omega
  | case4 pos inQuotes inside notInside isQuote induction => omega
  | case5 pos inQuotes inside notInside notQuote isLineFeed => exact Nat.le_succ pos
  | case6 pos inQuotes inside notInside notQuote notLineFeed isReturn =>
      dsimp only
      split
      · omega
      · omega
  | case7 pos inQuotes inside notInside notQuote notLineFeed notReturn induction => omega
  | case8 pos inQuotes outside => exact Nat.le_refl pos

theorem lt_rowEnd {text : Span} {pos : Nat} (inside : pos < text.length) :
    pos < (rowEnd text pos false).2 := by
  have quoted := le_rowEnd text (pos + 1) true
  have plain := le_rowEnd text (pos + 1) false
  rw [rowEnd, if_pos inside, if_neg Bool.false_ne_true]
  split
  · omega
  · split
    · exact Nat.lt_succ_self pos
    · split
      · dsimp only
        split
        · omega
        · omega
      · omega

/-- `foreach` over the fields of a row. -/
def FieldEnumerator.all (fields : FieldEnumerator) : List CsvField :=
  match _moved : fields.moveNext with
  | none => []
  | some (field, next) => field :: next.all
termination_by fields.remaining
decreasing_by exact FieldEnumerator.remaining_lt ‹_›

theorem RowEnumerator.remaining_lt {rows next : RowEnumerator} {row : CsvRow}
    (moved : rows.moveNext = some (row, next)) :
    next.text.length - next.pos < rows.text.length - rows.pos := by
  rw [moveNext] at moved
  split at moved
  next => cases moved
  next inside =>
    have further := lt_rowEnd (Nat.lt_of_not_le inside)
    cases moved
    dsimp only
    omega

/-- `foreach` over the rows of a text. -/
def RowEnumerator.all (rows : RowEnumerator) : List CsvRow :=
  match _moved : rows.moveNext with
  | none => []
  | some (row, next) => row :: next.all
termination_by rows.text.length - rows.pos
decreasing_by exact RowEnumerator.remaining_lt ‹_›

/-- Every field of every row of `new CsvReader(text, delimiter)`, as a string. -/
def readAll (text : Span) (delimiter : CodeUnit) : List (List Span) :=
  (RowEnumerator.new text delimiter).all.map fun row =>
    (FieldEnumerator.new row.row row.delimiter).all.map CsvField.toString

end FoundationsLab.ZeroCsv
