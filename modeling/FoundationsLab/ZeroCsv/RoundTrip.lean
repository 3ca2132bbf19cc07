import FoundationsLab.ZeroCsv.CsvReader

/-! # Reading inverts writing

A document written by the rules of RFC 4180 is read back row by row and field by field.
The row scanner and the field scanner each pass over a written field as a whole. -/

namespace FoundationsLab.ZeroCsv

open Foundation (CodeUnit)

/-! ## Written documents -/

/-- The characters that may stand in a field without quotes. -/
def Plain (delimiter c : CodeUnit) : Prop :=
  c ≠ delimiter ∧ c ≠ quote ∧ c ≠ lineFeed ∧ c ≠ carriageReturn

/-- A field, and whether it is written in quotes. -/
structure Cell (delimiter : CodeUnit) where
  value : Span
  quoted : Bool
  plain : quoted = false → ∀ c ∈ value, Plain delimiter c

/-- Every quote doubled. -/
def double : Span → Span
  | [] => []
  | c :: rest => if c = quote then c :: c :: double rest else c :: double rest

inductive Terminator where
  | lf
  | crlf
  | cr

def Terminator.units : Terminator → Span
  | lf => [lineFeed]
  | crlf => [carriageReturn, lineFeed]
  | cr => [carriageReturn]

variable {delimiter : CodeUnit}

def Cell.text (cell : Cell delimiter) : Span :=
  if cell.quoted then quote :: (double cell.value ++ [quote]) else cell.value

def rowText : List (Cell delimiter) → Span
  | [] => []
  | [cell] => cell.text
  | cell :: next :: rest => cell.text ++ delimiter :: rowText (next :: rest)

/-- The rows with a terminator after each, or after each but the last. -/
def document (terminator : Terminator) (ended : Bool) : List (List (Cell delimiter)) → Span
  | [] => []
  | [row] => rowText row ++ if ended then terminator.units else []
  | row :: next :: rest =>
      rowText row ++ (terminator.units ++ document terminator ended (next :: rest))

/-! ## Positions in a text -/

/-- From the position on the text goes like this. -/
def At (text : Span) (pos : Nat) (rest : Span) : Prop := text.drop pos = rest

namespace At

variable {text rest : Span} {pos : Nat} {c : CodeUnit}

theorem getElem? (here : At text pos rest) (i : Nat) : text[pos + i]? = rest[i]? := by
  rw [← here, List.getElem?_drop]

theorem head (here : At text pos rest) : text[pos]? = rest.head? := by
  rw [List.head?_eq_getElem?]
  exact here.getElem? 0

theorem inside (here : At text pos (c :: rest)) : pos < text.length := by
  have isHead := here.head
  rw [List.head?_cons] at isHead
  exact (List.getElem?_eq_some_iff.mp isHead).1

theorem outside (here : At text pos []) : text.length ≤ pos := List.drop_eq_nil_iff.mp here

theorem append {front : Span} (here : At text pos (front ++ rest)) :
    At text (pos + front.length) rest := by
  rw [At, ← List.drop_drop, here, List.drop_left]

theorem start (text : Span) : At text 0 text := rfl

theorem next (here : At text pos (c :: rest)) : At text (pos + 1) rest :=
  append (show At text pos ([c] ++ rest) from here)

theorem slice {front : Span} (here : At text pos (front ++ rest)) :
    ZeroCsv.slice text pos (pos + front.length) = front := by
  rw [ZeroCsv.slice, here, Nat.add_sub_cancel_left, List.take_left]

end At

/-! ## The row scanner over what was written -/

variable {text rest : Span} {pos : Nat}

theorem rowEnd_step {c : CodeUnit} (here : At text pos (c :: rest)) :
    rowEnd text pos true =
      (if c = quote then
        if rest.head? = some quote then rowEnd text (pos + 2) true else rowEnd text (pos + 1) false
      else rowEnd text (pos + 1) true) ∧
    rowEnd text pos false =
      (if c = quote then rowEnd text (pos + 1) true
      else if c = lineFeed then (pos, pos + 1)
      else if c = carriageReturn then (pos, if rest.head? = some lineFeed then pos + 2 else pos + 1)
      else rowEnd text (pos + 1) false) := by
  have isHead : text[pos]? = some c := here.head
  have isNext : text[pos + 1]? = rest.head? := here.next.head
  constructor
  · rw [rowEnd, if_pos here.inside, if_pos rfl, isHead, isNext]
    simp only [Option.some.injEq]
  · rw [rowEnd, if_pos here.inside, if_neg Bool.false_ne_true, isHead, isNext]
    simp only [Option.some.injEq]

/-- Inside quotes only a quote that is not doubled counts. -/
theorem rowEnd_double (value : Span) (here : At text pos (double value ++ quote :: rest))
    (closed : rest.head? ≠ some quote) :
    rowEnd text pos true = rowEnd text (pos + (double value).length + 1) false := by
  induction value generalizing pos with
  | nil => rw [(rowEnd_step here).1, if_pos rfl, if_neg closed]; rfl
  | cons c value induction =>
      rw [double] at here ⊢
      split at here
      next isQuote =>
        subst isQuote
        have doubled : At text pos (quote :: quote :: (double value ++ quote :: rest)) := here
        rw [(rowEnd_step doubled).1, if_pos rfl, List.head?_cons, if_pos rfl,
          induction doubled.next.next, if_pos rfl, List.length_cons, List.length_cons]
        congr 1
        omega
      next notQuote =>
        rw [(rowEnd_step here).1, if_neg notQuote, induction here.next, if_neg notQuote,
          List.length_cons]
        congr 1
        omega

theorem rowEnd_plain (value : Span) (here : At text pos (value ++ rest))
    (plain : ∀ c ∈ value, Plain delimiter c) :
    rowEnd text pos false = rowEnd text (pos + value.length) false := by
  induction value generalizing pos with
  | nil => rfl
  | cons c value induction =>
      obtain ⟨-, notQuote, notLineFeed, notReturn⟩ := plain c List.mem_cons_self
      rw [(rowEnd_step here).2, if_neg notQuote, if_neg notLineFeed, if_neg notReturn,
        induction here.next fun other member => plain other (List.mem_cons_of_mem _ member),
        List.length_cons]
      congr 1
      omega

theorem rowEnd_cell (cell : Cell delimiter) (here : At text pos (cell.text ++ rest))
    (closed : rest.head? ≠ some quote) :
    rowEnd text pos false = rowEnd text (pos + cell.text.length) false := by
  rw [Cell.text] at here ⊢
  split at here
  next isQuoted =>
    rw [List.cons_append, List.append_assoc] at here
    rw [(rowEnd_step here).2, if_pos rfl, rowEnd_double cell.value here.next closed, if_pos isQuoted,
      List.length_cons, List.length_append, List.length_singleton]
    congr 1
    omega
  next notQuoted =>
    rw [if_neg notQuoted]
    exact rowEnd_plain cell.value here (cell.plain (by simpa using notQuoted))

/-- A delimiter is none of the characters with a meaning of their own. -/
structure Legal (delimiter : CodeUnit) : Prop where
  notQuote : delimiter ≠ quote
  notLineFeed : delimiter ≠ lineFeed
  notReturn : delimiter ≠ carriageReturn

theorem rowEnd_rowText (legal : Legal delimiter) (row : List (Cell delimiter))
    (here : At text pos (rowText row ++ rest)) (closed : rest.head? ≠ some quote) :
    rowEnd text pos false = rowEnd text (pos + (rowText row).length) false := by
  fun_induction rowText row generalizing pos with
  | case1 => rfl
  | case2 cell => exact rowEnd_cell cell here closed
  | case3 cell next others induction =>
      rw [List.append_assoc, List.cons_append] at here
      have notQuote : (delimiter :: (rowText (next :: others) ++ rest)).head? ≠ some quote := by
        rw [List.head?_cons]
        exact fun same => legal.notQuote (Option.some.inj same)
      have atDelimiter := here.append
      rw [rowEnd_cell cell here notQuote, (rowEnd_step atDelimiter).2, if_neg legal.notQuote,
        if_neg legal.notLineFeed, if_neg legal.notReturn, induction atDelimiter.next,
        List.length_append, List.length_cons]
      congr 1
      omega

theorem rowEnd_terminator (terminator : Terminator) (here : At text pos (terminator.units ++ rest))
    (alone : terminator = .cr → rest.head? ≠ some lineFeed) :
    rowEnd text pos false = (pos, pos + terminator.units.length) := by
  cases terminator with
  | lf => rw [(rowEnd_step here).2, if_neg (by decide), if_pos rfl]; rfl
  | crlf =>
      rw [(rowEnd_step here).2, if_neg (by decide), if_neg (by decide), if_pos rfl]
      exact congrArg (Prod.mk pos) (if_pos rfl)
  | cr =>
      rw [(rowEnd_step here).2, if_neg (by decide), if_neg (by decide), if_pos rfl]
      exact congrArg (Prod.mk pos) (if_neg (alone rfl))

theorem rowEnd_outside (here : At text pos []) : rowEnd text pos false = (pos, pos) := by
  rw [rowEnd, if_neg (Nat.not_lt.mpr here.outside)]

/-! ## Rows -/

theorem head_cell (cell : Cell delimiter) : cell.text.head? ≠ some lineFeed := by
  rw [Cell.text]
  split
  next => exact fun same => absurd (Option.some.inj same) (by decide)
  next notQuoted =>
    intro same
    have member : lineFeed ∈ cell.value := List.mem_of_head? same
    exact (cell.plain (by simpa using notQuoted) lineFeed member).2.2.1 rfl

theorem head_rowText (legal : Legal delimiter) (row : List (Cell delimiter)) :
    (rowText row).head? ≠ some lineFeed := by
  cases row with
  | nil => exact fun same => by cases same
  | cons cell others =>
      cases others with
      | nil => exact head_cell cell
      | cons next others =>
          intro same
          rw [rowText, List.head?_append, Option.or_eq_some_iff] at same
          rcases same with same | ⟨-, same⟩
          · exact head_cell cell same
          · exact legal.notLineFeed (Option.some.inj same)

/-- After a lone carriage return no line feed follows, or they would be one terminator. -/
theorem head_document (legal : Legal delimiter) (ended : Bool) (rows : List (List (Cell delimiter))) :
    (document .cr ended rows).head? ≠ some lineFeed := by
  have isReturn : ∀ others : Span, (carriageReturn :: others).head? ≠ some lineFeed :=
    fun _ same => absurd (Option.some.inj same) (by decide)
  cases rows with
  | nil => exact fun same => by cases same
  | cons row others =>
      have notRow := head_rowText legal row
      cases others with
      | nil =>
          intro same
          rw [document, List.head?_append, Option.or_eq_some_iff] at same
          rcases same with same | ⟨-, same⟩
          · exact notRow same
          · cases ended with
            | false => cases same
            | true => exact isReturn [] same
      | cons next others =>
          intro same
          rw [document, List.head?_append, Option.or_eq_some_iff] at same
          rcases same with same | ⟨-, same⟩
          · exact notRow same
          · exact isReturn _ same

theorem all_of_moveNext {rows next : RowEnumerator} {row : CsvRow}
    (moved : rows.moveNext = some (row, next)) : rows.all = row :: next.all := by
  rw [RowEnumerator.all]
  split
  next stopped => cases stopped.symm.trans moved
  next moved' => cases moved'.symm.trans moved; rfl

theorem all_of_stopped {rows : RowEnumerator} (stopped : rows.moveNext = none) :
    rows.all = [] := by
  rw [RowEnumerator.all]
  split
  next => rfl
  next moved => cases moved.symm.trans stopped

/-- One turn at a written row. -/
theorem moveNext_row (legal : Legal delimiter) (row : List (Cell delimiter)) {next : Nat}
    (here : At text pos (rowText row ++ rest)) (notEmpty : rowText row ++ rest ≠ [])
    (closed : rest.head? ≠ some quote)
    (isNext : rowEnd text (pos + (rowText row).length) false = (pos + (rowText row).length, next)) :
    RowEnumerator.moveNext ⟨text, delimiter, pos⟩ =
      some (⟨rowText row, delimiter⟩, ⟨text, delimiter, next⟩) := by
  have inside : ¬ text.length ≤ pos := by
    intro outside
    rw [At, List.drop_eq_nil_iff.mpr outside] at here
    exact notEmpty here.symm
  rw [RowEnumerator.moveNext, if_neg inside]
  dsimp only
  rw [rowEnd_rowText legal row here closed, isNext, here.slice]

theorem terminator_ne_nil (terminator : Terminator) : terminator.units ≠ [] := by
  cases terminator <;> exact fun same => by cases same

theorem head_terminator (terminator : Terminator) (others : Span) :
    (terminator.units ++ others).head? ≠ some quote := by
  cases terminator <;> exact fun same => absurd (Option.some.inj same) (by decide)

/-- The rows come out as they were written, by induction on them. -/
theorem all_document (legal : Legal delimiter) (terminator : Terminator) (ended : Bool)
    (rows : List (List (Cell delimiter)))
    (lastRow : ∀ row, rows.getLast? = some row → ended = true ∨ rowText row ≠ [])
    (here : At text pos (document terminator ended rows)) :
    RowEnumerator.all ⟨text, delimiter, pos⟩ = rows.map fun row => ⟨rowText row, delimiter⟩ := by
  induction rows generalizing pos with
  | nil => exact all_of_stopped (if_pos here.outside)
  | cons row others induction =>
      cases others with
      | nil =>
          have stops : ∀ {pos}, At text pos [] →
              RowEnumerator.all ⟨text, delimiter, pos⟩ = [] :=
            fun stopped => all_of_stopped (if_pos stopped.outside)
          rw [document] at here
          cases ended with
          | true =>
              have atTerminator : At text (pos + (rowText row).length) (terminator.units ++ []) := by
                rw [List.append_nil]
                exact here.append
              have isNext := rowEnd_terminator terminator atTerminator fun _ same => by cases same
              have moved := moveNext_row legal row here
                (fun same => terminator_ne_nil terminator (List.append_eq_nil_iff.mp same).2)
                (by rw [if_pos rfl, ← List.append_nil terminator.units]
                    exact head_terminator terminator []) isNext
              rw [all_of_moveNext moved, stops]
              · rfl
              · rw [← List.append_nil terminator.units] at here
                exact here.append.append
          | false =>
              have notEmpty := (lastRow row rfl).resolve_left Bool.false_ne_true
              have moved := moveNext_row legal row here
                (fun same => notEmpty (List.append_eq_nil_iff.mp same).1)
                (fun same => by cases same) (rowEnd_outside here.append)
              rw [all_of_moveNext moved, stops here.append]
              rfl
      | cons next others =>
          rw [document] at here
          have isNext := rowEnd_terminator terminator here.append fun isCr => by
            rw [isCr]
            exact head_document legal ended (next :: others)
          have moved := moveNext_row legal row here
            (fun same => terminator_ne_nil terminator
              (List.append_eq_nil_iff.mp (List.append_eq_nil_iff.mp same).2).1)
            (head_terminator terminator _) isNext
          rw [all_of_moveNext moved, induction lastRow here.append.append]
          rfl

/-! ## Fields -/

/-- Dropping the second of two quotes undoes the doubling. -/
theorem unescape_double (value : Span) : CsvField.unescape (double value) = value := by
  induction value with
  | nil => rfl
  | cons c value induction =>
      rw [double]
      split
      next isQuote =>
        rw [CsvField.unescape, if_pos ⟨isQuote, isQuote⟩, induction]
      next notQuote =>
        have single : CsvField.unescape (c :: double value) = c :: CsvField.unescape (double value) := by
          cases double value with
          | nil => rfl
          | cons d rest => rw [CsvField.unescape, if_neg fun both => notQuote both.1]
        rw [single, induction]

/-- Without a quote there is nothing to double. -/
theorem double_of_not_mem {value : Span} (noQuote : quote ∉ value) : double value = value := by
  induction value with
  | nil => rfl
  | cons c value induction =>
      have notQuote : c ≠ quote := fun same => noQuote (same ▸ List.mem_cons_self)
      rw [double, if_neg notQuote, induction fun member => noQuote (List.mem_cons_of_mem c member)]

variable {row : Span}

/-- The loop in a quoted field stops at the closing quote, and has seen whether a quote is in
the value. -/
theorem closingQuote_double (value : Span) (needsUnescape : Bool)
    (here : At row pos (double value ++ quote :: rest)) (closed : rest.head? ≠ some quote) :
    closingQuote row pos needsUnescape =
      (pos + (double value).length, needsUnescape || decide (quote ∈ value)) := by
  induction value generalizing pos needsUnescape with
  | nil =>
      have isQuote : row[pos]? = some quote := here.head
      have isNext : row[pos + 1]? = rest.head? := here.next.head
      rw [closingQuote, if_pos here.inside, if_pos isQuote, isNext, if_neg closed,
        decide_eq_false List.not_mem_nil, Bool.or_false]
      rfl
  | cons c value induction =>
      rw [double] at here ⊢
      split at here
      next isQuote =>
        subst isQuote
        have doubled : At row pos (quote :: quote :: (double value ++ quote :: rest)) := here
        have isQuote : row[pos]? = some quote := doubled.head
        have isNext : row[pos + 1]? = some quote := doubled.next.head
        rw [closingQuote, if_pos doubled.inside, if_pos isQuote, if_pos isNext,
          induction true doubled.next.next, if_pos rfl, decide_eq_true List.mem_cons_self,
          Bool.or_true, Bool.true_or, List.length_cons, List.length_cons]
        congr 1
        omega
      next notQuote =>
        have isOther : row[pos]? ≠ some quote := by
          rw [show row[pos]? = some c from here.head]
          exact fun same => notQuote (Option.some.inj same)
        have sameQuotes : decide (quote ∈ c :: value) = decide (quote ∈ value) := by
          apply decide_eq_decide.mpr
          rw [List.mem_cons, or_iff_right fun same => notQuote same.symm]
        rw [closingQuote, if_pos here.inside, if_neg isOther, induction needsUnescape here.next,
          if_neg notQuote, sameQuotes, List.length_cons]
        congr 1
        omega

/-- What follows a field in its row: nothing, or a delimiter. -/
def Follows (delimiter : CodeUnit) (rest : Span) : Prop := ∀ c, rest.head? = some c → c = delimiter

theorem Follows.notQuote (follows : Follows delimiter rest) (legal : Legal delimiter) :
    rest.head? ≠ some quote :=
  fun same => legal.notQuote (follows quote same).symm

theorem nextDelimiter_plain (value : Span) (here : At row pos (value ++ rest))
    (plain : ∀ c ∈ value, Plain delimiter c) (follows : Follows delimiter rest) :
    nextDelimiter row delimiter pos = pos + value.length := by
  induction value generalizing pos with
  | nil =>
      have isHead : row[pos]? = rest.head? := here.head
      rw [nextDelimiter]
      split
      next inside =>
        rw [List.getElem?_eq_getElem inside] at isHead ⊢
        rw [if_pos (congrArg some (follows _ isHead.symm))]
        rfl
      next => rfl
  | cons c value induction =>
      have isOther : row[pos]? ≠ some delimiter := by
        rw [show row[pos]? = some c from here.head]
        exact fun same => (plain c List.mem_cons_self).1 (Option.some.inj same)
      rw [nextDelimiter, if_pos here.inside, if_neg isOther,
        induction here.next fun other member => plain other (List.mem_cons_of_mem c member),
        List.length_cons]
      omega

/-- A cell in quotes is recognised by its first character. -/
theorem head_cell_quote (cell : Cell delimiter) (legal : Legal delimiter)
    (follows : Follows delimiter rest) :
    (cell.text ++ rest).head? = some quote ↔ cell.quoted = true := by
  rw [Cell.text]
  split
  next isQuoted => exact iff_of_true rfl isQuoted
  next notQuoted =>
    apply iff_of_false _ notQuoted
    intro same
    rw [List.head?_append, Option.or_eq_some_iff] at same
    rcases same with same | ⟨-, same⟩
    · exact (cell.plain (by simpa using notQuoted) quote (List.mem_of_head? same)).2.1 rfl
    · exact follows.notQuote legal same

/-- A written cell is one field, and the field has the value of the cell. -/
theorem field_cell (cell : Cell delimiter) (legal : Legal delimiter)
    (here : At row pos (cell.text ++ rest)) (follows : Follows delimiter rest) (emit : Bool) :
    ∃ field, FieldEnumerator.field ⟨row, delimiter, pos, emit⟩ = (field, pos + cell.text.length) ∧
      field.toString = cell.value := by
  have isQuote : row[pos]? = some quote ↔ cell.quoted = true := by
    rw [here.head]
    exact head_cell_quote cell legal follows
  rw [FieldEnumerator.field]
  dsimp only
  split
  next startsQuoted =>
    have isQuoted := isQuote.mp startsQuoted
    have text : cell.text = quote :: (double cell.value ++ [quote]) := if_pos isQuoted
    rw [text, List.cons_append, List.append_assoc] at here
    have inner : At row (pos + 1) (double cell.value ++ quote :: rest) := here.next
    have closing : row[pos + 1 + (double cell.value).length]? = some quote := inner.append.head
    rw [closingQuote_double cell.value false inner (follows.notQuote legal)]
    dsimp only
    rw [if_pos closing, inner.slice, Bool.false_or]
    refine ⟨_, Prod.ext rfl ?_, ?_⟩
    · rw [text, List.length_cons, List.length_append, List.length_singleton]
      dsimp only
      omega
    · rw [CsvField.toString]
      dsimp only
      split
      next => exact unescape_double cell.value
      next noQuote => exact double_of_not_mem (by simpa using noQuote)
  next notStarting =>
    have notQuoted := fun isQuoted => notStarting (isQuote.mpr isQuoted)
    have text : cell.text = cell.value := if_neg notQuoted
    rw [text] at here ⊢
    rw [nextDelimiter_plain cell.value here (cell.plain (by simpa using notQuoted)) follows,
      here.slice]
    exact ⟨_, rfl, rfl⟩

theorem fields_of_moveNext {fields next : FieldEnumerator} {field : CsvField}
    (moved : fields.moveNext = some (field, next)) : fields.all = field :: next.all := by
  rw [FieldEnumerator.all]
  split
  next stopped => cases stopped.symm.trans moved
  next moved' => cases moved'.symm.trans moved; rfl

theorem fields_of_stopped {fields : FieldEnumerator} (stopped : fields.emit = false) :
    fields.all = [] := by
  rw [FieldEnumerator.all]
  split
  next => rfl
  next moved =>
    rw [FieldEnumerator.moveNext, stopped] at moved
    cases moved

/-- The fields come out with the values that were written, by induction on the cells. -/
theorem all_rowText (legal : Legal delimiter) (cells : List (Cell delimiter)) (notEmpty : cells ≠ [])
    (here : At row pos (rowText cells)) :
    (FieldEnumerator.all ⟨row, delimiter, pos, true⟩).map CsvField.toString =
      cells.map Cell.value := by
  fun_induction rowText cells generalizing pos with
  | case1 => exact absurd rfl notEmpty
  | case2 cell =>
      rw [← List.append_nil cell.text] at here
      obtain ⟨field, isField, isValue⟩ :=
        field_cell cell legal here (fun _ same => by cases same) true
      have stop : row[pos + cell.text.length]? = none := here.append.head
      have moved : FieldEnumerator.moveNext ⟨row, delimiter, pos, true⟩ =
          some (field, ⟨row, delimiter, pos + cell.text.length, false⟩) := by
        rw [FieldEnumerator.moveNext, if_pos rfl, isField]
        dsimp only
        rw [stop, if_neg fun same => by cases same]
      rw [fields_of_moveNext moved, fields_of_stopped rfl, List.map_cons, isValue]
      rfl
  | case3 cell next others induction =>
      obtain ⟨field, isField, isValue⟩ :=
        field_cell cell legal here (fun c same => (Option.some.inj same).symm) true
      have isDelimiter : row[pos + cell.text.length]? = some delimiter := here.append.head
      have moved : FieldEnumerator.moveNext ⟨row, delimiter, pos, true⟩ =
          some (field, ⟨row, delimiter, pos + cell.text.length + 1, true⟩) := by
        rw [FieldEnumerator.moveNext, if_pos rfl, isField]
        dsimp only
        rw [if_pos isDelimiter]
      rw [fields_of_moveNext moved, List.map_cons, isValue,
        induction (fun same => by cases same) here.append.next]
      rfl

/-- Reading a written document yields the values of its cells. -/
theorem readAll_document (delimiter : CodeUnit) (legal : Legal delimiter) (terminator : Terminator)
    (ended : Bool) (rows : List (List (Cell delimiter))) (notEmpty : ∀ row ∈ rows, row ≠ [])
    (lastRow : ∀ row, rows.getLast? = some row → ended = true ∨ rowText row ≠ []) :
    readAll (document terminator ended rows) delimiter = rows.map fun row => row.map Cell.value := by
  rw [readAll, RowEnumerator.new, all_document legal terminator ended rows lastRow (At.start _),
    List.map_map]
  apply List.map_congr_left
  intro cells member
  exact all_rowText legal cells (notEmpty cells member) (At.start _)

/-- Two rows: `"a""<CR>,"` and an empty field without quotes, then an empty field in quotes. -/
theorem readAll_document_quotes :
    let rows : List (List (Cell 0x2C)) :=
      [[⟨[0x61, quote, carriageReturn, 0x2C], true, fun same => by cases same⟩,
        ⟨[], false, fun _ _ member => by cases member⟩],
        [⟨[], true, fun same => by cases same⟩]]
    readAll (document .crlf false rows) 0x2C = rows.map fun row => row.map Cell.value := by
  apply readAll_document 0x2C ⟨by decide, by decide, by decide⟩ .crlf false
  · intro row member
    rcases List.mem_cons.mp member with same | member
    · rw [same]; exact fun equal => by cases equal
    · rw [List.mem_singleton.mp member]; exact fun equal => by cases equal
  · intro row same
    cases same
    exact Or.inr (by decide)

end FoundationsLab.ZeroCsv
