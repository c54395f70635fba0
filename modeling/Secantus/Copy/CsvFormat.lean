/-
  The CSV format reads back (parse_csv over write_field of secantus-pg/src/copy_text.rs).

  `csvLoop_field` runs the reader over one written field, `csvLoop_fields` over a row's, and `csvLoop_rows`
  over lines that do not look like the end of the data; at one that does the reader stops
  (`csvLoop_stops`). A quote character that is a line feed takes the line's end for a quote, and then there is
  at most one row (`length_csvLoop`).
-/
import Secantus.Copy.Rows

namespace Secantus.Copy

variable {o : CopyOptions}

/-! ## A field -/

/-- The characters of a field, quotes and escapes apart. -/
def fieldText (o : CopyOptions) : Field → List Char
  | none => o.null
  | some text => text

/-- Whether a field is written in quotes. -/
def isQuoted (o : CopyOptions) (force single : Bool) : Field → Bool
  | none => false
  | some text => useQuote o force single text

theorem writeField_csv (o : CopyOptions) (force single : Bool) (field : Field) :
    writeField field true o force single =
      if isQuoted o force single field then quoted o (fieldText o field) else fieldText o field := by
  cases field with
  | none => rfl
  | some text => rfl

/-- A character that stands for itself outside quotes. -/
def Plain (o : CopyOptions) (c : Char) : Prop := c ≠ o.quote ∧ c ≠ o.delimiter ∧ c ≠ '\n' ∧ c ≠ '\r'

theorem plain_fieldText (hv : o.Valid true) {force single : Bool} {field : Field}
    (h : isQuoted o force single field = false) : ∀ c ∈ fieldText o field, Plain o c := by
  intro c hc
  cases field with
  | none =>
    refine ⟨?_, ?_, ?_, ?_⟩
    · rintro rfl
      exact hv.null_quote rfl hc
    · rintro rfl
      exact hv.null_delimiter hc
    · rintro rfl
      exact hv.null_line.2 hc
    · rintro rfl
      exact hv.null_line.1 hc
  | some text =>
    have hany : (text.any fun c => c == o.delimiter || c == o.quote || c == '\n' || c == '\r') = false := by
      have h' : useQuote o force single text = false := h
      unfold useQuote at h'
      rw [Bool.or_eq_false_iff] at h'
      exact h'.2
    have hc' := List.any_eq_false.mp hany c hc
    simp only [Bool.or_eq_true, beq_iff_eq, not_or] at hc'
    exact ⟨hc'.1.1.2, hc'.1.1.1, hc'.1.2, hc'.2⟩

theorem csvLoop_lineStart {s : CsvState} {cs : List Char} (hq : s.inQuote = false) (hcs : cs ≠ [])
    (h : endsData cs = false) : csvLoop o s cs = csvLoop o { s with lineStart := false } cs := by
  cases cs with
  | nil => exact absurd rfl hcs
  | cons c rest =>
    rw [csvLoop.eq_def, csvLoop.eq_def]
    simp only [hq, h, Bool.and_false, Bool.false_eq_true, if_false]

theorem csvLoop_delimiter (hv : o.Valid true) {s : CsvState} (hq : s.inQuote = false) (hl : s.lineStart = false)
    (rest : List Char) :
    csvLoop o s (o.delimiter :: rest) = csvLoop o ((s.finish o).consume [o.delimiter]) rest := by
  obtain ⟨rows, row, field, inQuote, sawQuote, lineStart, line⟩ := s
  obtain rfl : inQuote = false := hq
  obtain rfl : lineStart = false := hl
  rw [csvLoop.eq_def]
  simp only [Bool.false_and, Bool.false_eq_true, if_false, if_neg (hv.delimiter_quote rfl), if_true]

theorem csvLoop_newline (hv : o.Valid true) (hquote : o.quote ≠ '\n') {s : CsvState} (hq : s.inQuote = false)
    (hl : s.lineStart = false) (rest : List Char) :
    csvLoop o s ('\n' :: rest) = csvLoop o (s.finish o).endRow rest := by
  obtain ⟨rows, row, field, inQuote, sawQuote, lineStart, line⟩ := s
  obtain rfl : inQuote = false := hq
  obtain rfl : lineStart = false := hl
  rw [csvLoop.eq_def]
  simp only [Bool.false_and, Bool.false_eq_true, if_false, if_neg hquote.symm, if_neg hv.delimiter_line.2.symm,
    if_true]

theorem csvLoop_open {s : CsvState} (hq : s.inQuote = false) (hl : s.lineStart = false) (rest : List Char) :
    csvLoop o s (o.quote :: rest) =
      csvLoop o ({ s with inQuote := true, sawQuote := true }.consume [o.quote]) rest := by
  obtain ⟨rows, row, field, inQuote, sawQuote, lineStart, line⟩ := s
  obtain rfl : inQuote = false := hq
  obtain rfl : lineStart = false := hl
  rw [csvLoop.eq_def]
  simp only [Bool.false_and, Bool.false_eq_true, if_false, if_true]

theorem csvLoop_plain {s : CsvState} {text : List Char} (hq : s.inQuote = false) (hl : s.lineStart = false)
    (h : ∀ c ∈ text, Plain o c) (rest : List Char) :
    csvLoop o s (text ++ rest) = csvLoop o { s with field := s.field ++ text, line := s.line ++ text } rest := by
  induction text generalizing s with
  | nil => simp
  | cons c text ih =>
    obtain ⟨hquote, hdelim, hline, hret⟩ := h c List.mem_cons_self
    have hstep : csvLoop o s (c :: (text ++ rest)) =
        csvLoop o ((s.push c).consume [c]) (text ++ rest) := by
      rw [csvLoop.eq_def]
      simp only [hq, hl, Bool.false_and, Bool.false_eq_true, if_false, if_neg hquote, if_neg hdelim, if_neg hline,
        if_neg hret]
      congr 1
      cases s
      simp_all [CsvState.push, CsvState.consume]
    rw [List.cons_append, hstep, ih (s := (s.push c).consume [c]) hq hl fun d hd => h d (List.mem_cons_of_mem c hd)]
    simp [CsvState.push, CsvState.consume]

/-- Inside quotes a written character is read as it was. -/
theorem csvLoop_inside {s : CsvState} (hq : s.inQuote = true) (text rest : List Char) :
    csvLoop o s (text.flatMap (quoteChar o) ++ rest) =
      csvLoop o { s with
        field := s.field ++ text
        line := s.line ++ text.flatMap (quoteChar o) } rest := by
  induction text generalizing s with
  | nil => simp
  | cons c text ih =>
    have hcons : (c :: text).flatMap (quoteChar o) = quoteChar o c ++ text.flatMap (quoteChar o) := List.flatMap_cons
    rw [hcons, List.append_assoc]
    by_cases hc : c = o.quote ∨ c = o.escape
    · have hsome : csvEscaped o o.escape (some c) = some c := by
        unfold csvEscaped
        by_cases hsame : o.escape = o.quote
        · have hc' : c = o.quote := hc.elim id fun h => h.trans hsame
          simp [hsame, hc']
        · rcases hc with rfl | rfl
          · simp [hsame]
          · simp [hsame]
      have hpair : quoteChar o c = [o.escape, c] := if_pos hc
      rw [hpair]
      show csvLoop o s (o.escape :: c :: (text.flatMap (quoteChar o) ++ rest)) = _
      rw [csvLoop.eq_def]
      simp only [hq, if_true, List.head?_cons, hsome]
      rw [ih (s := (s.push c).consume [o.escape, c]) hq]
      simp [CsvState.push, CsvState.consume, hq]
    · have hsingle : quoteChar o c = [c] := if_neg hc
      rw [not_or] at hc
      have hnone : ∀ next, csvEscaped o c next = none := by
        intro next
        unfold csvEscaped
        rw [if_neg fun h => hc.2 h.1, if_neg fun h => hc.1 h.1]
      rw [hsingle]
      show csvLoop o s (c :: (text.flatMap (quoteChar o) ++ rest)) = _
      rw [csvLoop.eq_def]
      simp only [hq, if_true, hnone, if_neg hc.1]
      rw [ih (s := (s.push c).consume [c]) hq]
      simp [CsvState.push, CsvState.consume, hq]

/-- The quote after the last character ends them. -/
theorem csvLoop_quoted {s : CsvState} {text : List Char} (hq : s.inQuote = true) {rest : List Char}
    (hrest : o.escape = o.quote → rest.head? ≠ some o.quote) :
    csvLoop o s (text.flatMap (quoteChar o) ++ o.quote :: rest) =
      csvLoop o { s with
        field := s.field ++ text
        inQuote := false
        line := s.line ++ (text.flatMap (quoteChar o) ++ [o.quote]) } rest := by
  have hnone : csvEscaped o o.quote rest.head? = none := by
    unfold csvEscaped
    rw [if_neg fun h => h.2.1 h.1.symm, if_neg fun h => hrest h.2.1 h.2.2]
  rw [csvLoop_inside hq, csvLoop.eq_def]
  simp only [hq, if_true, hnone]
  simp [CsvState.consume]

/-- Between two fields. -/
def CsvState.Between (s : CsvState) : Prop :=
  s.field = [] ∧ s.inQuote = false ∧ s.sawQuote = false ∧ s.lineStart = false

/-- The state after a field's characters. -/
def CsvState.after (s : CsvState) (o : CopyOptions) (force single : Bool) (field : Field) : CsvState :=
  { s with
    field := fieldText o field
    sawQuote := isQuoted o force single field
    line := s.line ++ writeField field true o force single }

/-- One written field is read. -/
theorem csvLoop_field (hv : o.Valid true) {s : CsvState} (hs : s.Between) (force single : Bool) (field : Field)
    {rest : List Char}
    (hrest : isQuoted o force single field = true → o.escape = o.quote → rest.head? ≠ some o.quote) :
    csvLoop o s (writeField field true o force single ++ rest) = csvLoop o (s.after o force single field) rest := by
  obtain ⟨hfield, hq, hsaw, hl⟩ := hs
  unfold CsvState.after
  rw [writeField_csv]
  cases hquoted : isQuoted o force single field with
  | false =>
    simp only [Bool.false_eq_true, if_false]
    rw [csvLoop_plain hq hl (plain_fieldText hv hquoted), hfield, List.nil_append, ← hsaw]
  | true =>
    simp only [if_true]
    show csvLoop o s (o.quote :: (_ ++ [o.quote] ++ rest)) = _
    rw [csvLoop_open hq hl, List.append_assoc, List.singleton_append, csvLoop_quoted rfl (hrest hquoted)]
    simp [CsvState.consume, hfield, hq, quoted]

/-- The value of a field that ends where it was written. -/
theorem finish_after {s : CsvState} (force single : Bool) (field : Field) :
    (s.after o force single field).finish o =
      { s with
        row := s.row ++ [field]
        field := []
        sawQuote := false
        line := s.line ++ writeField field true o force single } := by
  have hvalue : (if !isQuoted o force single field && fieldText o field == o.null then none
      else some (fieldText o field)) = field := by
    cases field with
    | none => simp [isQuoted, fieldText]
    | some text =>
      cases hquoted : useQuote o force single text with
      | true => simp [isQuoted, fieldText, hquoted]
      | false =>
        have hne : (text == o.null) = false := by
          unfold useQuote at hquoted
          simp only [Bool.or_eq_false_iff] at hquoted
          exact hquoted.1.1.2
        simp [isQuoted, fieldText, hquoted, hne]
  unfold CsvState.finish CsvState.after
  simp only [hvalue]

/-! ## A row -/

/-- The reader's state with a row's last field read and not ended: what was read before, and the field. -/
def lastField (o : CopyOptions) (single : Bool) : List Bool → List Field → CsvState → CsvState
  | _, [], s => s
  | force, [field], s => s.after o (force.headD false) single field
  | force, field :: row, s =>
    lastField o single force.tail row
      (((s.after o (force.headD false) single field).finish o).consume [o.delimiter])

/-- Whether a row's last field is in quotes. -/
def lastQuoted (o : CopyOptions) (single : Bool) : List Bool → List Field → Bool
  | _, [] => false
  | force, [field] => isQuoted o (force.headD false) single field
  | force, _ :: row => lastQuoted o single force.tail row

/-- The fields of a row are read. -/
theorem csvLoop_fields (hv : o.Valid true) {s : CsvState} (hs : s.Between) (single : Bool) (force : List Bool)
    (row : List Field) {rest : List Char}
    (hrest : lastQuoted o single force row = true → o.escape = o.quote → rest.head? ≠ some o.quote) :
    csvLoop o s (writeFields true o single force row ++ rest) = csvLoop o (lastField o single force row s) rest := by
  induction row generalizing s force with
  | nil => rfl
  | cons field row ih =>
    cases row with
    | nil => exact csvLoop_field hv hs _ _ field hrest
    | cons next row =>
      have hdelim := hv.delimiter_quote rfl
      show csvLoop o s ((_ ++ o.delimiter :: writeFields true o single force.tail (next :: row)) ++ rest) = _
      have hnext : isQuoted o (force.headD false) single field = true → o.escape = o.quote →
          (o.delimiter :: (writeFields true o single force.tail (next :: row) ++ rest)).head? ≠ some o.quote :=
        fun _ _ h => hdelim (Option.some.inj h)
      rw [List.append_assoc, List.cons_append, csvLoop_field hv hs _ _ field hnext]
      have hq : (s.after o (force.headD false) single field).inQuote = false := hs.2.1
      have hl : (s.after o (force.headD false) single field).lineStart = false := hs.2.2.2
      rw [csvLoop_delimiter hv hq hl]
      refine ih ?_ force.tail hrest
      rw [finish_after]
      exact ⟨rfl, hq, rfl, hl⟩

theorem lastField_finish (single : Bool) (force : List Bool) {row : List Field} (hne : row ≠ []) (s : CsvState) :
    ∃ line, (lastField o single force row s).finish o =
      { s with row := s.row ++ row, field := [], sawQuote := false, line := line } := by
  induction row generalizing s force with
  | nil => exact absurd rfl hne
  | cons field row ih =>
    cases row with
    | nil => exact ⟨_, finish_after ..⟩
    | cons next row =>
      obtain ⟨line, h⟩ := ih force.tail (List.cons_ne_nil next row)
        (((s.after o (force.headD false) single field).finish o).consume [o.delimiter])
      refine ⟨line, h.trans ?_⟩
      rw [finish_after]
      simp [CsvState.consume]

/-- At the start of a line. -/
def CsvState.Fresh (s : CsvState) : Prop :=
  s.row = [] ∧ s.field = [] ∧ s.inQuote = false ∧ s.sawQuote = false ∧ s.lineStart = true

/-- A line that does not look like the end of the data is read as its row. -/
theorem csvLoop_row (hv : o.Valid true) (hquote : o.quote ≠ '\n') {s : CsvState} (hs : s.Fresh) (force : List Bool)
    {row : List Field} (hne : row ≠ []) {rest : List Char}
    (hend : endsData (copyTextRow true o force row ++ rest) = false) :
    ∃ s', csvLoop o s (copyTextRow true o force row ++ rest) = csvLoop o s' rest ∧ s'.Fresh ∧
      s'.rows.map Prod.fst = s.rows.map Prod.fst ++ [row] := by
  obtain ⟨hrow, hfield, hq, hsaw, -⟩ := hs
  have hcs : copyTextRow true o force row ++ rest ≠ [] := by
    unfold copyTextRow
    simp
  rw [csvLoop_lineStart hq hcs hend]
  have hbetween : CsvState.Between { s with lineStart := false } := ⟨hfield, hq, hsaw, rfl⟩
  have happ : copyTextRow true o force row ++ rest =
      writeFields true o (row.length == 1) force row ++ '\n' :: rest := by
    unfold copyTextRow
    rw [List.append_assoc]
    rfl
  have hclose : lastQuoted o (row.length == 1) force row = true → o.escape = o.quote →
      ('\n' :: rest).head? ≠ some o.quote := fun _ _ h => hquote (Option.some.inj h).symm
  rw [happ, csvLoop_fields hv hbetween _ _ _ hclose]
  obtain ⟨line, hfinish⟩ := @lastField_finish o (row.length == 1) force row hne { s with lineStart := false }
  generalize lastField o (row.length == 1) force row { s with lineStart := false } = t at hfinish ⊢
  have hq' : t.inQuote = false := (congrArg CsvState.inQuote hfinish).trans hq
  have hl' : t.lineStart = false := congrArg CsvState.lineStart hfinish
  refine ⟨(t.finish o).endRow, ?_, ?_, ?_⟩
  · exact csvLoop_newline hv hquote hq' hl' rest
  · rw [hfinish]
    exact ⟨rfl, rfl, hq, rfl, rfl⟩
  · rw [hfinish]
    simp [CsvState.endRow, hrow]

/-! ## Rows -/

theorem endsData_three (a b c : Char) (rest : List Char) :
    endsData (a :: b :: c :: rest) = true ↔ a = '\\' ∧ b = '.' ∧ (c = '\n' ∨ c = '\r') := by
  by_cases ha : a = '\\'
  · subst ha
    by_cases hb : b = '.'
    · subst hb
      simp [endsData]
    · simp [endsData, hb]
  · simp [endsData, ha]

/-- Whether a line looks like the end of the data is settled before the next line. -/
theorem endsData_line (line rest : List Char) : endsData (line ++ '\n' :: rest) = endsData (line ++ ['\n']) := by
  match line with
  | [] => simp [endsData]
  | [a] => simp [endsData]
  | [a, b] =>
    rw [Bool.eq_iff_iff]
    exact (endsData_three a b '\n' rest).trans (endsData_three a b '\n' []).symm
  | a :: b :: c :: line =>
    rw [Bool.eq_iff_iff]
    exact (endsData_three a b c (line ++ '\n' :: rest)).trans (endsData_three a b c (line ++ ['\n'])).symm

theorem endsData_row (o : CopyOptions) (force : List Bool) (row : List Field) (rest : List Char) :
    endsData (copyTextRow true o force row ++ rest) = endsData (copyTextRow true o force row) := by
  unfold copyTextRow
  rw [List.append_assoc]
  exact endsData_line _ rest

theorem csvLoop_stops {s : CsvState} (hs : s.Fresh) {cs : List Char} (h : endsData cs = true) :
    csvLoop o s cs = s.rows := by
  obtain ⟨hrow, hfield, hq, hsaw, hl⟩ := hs
  cases cs with
  | nil => cases h
  | cons c rest =>
    rw [csvLoop.eq_def]
    simp [hq, hl, h, CsvState.close, hrow, hfield, hsaw]

/-- The lines are read as their rows, up to the first that looks like the end of the data. -/
theorem csvLoop_rows (hv : o.Valid true) (hquote : o.quote ≠ '\n') (force : List Bool) {rows : List (List Field)}
    (hne : ∀ row ∈ rows, row ≠ []) {s : CsvState} (hs : s.Fresh) :
    ((∀ row ∈ rows, endsData (copyTextRow true o force row) = false) →
        (csvLoop o s (copyText true o force rows)).map Prod.fst = s.rows.map Prod.fst ++ rows) ∧
      ((∃ row ∈ rows, endsData (copyTextRow true o force row) = true) →
        (csvLoop o s (copyText true o force rows)).length < s.rows.length + rows.length) := by
  induction rows generalizing s with
  | nil =>
    obtain ⟨hrow, hfield, -, hsaw, -⟩ := hs
    refine ⟨fun _ => ?_, fun ⟨_, h, _⟩ => by cases h⟩
    show (csvLoop o s []).map Prod.fst = _
    rw [csvLoop.eq_def]
    simp [CsvState.close, hrow, hfield, hsaw]
  | cons row rows ih =>
    have hcons : copyText true o force (row :: rows) =
        copyTextRow true o force row ++ copyText true o force rows := List.flatMap_cons
    have hne' := fun r hr => hne r (List.mem_cons_of_mem row hr)
    rw [hcons]
    cases hend : endsData (copyTextRow true o force row) with
    | true =>
      have hstop := csvLoop_stops (o := o) hs ((endsData_row o force row (copyText true o force rows)).trans hend)
      rw [hstop]
      refine ⟨fun h => ?_, fun _ => by simp⟩
      rw [h row List.mem_cons_self] at hend
      cases hend
    | false =>
      obtain ⟨s', hrun, hfresh, hrows⟩ := csvLoop_row hv hquote hs force (hne row List.mem_cons_self)
        ((endsData_row o force row (copyText true o force rows)).trans hend)
      obtain ⟨hall, hsome⟩ := ih hne' hfresh
      have hlen := congrArg List.length hrows
      simp only [List.length_map, List.length_append, List.length_singleton] at hlen
      rw [hrun]
      constructor
      · intro h
        rw [hall fun r hr => h r (List.mem_cons_of_mem row hr), hrows, List.append_assoc]
        rfl
      · rintro ⟨r, hr, hr'⟩
        rcases List.mem_cons.mp hr with rfl | hr
        · rw [hend] at hr'
          cases hr'
        · have := hsome ⟨r, hr, hr'⟩
          rw [List.length_cons]
          omega

/-! ## A line feed as the quote -/

/-- With a line feed for the quote no line's end is read as one. -/
theorem length_csvLoop (hquote : o.quote = '\n') (s : CsvState) (cs : List Char) :
    (csvLoop o s cs).length ≤ s.rows.length + 1 := by
  have hclose : ∀ (s : CsvState) unread, (s.close o unread).length ≤ s.rows.length + 1 := by
    intro s unread
    unfold CsvState.close
    split
    · simp [CsvState.endRow, CsvState.consume, CsvState.finish]
    · omega
  fun_induction csvLoop o s cs with
  | case1 s => exact hclose s _
  | case2 s c hq e next rest hesc ih =>
    simp only [hesc]
    exact ih
  | case3 s hq rest hesc ih =>
    split
    · rename_i hsome
      exact (hesc _ _ _ hsome rfl).elim
    · rw [if_pos rfl]
      exact ih
  | case4 s c hq rest hc hesc ih =>
    split
    · rename_i hsome
      exact (hesc _ _ _ hsome rfl).elim
    · rw [if_neg hc]
      exact ih
  | case6 | case7 | case9 | case10 => assumption
  | case5 s => exact hclose s _
  | case8 s rest hq next hend hline => exact absurd hquote.symm hline

theorem csvLoop_nil_quoted {s : CsvState} (h : s.sawQuote = true) :
    csvLoop o s [] = s.rows ++ [(s.row ++ [some s.field], trimEnd s.line)] := by
  rw [csvLoop.eq_def]
  simp [CsvState.close, CsvState.finish, CsvState.consume, CsvState.endRow, h]

/-- What was read before a row's last field is the row without it. -/
theorem lastField_eq (single : Bool) (force : List Bool) {row : List Field} (hne : row ≠ []) (s : CsvState) :
    ∃ start last line, row = start ++ [last] ∧ lastField o single force row s =
      { s with row := s.row ++ start, field := fieldText o last, sawQuote := lastQuoted o single force row
               line := line } := by
  induction row generalizing s force with
  | nil => exact absurd rfl hne
  | cons field row ih =>
    cases row with
    | nil =>
      refine ⟨[], field, s.line ++ writeField field true o (force.headD false) single, rfl, ?_⟩
      simp [lastField, lastQuoted, CsvState.after]
    | cons next row =>
      obtain ⟨start, last, line, hrow, h⟩ := ih force.tail (List.cons_ne_nil next row)
        (((s.after o (force.headD false) single field).finish o).consume [o.delimiter])
      refine ⟨field :: start, last, line, by rw [hrow]; rfl, h.trans ?_⟩
      rw [finish_after]
      simp [CsvState.consume, lastQuoted]

/-- A row whose line's end opens quotes: its last field is read as a quoted one. -/
theorem csvLoop_opened (hv : o.Valid true) (hquote : o.quote = '\n') {s : CsvState} (hs : s.Between) (single : Bool)
    (force : List Bool) {row : List Field} (hne : row ≠ [])
    (hlast : ¬(lastQuoted o single force row = true ∧ o.escape = o.quote)) :
    ∃ start last line, row = start ++ [last] ∧ csvLoop o s (writeFields true o single force row ++ ['\n']) =
      s.rows ++ [(s.row ++ (start ++ [some (fieldText o last)]), line)] := by
  rw [csvLoop_fields hv hs single force row fun hquoted hsame => absurd ⟨hquoted, hsame⟩ hlast]
  obtain ⟨start, last, line, hrow, hstate⟩ := @lastField_eq o single force row hne s
  have hq : (lastField o single force row s).inQuote = false := by
    rw [hstate]
    exact hs.2.1
  have hl : (lastField o single force row s).lineStart = false := by
    rw [hstate]
    exact hs.2.2.2
  rw [← hquote, csvLoop_open hq hl, hstate, csvLoop_nil_quoted rfl]
  refine ⟨start, last, trimEnd (line ++ [o.quote]), hrow, ?_⟩
  simp [CsvState.consume]

/-- A row whose line's end is read as the second of two quotes: its last field keeps it. -/
theorem csvLoop_doubled (hv : o.Valid true) (hquote : o.quote = '\n') (hsame : o.escape = o.quote) {s : CsvState}
    (hs : s.Between) (single : Bool) (force : List Bool) {row : List Field}
    (hlast : lastQuoted o single force row = true) :
    ∃ start last line, row = start ++ [last] ∧ csvLoop o s (writeFields true o single force row ++ ['\n']) =
      s.rows ++ [(s.row ++ (start ++ [some (fieldText o last ++ ['\n'])]), line)] := by
  induction row generalizing s force with
  | nil => cases hlast
  | cons field row ih =>
    cases row with
    | nil =>
      obtain ⟨hfield, hq, -, hl⟩ := hs
      have hquoted : isQuoted o (force.headD false) single field = true := hlast
      have hwritten : writeFields true o single force [field] ++ ['\n'] =
          o.quote :: ((fieldText o field ++ [o.quote]).flatMap (quoteChar o) ++ []) := by
        show writeField field true o (force.headD false) single ++ ['\n'] = _
        rw [writeField_csv, if_pos hquoted]
        simp [quoted, quoteChar, hsame, hquote]
      rw [hwritten, csvLoop_open hq hl, csvLoop_inside rfl, csvLoop_nil_quoted rfl]
      refine ⟨[], field, trimEnd (s.line ++ [o.quote] ++ (fieldText o field ++ [o.quote]).flatMap (quoteChar o)), rfl, ?_⟩
      simp [CsvState.consume, hfield, hquote]
    | cons next row =>
      have hnext : isQuoted o (force.headD false) single field = true → o.escape = o.quote →
          (o.delimiter :: (writeFields true o single force.tail (next :: row) ++ ['\n'])).head? ≠ some o.quote :=
        fun _ _ h => hv.delimiter_quote rfl (Option.some.inj h)
      have hwritten : writeFields true o single force (field :: next :: row) ++ ['\n'] =
          writeField field true o (force.headD false) single ++
            o.delimiter :: (writeFields true o single force.tail (next :: row) ++ ['\n']) :=
        List.append_assoc _ _ _
      rw [hwritten, csvLoop_field hv hs _ _ field hnext]
      have hq : (s.after o (force.headD false) single field).inQuote = false := hs.2.1
      have hl : (s.after o (force.headD false) single field).lineStart = false := hs.2.2.2
      rw [csvLoop_delimiter hv hq hl, finish_after]
      obtain ⟨start, last, line, hrow, hrun⟩ := @ih
        (CsvState.consume { s with
          row := s.row ++ [field]
          field := []
          sawQuote := false
          line := s.line ++ writeField field true o (force.headD false) single } [o.delimiter])
        ⟨rfl, hs.2.1, rfl, hs.2.2.2⟩ force.tail hlast
      refine ⟨field :: start, last, line, by rw [hrow]; rfl, hrun.trans ?_⟩
      simp [CsvState.consume]

/-- With a line feed for the quote one row reads back, where its last field is not NULL and does not end in a
    quote that the line's end doubles. -/
theorem csvLoop_line_feed (hv : o.Valid true) (hquote : o.quote = '\n') (force : List Bool) {row : List Field}
    (hne : row ≠ []) (hend : endsData (copyTextRow true o force row) = false) :
    (csvLoop o .start (copyTextRow true o force row)).map Prod.fst = [row] ↔
      row.getLast? ≠ some none ∧ ¬(lastQuoted o (row.length == 1) force row = true ∧ o.escape = o.quote) := by
  have hbetween : CsvState.Between { CsvState.start with lineStart := false } := ⟨rfl, rfl, rfl, rfl⟩
  have hcs : copyTextRow true o force row ≠ [] := by
    unfold copyTextRow
    simp
  rw [csvLoop_lineStart rfl hcs hend]
  by_cases hlast : lastQuoted o (row.length == 1) force row = true ∧ o.escape = o.quote
  · obtain ⟨start, last, line, hrow, hrun⟩ := csvLoop_doubled hv hquote hlast.2 hbetween _ _ hlast.1
    refine iff_of_false ?_ fun h => h.2 hlast
    intro h
    rw [copyTextRow, hrun] at h
    have hfields : start ++ [some (fieldText o last ++ ['\n'])] = start ++ [last] := by
      simpa [CsvState.start, hrow] using h
    have hlast' := List.singleton_inj.mp (List.append_cancel_left hfields)
    cases last with
    | none => cases hlast'
    | some text => simp [fieldText] at hlast'
  · obtain ⟨start, last, line, hrow, hrun⟩ := csvLoop_opened hv hquote hbetween _ _ hne hlast
    rw [copyTextRow, hrun]
    simp only [hlast, not_false_eq_true, and_true]
    have hmap : ([] ++ [(([] : List Field) ++ (start ++ [some (fieldText o last)]), line)]).map Prod.fst = [row] ↔
        some (fieldText o last) = last := by
      simp [hrow]
    refine hmap.trans ?_
    rw [hrow, List.getLast?_concat]
    cases last with
    | none => simp
    | some text => simp [fieldText]

end Secantus.Copy
