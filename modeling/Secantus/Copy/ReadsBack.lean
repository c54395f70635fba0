/-
  COPY output reads back (secantus-pg/src/copy_text.rs): exactly when.

  `ReadsBack` says, on the options and the rows, when no row is lost and no field changed, and
  `parse_copyText_iff` that this is exactly when reading the lines gives the rows. In text, a row of one empty
  field is lost. In CSV, a line can look like the end of the data only with special characters that are
  themselves a backslash, a point or a line's end, or with a NULL string that is the marker (`MarksEnd`).
-/
import Secantus.Copy.TextFormat
import Secantus.Copy.CsvFormat

namespace Secantus.Copy

variable {o : CopyOptions}

/-! ## Lines that look like the end of the data -/

def LineEnd (c : Char) : Prop := c = '\n' ∨ c = '\r'

/-- The field is written outside quotes, as these characters. -/
def WrittenAs (o : CopyOptions) (force single : Bool) (field : Field) (s : List Char) : Prop :=
  isQuoted o force single field = false ∧ fieldText o field = s

/-- In quotes the text begins with a line's end. -/
def OpensLine (o : CopyOptions) : List Char → Prop
  | [] => False
  | c :: _ => LineEnd (if c = o.quote ∨ c = o.escape then o.escape else c)

/-- In quotes the text, with its opening quote, begins with `\.` and a line's end. -/
def QuoteMarks (o : CopyOptions) (text : List Char) : Prop :=
  o.quote = '\\' ∧ o.escape ≠ '.' ∧ ∃ rest, text = '.' :: rest ∧ OpensLine o rest

/-- The row's line begins with `\.` and a line's end: in its first field, with the delimiter for the point, or
    with the delimiter for the backslash. -/
def MarksEnd (o : CopyOptions) (force : List Bool) : List Field → Prop
  | [] => False
  | [a] =>
    isQuoted o (force.headD false) true a = true ∧ QuoteMarks o (fieldText o a) ∨
      WrittenAs o (force.headD false) true a ['\\', '.']
  | a :: b :: rest =>
    isQuoted o (force.headD false) false a = true ∧ QuoteMarks o (fieldText o a) ∨
      (WrittenAs o (force.headD false) false a ['\\'] ∧ o.delimiter = '.' ∧
        (rest = [] ∧ WrittenAs o (force.tail.headD false) false b [] ∨
          isQuoted o (force.tail.headD false) false b = true ∧ LineEnd o.quote)) ∨
      (WrittenAs o (force.headD false) false a [] ∧ o.delimiter = '\\' ∧
        (rest = [] ∧ WrittenAs o (force.tail.headD false) false b ['.'] ∨
          isQuoted o (force.tail.headD false) false b = true ∧ o.quote = '.' ∧ OpensLine o (fieldText o b)))

/-- The characters after a row's first field. -/
def afterFirst (o : CopyOptions) (single : Bool) (force : List Bool) : List Field → List Char
  | [] => ['\n']
  | field :: row => o.delimiter :: (writeFields true o single force (field :: row) ++ ['\n'])

theorem writeFields_first (single : Bool) (force : List Bool) (a : Field) (row : List Field) :
    writeFields true o single force (a :: row) ++ ['\n'] =
      writeField a true o (force.headD false) single ++ afterFirst o single force.tail row := by
  cases row with
  | nil => rfl
  | cons b row => exact List.append_assoc _ _ _

theorem not_lineEnd_delimiter (hv : o.Valid true) : ¬LineEnd o.delimiter :=
  fun h => h.elim hv.delimiter_line.2 hv.delimiter_line.1

theorem Plain.not_lineEnd {c : Char} (h : Plain o c) : ¬LineEnd c := fun h' => h'.elim h.2.2.1 h.2.2.2

/-- The first character of a quoted text, or the quote that ends it. -/
theorem quoted_head (text : List Char) (rest : List Char) :
    ∃ c more, text.flatMap (quoteChar o) ++ o.quote :: rest = c :: more ∧
      (text = [] ∧ c = o.quote ∨ ∃ d text', text = d :: text' ∧ c = if d = o.quote ∨ d = o.escape then o.escape else d) := by
  cases text with
  | nil => exact ⟨o.quote, rest, rfl, .inl ⟨rfl, rfl⟩⟩
  | cons d text =>
    have hcons : (d :: text).flatMap (quoteChar o) = quoteChar o d ++ text.flatMap (quoteChar o) := List.flatMap_cons
    rw [hcons]
    by_cases hd : d = o.quote ∨ d = o.escape
    · have hpair : quoteChar o d = [o.escape, d] := if_pos hd
      rw [hpair]
      exact ⟨o.escape, _, rfl, .inr ⟨d, text, rfl, (if_pos hd).symm⟩⟩
    · have hsingle : quoteChar o d = [d] := if_neg hd
      rw [hsingle]
      exact ⟨d, _, rfl, .inr ⟨d, text, rfl, (if_neg hd).symm⟩⟩

theorem opensLine_iff (hquote : ¬LineEnd o.quote) {text rest more : List Char} {c : Char}
    (h : text.flatMap (quoteChar o) ++ o.quote :: rest = c :: more) : LineEnd c ↔ OpensLine o text := by
  obtain ⟨c', more', h', hc⟩ := @quoted_head o text rest
  obtain ⟨rfl, -⟩ := List.cons.inj (h.symm.trans h')
  rcases hc with ⟨rfl, rfl⟩ | ⟨d, text', rfl, rfl⟩
  · exact iff_of_false hquote id
  · exact Iff.rfl

theorem endsData_quoted (text rest : List Char) :
    endsData (quoted o text ++ rest) = true ↔ QuoteMarks o text := by
  have hshape : quoted o text ++ rest = o.quote :: (text.flatMap (quoteChar o) ++ o.quote :: rest) := by
    simp [quoted]
  rw [hshape]
  by_cases hquote : o.quote = '\\'
  · have hline : ¬LineEnd o.quote := by
      rw [hquote]
      exact fun h => h.elim (by decide) (by decide)
    cases text with
    | nil =>
      rw [List.flatMap_nil, List.nil_append, hquote]
      simp [endsData, QuoteMarks]
    | cons d text =>
      have hcons : (d :: text).flatMap (quoteChar o) = quoteChar o d ++ text.flatMap (quoteChar o) := List.flatMap_cons
      rw [hcons, List.append_assoc]
      by_cases hd : d = o.quote ∨ d = o.escape
      · have hpair : quoteChar o d = [o.escape, d] := if_pos hd
        rw [hpair]
        refine (endsData_three _ _ _ _).trans (iff_of_false ?_ ?_)
        · rintro ⟨-, hdot, hend⟩
          rcases hd with rfl | rfl
          · exact hline hend
          · rw [hdot] at hend
            exact hend.elim (by decide) (by decide)
        · rintro ⟨-, hdot, rest', heq, -⟩
          obtain ⟨rfl, -⟩ := List.cons.inj heq
          rcases hd with h | h
          · exact absurd (h.trans hquote) (by decide)
          · exact hdot h.symm
      · have hsingle : quoteChar o d = [d] := if_neg hd
        obtain ⟨c, more, hmore, -⟩ := @quoted_head o text rest
        rw [hsingle, hmore]
        refine (endsData_three _ _ _ _).trans ?_
        rw [not_or] at hd
        constructor
        · rintro ⟨-, rfl, hend⟩
          exact ⟨hquote, fun h => hd.2 h.symm, text, rfl, (opensLine_iff hline hmore).mp hend⟩
        · rintro ⟨-, -, rest', heq, hopens⟩
          obtain ⟨rfl, rfl⟩ := List.cons.inj heq
          exact ⟨hquote, rfl, (opensLine_iff hline hmore).mpr hopens⟩
  · refine iff_of_false (fun h => ?_) fun h => hquote h.1
    obtain ⟨c, more, hmore, -⟩ := @quoted_head o text rest
    rw [hmore] at h
    cases more with
    | nil => simp [endsData, hquote] at h
    | cons d more => exact hquote ((endsData_three _ _ _ _).mp h).1

theorem endsData_two {a b : Char} {rest : List Char} (h : endsData (a :: b :: rest) = true) : a = '\\' ∧ b = '.' := by
  cases rest with
  | nil =>
    by_cases ha : a = '\\'
    · refine ⟨ha, ?_⟩
      by_contra hb
      simp [endsData, ha, hb] at h
    · simp [endsData, ha] at h
  | cons c rest =>
    have h' := (endsData_three a b c rest).mp h
    exact ⟨h'.1, h'.2.1⟩

/-- Plain characters at the start of a line, and what comes after them. -/
theorem endsData_plain {s : List Char} (h : ∀ c ∈ s, Plain o c) {x : Char} {rest : List Char}
    (hrest : x = '.' → rest ≠ []) :
    endsData (s ++ x :: rest) = true ↔
      s = ['\\', '.'] ∧ LineEnd x ∨ (s = ['\\'] ∧ x = '.' ∧ ∃ y more, rest = y :: more ∧ LineEnd y) ∨
        s = [] ∧ endsData (x :: rest) = true := by
  match s with
  | [] => simp
  | [a] =>
    cases rest with
    | nil =>
      refine iff_of_false (fun hend => ?_) (by simp)
      exact hrest (endsData_two hend).2 rfl
    | cons y more =>
      refine (endsData_three _ _ _ _).trans ?_
      constructor
      · rintro ⟨rfl, rfl, hy⟩
        exact .inr (.inl ⟨rfl, rfl, y, more, rfl, hy⟩)
      · rintro (⟨h1, -⟩ | ⟨h1, rfl, y', more', h2, hy⟩ | ⟨h1, -⟩)
        · simp at h1
        · obtain ⟨rfl, -⟩ := List.cons.inj h1
          obtain ⟨rfl, -⟩ := List.cons.inj h2
          exact ⟨rfl, rfl, hy⟩
        · cases h1
  | [a, b] =>
    refine (endsData_three _ _ _ _).trans ?_
    simp [LineEnd, and_assoc]
  | a :: b :: c :: s =>
    have hc := (h c (by simp)).not_lineEnd
    refine iff_of_false (fun hend => hc ((endsData_three _ _ _ _).mp hend).2.2) (by simp)

theorem afterFirst_cons (single : Bool) (force : List Bool) (b : Field) (row : List Field) :
    afterFirst o single force (b :: row) =
      o.delimiter :: (writeField b true o (force.headD false) single ++ afterFirst o single force.tail row) := by
  show o.delimiter :: _ = _
  rw [writeFields_first]

theorem afterFirst_head (hv : o.Valid true) (single : Bool) (force : List Bool) (row : List Field) :
    ∃ x rest, afterFirst o single force row = x :: rest ∧ (x = '\n' ∨ x = o.delimiter) ∧ (LineEnd x ↔ row = []) := by
  cases row with
  | nil => exact ⟨'\n', [], rfl, .inl rfl, iff_of_true (.inl rfl) rfl⟩
  | cons b row =>
    exact ⟨o.delimiter, _, rfl, .inr rfl, iff_of_false (not_lineEnd_delimiter hv) (by simp)⟩

/-- A row's second field begins with a line's end. -/
theorem second_lineEnd (hv : o.Valid true) (force : Bool) (single : Bool) (forces : List Bool) (b : Field)
    (row : List Field) :
    (∃ y more, writeField b true o force single ++ afterFirst o single forces row = y :: more ∧ LineEnd y) ↔
      row = [] ∧ WrittenAs o force single b [] ∨ isQuoted o force single b = true ∧ LineEnd o.quote := by
  obtain ⟨x, rest, hafter, -, hx⟩ := afterFirst_head (o := o) hv single forces row
  rw [writeField_csv, hafter]
  unfold WrittenAs
  cases hquoted : isQuoted o force single b with
  | true =>
    simp only [if_true, quoted]
    constructor
    · rintro ⟨y, more, h, hy⟩
      obtain ⟨rfl, -⟩ := List.cons.inj h
      exact .inr ⟨trivial, hy⟩
    · rintro (⟨-, h, -⟩ | ⟨-, h⟩)
      · cases h
      · exact ⟨o.quote, _, rfl, h⟩
  | false =>
    have hplain := plain_fieldText hv hquoted
    simp only [Bool.false_eq_true, if_false]
    cases htext : fieldText o b with
    | nil => simp [hx]
    | cons c text =>
      have hc := (hplain c (htext ▸ List.mem_cons_self)).not_lineEnd
      simp [hc]

/-- A row's second field, after a delimiter that is a backslash, begins with a point and a line's end. -/
theorem second_point (hv : o.Valid true) (force : Bool) (single : Bool) (forces : List Bool) (b : Field)
    (row : List Field) :
    endsData (o.delimiter :: (writeField b true o force single ++ afterFirst o single forces row)) = true ↔
      o.delimiter = '\\' ∧ (row = [] ∧ WrittenAs o force single b ['.'] ∨
        isQuoted o force single b = true ∧ o.quote = '.' ∧ OpensLine o (fieldText o b)) := by
  obtain ⟨x, rest, hafter, hfirst, hx⟩ := afterFirst_head (o := o) hv single forces row
  rw [writeField_csv, hafter]
  unfold WrittenAs
  cases hquoted : isQuoted o force single b with
  | true =>
    have hshape : quoted o (fieldText o b) ++ x :: rest =
        o.quote :: ((fieldText o b).flatMap (quoteChar o) ++ o.quote :: x :: rest) := by
      simp [quoted]
    obtain ⟨c, more, hmore, -⟩ := @quoted_head o (fieldText o b) (x :: rest)
    simp only [if_true]
    rw [hshape, hmore]
    refine (endsData_three _ _ _ _).trans ?_
    constructor
    · rintro ⟨hd, hq, hc⟩
      have hline : ¬LineEnd o.quote := by
        rw [hq]
        exact fun h => h.elim (by decide) (by decide)
      exact ⟨hd, .inr ⟨trivial, hq, (opensLine_iff hline hmore).mp hc⟩⟩
    · rintro ⟨hd, ⟨-, h, -⟩ | ⟨-, hq, hopens⟩⟩
      · cases h
      · have hline : ¬LineEnd o.quote := by
          rw [hq]
          exact fun h => h.elim (by decide) (by decide)
        exact ⟨hd, hq, (opensLine_iff hline hmore).mpr hopens⟩
  | false =>
    have hplain := plain_fieldText hv hquoted
    simp only [Bool.false_eq_true, if_false, false_and, or_false]
    cases htext : fieldText o b with
    | nil =>
      refine iff_of_false (fun hend => ?_) (by simp)
      obtain ⟨hd, hdot⟩ := endsData_two hend
      rcases hfirst with rfl | rfl
      · exact absurd hdot (by decide)
      · exact absurd (hd.symm.trans hdot) (by decide)
    | cons c text =>
      cases text with
      | nil =>
        refine (endsData_three _ _ _ _).trans ?_
        have hx' : (x = '\n' ∨ x = '\r') ↔ row = [] := hx
        rw [hx']
        simp [and_comm]
      | cons d text =>
        have hd := (hplain d (htext ▸ by simp)).not_lineEnd
        exact iff_of_false (fun hend => hd ((endsData_three _ _ _ _).mp hend).2.2) (by simp)

theorem marksEnd_iff (hv : o.Valid true) (force : List Bool) {row : List Field} (hne : row ≠ []) :
    endsData (copyTextRow true o force row) = true ↔ MarksEnd o force row := by
  unfold copyTextRow
  cases row with
  | nil => exact absurd rfl hne
  | cons a row =>
    rw [writeFields_first, writeField_csv]
    cases row with
    | nil =>
      show endsData ((if isQuoted o (force.headD false) true a then _ else _) ++ ['\n']) = true ↔ _
      simp only [MarksEnd, WrittenAs]
      cases hquoted : isQuoted o (force.headD false) true a with
      | true =>
        simp only [if_true]
        rw [endsData_quoted]
        simp
      | false =>
        simp only [Bool.false_eq_true, if_false]
        rw [endsData_plain (plain_fieldText hv hquoted) (by decide)]
        simp [LineEnd, endsData]
    | cons b row =>
      have hlen : ((a :: b :: row).length == 1) = false := by simp
      rw [hlen, afterFirst_cons]
      simp only [MarksEnd]
      rw [← second_lineEnd hv (force.tail.headD false) false force.tail.tail b row,
        ← second_point hv (force.tail.headD false) false force.tail.tail b row]
      unfold WrittenAs
      cases hquoted : isQuoted o (force.headD false) false a with
      | true =>
        simp only [if_true]
        rw [endsData_quoted]
        simp
      | false =>
        simp only [Bool.false_eq_true, if_false]
        rw [endsData_plain (plain_fieldText hv hquoted)]
        · simp [not_lineEnd_delimiter hv]
        · obtain ⟨x, rest, hafter, -⟩ := afterFirst_head (o := o) hv false force.tail.tail row
          rw [hafter]
          simp

/-! ## Both formats -/

/-- When the lines of the rows read back as the rows. -/
def ReadsBack (csv : Bool) (o : CopyOptions) (force : List Bool) (rows : List (List Field)) : Prop :=
  if csv then
    (∀ row ∈ rows, ¬MarksEnd o force row) ∧
      -- a line feed for the quote takes the line's end for one
      (o.quote = '\n' → rows.length ≤ 1 ∧ ∀ row ∈ rows, row.getLast? ≠ some none ∧
        ¬(lastQuoted o (row.length == 1) force row = true ∧ o.escape = o.quote))
  else ∀ row ∈ rows, ¬Vanishes o row ∧ ¬Merges o row

theorem applyForce_none {notNull null : List Bool} (hn : ∀ b ∈ notNull, b = false) (hf : ∀ b ∈ null, b = false)
    (row : List Field) : applyForce o notNull null row = row := by
  have hhead : ∀ l : List Bool, (∀ b ∈ l, b = false) → l.headD false = false := by
    intro l h
    cases l with
    | nil => rfl
    | cons b l => exact h b List.mem_cons_self
  induction row generalizing notNull null with
  | nil => rfl
  | cons field row ih =>
    rw [applyForce, hhead notNull hn, hhead null hf,
      ih (fun b hb => hn b (List.mem_of_mem_tail hb)) fun b hb => hf b (List.mem_of_mem_tail hb)]
    simp

/-- The CSV format reads back exactly where no line looks like the end of the data. -/
theorem parseCsv_iff (hv : o.Valid true) (force : List Bool) {rows : List (List Field)}
    (hne : ∀ row ∈ rows, row ≠ []) :
    (parseCsv (copyText true o force rows) o).map Prod.fst = rows ↔ ReadsBack true o force rows := by
  have hfresh : CsvState.start.Fresh := ⟨rfl, rfl, rfl, rfl, rfl⟩
  have hmarks : (∀ row ∈ rows, ¬MarksEnd o force row) ↔
      ∀ row ∈ rows, endsData (copyTextRow true o force row) = false :=
    forall₂_congr fun row hrow => by rw [← marksEnd_iff hv force (hne row hrow), Bool.not_eq_true]
  show (csvLoop o .start _).map Prod.fst = rows ↔ _
  simp only [ReadsBack, if_true]
  rw [hmarks]
  by_cases hquote : o.quote = '\n'
  · have hlen := length_csvLoop hquote .start (copyText true o force rows)
    match rows with
    | [] => exact iff_of_true rfl ⟨fun _ h => absurd h List.not_mem_nil, fun _ => by simp⟩
    | [row] =>
      have htext : copyText true o force [row] = copyTextRow true o force row := List.append_nil _
      rw [htext]
      cases hend : endsData (copyTextRow true o force row) with
      | true =>
        rw [csvLoop_stops hfresh hend]
        exact iff_of_false (fun h => by cases h) fun h => by simp [hend] at h
      | false =>
        rw [csvLoop_line_feed hv hquote force (hne row List.mem_cons_self) hend]
        simp [hend, hquote]
    | a :: b :: rows =>
      refine iff_of_false (fun h => ?_) fun h => by simpa using (h.2 hquote).1
      have hcount := congrArg List.length h
      rw [List.length_map] at hcount
      rw [hcount] at hlen
      simp [CsvState.start] at hlen
  · obtain ⟨hall, hsome⟩ := csvLoop_rows hv hquote force hne hfresh
    constructor
    · intro h
      refine ⟨fun row hrow => ?_, fun hq => absurd hq hquote⟩
      cases hend : endsData (copyTextRow true o force row) with
      | false => rfl
      | true =>
        have hlt := hsome ⟨row, hrow, hend⟩
        have hlen := congrArg List.length h
        rw [List.length_map] at hlen
        have hstart : CsvState.start.rows.length = 0 := rfl
        omega
    · rintro ⟨h, -⟩
      exact hall h

/-- COPY's output reads back, in either format, exactly where `ReadsBack` holds. -/
theorem parse_copyText_iff {csv : Bool} (hv : o.Valid csv) (force : List Bool) {rows : List (List Field)}
    (hne : ∀ row ∈ rows, row ≠ [])
    (hnull : csv = false → ∀ row ∈ rows, ∀ text, some text ∈ row → escapeText o.delimiter text ≠ o.null)
    {notNull null : List Bool} (hn : ∀ b ∈ notNull, b = false) (hf : ∀ b ∈ null, b = false) :
    parse (copyText csv o force rows) csv o notNull null = rows ↔ ReadsBack csv o force rows := by
  unfold parse parseLines
  cases csv with
  | false => exact parseText_iff hv force hne (hnull rfl)
  | true =>
    rw [← parseCsv_iff hv force hne]
    simp only [if_true, List.map_map, Function.comp_def, applyForce_none hn hf]

/-- For the options that COPY accepts and rows of as many columns each: the lines written read back as the rows
    exactly where `ReadsBack` holds. -/
theorem copy_reads_back_iff {g : Given} {isFrom : Bool} {columns : List String}
    {relation : Option (String × List String)} {p : Parsed} (hp : process g isFrom columns relation = .ok p)
    (hformat : p.format ≠ .binary) {n : ℕ} (hcolumns : 0 < n) {rows : List (List Field)}
    (hrows : ∀ row ∈ rows, row.length = n)
    (hnull : p.format = .text → ∀ row ∈ rows, ∀ text, some text ∈ row →
      escapeText p.options.delimiter text ≠ p.options.null)
    (force : List Bool) {notNull null : List Bool} (hn : ∀ b ∈ notNull, b = false) (hf : ∀ b ∈ null, b = false) :
    parse (copyText (p.format == .csv) p.options force rows) (p.format == .csv) p.options notNull null = rows ↔
      ReadsBack (p.format == .csv) p.options force rows := by
  refine parse_copyText_iff (process_valid hp) force (fun row hrow heq => ?_) (fun hcsv => hnull ?_) hn hf
  · have hlen := hrows row hrow
    rw [heq, List.length_nil] at hlen
    omega
  · cases hcase : p.format with
    | text => rfl
    | csv => simp [hcase] at hcsv
    | binary => exact absurd hcase hformat

/-- No option given. -/
def noOptions : Given :=
  ⟨none, none, none, none, none, none, none, none, none, none, none⟩

/-- The text format's defaults. -/
def textDefaults : CopyOptions := ⟨'\t', ['\\', 'N'], '"', '"', .none, [], [], false, none⟩

theorem process_noOptions : process noOptions false [] none = .ok ⟨.text, false, textDefaults⟩ := rfl

theorem copy_reads_back_pair :
    parse (copyText false textDefaults [] [[some ['a'], none]]) false textDefaults [] [] = [[some ['a'], none]] := by
  refine (copy_reads_back_iff process_noOptions (by decide) (n := 2) (by decide) (by simp) ?_ [] (by simp)
    (by simp)).mpr ?_
  · intro _ row hrow text htext
    obtain rfl := List.mem_singleton.mp hrow
    simp only [List.mem_cons, Option.some.injEq, List.not_mem_nil, or_false, reduceCtorEq] at htext
    subst htext
    decide
  · intro row hrow
    obtain rfl := List.mem_singleton.mp hrow
    exact ⟨by simp [Vanishes], fun h => absurd h.1 (by decide)⟩

/-- A row of one empty text field is written as an empty line, and lost. -/
theorem copy_empty_text_lost :
    ∃ p rows, process noOptions false [] none = .ok p ∧ p.format = .text ∧ (∀ row ∈ rows, row.length = 1) ∧
      (∀ row ∈ rows, ∀ text, some text ∈ row → escapeText p.options.delimiter text ≠ p.options.null) ∧
      parse (copyText false p.options [] rows) false p.options [] [] ≠ rows := by
  refine ⟨_, [[some []]], process_noOptions, rfl, by simp, ?_, by decide⟩
  intro row hrow text htext
  obtain rfl := List.mem_singleton.mp hrow
  obtain rfl := Option.some.inj (List.mem_singleton.mp htext)
  decide

end Secantus.Copy
