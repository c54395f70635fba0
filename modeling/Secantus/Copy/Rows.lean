/-
  What COPY writes in its text and CSV formats (secantus-pg/src/copy_text.rs, and the row of lib.rs).

  A field is an optional string, a string a list of characters. `writeField` is what `write_field` appends to
  the row; `copyTextRow` puts the delimiters between the fields and ends the line.

  How COPY reads its text and CSV formats (secantus-pg/src/copy_text.rs; `unescape_copy_text` of lib.rs).

  The text format is cut over bytes, as in the source; the CSV reader is its loop over the characters, which
  looks one or two of them ahead.
-/
import Secantus.Copy.Options
import Secantus.Library.Utf8
import Mathlib.Data.List.DropRight

namespace Secantus.Copy

/-! ## Writing -/

/-- A field: `none` for NULL. -/
abbrev Field := Option (List Char)

/-- A character of a text field, escaped. -/
def escapeChar (delimiter c : Char) : List Char :=
  if c = '\x08' then ['\\', 'b']
  else if c = '\x0c' then ['\\', 'f']
  else if c = '\n' then ['\\', 'n']
  else if c = '\r' then ['\\', 'r']
  else if c = '\t' ∧ delimiter ≠ '\t' then ['\\', 't']
  else if c = '\x0b' then ['\\', 'v']
  else if c = '\\' then ['\\', '\\']
  -- The delimiter is backslashed; a control character used as one is too.
  else if c = delimiter then ['\\', if c = '\t' then 't' else c]
  else [c]

def escapeText (delimiter : Char) (text : List Char) : List Char := text.flatMap (escapeChar delimiter)

/-- Whether a CSV field is put in quotes. -/
def useQuote (o : CopyOptions) (force single : Bool) (text : List Char) : Bool :=
  force || text == o.null || (single && text == ['\\', '.']) ||
    text.any fun c => c == o.delimiter || c == o.quote || c == '\n' || c == '\r'

/-- A character of a quoted field. -/
def quoteChar (o : CopyOptions) (c : Char) : List Char :=
  if c = o.quote ∨ c = o.escape then [o.escape, c] else [c]

def quoted (o : CopyOptions) (text : List Char) : List Char :=
  o.quote :: (text.flatMap (quoteChar o) ++ [o.quote])

/-- What `write_field` appends. -/
def writeField (value : Field) (csv : Bool) (o : CopyOptions) (force single : Bool) : List Char :=
  match value with
  | none => o.null
  | some text =>
    if csv then
      if useQuote o force single text then quoted o text else text
    else escapeText o.delimiter text

/-- The fields of a row, with FORCE_QUOTE for each column. -/
def writeFields (csv : Bool) (o : CopyOptions) (single : Bool) : List Bool → List Field → List Char
  | _, [] => []
  | force, [value] => writeField value csv o (force.headD false) single
  | force, value :: rest =>
    writeField value csv o (force.headD false) single ++ o.delimiter :: writeFields csv o single force.tail rest

/-- One row in the text or the CSV format, and the end of its line. -/
def copyTextRow (csv : Bool) (o : CopyOptions) (force : List Bool) (row : List Field) : List Char :=
  writeFields csv o (row.length == 1) force row ++ ['\n']

/-- The lines of the rows. -/
def copyText (csv : Bool) (o : CopyOptions) (force : List Bool) (rows : List (List Field)) : List Char :=
  rows.flatMap (copyTextRow csv o force)

open Library

/-! ## Reading -/

/-- The bytes of a string. -/
def utf8 (s : List Char) : List UInt8 := s.flatMap String.utf8EncodeChar

/-! ## Text -/

/-- The value of an octal digit. -/
def octalValue (b : UInt8) : Option ℕ := if 48 ≤ b ∧ b ≤ 55 then some (b.toNat - 48) else none

/-- Up to `n` digits and what follows them. -/
def readDigits (digit : UInt8 → Option ℕ) (base : ℕ) : ℕ → ℕ → List UInt8 → ℕ × List UInt8
  | 0, val, bs => (val, bs)
  | _ + 1, val, [] => (val, [])
  | n + 1, val, b :: bs =>
    match digit b with
    | some d => readDigits digit base n (val * base + d) bs
    | none => (val, b :: bs)

theorem readDigits_length (digit : UInt8 → Option ℕ) (base n val : ℕ) (bs : List UInt8) :
    (readDigits digit base n val bs).2.length ≤ bs.length := by
  induction n generalizing val bs with
  | zero => exact le_rfl
  | succ n ih =>
    cases bs with
    | nil => exact le_rfl
    | cons b bs =>
      unfold readDigits
      split
      · exact (ih _ _).trans (Nat.le_succ _)
      · exact le_rfl

/-- What a backslash and the byte `c` stand for, when it is one letter. -/
def letterEscape (c : UInt8) : Option UInt8 :=
  if c = 98 then some 0x08
  else if c = 102 then some 0x0c
  else if c = 110 then some 0x0a
  else if c = 114 then some 0x0d
  else if c = 116 then some 0x09
  else if c = 118 then some 0x0b
  else none

/-- The bytes of a raw text field, its escapes read. -/
def unescapeBytes : List UInt8 → List UInt8
  | [] => []
  | b :: rest =>
    if b ≠ 92 then b :: unescapeBytes rest
    else
      match rest with
      | [] => [92]
      | c :: rest =>
        match letterEscape c with
        | some byte => byte :: unescapeBytes rest
        | none =>
          match octalValue c with
          | some d =>
            let octal := readDigits octalValue 8 2 d rest
            UInt8.ofNat (octal.1 % 256) :: unescapeBytes octal.2
          | none =>
            if c = 120 ∧ (rest.head?.bind hexValue).isSome then
              let hexed := readDigits hexValue 16 2 0 rest
              UInt8.ofNat (hexed.1 % 256) :: unescapeBytes hexed.2
            else c :: unescapeBytes rest
termination_by bs => bs.length
decreasing_by
  all_goals
    try have hoctal := readDigits_length octalValue 8 2 d rest
    try have hhex := readDigits_length hexValue 16 2 0 rest
    simp only [List.length_cons]
    omega

def unescapeCopyText (raw : List UInt8) : List Char := fromUtf8Lossy (unescapeBytes raw)

/-- The raw fields of a line. A backslash takes the next byte with it, the delimiter included. -/
def cutFields (delim : UInt8) : List UInt8 → List (List UInt8)
  | [] => [[]]
  | b :: rest =>
    if b = delim then [] :: cutFields delim rest
    else if b = 92 then
      match rest with
      | [] => [[b]]
      | c :: rest => (cutFields delim rest).modifyHead ([b, c] ++ ·)
    else (cutFields delim rest).modifyHead (b :: ·)

/-- The NULL string is matched against the raw field, before its escapes are read. -/
def textField (null : List Char) (raw : List UInt8) : Field :=
  if raw = utf8 null then none else some (unescapeCopyText raw)

/-- A string cut at each line feed. -/
def splitLines : List Char → List (List Char)
  | [] => [[]]
  | c :: rest => if c = '\n' then [] :: splitLines rest else (splitLines rest).modifyHead (c :: ·)

/-- A row, and its line as it arrived. -/
abbrev Row := List Field × List Char

def trimEnd (line : List Char) : List Char := line.rdropWhile (· == '\r')

def parseTextLines (o : CopyOptions) : List (List Char) → List Row
  | [] => []
  | line :: rest =>
    -- A trailing newline leaves an empty final line, and `\.` is the end-of-data marker.
    if line = [] then parseTextLines o rest
    else if line = ['\\', '.'] then []
    else
      ((cutFields (UInt8.ofNat o.delimiter.toNat) (utf8 line)).map (textField o.null), trimEnd line)
        :: parseTextLines o rest

def parseText (text : List Char) (o : CopyOptions) : List Row := parseTextLines o (splitLines text)

/-! ## CSV -/

/-- The variables of the loop; `line` is what it read since the row's start. -/
structure CsvState where
  rows : List Row
  row : List Field
  field : List Char
  inQuote : Bool
  sawQuote : Bool
  lineStart : Bool
  line : List Char

namespace CsvState

def start : CsvState := ⟨[], [], [], false, false, true, []⟩

/-- The value of the field that ends, and the field emptied. -/
def finish (o : CopyOptions) (s : CsvState) : CsvState :=
  { s with
    row := s.row ++ [if !s.sawQuote && s.field == o.null then none else some s.field]
    field := []
    sawQuote := false }

def push (s : CsvState) (c : Char) : CsvState := { s with field := s.field ++ [c] }

/-- The characters `cs` are read. -/
def consume (s : CsvState) (cs : List Char) : CsvState := { s with line := s.line ++ cs }

/-- The row ends; the line's own end is not part of it. -/
def endRow (s : CsvState) : CsvState :=
  { s with rows := s.rows ++ [(s.row, trimEnd s.line)], row := [], line := [], lineStart := true }

/-- What is left at the end of the text, with the characters not read. -/
def close (o : CopyOptions) (s : CsvState) (unread : List Char) : List Row :=
  if !s.field.isEmpty || s.sawQuote || !s.row.isEmpty then
    ((s.finish o).consume unread).endRow.rows
  else s.rows

end CsvState

/-- Inside quotes: the character that this one and the next stand for, when they are an escape. -/
def csvEscaped (o : CopyOptions) (c : Char) (next : Option Char) : Option Char :=
  if c = o.escape ∧ o.escape ≠ o.quote ∧ (next = some o.quote ∨ next = some o.escape) then next
  -- With ESCAPE equal to QUOTE a doubled quote is one quote.
  else if c = o.quote ∧ o.escape = o.quote ∧ next = some o.quote then next
  else none

/-- `\.` alone on an unquoted line ends the data. -/
def endsData : List Char → Bool
  | '\\' :: '.' :: [] => true
  | '\\' :: '.' :: c :: _ => c == '\n' || c == '\r'
  | _ => false

open CsvState in
/-- The loop of `parse_csv` from a state. -/
def csvLoop (o : CopyOptions) : CsvState → List Char → List Row
  | s, [] => s.close o []
  | s, c :: rest =>
    if s.inQuote then
      match csvEscaped o c rest.head?, rest with
      | some e, next :: rest' => csvLoop o ((s.push e).consume [c, next]) rest'
      | _, rest =>
        if c = o.quote then csvLoop o ({ s with inQuote := false }.consume [c]) rest
        else csvLoop o ((s.push c).consume [c]) rest
    else if s.lineStart && endsData (c :: rest) then s.close o (c :: rest)
    else
      let s := { s with lineStart := false }
      if c = o.quote then csvLoop o ({ s with inQuote := true, sawQuote := true }.consume [c]) rest
      else if c = o.delimiter then csvLoop o ((s.finish o).consume [c]) rest
      else if c = '\n' then csvLoop o (s.finish o).endRow rest
      -- `\r\n` ends a line as `\n` does.
      else if c = '\r' then csvLoop o (s.consume [c]) rest
      else csvLoop o ((s.push c).consume [c]) rest

example (o : CopyOptions) (s : CsvState) : csvLoop o s [] = s.close o [] := by rw [csvLoop.eq_def]

def parseCsv (text : List Char) (o : CopyOptions) : List Row := csvLoop o .start text

/-! ## Both -/

/-- FORCE_NOT_NULL and FORCE_NULL, by column position. -/
def applyForce (o : CopyOptions) : List Bool → List Bool → List Field → List Field
  | _, _, [] => []
  | notNull, null, field :: rest =>
    (if field = none ∧ notNull.headD false = true then some o.null
      else if null.headD false = true ∧ field = some o.null then none
      else field) :: applyForce o notNull.tail null.tail rest

def parseLines (text : List Char) (csv : Bool) (o : CopyOptions) (forceNotNull forceNull : List Bool) : List Row :=
  if csv then (parseCsv text o).map fun r => (applyForce o forceNotNull forceNull r.1, r.2)
  else parseText text o

/-- `copy_text::parse`. -/
def parse (text : List Char) (csv : Bool) (o : CopyOptions) (forceNotNull forceNull : List Bool) :
    List (List Field) :=
  (parseLines text csv o forceNotNull forceNull).map Prod.fst

end Secantus.Copy
