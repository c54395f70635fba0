/-
  The options of COPY (secantus-pgplan/src/copy_opts.rs, after PostgreSQL's ProcessCopyOptions).

  `process` makes the checks on the options as they were given, in the source's order and with its SQLSTATEs,
  and fills in the defaults. What it accepts is `CopyOptions.Valid` (`process_valid`): four characters and a
  NULL string that the two formats can tell apart. Reading an option's argument off the syntax tree and the
  check that no option comes twice stay out.
-/
import Secantus.Library.Outcome
import Mathlib.Algebra.Order.Ring.Nat
import Mathlib.Data.List.Basic

namespace Secantus.Copy

/-- The format of the data. -/
inductive CopyFormat
  | text
  | csv
  | binary
  deriving DecidableEq, Repr

/-- FORCE_QUOTE's argument. -/
inductive ForceQuote
  | none
  /-- FORCE_QUOTE *. -/
  | all
  | columns (names : List String)
  deriving DecidableEq, Repr

/-- Every COPY option but FORMAT and HEADER. -/
structure CopyOptions where
  /-- One byte: tab for text, comma for CSV by default. -/
  delimiter : Char
  /-- The NULL string: `\N` for text, the empty string for CSV. -/
  null : List Char
  /-- CSV only: the quote and escape characters. -/
  quote : Char
  escape : Char
  forceQuote : ForceQuote
  forceNotNull : List String
  forceNull : List String
  freeze : Bool
  encoding : Option String
  deriving DecidableEq, Repr

/-- An SQLSTATE and its message. -/
structure Error where
  sqlstate : String
  message : String
  deriving DecidableEq, Repr

def unsupported (m : String) : Error := ⟨"0A000", m⟩

def invalid (m : String) : Error := ⟨"22023", m⟩

/-- The options of a statement, each at most once. -/
structure Given where
  format : Option CopyFormat
  header : Option Bool
  delimiter : Option (List Char)
  null : Option (List Char)
  quote : Option (List Char)
  escape : Option (List Char)
  forceQuote : Option ForceQuote
  forceNotNull : Option (List String)
  forceNull : Option (List String)
  freeze : Option Bool
  encoding : Option String

/-- The format, HEADER, and the rest. -/
structure Parsed where
  format : CopyFormat
  header : Bool
  options : CopyOptions
  deriving DecidableEq, Repr

/-- The length of a string, in bytes. -/
def byteLength (s : List Char) : ℕ := (s.map Char.utf8Size).sum

/-- The first character of a string checked to be one byte long. -/
def one (s : List Char) : Char := s.headD ' '

/-- The delimiters that are unsafe outside CSV. -/
def unsafeDelimiters : List Char := "\\.abcdefghijklmnopqrstuvwxyz0123456789".toList

def check (refused : Bool) (e : Error) : Except Error Unit := if refused then .error e else .ok ()

/-- Each FORCE_* column must be one the COPY reads or writes. -/
def referenced (columns : List String) (relation : Option (String × List String)) (option : String) :
    List String → Except Error Unit
  | [] => .ok ()
  | name :: names => do
    match relation with
    | some (rel, all) =>
      check (!all.contains name) ⟨"42703", s!"column \"{name}\" of relation \"{rel}\" does not exist"⟩
    | none => check (!columns.contains name) ⟨"42703", s!"column \"{name}\" does not exist"⟩
    check (!columns.contains name) ⟨"42P10", s!"{option} column \"{name}\" not referenced by COPY"⟩
    referenced columns relation option names

/-- The columns a FORCE_QUOTE names. -/
def ForceQuote.names : Option ForceQuote → List String
  | some (.columns cols) => cols
  | _ => []

/-- The checks of `process` on the characters and on the NULL string. -/
def checkCharacters (csv binary header : Bool) (g : Given) (delimiter null quote escape : List Char) :
    Except Error Unit := do
  check (byteLength delimiter != 1) (unsupported "COPY delimiter must be a single one-byte character")
  check (delimiter.contains '\r' || delimiter.contains '\n')
    (invalid "COPY delimiter cannot be newline or carriage return")
  check (null.contains '\r' || null.contains '\n')
    (invalid "COPY null representation cannot use newline or carriage return")
  check (!csv && unsafeDelimiters.contains (one delimiter))
    (invalid s!"COPY delimiter cannot be \"{String.ofList delimiter}\"")
  check (binary && header) (unsupported "cannot specify HEADER in BINARY mode")
  check (!csv && g.quote.isSome) (unsupported "COPY quote available only in CSV mode")
  check (csv && byteLength quote != 1) (unsupported "COPY quote must be a single one-byte character")
  check (csv && delimiter == quote) (invalid "COPY delimiter and quote must be different")
  check (!csv && g.escape.isSome) (unsupported "COPY escape available only in CSV mode")
  check (csv && byteLength escape != 1) (unsupported "COPY escape must be a single one-byte character")

/-- `process` checks the FORCE_* options against the format and the direction. -/
def checkForce (csv isFrom : Bool) (g : Given) : Except Error Unit := do
  check (!csv && g.forceQuote.isSome) (unsupported "COPY force quote available only in CSV mode")
  check (g.forceQuote.isSome && isFrom) (unsupported "COPY force quote only available using COPY TO")
  check (!csv && g.forceNotNull.isSome) (unsupported "COPY force not null available only in CSV mode")
  check (g.forceNotNull.isSome && !isFrom) (unsupported "COPY force not null only available using COPY FROM")
  check (!csv && g.forceNull.isSome) (unsupported "COPY force null available only in CSV mode")
  check (g.forceNull.isSome && !isFrom) (unsupported "COPY force null only available using COPY FROM")

/-- `copy_opts::process`, from the options as they were given. -/
def process (g : Given) (isFrom : Bool) (columns : List String) (relation : Option (String × List String)) :
    Except Error Parsed := do
  let format := g.format.getD .text
  let csv := format == .csv
  let binary := format == .binary
  check (binary && g.delimiter.isSome) ⟨"42601", "cannot specify DELIMITER in BINARY mode"⟩
  check (binary && g.null.isSome) ⟨"42601", "cannot specify NULL in BINARY mode"⟩
  let delimiter := g.delimiter.getD (if csv then [','] else ['\t'])
  let null := g.null.getD (if csv then [] else ['\\', 'N'])
  let header := g.header.getD false
  let quote := g.quote.getD ['"']
  let escape := g.escape.getD quote
  checkCharacters csv binary header g delimiter null quote escape
  checkForce csv isFrom g
  check (null.contains (one delimiter)) (unsupported "COPY delimiter must not appear in the NULL specification")
  check (csv && null.contains (one quote))
    (unsupported "CSV quote character must not appear in the NULL specification")
  referenced columns relation "FORCE_QUOTE" (ForceQuote.names g.forceQuote)
  referenced columns relation "FORCE_NOT_NULL" (g.forceNotNull.getD [])
  referenced columns relation "FORCE_NULL" (g.forceNull.getD [])
  return {
    format := format
    header := header
    options := {
      delimiter := one delimiter
      null := null
      quote := one quote
      escape := one escape
      forceQuote := g.forceQuote.getD .none
      forceNotNull := g.forceNotNull.getD []
      forceNull := g.forceNull.getD []
      freeze := g.freeze.getD false
      encoding := g.encoding } }

/-- What the checks leave of the options of a format that is not binary. -/
structure CopyOptions.Valid (csv : Bool) (o : CopyOptions) : Prop where
  delimiter_byte : o.delimiter.toNat < 128
  delimiter_line : o.delimiter ≠ '\r' ∧ o.delimiter ≠ '\n'
  null_line : '\r' ∉ o.null ∧ '\n' ∉ o.null
  delimiter_safe : csv = false → o.delimiter ∉ unsafeDelimiters
  delimiter_quote : csv = true → o.delimiter ≠ o.quote
  null_delimiter : o.delimiter ∉ o.null
  null_quote : csv = true → o.quote ∉ o.null

theorem check_bind {α : Type} {refused : Bool} {e : Error} {f : Unit → Except Error α} {r : α}
    (h : (check refused e >>= f) = .ok r) : refused = false ∧ f () = .ok r := by
  cases refused with
  | true => cases h
  | false => exact ⟨rfl, h⟩

theorem one_of_byteLength {s : List Char} (h : byteLength s = 1) : s = [one s] ∧ (one s).toNat < 128 := by
  have hpos : ∀ c : Char, 0 < c.utf8Size := Char.utf8Size_pos
  cases s with
  | nil => cases h
  | cons c s =>
    cases s with
    | nil =>
      refine ⟨rfl, ?_⟩
      have hone : c.utf8Size = 1 := by simpa [byteLength] using h
      have hle := Char.utf8Size_eq_one_iff.mp hone
      have hle' : c.toNat ≤ 127 := hle
      show c.toNat < 128
      omega
    | cons d s =>
      have hc := hpos c
      have hd := hpos d
      simp only [byteLength, List.map_cons, List.sum_cons] at h
      omega

theorem checkCharacters_ok {csv binary header : Bool} {g : Given} {delimiter null quote escape : List Char}
    (h : checkCharacters csv binary header g delimiter null quote escape = .ok ()) :
    delimiter = [one delimiter] ∧ (one delimiter).toNat < 128 ∧
      (one delimiter ≠ '\r' ∧ one delimiter ≠ '\n') ∧ ('\r' ∉ null ∧ '\n' ∉ null) ∧
      (csv = false → one delimiter ∉ unsafeDelimiters) ∧ (csv = true → one delimiter ≠ one quote) := by
  unfold checkCharacters at h
  obtain ⟨hlen, h⟩ := check_bind h
  obtain ⟨hline, h⟩ := check_bind h
  obtain ⟨hnull, h⟩ := check_bind h
  obtain ⟨hsafe, h⟩ := check_bind h
  obtain ⟨-, h⟩ := check_bind h
  obtain ⟨-, h⟩ := check_bind h
  obtain ⟨hquote, h⟩ := check_bind h
  obtain ⟨hdiff, -⟩ := check_bind h
  have hone : byteLength delimiter = 1 := by simpa using hlen
  obtain ⟨hd, hbyte⟩ := one_of_byteLength hone
  rw [hd] at hline
  refine ⟨hd, hbyte, ?_, ?_, ?_, ?_⟩
  · have hne : '\r' ≠ one delimiter ∧ '\n' ≠ one delimiter := by simpa using hline
    exact ⟨hne.1.symm, hne.2.symm⟩
  · simpa using hnull
  · intro hcsv hmem
    rw [hcsv, List.contains_iff_mem.mpr hmem] at hsafe
    cases hsafe
  · intro hcsv heq
    have hq : byteLength quote = 1 := by simpa [hcsv] using hquote
    obtain ⟨hq, -⟩ := one_of_byteLength hq
    have hsame : delimiter = quote := by rw [hd, hq, heq]
    simp [hcsv, hsame] at hdiff

theorem process_valid {g : Given} {isFrom : Bool} {columns : List String}
    {relation : Option (String × List String)} {p : Parsed} (h : process g isFrom columns relation = .ok p) :
    p.options.Valid (p.format == .csv) := by
  unfold process at h
  obtain ⟨-, h⟩ := check_bind h
  obtain ⟨-, h⟩ := check_bind h
  obtain ⟨u, hchars, h⟩ := Outcome.bind_eq_ok.mp h
  obtain ⟨-, -, h⟩ := Outcome.bind_eq_ok.mp h
  obtain ⟨hnulld, h⟩ := check_bind h
  obtain ⟨hnullq, h⟩ := check_bind h
  obtain ⟨-, -, h⟩ := Outcome.bind_eq_ok.mp h
  obtain ⟨-, -, h⟩ := Outcome.bind_eq_ok.mp h
  obtain ⟨-, -, h⟩ := Outcome.bind_eq_ok.mp h
  obtain ⟨-, hbyte, hline, hnull, hsafe, hdiff⟩ := checkCharacters_ok hchars
  obtain rfl := Except.ok.inj h
  refine ⟨hbyte, hline, hnull, hsafe, hdiff, ?_, ?_⟩
  · simpa using hnulld
  · intro hcsv
    have hcsv' : (g.format.getD .text == CopyFormat.csv) = true := hcsv
    simpa [hcsv'] using hnullq

end Secantus.Copy
