/-
  Decoding and encoding documents (bsondoc.rs). The `bson` crate decodes and encodes what is UTF-8; a
  document with a text or a name that is not is read here, element by element, into carriers and escaped
  names, and written back here when the crate refuses a key with a NUL in it.

  The crate is a parameter: `decode` is `RawDocument::from_bytes` and `Document::try_from`, `encode` is
  `Document::to_writer` (and `bson::to_vec`).
-/
import Secantus.Wire.Format
import Secantus.Wire.Names

namespace Secantus.Wire

open Secantus Secantus.Library

/-- The errors of the crate that the code tells apart. -/
inductive CrateError where
  | utf8Encoding
  | invalidCString (key : String)
  | other (text : String)
  deriving DecidableEq

/-- The `bson` crate. -/
structure Crate where
  decode : Bytes → Except CrateError Document
  encode : Document → Except CrateError Bytes

/-- `bsondoc::Error`. -/
inductive Error where
  | malformed (what : String)
  | crate (e : CrateError)
  deriving DecidableEq

/-- `i32::from_le_bytes`. -/
def i32Le (bs : Bytes) : ℤ :=
  let n := ofLeBytes bs
  if n < 2 ^ 31 then n else (n : ℤ) - 2 ^ 32

/-- `rd_len` at the start of `b`. -/
def rdLen (b : Bytes) (min : ℤ) : Except Error ℕ :=
  if b.length < 4 then .error (.malformed "length runs past the end of the document")
  else
    let n := i32Le (b.take 4)
    if n < min then .error (.malformed ("length " ++ toString n ++ " is too small"))
    else .ok n.toNat

theorem length_nil_lt : ([] : Bytes).length < 2 ^ 31 := by decide

/-- Generic binary data of these bytes. They are part of a document, so fewer than `2 ^ 31`. -/
def generic (bytes : Bytes) : Binary :=
  if h : bytes.length < 2 ^ 31 then ⟨0, bytes, h⟩ else ⟨0, [], length_nil_lt⟩

def stringFromBytes (bytes : Bytes) : Bson :=
  match fromUtf8? bytes with
  | some s => .string s
  | none => Bson.invalidUtf8 (generic bytes)

/-- The text types of `0x0B..=0x0F`. -/
def rawType? (t : UInt8) : Option Bson.RawType :=
  if t = 0x0B then some .regex
  else if t = 0x0C then some .dbPointer
  else if t = 0x0D then some .javaScript
  else if t = 0x0E then some .symbol
  else if t = 0x0F then some .javaScriptScope
  else none

/-- The type byte of a raw text. -/
def rawTag : Bson.RawType → UInt8
  | .regex => 0x0B
  | .dbPointer => 0x0C
  | .javaScript => 0x0D
  | .symbol => 0x0E
  | .javaScriptScope => 0x0F

/-! ## Reading -/

/-- How many bytes a value of type `t` at the start of `rest` takes (`read_value`). -/
def valueSize (t : UInt8) (rest : Bytes) : Except Error ℕ :=
  if t = 0x01 ∨ t = 0x09 ∨ t = 0x11 ∨ t = 0x12 then .ok 8
  else if t = 0x02 ∨ t = 0x0D ∨ t = 0x0E then (rdLen rest 1).map (4 + ·)
  else if t = 0x03 ∨ t = 0x04 ∨ t = 0x0F then rdLen rest 5
  else if t = 0x05 then (rdLen rest 0).map (5 + ·)
  else if t = 0x06 ∨ t = 0x0A ∨ t = 0x7F ∨ t = 0xFF then .ok 0
  else if t = 0x07 then .ok 12
  else if t = 0x08 then .ok 1
  else if t = 0x0B then
    match rest.idxOf? 0 with
    | none => .error (.malformed "unterminated regex")
    | some p =>
      match (rest.drop (p + 1)).idxOf? 0 with
      | none => .error (.malformed "unterminated regex options")
      | some o => .ok (p + 1 + o + 1)
  else if t = 0x0C then (rdLen rest 1).map (4 + · + 12)
  else if t = 0x10 then .ok 4
  else if t = 0x13 then .ok 16
  else .error (.malformed ("unknown element type 0x" ++ String.ofList (hex t)))

/-- `single`: a value through the crate, as the one field of a document. -/
def single (C : Crate) (t : UInt8) (v : Bytes) : Except Error Bson :=
  match C.decode (le32 (v.length + 7) ++ (t :: 0 :: (v ++ [0]))) with
  | .error e => .error (.crate e)
  | .ok d =>
    match Document.get d "" with
    | some value => .ok value
    | none => .error (.malformed "value did not decode")

mutual

def readDoc (C : Crate) (b : Bytes) : Except Error Document :=
  match rdLen b 5 with
  | .error e => .error e
  | .ok declared =>
    if declared ≠ b.length ∨ b.getLast? ≠ some 0 then
      .error (.malformed "document length or terminator")
    else readFields C ((b.drop 4).dropLast) []
termination_by (b.length, 2)
decreasing_by
  simp only [Prod.lex_def, List.length_dropLast, List.length_drop]
  omega

/-- The loop of `read_doc` over the bytes left, `out` the fields read. -/
def readFields (C : Crate) (rest : Bytes) (out : Document) : Except Error Document :=
  match _hrest : rest with
  | [] => .ok out
  | t :: rest =>
    match rest.idxOf? 0 with
    | none => .error (.malformed "unterminated key")
    | some n =>
      match readValue C t (rest.drop (n + 1)) with
      | .error e => .error e
      | .ok (value, used) =>
        readFields C ((rest.drop (n + 1)).drop used) (Document.insert out (nameOf (rest.take n)) value)
termination_by (rest.length, 1)
decreasing_by
  all_goals
    simp only [Prod.lex_def, List.length_drop, List.length_cons]
    omega

/-- `read_value`: the value, and how many bytes it took. -/
def readValue (C : Crate) (t : UInt8) (rest : Bytes) : Except Error (Bson × ℕ) :=
  match valueSize t rest with
  | .error e => .error e
  | .ok size =>
    if rest.length < size then .error (.malformed "value runs past the end of the document")
    else
      let v := rest.take size
      let value :=
        if t = 0x02 then
          if v.getLast? ≠ some 0 then .error (.malformed "string is not NUL-terminated")
          else .ok (stringFromBytes ((v.drop 4).dropLast))
        else if t = 0x03 then (readDoc C (rest.take size)).map .document
        else if t = 0x04 then (readDoc C (rest.take size)).map fun d => .array (d.map Prod.snd)
        else
          match rawType? t with
          | some raw =>
            match single C t v with
            | .ok value => .ok value
            | .error _ => .ok (Bson.rawText raw (generic v))
          | none => single C t v
      value.map (·, size)
termination_by (rest.length, 3)
decreasing_by
  all_goals
    simp only [Prod.lex_def, List.length_take]
    omega

end

def fromBytes (C : Crate) (bytes : Bytes) : Except Error Document :=
  let n := i32Le (bytes.take 4)
  let exact :=
    if 4 ≤ bytes.length ∧ 0 ≤ n ∧ n.toNat ≤ bytes.length then bytes.take n.toNat else bytes
  match C.decode exact with
  | .ok d => .ok d
  | .error .utf8Encoding => readDoc C exact
  | .error e => .error (.crate e)

/-! ## Writing -/

/-- The head of an element. -/
def head (t : UInt8) (key : Bytes) : Bytes := t :: (key ++ [0])

mutual

/-- The elements of `write_doc`. -/
def writeFields (C : Crate) : Document → Except CrateError Bytes
  | [] => .ok []
  | (k, v) :: d =>
    match keyBytes k with
    | none => .error (.invalidCString k)
    | some key =>
      match writeElement C key v, writeFields C d with
      | .ok e, .ok rest => .ok (e ++ rest)
      | .error e, _ => .error e
      | _, .error e => .error e

def writeElement (C : Crate) (key : Bytes) (v : Bson) : Except CrateError Bytes :=
  match Bson.asRawText v, Bson.asInvalidUtf8 v with
  | some (t, raw), _ => .ok (head (rawTag t) key ++ raw)
  | none, some bytes => .ok (head 0x02 key ++ textBytes bytes)
  | none, none =>
    match v with
    | .document d => (writeFields C d).map fun body => head 0x03 key ++ framed body
    | .array a => (writeItems C 0 a).map fun body => head 0x04 key ++ framed body
    | .javaScriptCodeWithScope code scope =>
      (writeFields C scope).map fun body =>
        let rest := textBytes (utf8 code) ++ framed body
        head 0x0F key ++ (le32 (rest.length + 4) ++ rest)
    | other =>
      -- the crate's `[len][type]["" NUL][value][NUL]`
      (C.encode [("", other)]).map fun bytes =>
        head (bytes.getD 4 0) key ++ (bytes.drop 6).dropLast

/-- The elements of an array, from position `i`. -/
def writeItems (C : Crate) (i : ℕ) : List Bson → Except CrateError Bytes
  | [] => .ok []
  | v :: a =>
    match writeElement C (utf8 (toString i)) v, writeItems C (i + 1) a with
    | .ok e, .ok rest => .ok (e ++ rest)
    | .error e, _ => .error e
    | _, .error e => .error e

end

def writeDoc (C : Crate) (d : Document) : Except CrateError Bytes := (writeFields C d).map framed

/-- `write`, into a new buffer. -/
def write (C : Crate) (d : Document) : Except CrateError Bytes :=
  match C.encode d with
  | .ok bytes => .ok bytes
  | .error (.invalidCString _) => writeDoc C d
  | .error e => .error e

end Secantus.Wire
