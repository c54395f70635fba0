/-
  BSON values as the server holds them (`bson::Bson`).

  A document is the list of its fields in insertion order. Field names and strings are
  UTF-8 text; a string or a text-carrying value whose bytes are not UTF-8 is a CARRIER
  document (below). A double is its 64 bits and a decimal its 16 bytes, read as a sign,
  coefficient and exponent, so every comparison below is on exact values.

  Strings and text-carrying values whose bytes are not UTF-8 (`bsondoc.rs`).

  Such a value is held as a carrier: a one-field document whose key no client can send,
  with the raw bytes as generic binary data. Code that reads or compares strings asks
  `strBytes`, `asRawText` and `textOf` for the bytes of either form.
-/
import Mathlib.Data.Nat.Digits.Defs
import Mathlib.Data.Rat.Defs

namespace Secantus

/-- A byte string, compared letter by letter, a shorter prefix first. -/
abbrev Bytes := List UInt8

/-- The bytes of a Rust `str`. -/
def utf8 (s : String) : Bytes := s.toByteArray.data.toList

/-! ## Scalars -/

/-- An IEEE 754 binary64, by its bits. -/
structure F64 where
  bits : UInt64
  deriving DecidableEq, Repr

namespace F64

def negative (d : F64) : Bool := d.bits >>> 63 == 1

/-- The exponent field. -/
def rawExp (d : F64) : Nat := ((d.bits >>> 52) &&& 0x7FF).toNat

/-- The fraction field. -/
def frac (d : F64) : Nat := (d.bits &&& 0xFFFFFFFFFFFFF).toNat

def isNan (d : F64) : Bool := d.rawExp == 0x7FF && d.frac != 0

def isInfinite (d : F64) : Bool := d.rawExp == 0x7FF && d.frac == 0

def isFinite (d : F64) : Bool := d.rawExp != 0x7FF

/-- A finite double's significand and binary exponent: `|d| = m · 2^e`. -/
def significand (d : F64) : Nat × Int :=
  if d.rawExp = 0 then (d.frac, -1074) else (d.frac + 2 ^ 52, (d.rawExp : Int) - 1075)

/-- A finite double in units of `2^-1074`, the smallest positive one. -/
def scaled (d : F64) : Int :=
  let m : Int := d.significand.1 * 2 ^ (d.significand.2 + 1074).toNat
  if d.negative then -m else m

def posInf : F64 := ⟨0x7FF0000000000000⟩

def negInf : F64 := ⟨0xFFF0000000000000⟩

def nan : F64 := ⟨0x7FF8000000000000⟩

/-- IEEE comparison: `none` when a NaN is involved. -/
def partialCmp (x y : F64) : Option Ordering :=
  if x.isNan || y.isNan then none
  else if x.isInfinite || y.isInfinite then
    let side (d : F64) : Int := if d.isInfinite then (if d.negative then -1 else 1) else 0
    some (compare (side x) (side y))
  else some (compare x.scaled y.scaled)

/-- IEEE `==`. -/
def eqv (x y : F64) : Bool := x.partialCmp y == some .eq

end F64

/-- What an IEEE 754 decimal128 stands for: a NaN, an infinity, or `coeff · 10^exp` with at most 34
    digits, the exponent biased. -/
inductive DecimalValue where
  | nan
  | inf (negative : Bool)
  | finite (negative : Bool) (coeff : Fin (10 ^ 34)) (exp : Fin 12288)
  deriving DecidableEq

/-- `bson::Decimal128`: its 16 bytes, little-endian. -/
structure Decimal128 where
  bytes : Bytes
  size_eq : bytes.length = 16
  deriving DecidableEq

/-- The number little-endian bytes stand for. -/
def ofLeBytes : Bytes → ℕ
  | [] => 0
  | b :: bs => b.toNat + 256 * ofLeBytes bs

/-- The value of an encoding: a sign bit, five combination bits, and the exponent and coefficient
    they tell where to read. A coefficient that does not fit 34 digits is zero. -/
def Decimal128.value (d : Decimal128) : DecimalValue :=
  let n := ofLeBytes d.bytes
  let negative := n / 2 ^ 127 % 2 == 1
  let combination := n / 2 ^ 122 % 32
  if combination = 31 then .nan
  else if combination = 30 then .inf negative
  else if 24 ≤ combination then .finite negative 0 (Fin.ofNat 12288 (n / 2 ^ 111 % 2 ^ 14))
  else
    let coeff := if n % 2 ^ 113 < 10 ^ 34 then n % 2 ^ 113 else 0
    .finite negative (Fin.ofNat (10 ^ 34) coeff) (Fin.ofNat 12288 (n / 2 ^ 113 % 2 ^ 14))

/-- `bson::Binary`. A BSON length is a nonnegative `i32`. -/
structure Binary where
  subtype : UInt8
  bytes : Bytes
  size_lt : bytes.length < 2 ^ 31
  deriving DecidableEq

/-- `bson::oid::ObjectId`. -/
structure ObjectId where
  bytes : Bytes
  size_eq : bytes.length = 12
  deriving DecidableEq

/-- `bson::Timestamp`. -/
structure Timestamp where
  time : UInt32
  increment : UInt32
  deriving DecidableEq, Repr

/-- `bson::Regex`. -/
structure Regex where
  pattern : String
  options : String
  deriving DecidableEq, Repr

/-! ## Values -/

/-- `bson::Bson`; a document is its fields in order. -/
inductive Bson where
  | double (d : F64)
  | string (s : String)
  | document (d : List (String × Bson))
  | array (a : List Bson)
  | binary (b : Binary)
  | undefined
  | objectId (oid : ObjectId)
  | boolean (b : Bool)
  | dateTime (millis : Int64)
  | null
  | regularExpression (r : Regex)
  | dbPointer (ns : String) (id : ObjectId)
  | javaScriptCode (code : String)
  | symbol (s : String)
  | javaScriptCodeWithScope (code : String) (scope : List (String × Bson))
  | int32 (n : Int32)
  | timestamp (t : Timestamp)
  | int64 (n : Int64)
  | decimal128 (d : Decimal128)
  | minKey
  | maxKey

/-- `bson::Document`. -/
abbrev Document := List (String × Bson)

end Secantus

namespace Secantus.Bson

/-! ## Carriers -/

/-- The types of `0x0B..=0x0F` that carry text other than a string. -/
inductive RawType where
  | regex
  | dbPointer
  | javaScript
  | symbol
  | javaScriptScope
  deriving DecidableEq, Repr

/-- The carrier key of a type: a NUL and the type byte in hex. -/
def RawType.key : RawType → String
  | .regex => "\x000b"
  | .dbPointer => "\x000c"
  | .javaScript => "\x000d"
  | .symbol => "\x000e"
  | .javaScriptScope => "\x000f"

def RawType.ofKey (k : String) : Option RawType :=
  [RawType.regex, .dbPointer, .javaScript, .symbol, .javaScriptScope].find? (·.key = k)

/-- `INVALID_UTF8_KEY`. -/
def invalidUtf8Key : String := "\x00"

def rawText (t : RawType) (b : Binary) : Bson := .document [(t.key, .binary { b with subtype := 0 })]

/-- `as_raw_text`: the type and raw value bytes of a text carrier. -/
def asRawText : Bson → Option (RawType × Bytes)
  | .document [(k, .binary b)] =>
    if b.subtype = 0 then (RawType.ofKey k).map fun t => (t, b.bytes) else none
  | _ => none

/-- `raw_text_bytes`: the text a carrier compares by. -/
def rawTextBytes (t : RawType) (value : Bytes) : Bytes :=
  match t with
  | .javaScript | .symbol =>
    if 5 ≤ value.length then (value.drop 4).take (value.length - 5) else value
  | _ => value

def invalidUtf8 (b : Binary) : Bson := .document [(invalidUtf8Key, .binary { b with subtype := 0 })]

def carrierBytes : Document → Option Bytes
  | [(k, .binary b)] => if k = invalidUtf8Key ∧ b.subtype = 0 then some b.bytes else none
  | _ => none

/-- `as_invalid_utf8`: the bytes of an invalid-UTF-8 string's carrier. -/
def asInvalidUtf8 : Bson → Option Bytes
  | .document d => carrierBytes d
  | _ => none

/-- `str_bytes`: the bytes of a string of either form. -/
def strBytes : Bson → Option Bytes
  | .string s => some (utf8 s)
  | v => asInvalidUtf8 v

/-- `carrier_pair`: the bytes of two strings of which at least one is not UTF-8. -/
def carrierPair (a b : Bson) : Option (Bytes × Bytes) :=
  match a, b with
  | .string _, .string _ => none
  | a, b => do
    let x ← strBytes a
    let y ← strBytes b
    pure (x, y)

/-- `order::text_of`: the text of a raw value, or of the plain value it is compared with. -/
def textOf (v : Bson) : Option Bytes :=
  match asRawText v with
  | some (t, raw) => some (rawTextBytes t raw)
  | none =>
    match v with
    | .javaScriptCode s | .symbol s => some (utf8 s)
    | .javaScriptCodeWithScope code _ => some (utf8 code)
    | .regularExpression r => some (utf8 r.pattern)
    | v => strBytes v

theorem asInvalidUtf8_of_asRawText {v : Bson} {p : RawType × Bytes} (h : asRawText v = some p) :
    asInvalidUtf8 v = none := by
  unfold asRawText at h
  split at h
  · rename_i k b
    split at h
    · simp only [asInvalidUtf8, carrierBytes, ite_eq_right_iff, reduceCtorEq, imp_false, not_and]
      rintro rfl
      exfalso
      revert h
      simp [RawType.ofKey, RawType.key, invalidUtf8Key]
    · cases h
  · cases h

end Secantus.Bson
