/-
  The byte-sortable encoding of values (`sortkey.rs`), entry format 6, without a collation.

  A key is the value's rank byte, then bytes that order values of that rank. Strings are
  NUL-escaped; numbers are sign, biased exponent and digit pairs; documents and arrays are
  their elements, each closed by `00 00`, and an end byte below every rank.
-/
import Secantus.BsonOrder.Compare
import Secantus.Library.ByteOrder

namespace Secantus.SortKey

open Secantus Bson BsonOrder
open ByteOrder (beBytes)

def rankMinKey : UInt8 := 1
def rankNull : UInt8 := 2
def rankNumber : UInt8 := 3
def rankString : UInt8 := 4
def rankDocument : UInt8 := 5
def rankArray : UInt8 := 6
def rankBinData : UInt8 := 7
def rankObjectId : UInt8 := 8
def rankBool : UInt8 := 9
def rankDate : UInt8 := 10
def rankTimestamp : UInt8 := 11
def rankRegex : UInt8 := 12
def rankJavaScript : UInt8 := 13
def rankJavaScriptScope : UInt8 := 14
def rankMaxKey : UInt8 := 15
def format4RankMaxKey : UInt8 := 14

def numNan : UInt8 := 0x00
def numNegInf : UInt8 := 0x20
def numNeg : UInt8 := 0x41
def numZero : UInt8 := 0x80
def numPos : UInt8 := 0xC1
def numPosInf : UInt8 := 0xFF

/-- `COMPOUND_SEP`. -/
def compoundSep : Bytes := [0x00, 0x00]

/-- `UNDEFINED_TAIL`. -/
def undefinedTail : UInt8 := 0x80

/-- `DESC_END`. -/
def descEnd : Bytes := [0xFF, 0xFF]

/-- `ELEMENTS_END`. -/
def elementsEnd : UInt8 := 0x00

/-- `UnsupportedValue`: "a DBPointer", or the value's debug text. -/
inductive UnsupportedValue where
  | aDbPointer
  | value (v : Bson)

/-- `escape`: `00` becomes `00 ff`. -/
def escape (data : Bytes) : Bytes := ByteOrder.escape 0x00 0xFF data

/-! ## Numbers -/

structure DecimalParts where
  sign : ℤ
  digits : List ℕ
  exp : ℤ

/-- `parse_decimal_str`: `None` for zero and for anything that is no number. -/
def parseDecimalStr (s : Text) : Option DecimalParts := do
  let (sign, rest) := signRest (trimText s)
  let (mantissa, expExtra) ←
    match splitOnce isE rest with
    | some (m, e) => (parseI64 e).map fun x => (m, x)
    | none => some (rest, 0)
  let (intPart, fracPart) := (splitOnce isPoint mantissa).getD (mantissa, [])
  let digits ← (intPart ++ fracPart).mapM toDigit
  let (digits, exp) := normalize digits (expExtra - fracPart.length)
  if digits = [] then none else some ⟨sign, digits, exp⟩

def partsFromInt (n : ℤ) : Option DecimalParts :=
  if n = 0 then none
  else
    let sign := if n < 0 then -1 else 1
    let (digits, exp) := normalize (decimalDigits n.natAbs) 0
    some ⟨sign, digits, exp⟩

/-- The digits two to a byte, an odd last one padded with zero: `pair + 1`. -/
def digitPairs : List ℕ → List ℕ
  | [] => []
  | [d] => [d * 10 + 1]
  | d :: d' :: ds => (d * 10 + d' + 1) :: digitPairs ds

/-- `encode_number_from_parts`: sign, exponent, digit pairs, terminator. -/
def encodeNumberFromParts (p : DecimalParts) : Bytes :=
  let sciExp := p.exp + p.digits.length - 1
  let biased := (max 0 (min (0x8000 + sciExp) 0xFFFF)).toNat
  let e := if p.sign < 0 then 0xFFFF - biased else biased
  [if 0 < p.sign then numPos else numNeg] ++ beBytes 2 e ++
    (digitPairs p.digits).map (fun b => UInt8.ofNat (if p.sign < 0 then 0x64 - b else b)) ++
    [if 0 < p.sign then 0x00 else 0xFF]

def encodeNumber (b : Bson) : Bytes :=
  let finish (parts : Option DecimalParts) : Bytes :=
    match parts with
    | none => [numZero]
    | some p => encodeNumberFromParts p
  match b with
  | .int32 n => finish (partsFromInt n.toInt)
  | .int64 n => finish (partsFromInt n.toInt)
  | .double d =>
    if d.isNan then [numNan]
    else if d.isInfinite then [if d.negative then numNegInf else numPosInf]
    else if d.scaled = 0 then finish none
    else
      let (sign, digits, exp) := exactF64Parts d
      finish (some ⟨sign, digits, exp⟩)
  | .decimal128 d =>
    let s := d.toText
    let low := s.map Char.toLower
    if contains low ['n', 'a', 'n'] then [numNan]
    else if contains low ['i', 'n', 'f'] then
      [if s.head? = some '-' then numNegInf else numPosInf]
    else finish (parseDecimalStr s)
  | _ => []

/-! ## Values -/

/-- `signed_int64_sortable`: the sign bit flipped, big-endian. -/
def signedInt64Sortable (n : Int64) : Bytes := beBytes 8 (n.toInt + 2 ^ 63).toNat

/-- `element_value`: the rank, and the rest of the key escaped and closed. -/
def elementValue (key : Bytes) : UInt8 × Bytes :=
  (key.headD 0, escape key.tail ++ compoundSep)

/-- The key of BinData in a thread's order. -/
def encodeBinary (o : BinDataOrder) (b : Binary) : Bytes :=
  match o with
  | .mongod => beBytes 4 b.bytes.length ++ [b.subtype] ++ escape b.bytes
  | .format4 => beBytes 4 b.bytes.length ++ escape b.bytes
  | .bytes => escape b.bytes ++ compoundSep ++ [b.subtype]

mutual

def encodeValue (o : BinDataOrder) (v : Bson) : Except UnsupportedValue Bytes :=
  match asRawText v with
  | some (t, raw) =>
    match t with
    | .regex => .ok (rankRegex :: escape (rawTextBytes t raw))
    | .javaScript => .ok (rankJavaScript :: escape (rawTextBytes t raw))
    | .symbol => .ok (rankString :: escape (rawTextBytes t raw))
    | .javaScriptScope => .ok (rankJavaScriptScope :: escape (rawTextBytes t raw))
    | .dbPointer => .error .aDbPointer
  | none =>
    match asInvalidUtf8 v with
    | some bytes => .ok (rankString :: escape bytes)
    | none =>
      match v with
      | .minKey => .ok [rankMinKey]
      | .undefined => .ok [rankMinKey, undefinedTail]
      | .null => .ok [rankNull]
      | .maxKey => .ok [if o = .format4 then format4RankMaxKey else rankMaxKey]
      | .int32 n => .ok (rankNumber :: encodeNumber (.int32 n))
      | .int64 n => .ok (rankNumber :: encodeNumber (.int64 n))
      | .double d => .ok (rankNumber :: encodeNumber (.double d))
      | .decimal128 d => .ok (rankNumber :: encodeNumber (.decimal128 d))
      | .string s => .ok (rankString :: escape (utf8 s))
      | .javaScriptCode s => .ok (rankJavaScript :: escape (utf8 s))
      | .javaScriptCodeWithScope code scope =>
        if o = .format4 then .ok (rankJavaScript :: escape (utf8 code))
        else do
          let doc ← encodeDoc o scope
          .ok (rankJavaScriptScope :: (escape (utf8 code) ++ compoundSep ++ doc))
      | .document d => do
        let doc ← encodeDoc o d
        .ok (rankDocument :: doc)
      | .array a => do
        let arr ← encodeArray o a
        .ok (rankArray :: arr)
      | .binary b => .ok (rankBinData :: encodeBinary o b)
      | .objectId oid => .ok (rankObjectId :: oid.bytes)
      | .boolean b => .ok [rankBool, if b then 1 else 0]
      | .dateTime n => .ok (rankDate :: signedInt64Sortable n)
      | .timestamp t => .ok (rankTimestamp :: (beBytes 4 t.time.toNat ++ beBytes 4 t.increment.toNat))
      | .regularExpression r =>
        .ok (rankRegex :: (escape (utf8 r.pattern) ++ compoundSep ++ escape (regexSortKey r).2))
      | other => .error (.value other)

/-- `encode_doc`: rank, name, value of each element, then the end. -/
def encodeDoc (o : BinDataOrder) : Document → Except UnsupportedValue Bytes
  | [] => .ok [elementsEnd]
  | (name, v) :: d => do
    let (rank, rest) := elementValue (← encodeValue o v)
    let tail ← encodeDoc o d
    .ok (rank :: (escape (utf8 name) ++ compoundSep ++ rest ++ tail))

/-- `encode_array`: the elements as in a document, without names. -/
def encodeArray (o : BinDataOrder) : List Bson → Except UnsupportedValue Bytes
  | [] => .ok [elementsEnd]
  | v :: a => do
    let (rank, rest) := elementValue (← encodeValue o v)
    let tail ← encodeArray o a
    .ok (rank :: (rest ++ tail))

end

def invertBytes (b : Bytes) : Bytes := b.map (· ^^^ 0xFF)

/-- The direction of an index field: `1` or `-1`. -/
inductive Direction where
  | ascending
  | descending
  deriving DecidableEq, Repr

/-- The key an index field holds for a key: a descending one inverted and closed. -/
def directed (key : Bytes) : Direction → Bytes
  | .ascending => key
  | .descending => invertBytes key ++ descEnd

def encodeValueDirected (o : BinDataOrder) (v : Bson) (direction : Direction) :
    Except UnsupportedValue Bytes := do
  let e ← encodeValue o v
  .ok (directed e direction)

end Secantus.SortKey
