/-
  The cross-type comparator (`order.rs`).

  `cmp` orders any two values: type rank, then the value within its type; documents by
  element (type rank, field name, value) and arrays element by element. It runs under a
  `BinDataOrder` and without a collation. `bsonLt` is the `<` the matcher's range
  operators use on documents and arrays; it ranks a symbol with the strings and
  `undefined` with null, and declines (`none`) what it cannot order.
-/
import Secantus.Bson.Numeric
import Mathlib.Data.List.Sort
import Mathlib.Data.List.Destutter

namespace Secantus.BsonOrder

open Secantus Bson

/-- `BinDataOrder`: the order of BinData values on a thread. -/
inductive BinDataOrder where
  | mongod
  | bytes
  | format4
  deriving DecidableEq, Repr

def typeRank (v : Bson) : UInt8 :=
  match asRawText v with
  | some (t, _) =>
    match t with
    | .regex => 120
    | .dbPointer => 122
    | .javaScript => 125
    | .symbol => 40
    | .javaScriptScope => 127
  | none =>
    if (asInvalidUtf8 v).isSome then 40
    else
      match v with
      | .minKey => 10
      | .undefined => 15
      | .null => 20
      | .int32 _ | .int64 _ | .double _ | .decimal128 _ => 30
      | .string _ => 40
      | .document _ => 50
      | .array _ => 60
      | .binary _ => 70
      | .objectId _ => 80
      | .boolean _ => 90
      | .dateTime _ => 100
      | .timestamp _ => 110
      | .regularExpression _ => 120
      | .javaScriptCode _ => 125
      | .javaScriptCodeWithScope _ _ => 127
      | .maxKey => 130
      | _ => 50

/-- `bindata_cmp`: length, subtype, bytes; or bytes, subtype. -/
def bindataCmp (o : BinDataOrder) (x y : Binary) : Ordering :=
  match o with
  | .mongod | .format4 =>
    (compare x.bytes.length y.bytes.length).then
      ((compare x.subtype y.subtype).then (compare x.bytes y.bytes))
  | .bytes => (compare x.bytes y.bytes).then (compare x.subtype y.subtype)

/-- The options of `regex_sort_key`: sorted, without repetitions. -/
def sortedOptions (options : String) : String :=
  String.ofList ((options.toList.insertionSort (· ≤ ·)).destutter (· ≠ ·))

/-- `regex_sort_key`: the pattern and the sorted options. -/
def regexSortKey (r : Regex) : Bytes × Bytes := (utf8 r.pattern, utf8 (sortedOptions r.options))

def regexCmp (x y : Regex) : Ordering :=
  (compare (regexSortKey x).1 (regexSortKey y).1).then
    (compare (regexSortKey x).2 (regexSortKey y).2)

/-- `raw_text_cmp`: two values of one rank of which one is a raw text carrier. -/
def rawTextCmp (a b : Bson) : Option Ordering :=
  if (asRawText a).isNone && (asRawText b).isNone then none
  else do
    let x ← textOf a
    let y ← textOf b
    pure (compare x y)

/-- The numeric arm of `cmp`, and its last resort: NaN below every number, then the fast
    path, then the digits; two values that are no numbers are equal. -/
def numberCmp (a b : Bson) : Ordering :=
  if Numeric.isNanBson a || Numeric.isNanBson b then
    match Numeric.isNanBson a, Numeric.isNanBson b with
    | true, true => .eq
    | true, false => .lt
    | _, _ => .gt
  else
    match Numeric.fastCmp a b with
    | some r => r.getD .eq
    | none =>
      match Numeric.classify a, Numeric.classify b with
      | some x, some y => (Numeric.cmp x y).getD .eq
      | _, _ => .eq

mutual

/-- `cmp`, with the rank a document compares its elements' types by as a parameter. -/
def cmpBy (rank : Bson → UInt8) (o : BinDataOrder) (a b : Bson) : Ordering :=
  if typeRank a ≠ typeRank b then compare (typeRank a) (typeRank b)
  else
    match carrierPair a b with
    | some (x, y) => compare x y
    | none =>
      match rawTextCmp a b with
      | some r => r
      | none =>
        match a, b with
        | .null, _ | .minKey, _ | .maxKey, _ => .eq
        | .string x, .string y => compare (utf8 x) (utf8 y)
        | .boolean x, .boolean y => compare x y
        | .dateTime x, .dateTime y => compare x.toInt y.toInt
        | .timestamp x, .timestamp y =>
          (compare x.time.toNat y.time.toNat).then (compare x.increment.toNat y.increment.toNat)
        | .objectId x, .objectId y => compare x.bytes y.bytes
        | .binary x, .binary y => bindataCmp o x y
        | .regularExpression x, .regularExpression y => regexCmp x y
        | .document x, .document y => docCmpBy rank o x y
        | .array x, .array y => arrayCmpBy rank o x y
        | .javaScriptCode x, .javaScriptCode y => compare (utf8 x) (utf8 y)
        | .javaScriptCodeWithScope x s, .javaScriptCodeWithScope y t =>
          (compare (utf8 x) (utf8 y)).then (docCmpBy rank o s t)
        | a, b => numberCmp a b

/-- `doc_cmp`: type rank, field name, value; then the shorter document first. -/
def docCmpBy (rank : Bson → UInt8) (o : BinDataOrder) : Document → Document → Ordering
  | [], [] => .eq
  | [], _ :: _ => .lt
  | _ :: _, [] => .gt
  | (ak, av) :: as, (bk, bv) :: bs =>
    (compare (rank av) (rank bv)).then
      ((compare (utf8 ak) (utf8 bk)).then ((cmpBy rank o av bv).then (docCmpBy rank o as bs)))

/-- `array_cmp`: element by element, the shorter array first. -/
def arrayCmpBy (rank : Bson → UInt8) (o : BinDataOrder) : List Bson → List Bson → Ordering
  | [], [] => .eq
  | [], _ :: _ => .lt
  | _ :: _, [] => .gt
  | av :: as, bv :: bs => (cmpBy rank o av bv).then (arrayCmpBy rank o as bs)

end

/-- `cmp`: documents compare their elements' types by `type_rank`. -/
def cmp (o : BinDataOrder) (a b : Bson) : Ordering := cmpBy typeRank o a b

def docCmp (o : BinDataOrder) (a b : Document) : Ordering := docCmpBy typeRank o a b

def arrayCmp (o : BinDataOrder) (a b : List Bson) : Ordering := arrayCmpBy typeRank o a b

mutual

/-- `is_comparable`, which is also `is_sortable`. -/
def isComparable : Bson → Bool
  | .dbPointer _ _ => false
  | .document d => isComparableDoc d
  | .array a => isComparableList a
  | _ => true

def isComparableDoc : Document → Bool
  | [] => true
  | (_, v) :: d => isComparable v && isComparableDoc d

def isComparableList : List Bson → Bool
  | [] => true
  | v :: a => isComparable v && isComparableList a

end

def isSortable (v : Bson) : Bool := isComparable v

end Secantus.BsonOrder
