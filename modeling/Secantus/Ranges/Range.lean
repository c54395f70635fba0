/-
  Range and multirange types (range.rs, range_ops.rs of secantus-pgplan) over an element type with a total
  order. What is compared is bounds: a value, whether it is included, and which end of a range it is.

  A bound's text has been cast to its element here, so `compare_bounds` is the order of the elements and does
  not fail. A discrete type has the step to an element's next; the ranges of any other keep the bounds they
  were given.

  Range literals of `int4`, `int8` and `date` (range.rs of secantus-pgplan), whose bounds are the texts of their
  elements: a bound is cast to its element's own text, an exclusive lower bound and an inclusive upper one are
  stepped on by one, and the bounds are cast again to be compared.

  A date that is not written `YYYY-MM-DD` is read by `chrono` or by the general decoder (dtparse.rs), which are
  a `DateReader` here.
-/
import Secantus.Library.Outcome
import Secantus.Library.Places
import Secantus.Library.Calendar
import Secantus.PgNumeric.Compare

namespace Secantus.Ranges

open Secantus.Library

/-- `Error::DataException`. -/
structure DataException where
  message : String
  deriving DecidableEq

structure Range (α : Type*) where
  empty : Bool
  /-- `none` is an infinite bound. -/
  lower : Option α
  upper : Option α
  lowerInc : Bool
  upperInc : Bool
  deriving DecidableEq

structure Bound (α : Type*) where
  val : Option α
  inclusive : Bool
  lower : Bool

/-- What `range_element` says of the elements: the next one, for a discrete type. -/
structure RangeType (α : Type*) where
  step : Option (α → α)

namespace Range

variable {α : Type*}

/-- `Range::empty`. -/
def none : Range α := ⟨true, .none, .none, false, false⟩

def lowerBound (r : Range α) : Bound α := ⟨r.lower, r.lowerInc, true⟩

def upperBound (r : Range α) : Bound α := ⟨r.upper, r.upperInc, false⟩

/-- An infinite bound is exclusive. -/
def excludeInfinite (r : Range α) : Range α :=
  { r with lowerInc := r.lower.isSome && r.lowerInc, upperInc := r.upper.isSome && r.upperInc }

end Range

/-- A discrete range with its lower bound included and its upper one not. -/
def halfOpen {α : Type*} (next : α → α) (r : Range α) : Range α where
  empty := r.empty
  lower := if r.lowerInc then r.lower else r.lower.map next
  upper := if r.upperInc then r.upper.map next else r.upper
  lowerInc := true
  upperInc := false

variable {α : Type*} [LinearOrder α]

/-! ## Bounds -/

/-- `range_cmp_bounds`. -/
def cmp (a b : Bound α) : Ordering :=
  match a.val, b.val with
  | none, none => if a.lower = b.lower then .eq else if a.lower then .lt else .gt
  | none, some _ => if a.lower then .lt else .gt
  | some _, none => if b.lower then .gt else .lt
  | some x, some y =>
    match compare x y with
    | .eq =>
      if !a.inclusive && !b.inclusive then
        if a.lower = b.lower then .eq else if a.lower then .gt else .lt
      else if !a.inclusive then if a.lower then .gt else .lt
      else if !b.inclusive then if b.lower then .lt else .gt
      else .eq
    | r => r

/-- A crossed pair of bounds is an error, and a pair that excludes all is the empty range. -/
def checkBounds (r : Range α) : Except DataException (Range α) :=
  match r.lower, r.upper with
  | some l, some u =>
    match compare l u with
    | .gt => .error ⟨"range lower bound must be less than or equal to range upper bound"⟩
    | .eq => if r.lowerInc && r.upperInc then .ok r else .ok Range.none
    | .lt => .ok r
  | _, _ => .ok r

def canonicalise (t : RangeType α) (r : Range α) : Except DataException (Range α) :=
  if r.empty then .ok r
  else
    match t.step with
    | some next => checkBounds (halfOpen next r).excludeInfinite
    | none => checkBounds r.excludeInfinite

def make (t : RangeType α) (lo hi : Bound α) : Except DataException (Range α) :=
  canonicalise t ⟨false, lo.val, hi.val, lo.inclusive, hi.inclusive⟩

/-! ## Ranges -/

def containsRange (a b : Range α) : Bool :=
  if b.empty then true
  else if a.empty then false
  else (cmp a.lowerBound b.lowerBound).isLE && (cmp a.upperBound b.upperBound).isGE

def containsElem (r : Range α) (v : α) : Bool :=
  if r.empty then false
  else
    (match r.lower with
      | none => true
      | some l =>
        match compare l v with
        | .gt => false
        | .eq => r.lowerInc
        | .lt => true) &&
    (match r.upper with
      | none => true
      | some u =>
        match compare u v with
        | .lt => false
        | .eq => r.upperInc
        | .gt => true)

def overlaps (a b : Range α) : Bool :=
  if a.empty || b.empty then false
  else
    (cmp a.lowerBound b.lowerBound).isGE && (cmp a.lowerBound b.upperBound).isLE ||
      (cmp b.lowerBound a.lowerBound).isGE && (cmp b.lowerBound a.upperBound).isLE

def boundsAdjacent (up lo : Bound α) : Bool :=
  match up.val, lo.val with
  | some x, some y => compare x y = .eq && up.inclusive != lo.inclusive
  | _, _ => false

def adjacent (a b : Range α) : Bool :=
  if a.empty || b.empty then false
  else boundsAdjacent a.upperBound b.lowerBound || boundsAdjacent b.upperBound a.lowerBound

/-- `<<`. -/
def leftOf (a b : Range α) : Bool := !a.empty && !b.empty && (cmp a.upperBound b.lowerBound).isLT

/-- `>>`. -/
def rightOf (a b : Range α) : Bool := !a.empty && !b.empty && (cmp a.lowerBound b.upperBound).isGT

/-- `+`, where `strict`. -/
def union (t : RangeType α) (a b : Range α) (strict : Bool) : Except DataException (Range α) :=
  if a.empty then .ok b
  else if b.empty then .ok a
  else if strict && !overlaps a b && !adjacent a b then
    .error ⟨"result of range union would not be contiguous"⟩
  else
    let lo := if (cmp a.lowerBound b.lowerBound).isLE then a.lowerBound else b.lowerBound
    let hi := if (cmp a.upperBound b.upperBound).isGE then a.upperBound else b.upperBound
    make t lo hi

/-- `*`. -/
def intersect (t : RangeType α) (a b : Range α) : Except DataException (Range α) :=
  if a.empty || b.empty || !overlaps a b then .ok Range.none
  else
    let lo := if (cmp a.lowerBound b.lowerBound).isGE then a.lowerBound else b.lowerBound
    let hi := if (cmp a.upperBound b.upperBound).isLE then a.upperBound else b.upperBound
    make t lo hi

/-- The bound at the same value that begins where this one ends, or ends where it begins. -/
def Bound.flip (b : Bound α) : Bound α := ⟨b.val, !b.inclusive, !b.lower⟩

/-- A piece of a difference, unless it is empty. -/
def piece (t : RangeType α) (lo hi : Bound α) : Except DataException (List (Range α)) := do
  let r ← make t lo hi
  return if r.empty then [] else [r]

/-- What `a` has before `b`. -/
def pieceBefore (t : RangeType α) (a b : Range α) : Except DataException (List (Range α)) :=
  if (cmp a.lowerBound b.lowerBound).isLT then piece t a.lowerBound b.lowerBound.flip else .ok []

/-- What `a` has after `b`. -/
def pieceAfter (t : RangeType α) (a b : Range α) : Except DataException (List (Range α)) :=
  if (cmp a.upperBound b.upperBound).isGT then piece t b.upperBound.flip a.upperBound else .ok []

/-- The pieces that `a - b` leaves. -/
def minusPieces (t : RangeType α) (a b : Range α) : Except DataException (List (Range α)) :=
  if a.empty then .ok []
  else if b.empty || !overlaps a b then .ok [a]
  else do
    let before ← pieceBefore t a b
    let after ← pieceAfter t a b
    return before ++ after

/-! ## Multiranges -/

def lowerBefore (a b : Range α) : Bool :=
  match a.lower, b.lower with
  | none, none => a.lowerInc && !b.lowerInc
  | none, some _ => true
  | some _, none => false
  | some x, some y =>
    match compare x y with
    | .lt => true
    | .gt => false
    | .eq => a.lowerInc && !b.lowerInc

def upperBefore (a b : Range α) : Bool :=
  match a.upper, b.upper with
  | none, _ => false
  | some _, none => true
  | some x, some y =>
    match compare x y with
    | .lt => true
    | .gt => false
    | .eq => !a.upperInc && b.upperInc

/-- `a` starts no later than `b`. -/
def touches (a b : Range α) : Bool :=
  match a.upper, b.lower with
  | none, _ => true
  | some _, none => true
  | some x, some y =>
    match compare x y with
    | .gt => true
    | .lt => false
    | .eq => a.upperInc || b.lowerInc

/-- A member is put after those that start before it (`partition_point`). -/
def insertMember (sorted : List (Range α)) (m : Range α) : List (Range α) :=
  sorted.takeWhile (lowerBefore · m) ++ m :: sorted.dropWhile (lowerBefore · m)

/-- `prev` with the further of the two upper ends. -/
def extend (prev m : Range α) : Range α :=
  if upperBefore prev m then { prev with upper := m.upper, upperInc := m.upperInc } else prev

/-- The merging loop, from the last member it has put out. -/
def mergeFrom (prev : Range α) : List (Range α) → List (Range α)
  | [] => [prev]
  | m :: ms => if touches prev m then mergeFrom (extend prev m) ms else prev :: mergeFrom m ms

def mergeMembers : List (Range α) → List (Range α)
  | [] => []
  | m :: ms => mergeFrom m ms

def normaliseMultirange (members : List (Range α)) : List (Range α) :=
  mergeMembers ((members.filter (!·.empty)).foldl insertMember [])

/-- An element of a multirange. -/
def multirangeContainsElem (m : List (Range α)) (v : α) : Bool := m.any (containsElem · v)

/-- `+` of multiranges. -/
def multirangeUnion (ma mb : List (Range α)) : List (Range α) := normaliseMultirange (ma ++ mb)

/-- `*` of multiranges. -/
def multirangeIntersect (t : RangeType α) (ma mb : List (Range α)) : Except DataException (List (Range α)) := do
  let parts ← (ma.flatMap fun x => mb.map fun y => (x, y)).mapM fun p => intersect t p.1 p.2
  return normaliseMultirange (parts.filter (!·.empty))

/-- The members without `y`. -/
def minusMember (t : RangeType α) (cur : List (Range α)) (y : Range α) : Except DataException (List (Range α)) := do
  let parts ← cur.mapM fun x => minusPieces t x y
  return parts.flatten

/-- `-` of multiranges. -/
def multirangeMinus (t : RangeType α) (ma mb : List (Range α)) : Except DataException (List (Range α)) := do
  let cur ← mb.foldlM (minusMember t) ma
  return normaliseMultirange cur

/-- `@>` of multiranges. -/
def multirangeContains (outer inner : List (Range α)) : Bool :=
  (inner.filter (!·.empty)).all fun y => outer.any fun x => containsRange x y

/-- `&&` of multiranges. -/
def multirangeOverlaps (ma mb : List (Range α)) : Bool := ma.any fun x => mb.any fun y => overlaps x y

/-- A test of the spans of two multiranges, which neither has where it is empty. -/
def spansMeet (test : Range α → Range α → Range α → Range α → Bool) (ma mb : List (Range α)) : Bool :=
  let x := normaliseMultirange ma
  let y := normaliseMultirange mb
  match x.head?, x.getLast?, y.head?, y.getLast? with
  | some xf, some xl, some yf, some yl => test xf xl yf yl
  | _, _, _, _ => false

/-- `<<` of multiranges. -/
def multirangeLeftOf (ma mb : List (Range α)) : Bool :=
  spansMeet (fun _ xl yf _ => (cmp xl.upperBound yf.lowerBound).isLT) ma mb

/-- `>>` of multiranges. -/
def multirangeRightOf (ma mb : List (Range α)) : Bool :=
  spansMeet (fun xf _ _ yl => (cmp xf.lowerBound yl.upperBound).isGT) ma mb

/-- `-|-` of multiranges. -/
def multirangeAdjacent (ma mb : List (Range α)) : Bool :=
  spansMeet (fun xf xl yf yl =>
    boundsAdjacent xl.upperBound yf.lowerBound || boundsAdjacent yl.upperBound xf.lowerBound) ma mb

end Secantus.Ranges

namespace Secantus.Ranges.Literal

open Secantus PgNumeric Calendar

inductive Error where
  | invalidText (message : String)
  | numericOutOfRange (message : String)
  | invalidDatetimeFormat (message : String)
  | datetimeFieldOverflow (message : String)
  | dataException (message : String)
  | unsupported (message : String)
  deriving DecidableEq

/-- The discrete elements of `range_element`. -/
inductive Element where
  | int4
  | int8
  | date
  deriving DecidableEq

def Element.name : Element → String
  | .int4 => "int4"
  | .int8 => "int8"
  | .date => "date"

/-- A `Bson::Int32` or `Bson::Int64`, or a `Bson::String`. -/
inductive Value where
  | int (n : ℤ)
  | text (t : Text)
  deriving DecidableEq

/-- The readings of dates and timestamps that are not written `YYYY-MM-DD`. -/
structure DateReader where
  date : Text → Except Error Text
  timestamp : Text → Except Error ℤ

/-! ## Reading a literal -/

def badRange (text : Text) : Error := .invalidText s!"malformed range literal: \"{String.ofList (trim text)}\""

/-- `char::is_ascii_whitespace`. -/
def isAsciiWhitespace (c : Char) : Bool := c = ' ' || c = '\t' || c = '\n' || c = '\x0c' || c = '\r'

/-- The parts between commas, each with whether it was ever quoted. -/
def splitParts (quoted seenQuote : Bool) (cur : Text) : Text → List (Text × Bool)
  | [] => [(cur, seenQuote)]
  | c :: cs =>
    if c = '\"' then
      match cs with
      | d :: rest =>
        -- a doubled quote inside the quotes is one literal quote
        if quoted && d = '\"' then splitParts quoted seenQuote (cur ++ ['\"']) rest
        else splitParts (!quoted) true cur (d :: rest)
      | [] => splitParts (!quoted) true cur []
    else if c = '\\' then
      match cs with
      | d :: rest => splitParts quoted seenQuote (cur ++ [d]) rest
      | [] => splitParts quoted seenQuote cur []
    else if c = ',' && !quoted then (cur, seenQuote) :: splitParts quoted false [] cs
    else if !quoted && isAsciiWhitespace c then splitParts quoted seenQuote cur cs
    else splitParts quoted seenQuote (cur ++ [c]) cs

example (quoted seenQuote : Bool) (cur : Text) : splitParts quoted seenQuote cur [] = [(cur, seenQuote)] := by
  rw [splitParts.eq_def]

/-- Whether the brackets include the bounds. -/
def brackets (t : Text) : Option (Bool × Bool) :=
  match t.head?, t.getLast? with
  | some '[', some ')' => some (true, false)
  | some '[', some ']' => some (true, true)
  | some '(', some ')' => some (false, false)
  | some '(', some ']' => some (false, true)
  | _, _ => none

/-- A part that is empty and was not quoted is no bound. -/
def partBound (part : Text × Bool) : Option Text := if part.1.isEmpty && !part.2 then none else some part.1

def parseLiteral (text : Text) : Except Error (Range Text) :=
  let t := trim text
  if t.map Char.toLower = "empty".toList then .ok Range.none
  else
    match brackets t with
    | none => .error (badRange text)
    | some (lowerInc, upperInc) =>
      match splitParts false false [] (t.drop 1).dropLast with
      | [lo, hi] => .ok ⟨false, partBound lo, partBound hi, lowerInc, upperInc⟩
      | _ => .error (badRange text)

/-! ## Elements -/

/-- The cast of a text to `int4` or `int8`. -/
def castInteger (parse : Text → Option ℤ) (name : String) (s : Text) : Except Error Value :=
  let t := trim s
  match parse t with
  | some n => .ok (.int n)
  | none =>
    let digits := (stripPrefix '-' t).getD ((stripPrefix '+' t).getD t)
    if !digits.isEmpty && digits.all Char.isDigit then
      .error (.numericOutOfRange s!"value \"{String.ofList s}\" is out of range for type {name}")
    else .error (.invalidText s!"invalid input syntax for type {name}: \"{String.ofList s}\"")

/-- `%Y` of `chrono`: four digits, and a sign outside of them. -/
def yearText (y : ℤ) : Text :=
  if 0 ≤ y ∧ y ≤ 9999 then zeroPadded 4 y
  else (if y < 0 then '-' else '+') :: zeroPadded 4 y.natAbs

/-- `%Y-%m-%d`. -/
def dateText (d : Date) : Text :=
  yearText d.year ++ '-' :: zeroPadded 2 (d.month + 1) ++ '-' :: zeroPadded 2 (d.day + 1)

/-- A date written with four digits of the year, two of the month and two of the day. -/
def readIso (t : Text) : Option Date :=
  if t.length = 10 ∧ t[4]? = some '-' ∧ t[7]? = some '-' then do
    let y ← (t.take 4).mapM toDigit
    let m ← ((t.drop 5).take 2).mapM toDigit
    let d ← (t.drop 8).mapM toDigit
    Date.ofYmd (Digits.value 10 y) (Digits.value 10 m) (Digits.value 10 d)
  else none

def infinityText : Text := "infinity".toList

def negInfinityText : Text := "-infinity".toList

def parseDate (reader : DateReader) (text : Text) : Except Error Text :=
  let t := trim text
  let lower := t.map Char.toLower
  if lower = infinityText ∨ lower = "+infinity".toList then .ok infinityText
  else if lower = negInfinityText then .ok negInfinityText
  else if lower = "epoch".toList then .ok "1970-01-01".toList
  else
    match readIso t with
    | some d => .ok (dateText d)
    | none => reader.date text

def microsPerDay : ℤ := 86400000000

/-- The day number of 1970-01-01. -/
def unixEpoch : ℤ := 719528

/-- An `i64` sum in a release build. -/
def wrapAdd (a b : ℤ) : ℤ := (a + b).bmod (2 ^ 64)

def parseTimestamp (reader : DateReader) (text : Text) : Except Error ℤ :=
  let t := trim text
  match readIso t with
  | some d => .ok ((d.days - unixEpoch) * microsPerDay)
  | none =>
    if t = infinityText ∨ t = negInfinityText then
      .error (.invalidDatetimeFormat s!"invalid input syntax for type timestamp: \"{String.ofList t}\"")
    else reader.timestamp text

/-- The date and the microseconds of an instant; the epoch's, past what `chrono` has. -/
def fromTimestampMicros (micros : ℤ) : Date × ℤ :=
  let d := Date.ofDays (micros / microsPerDay + unixEpoch)
  if -262143 ≤ d.year ∧ d.year ≤ 262142 then (d, micros % microsPerDay) else (Date.ofDays unixEpoch, 0)

/-- `%H:%M:%S`, and the digits of the fraction that matter. -/
def timeText (micros : ℤ) : Text :=
  let s := micros / 1000000
  let frac := micros % 1000000
  zeroPadded 2 (s / 3600) ++ ':' :: zeroPadded 2 (s / 60 % 60) ++ ':' :: zeroPadded 2 (s % 60) ++
    if frac = 0 then [] else '.' :: (zeroPadded 6 frac).rdropWhile (· = '0')

def renderTimestamp (micros : ℤ) : Text :=
  let (d, time) := fromTimestampMicros micros
  dateText d ++ ' ' :: timeText time

/-- `cast_value` of a text. -/
def castValue (reader : DateReader) : Element → Text → Except Error Value
  | .int4, s => castInteger parseI32 "integer" s
  | .int8, s => castInteger parseI64 "bigint" s
  | .date, s => (parseDate reader s).map .text

def renderValueText : Value → Text
  | .int n => intText n
  | .text t => t

def compareConstants : Value → Value → Option Ordering
  | .text x, .text y => some (compare x y)
  | .int x, .int y => some (compare x y)
  | _, _ => none

def compareBounds (reader : DateReader) (element : Element) (a b : Text) : Except Error Ordering := do
  let av ← castValue reader element a
  let bv ← castValue reader element b
  match compareConstants av bv with
  | some ord => return ord
  | none => .error (.unsupported s!"comparing {element.name} range bounds")

/-- The value that is `count` after `text`'s. -/
def step (reader : DateReader) (element : Element) (text : Text) (count : ℤ) : Except Error Text :=
  match element with
  | .int4 | .int8 =>
    match parseI64 (trim text) with
    | some n => .ok (intText (wrapAdd n count))
    | none => .error (badRange text)
  | .date => do
    let micros ← parseTimestamp reader text
    return (renderTimestamp (wrapAdd micros (count * microsPerDay))).takeWhile (· ≠ ' ')

/-! ## The canonical range -/

def castBound (reader : DateReader) (element : Element) : Option Text → Except Error (Option Text)
  | none => .ok none
  | some t => do
    let v ← castValue reader element t
    return some (renderValueText v)

/-- A bound to be stepped is stepped on by one. -/
def stepBound (reader : DateReader) (element : Element) (steps : Bool) (b : Option Text) :
    Except Error (Option Text) :=
  match steps, b with
  | true, some t => do
    let t' ← step reader element t 1
    return some t'
  | _, _ => .ok b

/-- `(x` becomes `[x+1`, and `y]` becomes `y+1)`. -/
def halfOpen (reader : DateReader) (element : Element) (r : Range Text) : Except Error (Range Text) := do
  let lower ← stepBound reader element (!r.lowerInc) r.lower
  let upper ← stepBound reader element r.upperInc r.upper
  return ⟨r.empty, lower, upper, true, false⟩

def checkBounds (reader : DateReader) (element : Element) (r : Range Text) : Except Error (Range Text) :=
  match r.lower, r.upper with
  | some l, some u => do
    match ← compareBounds reader element l u with
    | .gt => .error (.dataException "range lower bound must be less than or equal to range upper bound")
    | .eq => if r.lowerInc && r.upperInc then return r else return Range.none
    | .lt => return r
  | _, _ => .ok r

/-- `canonicalise`, of a discrete element. -/
def canonicalise (reader : DateReader) (element : Element) (r : Range Text) : Except Error (Range Text) :=
  if r.empty then .ok r
  else do
    let lower ← castBound reader element r.lower
    let upper ← castBound reader element r.upper
    let stepped ← halfOpen reader element ⟨r.empty, lower, upper, r.lowerInc, r.upperInc⟩
    checkBounds reader element stepped.excludeInfinite

def fromText (reader : DateReader) (element : Element) (text : Text) : Except Error (Range Text) := do
  let parsed ← parseLiteral text
  canonicalise reader element parsed

end Secantus.Ranges.Literal
