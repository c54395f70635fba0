/-
  The removable sum of a sliding window (`windowfields.rs`), over the running sum of `$group` (`group.rs`):
  a value leaves by being added negated, and the smallest integers, which have no negation, by two additions.

  The compensated sum and the decimals are parameters. On integers below `2^106` the compensated sum is taken
  as exact (`DoubleDouble.Exact`): then a sum of integers is its total, whatever was added and removed on the
  way to it (`Totals`, `value_of_totals`).
-/
import Secantus.WindowFields.Bounds
import Secantus.Bson.Quantity

namespace Secantus.WindowFields

open Secantus

/-! ## The running sum -/

/-- `DoubleDoubleSum`: the compensated sum of `summation.rs`. -/
structure DoubleDouble (σ : Type) where
  default : σ
  addDouble : σ → F64 → σ
  addLong : σ → Int64 → σ
  addInt : σ → Int32 → σ
  getDouble : σ → F64
  fitsLong : σ → Bool
  getLong : σ → Int64
  getDecimal : σ → Option DecimalValue

/-- The decimals (`decimal.rs`) as the sums use them. -/
structure Decimals where
  /-- `decimal_zero` -/
  zero : Option DecimalValue
  add : DecimalValue → DecimalValue → Option DecimalValue
  neg : DecimalValue → DecimalValue
  /-- `from_bson_accumulator` -/
  fromAccumulator : Decimal128 → Option DecimalValue
  fromBson : Decimal128 → Option DecimalValue
  toBson : DecimalValue → Option Decimal128
  /-- a decimal's text read as a double -/
  toDouble : Decimal128 → Option F64
  integralI64 : DecimalValue → Option Int64
  divInt : DecimalValue → ℤ → Option DecimalValue

/-- An integer as a double, and the quotient of two. -/
structure Floats where
  ofInt : ℤ → F64
  div : F64 → F64 → F64

inductive Width where
  | int
  | long
  | double
  | decimal
  deriving DecidableEq

def Width.rank : Width → ℕ
  | .int => 0
  | .long => 1
  | .double => 2
  | .decimal => 3

/-- The wider of two. -/
def Width.max (v w : Width) : Width := if v.rank ≤ w.rank then w else v

/-- `Num::Sum`. -/
structure Num (σ : Type) where
  width : Width
  total : σ
  decimal : Option DecimalValue

section

variable {σ : Type} (D : DoubleDouble σ) (M : Decimals)

def orDefer {α : Type} (x : Option α) : Except Fallback α :=
  match x with
  | some a => .ok a
  | none => .error .defer

def Num.zero : Num σ := ⟨.int, D.default, none⟩

def Num.add (s : Num σ) : Bson → Except Fallback (Num σ)
  | .int32 i => .ok ⟨s.width.max .int, D.addInt s.total i, s.decimal⟩
  | .int64 i => .ok ⟨s.width.max .long, D.addLong s.total i, s.decimal⟩
  | .double d => .ok ⟨s.width.max .double, D.addDouble s.total d, s.decimal⟩
  | .decimal128 d => do
    let x ← orDefer (M.fromAccumulator d)
    let before ← match s.decimal with
      | none => orDefer M.zero
      | some before => .ok before
    let sum ← orDefer (M.add before x)
    return ⟨s.width.max .decimal, s.total, some sum⟩
  | _ => .error .defer

def Num.decimalTotal (s : Num σ) : Except Fallback DecimalValue := do
  let rest ← orDefer (D.getDecimal s.total)
  let dec ← match s.decimal with
    | some dec => .ok dec
    | none => orDefer M.zero
  orDefer (M.add dec rest)

/-- An integer as an int32 where it fits. -/
def intOrLong (v : Int64) : Bson := if -2 ^ 31 ≤ v.toInt ∧ v.toInt < 2 ^ 31 then .int32 v.toInt32 else .int64 v

def Num.intoBson (s : Num σ) : Except Fallback Bson :=
  match s.width with
  | .decimal => do
    let total ← s.decimalTotal D M
    return .decimal128 (← orDefer (M.toBson total))
  | .int => .ok (if D.fitsLong s.total then intOrLong (D.getLong s.total) else .double (D.getDouble s.total))
  | .long => .ok (if D.fitsLong s.total then .int64 (D.getLong s.total) else .double (D.getDouble s.total))
  | .double => .ok (.double (D.getDouble s.total))

/-! ## The removable sum -/

structure RemovableSum (σ : Type) where
  sum : Num σ
  posInf : ℤ
  negInf : ℤ
  nan : ℤ
  doubles : ℤ
  decimals : ℤ

def RemovableSum.new : RemovableSum σ := ⟨Num.zero D, 0, 0, 0, 0, 0⟩

def RemovableSum.process (s : RemovableSum σ) (v : Bson) : Except Fallback (RemovableSum σ) := do
  let sum ← s.sum.add D M v
  return { s with sum }

/-- A double times `1` or `-1`. -/
def signed (d : F64) (q : Int64) : F64 := if q = -1 then ⟨d.bits ^^^ 0x8000000000000000⟩ else d

/-- `RemovableSum::update`: `q` is `1` for a value that enters and `-1` for one that leaves. -/
def RemovableSum.update (s : RemovableSum σ) (v : Bson) (q : Int64) : Except Fallback (RemovableSum σ) :=
  match v with
  | .int32 i =>
    if i = Int32.minValue ∧ q = -1 then do
      let s ← s.process D M (.int32 Int32.maxValue)
      s.process D M (.int32 1)
    else s.process D M (.int32 (i * q.toInt32))
  | .int64 i =>
    if i = Int64.minValue ∧ q = -1 then do
      let s ← s.process D M (.int64 Int64.maxValue)
      s.process D M (.int32 1)
    else s.process D M (.int64 (i * q))
  | .double d =>
    let s := { s with doubles := s.doubles + q.toInt }
    if d.isNan then .ok { s with nan := s.nan + q.toInt }
    else if d.isInfinite && !d.negative then .ok { s with posInf := s.posInf + q.toInt }
    else if d.isInfinite then .ok { s with negInf := s.negInf + q.toInt }
    else s.process D M (.double (signed d q))
  | .decimal128 d => do
    let s := { s with decimals := s.decimals + q.toInt }
    match ← orDefer (M.fromBson d) with
    | .nan => return { s with nan := s.nan + q.toInt }
    | .inf false => return { s with posInf := s.posInf + q.toInt }
    | .inf true => return { s with negInf := s.negInf + q.toInt }
    | x =>
      let x := if q = -1 then M.neg x else x
      s.process D M (.decimal128 (← orDefer (M.toBson x)))
  | _ => .ok s

/-- `-2^63` and `2^63`. -/
def minLong : F64 := ⟨0xC3E0000000000000⟩

def maxLong : F64 := ⟨0x43E0000000000000⟩

/-- `d.round() as i64`, a half away from zero, for a double in range. -/
def roundLong (d : F64) : Int64 :=
  let n := (2 * |d.scaled| + 2 ^ 1074) / 2 ^ 1075
  Int64.ofInt (if d.negative then -n else n)

/-- A decimal constant once a decimal is in the window, else a double. -/
def RemovableSum.special (s : RemovableSum σ) (dec : DecimalValue) (dbl : F64) : Except Fallback Bson :=
  if 0 < s.decimals then (orDefer (M.toBson dec)).map .decimal128 else .ok (.double dbl)

def RemovableSum.value (s : RemovableSum σ) : Except Fallback Bson :=
  if 0 < s.nan ∨ 0 < s.posInf ∧ 0 < s.negInf then s.special M .nan F64.nan
  else if 0 < s.posInf then s.special M (.inf false) F64.posInf
  else if 0 < s.negInf then s.special M (.inf true) F64.negInf
  else do
    match ← s.sum.intoBson D M with
    | .decimal128 d =>
      if s.decimals = 0 then do
        let x ← orDefer (M.fromBson d)
        if 0 < s.doubles then return .double (← orDefer (M.toDouble d))
        match M.integralI64 x with
        | some v => return intOrLong v
        | none => return .double (← orDefer (M.toDouble d))
      else return .decimal128 d
    | .double d =>
      if s.doubles = 0 && (d.partialCmp minLong).any (· != .lt) && d.partialCmp maxLong == some .lt then
        return intOrLong (roundLong d)
      else return .double d
    | .int64 v => return intOrLong v
    | other => return other

/-! ## Removable functions -/

def isNumeric : Bson → Bool
  | .int32 _ | .int64 _ | .double _ | .decimal128 _ => true
  | _ => false

/-- `Removable`: the functions whose state is a removable sum. -/
inductive Removable (σ : Type) where
  | sum (s : RemovableSum σ)
  | avg (s : RemovableSum σ) (count : ℤ)

/-- `$sum` or `$avg`. -/
inductive Op where
  | sum
  | avg
  deriving DecidableEq

def Removable.new : Op → Removable σ
  | .sum => .sum (RemovableSum.new D)
  | .avg => .avg (RemovableSum.new D) 0

def Removable.update (r : Removable σ) (v : Bson) (q : Int64) : Except Fallback (Removable σ) :=
  match r with
  | .sum s => (s.update D M v q).map .sum
  | .avg s count =>
    if isNumeric v then (s.update D M v q).map fun s => .avg s (count + q.toInt) else .ok (.avg s count)

/-- What `$avg` makes of the sum of `n` values. -/
def average (F : Floats) (n : ℤ) : Bson → Except Fallback Bson
  | .int32 i => .ok (.double (F.div (F.ofInt i.toInt) (F.ofInt n)))
  | .int64 i => .ok (.double (F.div (F.ofInt i.toInt) (F.ofInt n)))
  | .double d => .ok (.double (if d.isFinite then F.div d (F.ofInt n) else d))
  | .decimal128 d => do
    match ← orDefer (M.fromBson d) with
    | .finite neg coeff exp =>
      let x ← orDefer (M.divInt (.finite neg coeff exp) n)
      return .decimal128 (← orDefer (M.toBson x))
    | _ => return .decimal128 d
  | other => .ok other

def Removable.value (F : Floats) : Removable σ → Except Fallback Bson
  | .sum s => s.value D M
  | .avg s count => if count = 0 then .ok .null else s.value D M >>= average M F count

end

/-! ## Sums of integers -/

/-- The integer a value adds; a value that is not a number adds none. -/
def intOf : Bson → ℤ
  | .int32 i => i.toInt
  | .int64 i => i.toInt
  | _ => 0

/-- An integer or no number at all. -/
def isIntegral : Bson → Bool
  | .double _ | .decimal128 _ => false
  | _ => true

section

variable {σ : Type} {D : DoubleDouble σ} {M : Decimals} {Holds : σ → ℤ → Prop} {nearest : ℤ → F64}

/-- The compensated sum is exact on integers below `2^106`: a state that holds a total goes on to hold it,
    and answers from it. -/
structure DoubleDouble.Exact (D : DoubleDouble σ) (Holds : σ → ℤ → Prop) (nearest : ℤ → F64) : Prop where
  default : Holds D.default 0
  addInt : ∀ {s t} (i : Int32), Holds s t → |t| < 2 ^ 106 → |t + i.toInt| < 2 ^ 106 →
    Holds (D.addInt s i) (t + i.toInt)
  addLong : ∀ {s t} (i : Int64), Holds s t → |t| < 2 ^ 106 → |t + i.toInt| < 2 ^ 106 →
    Holds (D.addLong s i) (t + i.toInt)
  fitsLong : ∀ {s t}, Holds s t → |t| < 2 ^ 106 → (D.fitsLong s = true ↔ -2 ^ 63 ≤ t ∧ t < 2 ^ 63)
  getLong : ∀ {s t}, Holds s t → -2 ^ 63 ≤ t ∧ t < 2 ^ 63 → D.getLong s = Int64.ofInt t
  getDouble : ∀ {s t}, Holds s t → |t| < 2 ^ 106 → D.getDouble s = nearest t

/-- A removable sum of integers alone: its total, and nothing counted apart. -/
structure Totals (Holds : σ → ℤ → Prop) (s : RemovableSum σ) (t : ℤ) : Prop where
  width : s.sum.width = .int ∨ s.sum.width = .long
  holds : Holds s.sum.total t
  posInf : s.posInf = 0
  negInf : s.negInf = 0
  nan : s.nan = 0
  doubles : s.doubles = 0
  decimals : s.decimals = 0

theorem totals_new (hD : D.Exact Holds nearest) : Totals Holds (RemovableSum.new D) 0 :=
  ⟨Or.inl rfl, hD.default, rfl, rfl, rfl, rfl, rfl⟩

theorem process_totals (hD : D.Exact Holds nearest) {s : RemovableSum σ} {t : ℤ} (h : Totals Holds s t) {v : Bson}
    (hv : (∃ i, v = .int32 i) ∨ ∃ i, v = .int64 i) (ht : |t| < 2 ^ 106) (ht' : |t + intOf v| < 2 ^ 106) :
    ∃ s', s.process D M v = .ok s' ∧ Totals Holds s' (t + intOf v) := by
  have hwidth : ∀ w, w = .int ∨ w = .long →
      s.sum.width.max w = .int ∨ s.sum.width.max w = .long := by
    rintro w (rfl | rfl) <;> rcases h.width with hw | hw <;> rw [hw] <;> decide
  rcases hv with ⟨i, rfl⟩ | ⟨i, rfl⟩
  · exact ⟨_, rfl, hwidth .int (Or.inl rfl), hD.addInt i h.holds ht ht', h.posInf, h.negInf, h.nan, h.doubles,
      h.decimals⟩
  · exact ⟨_, rfl, hwidth .long (Or.inr rfl), hD.addLong i h.holds ht ht', h.posInf, h.negInf, h.nan, h.doubles,
      h.decimals⟩

theorem toInt32_neg {i : Int32} (h : i ≠ Int32.minValue) : (i * (-1 : Int64).toInt32).toInt = -i.toInt := by
  have hle := i.le_toInt
  have hlt := i.toInt_lt
  have hne : i.toInt ≠ -2 ^ 31 := fun heq => h (Int32.toInt_inj.mp heq)
  have hone : ((-1 : Int64).toInt32).toInt = -1 := by decide
  rw [Int32.toInt_mul, hone, mul_neg_one]
  exact Int.bmod_eq_of_le (by norm_num; omega) (by norm_num; omega)

theorem toInt64_neg {i : Int64} (h : i ≠ Int64.minValue) : (i * (-1 : Int64)).toInt = -i.toInt := by
  have hle := i.le_toInt
  have hlt := i.toInt_lt
  have hne : i.toInt ≠ -2 ^ 63 := fun heq => h (Int64.toInt_inj.mp heq)
  have hone : (-1 : Int64).toInt = -1 := by decide
  rw [Int64.toInt_mul, hone, mul_neg_one]
  exact bmod_of_fits (by omega) (by omega)

theorem update_enter (hD : D.Exact Holds nearest) {s : RemovableSum σ} {t : ℤ} (h : Totals Holds s t) {v : Bson}
    (hv : isIntegral v = true) (ht : |t| < 2 ^ 106) (ht' : |t + intOf v| < 2 ^ 106) :
    ∃ s', s.update D M v 1 = .ok s' ∧ Totals Holds s' (t + intOf v) := by
  cases v with
  | int32 i =>
    have hone : i * (1 : Int64).toInt32 = i := Int32.mul_one i
    rw [RemovableSum.update, if_neg fun h => absurd h.2 (by decide), hone]
    exact process_totals hD h (Or.inl ⟨i, rfl⟩) ht ht'
  | int64 i =>
    have hone : i * (1 : Int64) = i := Int64.mul_one i
    rw [RemovableSum.update, if_neg fun h => absurd h.2 (by decide), hone]
    exact process_totals hD h (Or.inr ⟨i, rfl⟩) ht ht'
  | double d => cases hv
  | decimal128 d => cases hv
  | _ => exact ⟨s, rfl, by simpa [intOf] using h⟩

/-- The largest integer and one more. -/
theorem process_twice (hD : D.Exact Holds nearest) {s : RemovableSum σ} {t : ℤ} (h : Totals Holds s t) {v : Bson}
    (hv : (∃ i, v = .int32 i) ∨ ∃ i, v = .int64 i) (hpos : 0 ≤ intOf v) (ht : |t| < 2 ^ 106)
    (ht' : |t + intOf v + 1| < 2 ^ 106) :
    ∃ s', (s.process D M v >>= fun s => s.process D M (.int32 1)) = .ok s' ∧
      Totals Holds s' (t + intOf v + 1) := by
  have hmid : |t + intOf v| < 2 ^ 106 := by
    rw [abs_lt] at ht ht' ⊢
    omega
  obtain ⟨s₁, hs₁, h₁⟩ := process_totals (M := M) hD h hv ht hmid
  obtain ⟨s₂, hs₂, h₂⟩ := process_totals (M := M) hD h₁ (Or.inl ⟨1, rfl⟩) hmid ht'
  exact ⟨s₂, by rw [hs₁]; exact hs₂, h₂⟩

theorem update_leave (hD : D.Exact Holds nearest) {s : RemovableSum σ} {t : ℤ} (h : Totals Holds s t) {v : Bson}
    (hv : isIntegral v = true) (ht : |t| < 2 ^ 106) (ht' : |t - intOf v| < 2 ^ 106) :
    ∃ s', s.update D M v (-1) = .ok s' ∧ Totals Holds s' (t - intOf v) := by
  cases v with
  | int32 i =>
    rw [RemovableSum.update]
    by_cases hmin : i = Int32.minValue
    · subst hmin
      rw [if_pos ⟨rfl, rfl⟩]
      have hsub : t - intOf (.int32 Int32.minValue) = t + intOf (.int32 Int32.maxValue) + 1 := by
        show t - -2147483648 = t + 2147483647 + 1
        omega
      rw [hsub] at ht' ⊢
      exact process_twice hD h (Or.inl ⟨_, rfl⟩) (by decide) ht ht'
    · rw [if_neg fun h => hmin h.1]
      have hneg : t - intOf (.int32 i) = t + intOf (.int32 (i * (-1 : Int64).toInt32)) := by
        rw [intOf, intOf, toInt32_neg hmin]
        omega
      rw [hneg] at ht' ⊢
      exact process_totals hD h (Or.inl ⟨_, rfl⟩) ht ht'
  | int64 i =>
    rw [RemovableSum.update]
    by_cases hmin : i = Int64.minValue
    · subst hmin
      rw [if_pos ⟨rfl, rfl⟩]
      have hsub : t - intOf (.int64 Int64.minValue) = t + intOf (.int64 Int64.maxValue) + 1 := by
        show t - -9223372036854775808 = t + 9223372036854775807 + 1
        omega
      rw [hsub] at ht' ⊢
      exact process_twice hD h (Or.inr ⟨_, rfl⟩) (by decide) ht ht'
    · rw [if_neg fun h => hmin h.1]
      have hneg : t - intOf (.int64 i) = t + intOf (.int64 (i * -1)) := by
        rw [intOf, intOf, toInt64_neg hmin]
        omega
      rw [hneg] at ht' ⊢
      exact process_totals hD h (Or.inr ⟨_, rfl⟩) ht ht'
  | double d => cases hv
  | decimal128 d => cases hv
  | _ => exact ⟨s, rfl, by simpa [intOf] using h⟩

/-- What a sum of integers answers: the total as an int32 or an int64, past 64 bits its nearest double, which
    is an integer again where it is `-2^63`. -/
def answer (nearest : ℤ → F64) (t : ℤ) : Bson :=
  if -2 ^ 63 ≤ t ∧ t < 2 ^ 63 then intOrLong (Int64.ofInt t)
  else if ((nearest t).partialCmp minLong).any (· != .lt) && (nearest t).partialCmp maxLong == some .lt then
    intOrLong (roundLong (nearest t))
  else .double (nearest t)

theorem value_of_totals (hD : D.Exact Holds nearest) {s : RemovableSum σ} {t : ℤ} (h : Totals Holds s t)
    (ht : |t| < 2 ^ 106) : s.value D M = .ok (answer nearest t) := by
  have hinto : s.sum.intoBson D M = .ok (
      if D.fitsLong s.sum.total then
        if s.sum.width = .int then intOrLong (D.getLong s.sum.total) else .int64 (D.getLong s.sum.total)
      else .double (D.getDouble s.sum.total)) := by
    unfold Num.intoBson
    rcases h.width with hw | hw <;> rw [hw] <;> cases D.fitsLong s.sum.total <;> rfl
  unfold RemovableSum.value
  rw [h.nan, h.posInf, h.negInf, if_neg (by omega), if_neg (by omega), if_neg (by omega), hinto]
  unfold answer
  have hfits := hD.fitsLong h.holds ht
  by_cases hin : -2 ^ 63 ≤ t ∧ t < 2 ^ 63
  · rw [if_pos hin, if_pos (hfits.mpr hin), hD.getLong h.holds hin]
    by_cases hw : s.sum.width = .int
    · rw [if_pos hw]
      unfold intOrLong
      split
      · rfl
      · rename_i hwide
        show Except.ok (intOrLong _) = _
        rw [intOrLong, if_neg hwide]
    · rw [if_neg hw]
      rfl
  · rw [if_neg hin, if_neg (mt hfits.mp hin), hD.getDouble h.holds ht]
    show (if s.doubles = 0 && _ && _ then _ else _) = _
    rw [h.doubles, decide_eq_true rfl, Bool.true_and]
    split <;> rfl

/-! ## Removable functions of integers -/

/-- The state of a function over these values, in order. -/
def Removable.Of (Holds : σ → ℤ → Prop) (op : Op) (vs : List Bson) : Removable σ → Prop
  | .sum s => op = .sum ∧ Totals Holds s (vs.map intOf).sum
  | .avg s count => op = .avg ∧ Totals Holds s (vs.map intOf).sum ∧ count = (vs.filter isNumeric).length

/-- The values' magnitudes, in all. -/
def magnitude (vs : List Bson) : ℤ := (vs.map fun v => |intOf v|).sum

theorem abs_sum_le (vs : List Bson) : |(vs.map intOf).sum| ≤ magnitude vs := by
  induction vs with
  | nil => exact le_rfl
  | cons v vs ih =>
    unfold magnitude at ih ⊢
    rw [List.map_cons, List.map_cons, List.sum_cons, List.sum_cons]
    exact (abs_add_le _ _).trans (Int.add_le_add_left ih _)

theorem intOf_of_not_numeric {v : Bson} (h : isNumeric v = false) : intOf v = 0 := by
  cases v <;> first
    | rfl
    | cases h

theorem of_new (hD : D.Exact Holds nearest) (op : Op) : (Removable.new D op).Of Holds op [] := by
  cases op with
  | sum => exact ⟨rfl, totals_new hD⟩
  | avg => exact ⟨rfl, totals_new hD, rfl⟩

theorem sum_concat (vs : List Bson) (v : Bson) :
    ((vs ++ [v]).map intOf).sum = (vs.map intOf).sum + intOf v := by
  simp

theorem count_concat (vs : List Bson) (v : Bson) :
    ((vs ++ [v]).filter isNumeric).length = (vs.filter isNumeric).length + if isNumeric v then 1 else 0 := by
  rw [List.filter_append, List.length_append]
  cases h : isNumeric v <;> simp [h]

theorem magnitude_concat (vs : List Bson) (v : Bson) : magnitude (vs ++ [v]) = magnitude vs + |intOf v| := by
  simp [magnitude]

theorem magnitude_cons (v : Bson) (vs : List Bson) : magnitude (v :: vs) = |intOf v| + magnitude vs := by
  simp [magnitude]

theorem of_enter (hD : D.Exact Holds nearest) {op : Op} {vs : List Bson} {r : Removable σ}
    (h : r.Of Holds op vs) {v : Bson} (hv : isIntegral v = true) (hm : magnitude (vs ++ [v]) < 2 ^ 106) :
    ∃ r', r.update D M v 1 = .ok r' ∧ r'.Of Holds op (vs ++ [v]) := by
  have hle : |(vs.map intOf).sum| < 2 ^ 106 := by
    have habs := abs_sum_le vs
    have hnonneg := abs_nonneg (intOf v)
    rw [magnitude_concat] at hm
    omega
  have hle' : |(vs.map intOf).sum + intOf v| < 2 ^ 106 := by
    rw [← sum_concat]
    exact lt_of_le_of_lt (abs_sum_le _) hm
  cases r with
  | sum s =>
    obtain ⟨hop, hs⟩ := h
    obtain ⟨s', hs', ht⟩ := update_enter (M := M) hD hs hv hle hle'
    refine ⟨.sum s', by rw [Removable.update, hs']; rfl, hop, ?_⟩
    rwa [sum_concat]
  | avg s count =>
    obtain ⟨hop, hs, hcount⟩ := h
    rw [Removable.update]
    cases hnum : isNumeric v with
    | true =>
      obtain ⟨s', hs', ht⟩ := update_enter (M := M) hD hs hv hle hle'
      refine ⟨.avg s' (count + 1), by rw [hs']; rfl, hop, by rwa [sum_concat], ?_⟩
      rw [count_concat, hnum, if_pos rfl, hcount]
      rfl
    | false =>
      refine ⟨.avg s count, rfl, hop, ?_, ?_⟩
      · rwa [sum_concat, intOf_of_not_numeric hnum, add_zero]
      · rw [count_concat, hnum, if_neg Bool.false_ne_true, hcount]
        rfl

theorem of_leave (hD : D.Exact Holds nearest) {op : Op} {v : Bson} {vs : List Bson} {r : Removable σ}
    (h : r.Of Holds op (v :: vs)) (hv : isIntegral v = true) (hm : magnitude (v :: vs) < 2 ^ 106) :
    ∃ r', r.update D M v (-1) = .ok r' ∧ r'.Of Holds op vs := by
  have hsum : ((v :: vs).map intOf).sum - intOf v = (vs.map intOf).sum := by simp
  have hle : |((v :: vs).map intOf).sum| < 2 ^ 106 := lt_of_le_of_lt (abs_sum_le _) hm
  have hle' : |((v :: vs).map intOf).sum - intOf v| < 2 ^ 106 := by
    have habs := abs_sum_le vs
    have hnonneg := abs_nonneg (intOf v)
    rw [magnitude_cons] at hm
    rw [hsum]
    omega
  cases r with
  | sum s =>
    obtain ⟨hop, hs⟩ := h
    obtain ⟨s', hs', ht⟩ := update_leave (M := M) hD hs hv hle hle'
    refine ⟨.sum s', by rw [Removable.update, hs']; rfl, hop, ?_⟩
    rwa [hsum] at ht
  | avg s count =>
    obtain ⟨hop, hs, hcount⟩ := h
    rw [Removable.update]
    cases hnum : isNumeric v with
    | true =>
      obtain ⟨s', hs', ht⟩ := update_leave (M := M) hD hs hv hle hle'
      refine ⟨.avg s' (count + -1), by rw [hs']; rfl, hop, by rwa [hsum] at ht, ?_⟩
      rw [hcount, List.filter_cons_of_pos hnum, List.length_cons]
      push_cast
      omega
    | false =>
      refine ⟨.avg s count, rfl, hop, ?_, ?_⟩
      · rwa [← hsum, intOf_of_not_numeric hnum, sub_zero]
      · rw [hcount, List.filter_cons_of_neg (by simp [hnum])]

theorem average_answer (F : Floats) (n t : ℤ) : ∃ out, average M F n (answer nearest t) = .ok out := by
  have hint : ∀ v, ∃ out, average M F n (intOrLong v) = .ok out := by
    intro v
    unfold intOrLong
    split
    · exact ⟨_, rfl⟩
    · exact ⟨_, rfl⟩
  unfold answer
  split
  · exact hint _
  · split
    · exact hint _
    · exact ⟨_, rfl⟩

theorem value_ok (hD : D.Exact Holds nearest) (F : Floats) {op : Op} {vs : List Bson} {r : Removable σ}
    (h : r.Of Holds op vs) (hm : magnitude vs < 2 ^ 106) : ∃ out, r.value D M F = .ok out := by
  have hle := lt_of_le_of_lt (abs_sum_le vs) hm
  cases r with
  | sum s => exact ⟨_, value_of_totals hD h.2 hle⟩
  | avg s count =>
    rw [Removable.value, value_of_totals hD h.2.1 hle]
    split
    · exact ⟨_, rfl⟩
    · exact average_answer F count _

/-- States over the same values answer the same, and count the same. -/
theorem value_congr (hD : D.Exact Holds nearest) {F : Floats} {op : Op} {vs : List Bson} {r r' : Removable σ}
    (h : r.Of Holds op vs) (h' : r'.Of Holds op vs) (hm : magnitude vs < 2 ^ 106) :
    r.value D M F = r'.value D M F := by
  have hle := lt_of_le_of_lt (abs_sum_le vs) hm
  cases r with
  | sum s =>
    cases r' with
    | sum s' => rw [Removable.value, Removable.value, value_of_totals hD h.2 hle, value_of_totals hD h'.2 hle]
    | avg s' count' => exact absurd (h.1.symm.trans h'.1) (by decide)
  | avg s count =>
    cases r' with
    | sum s' => exact absurd (h.1.symm.trans h'.1) (by decide)
    | avg s' count' =>
      rw [Removable.value, Removable.value, h.2.2, h'.2.2, value_of_totals hD h.2.1 hle,
        value_of_totals hD h'.2.1 hle]

end

end Secantus.WindowFields
