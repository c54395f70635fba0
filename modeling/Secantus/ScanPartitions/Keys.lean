/-
  The bucket of a value (`scan_partitions.rs`): integers and whole doubles below `9 · 10^18` by their
  value, other doubles by their bits, every NaN alike.

  Equal values with a bucket share one, except an int64 of `9 · 10^18` or more and the double it equals
  (`pkey_eq_iff`).
-/
import Secantus.Query.Compare
import Secantus.Distinct.Hash

namespace Secantus.ScanPartitions

open Secantus Bson BsonOrder Query

inductive PKey where
  | null
  | bool (b : Bool)
  | int (n : Int64)
  | float (bits : UInt64)
  | str (s : String)
  | date (millis : Int64)
  deriving DecidableEq

/-- A finite double without a fraction. -/
def isWhole (d : F64) : Bool := d.isFinite && d.scaled % Numeric.unit == 0

/-- The bucket of a double: a whole one below `9.0e18` is its integer. -/
def float (d : F64) : PKey :=
  if isWhole d && |d.scaled| < 9000000000000000000 * Numeric.unit then .int (Int64.ofInt (d.scaled / Numeric.unit))
  else if d.isNan then .float F64.nan.bits
  else .float d.bits

/-- `pkey`: `none` for a value grouped by nothing here. -/
def pkey : Bson → Option PKey
  | .null => some .null
  | .boolean b => some (.bool b)
  | .int32 n => some (.int n.toInt64)
  | .int64 n => some (.int n)
  | .double d => some (float d)
  | .string s => some (.str s)
  | .dateTime t => some (.date t)
  | _ => none

/-- An int64 of `9 · 10^18` or more in magnitude, beside a double. -/
def parted : Bson → Bson → Bool
  | .int64 n, .double _ | .double _, .int64 n => 9000000000000000000 ≤ |n.toInt|
  | _, _ => false

theorem parted_comm (v w : Bson) : parted v w = parted w v := by
  cases v <;> cases w <;> rfl

/-! ## Equal numbers -/

theorem isFinite_of_not {d : F64} (hnan : d.isNan = false) (hinf : d.isInfinite = false) : d.isFinite = true := by
  unfold F64.isNan F64.isInfinite at *
  unfold F64.isFinite
  cases hexp : d.rawExp == 0x7FF with
  | true => cases hfrac : d.frac == 0 <;> simp [hexp, hfrac, bne] at hnan hinf
  | false => simp [bne, hexp]

theorem finite_of_quantity {d : F64} {q : ℚ} (h : d.quantity = .fin q) :
    d.isFinite = true ∧ d.isNan = false ∧ d.value = q := by
  unfold F64.quantity at h
  cases hnan : d.isNan with
  | true => simp [hnan] at h
  | false =>
    cases hinf : d.isInfinite with
    | true =>
      simp only [hnan, hinf, if_true, Bool.false_eq_true, if_false] at h
      split at h <;> cases h
    | false =>
      simp only [hnan, hinf, Bool.false_eq_true, if_false, Quantity.fin.injEq] at h
      exact ⟨isFinite_of_not hnan hinf, rfl, h⟩

/-- The double an integer equals, in the units of `F64.scaled`. -/
theorem scaled_of_int {d : F64} {n : ℤ} (h : d.quantity = .fin n) : d.scaled = n * Numeric.unit := by
  have hcmp := Numeric.compare_int_value n d
  rw [(finite_of_quantity h).2.2, compare_eq_iff_eq.mpr rfl] at hcmp
  exact (compare_eq_iff_eq.mp hcmp.symm).symm

theorem float_of_int {d : F64} {n : Int64} (h : d.quantity = .fin n.toInt) :
    float d = if |n.toInt| < 9000000000000000000 then .int n else .float d.bits := by
  obtain ⟨hfin, hnan, -⟩ := finite_of_quantity h
  have hscaled := scaled_of_int h
  have hu := Numeric.unit_pos
  have hwhole : isWhole d = true := by
    unfold isWhole
    rw [hfin, hscaled, Int.mul_emod_left]
    rfl
  have hsmall : |d.scaled| < 9000000000000000000 * Numeric.unit ↔ |n.toInt| < 9000000000000000000 := by
    rw [hscaled, abs_mul, abs_of_pos hu]
    exact Int.mul_lt_mul_right hu
  have hdiv : Int64.ofInt (d.scaled / Numeric.unit) = n := by
    rw [hscaled, Int.mul_ediv_cancel _ hu.ne', Int64.ofInt_toInt]
  unfold float
  rw [hwhole, Bool.true_and, hnan, hdiv]
  by_cases hlt : |n.toInt| < 9000000000000000000
  · rw [if_pos (decide_eq_true (hsmall.mpr hlt)), if_pos hlt]
  · rw [if_neg (by simpa [hsmall] using hlt), if_neg hlt, if_neg Bool.false_ne_true]

theorem quantity_nan_iff (d : F64) : d.quantity = .nan ↔ d.isNan = true := by
  unfold F64.quantity
  cases d.isNan with
  | true => simp
  | false =>
    cases d.isInfinite with
    | true => cases d.negative <;> simp
    | false => simp

theorem eqv_of_quantity {x y : F64} (h : x.quantity = y.quantity) (hnan : x.isNan = false) : x.eqv y = true := by
  have hne : y.quantity ≠ .nan := by
    rw [← h]
    simp [quantity_nan_iff, hnan]
  unfold F64.eqv
  rw [F64.partialCmp_spec, h]
  cases hy : y.quantity with
  | nan => exact absurd hy hne
  | fin q =>
    have hself : compare q q = .eq := compare_eq_iff_eq.mpr rfl
    simp [Quantity.partialCmp, Quantity.cmp, hself]
  | negInf => rfl
  | posInf => rfl

theorem float_of_nan {d : F64} (h : d.isNan = true) : float d = .float F64.nan.bits := by
  have hfin : d.isFinite = false := by
    unfold F64.isNan at h
    unfold F64.isFinite
    rw [Bool.and_eq_true] at h
    simp only [bne, h.1, Bool.not_true]
  unfold float isWhole
  rw [hfin, h]
  rfl

theorem float_of_zero {d : F64} (hfin : d.isFinite = true) (h : d.scaled = 0) : float d = .int 0 := by
  have hu := Numeric.unit_pos
  unfold float isWhole
  rw [hfin, h, Int.zero_emod, Int.zero_ediv, abs_zero, if_pos]
  · rfl
  · simp only [beq_self_eq_true, Bool.true_and, decide_eq_true_eq]
    omega

theorem float_congr {x y : F64} (h : x.quantity = y.quantity) : float x = float y := by
  cases hx : x.isNan with
  | true =>
    have hy : y.isNan = true := by rw [← quantity_nan_iff, ← h, quantity_nan_iff, hx]
    rw [float_of_nan hx, float_of_nan hy]
  | false =>
    have heqv := eqv_of_quantity h hx
    have hbits : x.bits = y.bits → float x = float y := by
      intro hb
      cases x
      cases y
      rw [F64.mk.injEq _ _ |>.mpr hb]
    rw [Distinct.eqv_iff] at heqv
    obtain ⟨hnan, heqv⟩ := heqv
    split at heqv
    · -- one infinity
      obtain ⟨hix, hiy, hneg⟩ := heqv
      unfold F64.isInfinite at hix hiy
      rw [Bool.and_eq_true, beq_iff_eq, beq_iff_eq] at hix hiy
      exact hbits (Distinct.bits_eq hneg (hix.1.trans hiy.1.symm) (hix.2.trans hiy.2.symm))
    · rename_i hinf
      obtain ⟨hix, hiy⟩ := Bool.or_eq_false_iff.mp (Bool.not_eq_true _ ▸ hinf)
      obtain ⟨-, hy⟩ := Bool.or_eq_false_iff.mp hnan
      by_cases hzero : x.scaled = 0
      · rw [float_of_zero (isFinite_of_not hx hix) hzero, float_of_zero (isFinite_of_not hy hiy) (heqv ▸ hzero)]
      · exact hbits (Distinct.bits_eq_of_scaled heqv hzero)

/-! ## Equal values -/

/-- The value of an integer of either size. -/
def asInt64 : Bson → Option Int64
  | .int32 n => some n.toInt64
  | .int64 n => some n
  | _ => none

theorem integer_spec {v : Bson} {n : Int64} (h : asInt64 v = some n) :
    pkey v = some (.int n) ∧ quantity v = some (.fin n.toInt) := by
  cases v with
  | int32 m =>
    obtain rfl := Option.some.inj h
    rw [Int32.toInt_toInt64]
    exact ⟨rfl, rfl⟩
  | int64 m =>
    obtain rfl := Option.some.inj h
    exact ⟨rfl, rfl⟩
  | _ => cases h

theorem parted_integers {v w : Bson} {m n : Int64} (hv : asInt64 v = some m) (hw : asInt64 w = some n) :
    parted v w = false := by
  cases v <;> cases w <;> first
    | rfl
    | cases hv; done
    | cases hw

theorem parted_double {v : Bson} {n : Int64} (h : asInt64 v = some n) (d : F64) :
    parted v (.double d) = decide (9000000000000000000 ≤ |n.toInt|) := by
  cases v with
  | int32 m =>
    obtain rfl := Option.some.inj h
    have hle := m.le_toInt
    have hlt := m.toInt_lt
    have habs : |m.toInt| < 9000000000000000000 := by
      rw [abs_lt]
      constructor <;> omega
    rw [Int32.toInt_toInt64, decide_eq_false (not_le.mpr habs)]
    rfl
  | int64 m =>
    obtain rfl := Option.some.inj h
    rfl
  | _ => cases h

theorem int_float_iff {v : Bson} {n : Int64} (h : asInt64 v = some n) {d : F64} (hd : d.quantity = .fin n.toInt) :
    PKey.int n = float d ↔ parted v (.double d) = false := by
  rw [parted_double h, float_of_int hd, decide_eq_false_iff_not, not_le]
  split
  · rename_i hlt
    exact ⟨fun _ => hlt, fun _ => rfl⟩
  · rename_i hlt
    exact ⟨fun heq => (nomatch heq), fun h => absurd h hlt⟩

theorem integer_or_double {v : Bson} {q : Quantity} {k : PKey} (hv : quantity v = some q) (hk : pkey v = some k) :
    (∃ n, asInt64 v = some n) ∨ ∃ d, v = .double d := by
  cases v with
  | int32 n => exact Or.inl ⟨_, rfl⟩
  | int64 n => exact Or.inl ⟨_, rfl⟩
  | double d => exact Or.inr ⟨d, rfl⟩
  | decimal128 d => cases hk
  | _ => cases hv

/-- Equal numbers share a bucket unless one is an int64 too large to be looked for as a double. -/
theorem pkey_number {v w : Bson} {q : Quantity} (hv : quantity v = some q) (hw : quantity w = some q)
    {k l : PKey} (hk : pkey v = some k) (hl : pkey w = some l) : k = l ↔ parted v w = false := by
  rcases integer_or_double hv hk with ⟨m, hm⟩ | ⟨x, rfl⟩ <;>
    rcases integer_or_double hw hl with ⟨n, hn⟩ | ⟨y, rfl⟩
  · rw [(integer_spec hm).1] at hk
    rw [(integer_spec hn).1] at hl
    rw [(integer_spec hm).2, ← hw, (integer_spec hn).2] at hv
    obtain rfl : m = n := by simpa [Int64.toInt_inj] using hv
    rw [parted_integers hm hn]
    exact ⟨fun _ => rfl, fun _ => Option.some.inj (hk.symm.trans hl)⟩
  · rw [(integer_spec hm).1] at hk
    rw [(integer_spec hm).2, ← hw] at hv
    rw [← Option.some.inj hk, ← Option.some.inj hl]
    exact int_float_iff hm (Option.some.inj hv).symm
  · rw [(integer_spec hn).1] at hl
    rw [(integer_spec hn).2, ← hv] at hw
    rw [← Option.some.inj hk, ← Option.some.inj hl, eq_comm, parted_comm]
    exact int_float_iff hn (Option.some.inj hw).symm
  · rw [← Option.some.inj hk, ← Option.some.inj hl]
    have hxy : x.quantity = y.quantity := Option.some.inj (hv.trans hw.symm)
    exact ⟨fun _ => rfl, fun _ => float_congr hxy⟩

theorem eqScalar_null {v w : Bson} (hv : (pkey v).isSome = true) (hw : (pkey w).isSome = true)
    (h : eqScalar v w = .ok true) : v = .null ↔ w = .null := by
  constructor
  · rintro rfl
    cases w <;> first
      | rfl
      | cases hw; done
      | simp [eqScalar, eqPlain, isJavaScript, isExotic, isBoolean, Numeric.isNanBson, Numeric.fastEq,
          Numeric.fastCmp, Numeric.classify] at h
  · rintro rfl
    cases v <;> first
      | rfl
      | cases hv; done
      | simp [eqScalar, eqPlain, isJavaScript, isExotic, isBoolean, Numeric.isNanBson, Numeric.fastEq,
          Numeric.fastCmp, Numeric.classify] at h

theorem plainScalar_of_pkey {v : Bson} (h : (pkey v).isSome = true) (hnull : v ≠ .null) : plainScalar v = true := by
  cases v <;> first
    | rfl
    | cases h; done
    | exact absurd rfl hnull

/-- Equal values with a bucket share one, unless one is an int64 too large to be looked for as a double. -/
theorem pkey_eq_iff {v w : Bson} {k l : PKey} (hk : pkey v = some k) (hl : pkey w = some l)
    (h : eqScalar v w = .ok true) : k = l ↔ parted v w = false := by
  have hvs : (pkey v).isSome = true := by rw [hk]; rfl
  have hws : (pkey w).isSome = true := by rw [hl]; rfl
  by_cases hnull : v = .null
  · obtain rfl := (eqScalar_null hvs hws h).mp hnull
    subst hnull
    exact ⟨fun _ => rfl, fun _ => Option.some.inj (hk.symm.trans hl)⟩
  · have hv := plainScalar_of_pkey hvs hnull
    have hw := plainScalar_of_pkey hws fun hnull' => hnull ((eqScalar_null hvs hws h).mpr hnull')
    have hrank : typeRank v = typeRank w := by
      by_contra hne
      rw [eqScalar_apart hv hw hne] at h
      cases h
    by_cases hq : ∃ p q, quantity v = some p ∧ quantity w = some q
    · obtain ⟨p, q, hp, hq⟩ := hq
      rw [eqScalar_number hp hq, Except.ok.injEq, beq_iff_eq, Quantity.cmp_eq_iff] at h
      exact pkey_number (h ▸ hp) hq hk hl
    · -- two values of one type that is not the numbers'
      have hsame : v = w := by
        cases v <;> first
          | cases hk; done
          | cases w <;> first
            | cases hl; done
            | exact absurd hrank (by decide)
            | exact absurd ⟨_, _, rfl, rfl⟩ hq
            | simpa [eqScalar, eqPlain, isJavaScript, isExotic, isBoolean, Numeric.isNanBson, Numeric.fastEq,
                Numeric.fastCmp, Numeric.classify] using h
      subst hsame
      have hnot : parted v v = false := by cases v <;> rfl
      exact ⟨fun _ => hnot, fun _ => Option.some.inj (hk.symm.trans hl)⟩

/-- The same for any equal values: a value without a bucket shares none with one that has. -/
theorem pkey_eq_iff_of_eqScalar {v w : Bson} (h : eqScalar v w = .ok true) :
    pkey v = pkey w ↔ (pkey v).isSome = (pkey w).isSome ∧ parted v w = false := by
  cases hk : pkey v with
  | none =>
    cases hl : pkey w with
    | none =>
      have hnot : parted v w = false := by
        cases v <;> first
          | rfl
          | cases hk; done
      exact ⟨fun _ => ⟨rfl, hnot⟩, fun _ => rfl⟩
    | some l => simp
  | some k =>
    cases hl : pkey w with
    | none => simp
    | some l =>
      rw [Option.some.injEq, pkey_eq_iff hk hl h]
      exact ⟨fun hp => ⟨rfl, hp⟩, fun hp => hp.2⟩

end Secantus.ScanPartitions
