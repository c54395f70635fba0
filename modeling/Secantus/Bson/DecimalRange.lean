/-
  The numbers a Decimal128 holds.

  * `Decimal128.ofValue` encodes a value, so every 34-digit coefficient and exponent has its bytes;
  * `exists_decimal_iff`: trimmed digits are a Decimal128's number just when there are at most 34 of them, none
    below `10^-6176`, and the first is below `10^6145`;
  * `no_decimal_between`: next to 34 digits, or at `10^-6176`, there is nothing between two neighbours.
-/
import Secantus.Bson.Quantity
import Secantus.Wire.Format

namespace Secantus

open Digits Wire

namespace Decimal128

/-! ## Encoding -/

/-- The encoding of a value as a number. -/
def valueBits : DecimalValue → ℕ
  | .nan => 31 * 2 ^ 122
  | .inf neg => (if neg then 2 ^ 127 else 0) + 30 * 2 ^ 122
  | .finite neg coeff exp => (if neg then 2 ^ 127 else 0) + exp * 2 ^ 113 + coeff

def ofValue (v : DecimalValue) : Decimal128 := ⟨leBytes 16 (valueBits v), length_leBytes 16 _⟩

theorem valueBits_lt (v : DecimalValue) : valueBits v < 256 ^ 16 := by
  cases v with
  | nan => decide
  | inf neg => cases neg <;> decide
  | finite neg coeff exp =>
    have hc := coeff.isLt
    have he := exp.isLt
    cases neg <;> simp only [valueBits, Bool.false_eq_true, if_true, if_false] <;> omega

theorem value_ofValue (v : DecimalValue) : (ofValue v).value = v := by
  unfold value
  simp only [ofValue, ofLeBytes_leBytes (valueBits_lt v)]
  cases v with
  | nan => rfl
  | inf neg => cases neg <;> rfl
  | finite neg coeff exp =>
    have hc := coeff.isLt
    have he := exp.isLt
    have hbits : ∃ sign < 2, (sign == 1) = neg ∧
        valueBits (.finite neg coeff exp) = sign * 2 ^ 127 + exp * 2 ^ 113 + coeff := by
      cases neg
      · exact ⟨0, by decide, rfl, rfl⟩
      · exact ⟨1, by decide, rfl, rfl⟩
    obtain ⟨sign, hsign, hneg, hbits⟩ := hbits
    have hcomb : valueBits (.finite neg coeff exp) / 2 ^ 122 % 32 = exp / 2 ^ 9 := by omega
    have hsign' : valueBits (.finite neg coeff exp) / 2 ^ 127 % 2 = sign := by omega
    have hcoeff : valueBits (.finite neg coeff exp) % 2 ^ 113 = coeff := by omega
    have hexp : valueBits (.finite neg coeff exp) / 2 ^ 113 % 2 ^ 14 = exp := by omega
    rw [hcomb, hsign', hneg, hcoeff, hexp, if_neg (by omega), if_neg (by omega), if_neg (by omega), if_pos hc]
    congr 1
    · exact Fin.ext (Nat.mod_eq_of_lt hc)
    · exact Fin.ext (Nat.mod_eq_of_lt he)

/-! ## The numbers -/

/-- The largest exponent. -/
def maxExponent : ℤ := 6111

/-- The sign of a number. -/
def signed (neg : Bool) (q : ℚ) : ℚ := if neg then -q else q

theorem abs_signed (neg : Bool) {q : ℚ} (hq : 0 ≤ q) : |signed neg q| = q := by
  unfold signed
  split
  · rw [abs_neg, abs_of_nonneg hq]
  · exact abs_of_nonneg hq

theorem finite_of_quantity {d : Decimal128} {q : ℚ} (h : d.quantity = .fin q) :
    ∃ (neg : Bool) (k : ℕ) (x : ℤ), k < 10 ^ 34 ∧ -6176 ≤ x ∧ x ≤ 6111 ∧ q = signed neg (k * 10 ^ x) := by
  unfold Decimal128.quantity at h
  cases hv : d.value with
  | nan =>
    rw [hv] at h
    cases h
  | inf neg =>
    rw [hv] at h
    cases neg <;> cases h
  | finite neg coeff exp =>
    rw [hv] at h
    have hx := unbias_range exp
    refine ⟨neg, coeff, unbias exp, coeff.isLt, hx.1, by omega, ?_⟩
    cases h
    unfold signed
    split
    · ring
    · ring

theorem exists_decimal (neg : Bool) {k : ℕ} {x : ℤ} (hk : k < 10 ^ 34) (hlo : -6176 ≤ x) (hhi : x ≤ 6111) :
    ∃ d : Decimal128, d.quantity = .fin (signed neg (k * 10 ^ x)) := by
  have hexp : (x + 6176).toNat < 12288 := by omega
  refine ⟨ofValue (.finite neg ⟨k, hk⟩ ⟨(x + 6176).toNat, hexp⟩), ?_⟩
  have hx : unbias ⟨(x + 6176).toNat, hexp⟩ = x := by
    unfold unbias
    dsimp only
    omega
  unfold Decimal128.quantity
  rw [value_ofValue, DecimalValue.quantity, hx]
  unfold signed
  congr 1
  split
  · ring
  · ring

theorem signed_inj {neg neg' : Bool} {p q : ℚ} (hp : 0 < p) (hq : 0 ≤ q) (h : signed neg p = signed neg' q) :
    p = q := by
  have habs := congrArg abs h
  rwa [abs_signed neg hp.le, abs_signed neg' hq] at habs

/-- Trimmed digits are the number of a Decimal128 just when they fit its digits and its exponents. -/
theorem exists_decimal_iff (neg : Bool) {ds : List ℕ} {e : ℤ} (h : Trimmed 10 ds) (hne : ds ≠ []) :
    (∃ d : Decimal128, d.quantity = .fin (signed neg (mag 10 ds e))) ↔
      ds.length ≤ 34 ∧ -6176 ≤ e ∧ e + ds.length ≤ 6145 := by
  have hlt := value_lt_pow (b := 10) (by decide) h.digit
  constructor
  · rintro ⟨d, hd⟩
    obtain ⟨neg', k, x, hk, hlo, hhi, hq⟩ := finite_of_quantity hd
    have heq : mag 10 ds e = k * 10 ^ x :=
      signed_inj (mag_pos (by decide) hne h e) (by positivity) hq
    have hx : x ≤ e := by
      by_contra hlt
      obtain ⟨n, hn⟩ : ∃ n : ℕ, x = e + (n + 1) := ⟨(x - e - 1).toNat, by omega⟩
      have hv : (Digits.value 10 ds : ℚ) = k * 10 ^ (n + 1) := by
        have hpos : (0 : ℚ) < 10 ^ e := by positivity
        have hmag : (Digits.value 10 ds : ℚ) * 10 ^ e = k * 10 ^ x := by simpa [mag] using heq
        refine mul_right_cancel₀ hpos.ne' ?_
        rw [hmag, hn, zpow_add₀ (by norm_num), zpow_add_one₀ (by norm_num), zpow_natCast, pow_succ]
        ring
      have hv' : Digits.value 10 ds = k * 10 ^ n * 10 := by
        rw [mul_assoc, ← pow_succ]
        exact_mod_cast hv
      exact value_mod_ne h hne (by rw [hv', Nat.mul_mod_left])
    obtain ⟨n, hn⟩ : ∃ n : ℕ, e = x + n := ⟨(e - x).toNat, by omega⟩
    have hv : Digits.value 10 ds * 10 ^ n = k := by
      have hpos : (0 : ℚ) < 10 ^ x := by positivity
      have hcast : (Digits.value 10 ds : ℚ) * 10 ^ n = k := by
        refine mul_right_cancel₀ hpos.ne' ?_
        rw [← heq, mag, hn, zpow_add₀ (by norm_num), zpow_natCast]
        push_cast
        ring
      exact_mod_cast hcast
    have hdigits : 10 ^ (ds.length - 1 + n) < 10 ^ 34 := by
      rw [Nat.pow_add]
      exact (Nat.mul_le_mul_right _ (pow_le_value (by decide) h hne)).trans_lt (hv ▸ hk)
    have hlen := (Nat.pow_lt_pow_iff_right (by decide)).mp hdigits
    have hpos := List.length_pos_iff.mpr hne
    omega
  · rintro ⟨hlen, hlo, hhi⟩
    by_cases he : e ≤ 6111
    · exact exists_decimal neg (hlt.trans_le (Nat.pow_le_pow_right (by decide) hlen)) hlo he
    · obtain ⟨n, hn⟩ : ∃ n : ℕ, e = n + maxExponent := ⟨(e - maxExponent).toNat, by unfold maxExponent; omega⟩
      have hk : Digits.value 10 ds * 10 ^ n < 10 ^ 34 := by
        calc Digits.value 10 ds * 10 ^ n < 10 ^ ds.length * 10 ^ n :=
              Nat.mul_lt_mul_of_pos_right hlt (by positivity)
          _ = 10 ^ (ds.length + n) := (Nat.pow_add 10 _ _).symm
          _ ≤ 10 ^ 34 := Nat.pow_le_pow_right (by decide) (by unfold maxExponent at hn; omega)
      obtain ⟨d, hd⟩ := exists_decimal neg hk (x := maxExponent) (by decide) le_rfl
      refine ⟨d, hd.trans ?_⟩
      have hmag : mag 10 ds e = ((Digits.value 10 ds * 10 ^ n : ℕ) : ℚ) * 10 ^ maxExponent := by
        rw [mag, hn, zpow_add₀ (by norm_num), zpow_natCast]
        push_cast
        exact (mul_assoc _ _ _).symm
      rw [hmag]

/-! ## Neighbours -/

theorem abs_le_max {d : Decimal128} {q : ℚ} (h : d.quantity = .fin q) :
    |q| ≤ ((10 ^ 34 - 1 : ℕ) : ℚ) * 10 ^ maxExponent := by
  obtain ⟨neg, k, x, hk, -, hx, rfl⟩ := finite_of_quantity h
  have hk' : (k : ℚ) ≤ ((10 ^ 34 - 1 : ℕ) : ℚ) := by exact_mod_cast Nat.le_sub_one_of_lt hk
  replace hx : x ≤ maxExponent := hx
  generalize maxExponent = m at hx ⊢
  have hpow : (10 : ℚ) ^ x ≤ 10 ^ m := zpow_le_zpow_right₀ (by norm_num) hx
  rw [abs_signed neg (by positivity)]
  calc (k : ℚ) * 10 ^ x ≤ ((10 ^ 34 - 1 : ℕ) : ℚ) * 10 ^ x := mul_le_mul_of_nonneg_right hk' (by positivity)
    _ ≤ ((10 ^ 34 - 1 : ℕ) : ℚ) * 10 ^ m := mul_le_mul_of_nonneg_left hpow (Nat.cast_nonneg _)

/-- Of two neighbours at the lowest exponent, or with 34 digits, nothing is between. -/
theorem no_decimal_between {d : Decimal128} {q : ℚ} (h : d.quantity = .fin q) {k : ℕ} {t : ℤ}
    (hk : t = -6176 ∨ 10 ^ 33 ≤ k) : |q| ≤ k * 10 ^ t ∨ ((k + 1 : ℕ) : ℚ) * 10 ^ t ≤ |q| := by
  obtain ⟨neg, c, x, hc, hx, -, rfl⟩ := finite_of_quantity h
  rw [abs_signed neg (by positivity)]
  by_cases hxt : t ≤ x
  · -- a multiple of the step
    obtain ⟨n, hn⟩ : ∃ n : ℕ, x = n + t := ⟨(x - t).toNat, by omega⟩
    have hmul : (c : ℚ) * 10 ^ x = ((c * 10 ^ n : ℕ) : ℚ) * 10 ^ t := by
      rw [hn, zpow_add₀ (by norm_num), zpow_natCast]
      push_cast
      exact (mul_assoc _ _ _).symm
    have hpos : (0 : ℚ) ≤ 10 ^ t := by positivity
    rw [hmul]
    rcases Nat.lt_or_ge k (c * 10 ^ n) with hlt | hge
    · exact .inr (mul_le_mul_of_nonneg_right (by exact_mod_cast hlt) hpos)
    · exact .inl (mul_le_mul_of_nonneg_right (by exact_mod_cast hge) hpos)
  · -- a finer exponent reaches only what has fewer digits
    have hk' : 10 ^ 33 ≤ k := hk.resolve_left (by omega)
    have hc' : (c : ℚ) ≤ 10 ^ 34 := by exact_mod_cast hc.le
    have hk'' : (10 : ℚ) ^ 33 ≤ k := by exact_mod_cast hk'
    left
    calc (c : ℚ) * 10 ^ x ≤ 10 ^ 34 * 10 ^ x := mul_le_mul_of_nonneg_right hc' (by positivity)
      _ = 10 ^ 33 * 10 ^ (x + 1) := by
        rw [zpow_add_one₀ (by norm_num)]
        ring
      _ ≤ 10 ^ 33 * 10 ^ t :=
        mul_le_mul_of_nonneg_left (zpow_le_zpow_right₀ (by norm_num) (by omega)) (by positivity)
      _ ≤ k * 10 ^ t := mul_le_mul_of_nonneg_right hk'' (by positivity)

end Decimal128

end Secantus
