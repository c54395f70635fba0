/-
  A numeric fitted to `numeric(precision, scale)` (`apply_numeric_typmod`).

  The scale is a signed field of the modifier; a negative one rounds to the left of the point. A number fits where
  it has no more integer digits than the precision leaves once it is rounded (`applyNumericTypmod_spec`).
-/
import Secantus.PgNumeric.Arith
import Secantus.PgNumeric.Reader
import Mathlib.Algebra.Order.Floor.Semifield

namespace Secantus.PgNumeric

open Secantus Digits Rounding

/-- The modifier of `numeric(p, s)`: `((p << 16) | (s & 0x7FF)) + 4`. -/
def numericTypmod (p s : ℤ) : ℤ := p * 65536 + s % 2048 + 4

def fieldOverflow : NumericError := .sqlstate "22003" "numeric field overflow"

def applyNumericTypmod (canonical : Text) (typmod : ℤ) : Except NumericError Text :=
  if typmod < 4 then .ok canonical
  else
    let precision := (typmod - 4) / 65536
    let scale := ((typmod - 4) % 2048).toNat
    if canonical = Canonical.nan.text then .ok canonical
    else if canonical = (Canonical.inf false).text ∨ canonical = (Canonical.inf true).text then .error fieldOverflow
    else
      match Dec.parse canonical with
      | none => .ok canonical
      | some d =>
        -- the sign bit of the eleven
        let signedScale : ℤ := if scale < 1024 then scale else scale - 2048
        if signedScale < 0 then
          let shift := d.scale + signedScale.natAbs
          let q := roundHalfAway d.unscaled.natAbs (10 ^ shift)
          let digits : ℤ := if q = 0 then 0 else (digitText (decimalDigits q)).length
          if precision < digits then .error fieldOverflow
          else
            let value : ℤ := q * 10 ^ signedScale.natAbs
            canonicalNumericText (Dec.render ⟨if d.unscaled < 0 then -value else value, 0⟩)
        else
          let unscaled :=
            if scale < d.scale then
              let q : ℤ := roundHalfAway d.unscaled.natAbs (10 ^ (d.scale - scale))
              if d.unscaled < 0 then -q else q
            else d.unscaled * 10 ^ (scale - d.scale)
          let t := digitText (decimalDigits (unscaled.natAbs / 10 ^ scale))
          let intDigits : ℤ := if t = ['0'] then 0 else t.length
          if precision - scale < intDigits then .error fieldOverflow
          else canonicalNumericText (Dec.render ⟨unscaled, scale⟩)

/-- How many digits a number has before the point. -/
def integerDigits (q : ℚ) : ℕ := (Nat.digits 10 ⌊|q|⌋₊).length

/-! ## The fields of a modifier -/

section Modifier

variable {p s : ℤ}

theorem numericTypmod_precision : (numericTypmod p s - 4) / 65536 = p := by
  unfold numericTypmod
  omega

theorem numericTypmod_scale : ((numericTypmod p s - 4) % 2048).toNat = (s % 2048).toNat := by
  unfold numericTypmod
  omega

theorem numericTypmod_ge (hp : 0 ≤ p) : ¬numericTypmod p s < 4 := by
  unfold numericTypmod
  omega

end Modifier

theorem applyNumericTypmod_nan (typmod : ℤ) :
    applyNumericTypmod Canonical.nan.text typmod = .ok Canonical.nan.text := by
  unfold applyNumericTypmod
  split
  · rfl
  · exact if_pos rfl

theorem applyNumericTypmod_inf (neg : Bool) {typmod : ℤ} (h : ¬typmod < 4) :
    applyNumericTypmod (Canonical.inf neg).text typmod = .error fieldOverflow := by
  unfold applyNumericTypmod
  rw [if_neg h]
  cases neg with
  | true => rfl
  | false => rfl

/-! ## Integer digits -/

theorem length_decimalDigits_of_ne {n : ℕ} (h : n ≠ 0) : (digitText (decimalDigits n)).length = (Nat.digits 10 n).length := by
  unfold decimalDigits
  rw [if_neg h, length_digitText, List.length_reverse]

theorem digitText_eq_zero_iff (n : ℕ) : digitText (decimalDigits n) = ['0'] ↔ n = 0 := by
  constructor
  · intro h
    have hdigits := filterMap_toDigit (decimalDigits_lt n)
    rw [h] at hdigits
    rw [← value_decimalDigits n, ← hdigits]
    rfl
  · rintro rfl
    rfl

theorem digitText_count (n : ℕ) : (if digitText (decimalDigits n) = ['0'] then (0 : ℤ)
    else (digitText (decimalDigits n)).length) = (Nat.digits 10 n).length := by
  split
  · next h0 =>
    rw [(digitText_eq_zero_iff n).mp h0, Nat.digits_zero]
    rfl
  · next h0 => rw [length_decimalDigits_of_ne (mt (digitText_eq_zero_iff n).mpr h0)]

theorem integerDigits_dec (d : Dec) : integerDigits d.value = (Nat.digits 10 (d.unscaled.natAbs / 10 ^ d.scale)).length := by
  have hcast : |d.value| = (d.unscaled.natAbs : ℚ) / (10 ^ d.scale : ℕ) := by
    rw [d.abs_value]
    push_cast
    rfl
  unfold integerDigits
  rw [hcast, Nat.floor_div_eq_div]

theorem fits_of_integerDigits {d : Dec} (h : integerDigits d.value ≤ MAX_INT_DIGITS) (hs : d.scale ≤ MAX_SCALE) : d.Fits := by
  rw [integerDigits_dec] at h
  have hlt : d.unscaled.natAbs / 10 ^ d.scale < 10 ^ MAX_INT_DIGITS :=
    (Nat.lt_base_pow_length_digits (by decide)).trans_le (Nat.pow_le_pow_right (by decide) h)
  rw [Nat.div_lt_iff_lt_mul (Nat.pow_pos (by decide)), ← pow_add] at hlt
  exact ⟨hlt, hs⟩

/-! ## The rounded number -/

/-- Rounding a decimal is dividing its unscaled number, with the sign put back. -/
theorem halfAway_dec (d : Dec) {s : ℤ} {k : ℕ} (hk : (d.scale : ℤ) - s = k) : halfAway (d.value * 10 ^ s) =
    if d.unscaled < 0 then -(roundHalfAway d.unscaled.natAbs (10 ^ k) : ℤ) else roundHalfAway d.unscaled.natAbs (10 ^ k) := by
  have hten : 0 < 10 ^ k := Nat.pow_pos (by decide)
  have hround := signed_roundHalfAway (decide (d.unscaled < 0)) d.unscaled.natAbs hten
  have hs : s = d.scale - k := by omega
  have hvalue : d.value * 10 ^ s = (d.unscaled : ℚ) / (10 ^ k : ℕ) := by
    unfold Dec.value
    rw [hs, zpow_sub₀ (by norm_num), zpow_natCast, zpow_natCast]
    push_cast
    field_simp
  have hsign : (d.unscaled : ℚ) / (10 ^ k : ℕ) = if decide (d.unscaled < 0) then
      -((d.unscaled.natAbs : ℚ) / (10 ^ k : ℕ)) else (d.unscaled.natAbs : ℚ) / (10 ^ k : ℕ) := by
    rw [Nat.cast_natAbs, Int.cast_abs]
    by_cases hneg : d.unscaled < 0
    · rw [abs_of_neg (by exact_mod_cast hneg), if_pos (by simpa using hneg), neg_div, neg_neg]
    · rw [abs_of_nonneg (by exact_mod_cast not_lt.mp hneg), if_neg (by simpa using hneg)]
  rw [hvalue, hsign, ← hround]
  simp only [decide_eq_true_eq]

theorem roundTo_eq (q : ℚ) (s : ℤ) : roundTo 10 q s = halfAway (q * 10 ^ s) / 10 ^ s := by
  unfold roundTo
  rw [Nat.cast_ofNat]

/-- What is rounded fits or overflows by its integer digits. -/
theorem fit_spec {p s : ℤ} (hp : p < 2 ^ 15) (hs : -1024 ≤ s ∧ s < 1024) {out : Dec} {r : ℚ} (hv : out.value = r)
    (hscale : out.scale = s.toNat) {wide : Prop} [Decidable wide] (hwide : wide ↔ p - s < integerDigits r) :
    (p - s < integerDigits r → (if wide then .error fieldOverflow else canonicalNumericText out.render) = .error fieldOverflow) ∧
    (¬p - s < integerDigits r → ∃ t, (if wide then .error fieldOverflow else canonicalNumericText out.render) = .ok t ∧
      canonicalNumericText t = .ok t ∧ reading t = some (.fin r, s.toNat)) := by
  constructor
  · intro h
    rw [if_pos (hwide.mpr h)]
  · intro h
    have hfits : out.Fits := by
      refine fits_of_integerDigits ?_ ?_
      · rw [hv]
        unfold MAX_INT_DIGITS
        omega
      · rw [hscale]
        unfold MAX_SCALE
        omega
    have hcanonical : canonicalNumericText out.render = .ok out.render := by
      rw [out.canonicalNumericText_render, if_pos hfits]
    refine ⟨out.render, ?_, hcanonical, ?_⟩
    · rw [if_neg (mt hwide.mp h), hcanonical]
    · rw [out.reading_render, hv, hscale]

/-- A scale that is not negative: rounded to it, or zeros added behind. -/
theorem fitted_value (d : Dec) (s : ℕ) : (⟨if s < d.scale then
      (if d.unscaled < 0 then -(roundHalfAway d.unscaled.natAbs (10 ^ (d.scale - s)) : ℤ)
        else roundHalfAway d.unscaled.natAbs (10 ^ (d.scale - s)))
      else d.unscaled * 10 ^ (s - d.scale), s⟩ : Dec).value = roundTo 10 d.value s := by
  split
  · next hlt =>
    have hk : (d.scale : ℤ) - (s : ℤ) = (d.scale - s : ℕ) := by omega
    rw [← halfAway_dec d hk, roundTo_eq]
    unfold Dec.value
    rw [zpow_natCast]
  · next hge =>
    have hlift : ((d.lift s : ℤ) : ℚ) / 10 ^ s = d.value := d.lift_value (not_lt.mp hge)
    have hint : d.value * ((10 : ℕ) : ℚ) ^ (s : ℤ) = d.lift s := by
      rw [← hlift, zpow_natCast, Nat.cast_ofNat, div_mul_cancel₀ _ (by positivity)]
    rw [roundTo_of_int (by decide) hint]
    exact hlift

/-- A negative scale: zeros before the point. -/
theorem fitted_value_neg (d : Dec) (k : ℕ) : (⟨if d.unscaled < 0 then
      -((roundHalfAway d.unscaled.natAbs (10 ^ (d.scale + k)) : ℤ) * 10 ^ k)
      else (roundHalfAway d.unscaled.natAbs (10 ^ (d.scale + k)) : ℤ) * 10 ^ k, 0⟩ : Dec).value =
    roundTo 10 d.value (-k) := by
  have hk : (d.scale : ℤ) - (-k : ℤ) = (d.scale + k : ℕ) := by omega
  rw [roundTo_eq, halfAway_dec d hk, zpow_neg, zpow_natCast, div_inv_eq_mul]
  unfold Dec.value
  split
  · push_cast
    ring
  · push_cast
    ring

theorem integerDigits_scaled (neg : Prop) [Decidable neg] (q k : ℕ) :
    integerDigits (⟨if neg then -((q : ℤ) * 10 ^ k) else (q : ℤ) * 10 ^ k, 0⟩ : Dec).value =
      if q = 0 then 0 else (Nat.digits 10 q).length + k := by
  have habs : (if neg then -((q : ℤ) * 10 ^ k) else (q : ℤ) * 10 ^ k).natAbs = 10 ^ k * q := by
    split
    · rw [Int.natAbs_neg, Int.natAbs_mul, Int.natAbs_pow, Int.natAbs_natCast, mul_comm]
      rfl
    · rw [Int.natAbs_mul, Int.natAbs_pow, Int.natAbs_natCast, mul_comm]
      rfl
  rw [integerDigits_dec, habs, pow_zero, Nat.div_one]
  split
  · next h0 => rw [h0, mul_zero, Nat.digits_zero, List.length_nil]
  · next h0 =>
    rw [Nat.digits_base_pow_mul (by decide) (Nat.pos_of_ne_zero h0), List.length_append, List.length_replicate, Nat.add_comm]

/-- A number is rounded half away from zero to the scale, or overflows for its integer digits. -/
theorem applyNumericTypmod_spec {p s : ℤ} (hp : 0 ≤ p ∧ p < 2 ^ 15) (hs : -1024 ≤ s ∧ s < 1024) {c : Text} {d : Dec}
    (h : Dec.parse c = some d) :
    (p - s < integerDigits (roundTo 10 d.value s) → applyNumericTypmod c (numericTypmod p s) = .error fieldOverflow) ∧
    (¬p - s < integerDigits (roundTo 10 d.value s) → ∃ t, applyNumericTypmod c (numericTypmod p s) = .ok t ∧
      canonicalNumericText t = .ok t ∧ reading t = some (.fin (roundTo 10 d.value s), s.toNat)) := by
  have hmod := numericTypmod_ge (s := s) hp.1
  have hspecial : ∀ {u : Text}, Dec.parse u = none → c ≠ u := by
    rintro u hu rfl
    rw [h] at hu
    cases hu
  have hnan : c ≠ Canonical.nan.text := hspecial rfl
  have hinf : ¬(c = (Canonical.inf false).text ∨ c = (Canonical.inf true).text) := by
    rintro (hc | hc)
    · exact hspecial rfl hc
    · exact hspecial rfl hc
  have hfield : (if (s % 2048).toNat < 1024 then (((s % 2048).toNat : ℕ) : ℤ) else ((s % 2048).toNat : ℤ) - 2048) = s := by
    omega
  unfold applyNumericTypmod
  simp only [hmod, if_false, hnan, hinf, h, numericTypmod_precision, numericTypmod_scale, hfield]
  by_cases hneg : s < 0
  · rw [if_pos hneg]
    obtain ⟨k, rfl⟩ : ∃ k : ℕ, s = -k := ⟨s.natAbs, by omega⟩
    rw [Int.natAbs_neg, Int.natAbs_natCast]
    have hvalue := fitted_value_neg d k
    have hdigits := integerDigits_scaled (d.unscaled < 0) (roundHalfAway d.unscaled.natAbs (10 ^ (d.scale + k))) k
    rw [hvalue] at hdigits
    refine fit_spec hp.2 hs hvalue (show 0 = (-(k : ℤ)).toNat by omega) ?_
    rw [hdigits]
    split
    · omega
    · next h0 =>
      rw [length_decimalDigits_of_ne h0]
      omega
  · rw [if_neg hneg]
    obtain ⟨k, rfl⟩ : ∃ k : ℕ, s = k := ⟨s.toNat, by omega⟩
    have hk : ((k : ℤ) % 2048).toNat = k := by omega
    rw [hk]
    have hvalue := fitted_value d k
    refine fit_spec hp.2 hs hvalue rfl ?_
    rw [← hvalue, integerDigits_dec, digitText_count]

/-! ## The arithmetic of numeric texts -/

/-- An accepted input has a decimal, or it is a NaN or an infinity. -/
theorem parse_or_limit {t c : Text} (h : canonicalNumericText t = .ok c) :
    (∃ d, Dec.parse t = some d ∧ reading t = some (.fin d.value, d.scale)) ∨
      ∃ x, reading t = some (x, 0) ∧ ∀ q, x ≠ .fin q := by
  rcases canonicalNumericText_eq_ok h with ⟨c, rfl | ⟨neg, rfl⟩, rfl, hreading⟩ | ⟨d, hfits, rfl, hreading⟩
  · exact .inr ⟨_, hreading, fun q => Quantity.noConfusion⟩
  · refine .inr ⟨_, hreading, fun q => ?_⟩
    cases neg with
    | true => exact Quantity.noConfusion
    | false => exact Quantity.noConfusion
  · exact .inl ⟨d, Dec.parse_eq_some_of_ok h hfits, hreading⟩

/-- Canonical texts keep value and display scale; the operators are exact where the format has room for the result,
    division at the scale `div_scale` selects; a modifier rounds or overflows. -/
theorem numericText_exact {fromStr : Text → Option Decimal128} (hr : Reads fromStr) :
    (∀ t c, canonicalNumericText t = .ok c →
      canonicalNumericText c = .ok c ∧ reading c = reading t ∧
        ((∃ d, Dec.parse t = some d ∧ reading t = some (.fin d.value, d.scale)) ∨
          ∃ x, reading t = some (x, 0) ∧ ∀ q, x ≠ .fin q)) ∧
    (∀ op a b x y, Dec.parse a = some x → Dec.parse b = some y →
      (op = .div ∧ y.value = 0 → decimalArith fromStr op.symbol a b = some (.error .divisionByZero)) ∧
      (¬(op = .div ∧ y.value = 0) →
        (HasRoom (exactResult op x y).1 (exactResult op x y).2 →
          Answers (decimalArith fromStr op.symbol a b) (.fin (exactResult op x y).1) (exactResult op x y).2) ∧
        (¬HasRoom (exactResult op x y).1 (exactResult op x y).2 →
          decimalArith fromStr op.symbol a b = some (.error numericOverflow)))) ∧
    (∀ op a b ca cb x y s t, canonicalNumericText a = .ok ca → canonicalNumericText b = .ok cb →
      reading a = some (x, s) → reading b = some (y, t) → ((∀ q, x ≠ .fin q) ∨ ∀ q, y ≠ .fin q) →
      (∀ r, limitResult op x y = some r → Answers (decimalArith fromStr op.symbol a b) r 0) ∧
        (limitResult op x y = none → decimalArith fromStr op.symbol a b = some (.error .divisionByZero))) ∧
    ∀ p s : ℤ, 0 ≤ p ∧ p < 2 ^ 15 → -1024 ≤ s ∧ s < 1024 →
      (∀ c d, Dec.parse c = some d →
        (p - s < integerDigits (roundTo 10 d.value s) →
          applyNumericTypmod c (numericTypmod p s) = .error fieldOverflow) ∧
        (¬p - s < integerDigits (roundTo 10 d.value s) → ∃ t, applyNumericTypmod c (numericTypmod p s) = .ok t ∧
          canonicalNumericText t = .ok t ∧ reading t = some (.fin (roundTo 10 d.value s), s.toNat))) ∧
      applyNumericTypmod Canonical.nan.text (numericTypmod p s) = .ok Canonical.nan.text ∧
      ∀ neg, applyNumericTypmod (Canonical.inf neg).text (numericTypmod p s) = .error fieldOverflow := by
  refine ⟨fun t c h => ?_, fun op a b x y ha hb => ⟨?_, fun h => ?_⟩, ?_, fun p s hp hs => ⟨?_, ?_, fun neg => ?_⟩⟩
  · obtain ⟨hself, -, hreading⟩ := canonicalNumericText_canonical h
    exact ⟨hself, hreading, parse_or_limit h⟩
  · rintro ⟨rfl, hzero⟩
    exact decimalArith_div_zero ha hb hzero
  · exact decimalArith_finite hr op ha hb fun hop hzero => h ⟨hop, hzero⟩
  · exact fun op a b ca cb x y s t => decimalArith_limit hr op
  · exact fun c d hd => applyNumericTypmod_spec hp hs hd
  · exact applyNumericTypmod_nan _
  · exact applyNumericTypmod_inf neg (numericTypmod_ge hp.1)

/-- `1.50 * 1.50` is `2.2500`. -/
theorem numericText_exact_product :
    Answers (decimalArith readDecimal "*" "1.50".toList "1.50".toList) (.fin (9 / 4)) 4 := by
  have hparse : Dec.parse "1.50".toList = some ⟨150, 2⟩ := by decide
  have hexact : exactResult .mul ⟨150, 2⟩ ⟨150, 2⟩ = (9 / 4, 4) := by
    unfold exactResult Dec.value
    norm_num
  have hroom : HasRoom (9 / 4) 4 := by
    refine ⟨?_, by decide⟩
    calc |(9 / 4 : ℚ)| = 9 / 4 := abs_of_pos (by norm_num)
      _ < 10 := by norm_num
      _ ≤ 10 ^ MAX_INT_DIGITS := le_self_pow₀ (by norm_num) (by decide)
  have harith := ((numericText_exact reads_readDecimal).2.1 .mul _ _ _ _ hparse hparse).2 (by rintro ⟨h, -⟩; cases h)
  rw [hexact] at harith
  exact harith.1 hroom

/-- `1e-16383 * 0.1` is finite and has a decimal at PostgreSQL's scale, but no room. -/
theorem decimalArith_underflow : ∃ x y : Dec, Dec.parse "1e-16383".toList = some x ∧ Dec.parse "0.1".toList = some y ∧
    decimalArith readDecimal "*" "1e-16383".toList "0.1".toList = some (.error numericOverflow) := by
  have hx : Dec.parse "1e-16383".toList = some ⟨1, MAX_SCALE⟩ := by
    have hdec : (⟨false, ['1'], [], -16383⟩ : Literal).dec = ⟨1, MAX_SCALE⟩ := by
      have hpoint : shiftPoint 0 [1] [] (-16383) = ([0], List.replicate 16382 0 ++ [1]) := shiftPoint_of_le (by decide)
      have hvalue : ∀ n, Digits.value 10 ([0] ++ (List.replicate n 0 ++ [1])) = 1 := by
        intro n
        rw [value_append, value_append]
        simp [Digits.value, Nat.ofDigits_replicate_zero]
      unfold Literal.dec
      rw [show digitsOf ['1'] = [1] from rfl, show digitsOf [] = [] from rfl]
      dsimp only
      rw [hpoint, hvalue, List.length_append, List.length_replicate]
      rfl
    have hfits : (⟨1, MAX_SCALE⟩ : Dec).Fits := ⟨Nat.one_lt_pow (by decide) (by decide), le_rfl⟩
    have htext := canonicalNumericText_literal (t := "1e-16383".toList) (l := ⟨false, ['1'], [], -16383⟩) rfl rfl (by decide)
    rw [hdec, if_pos hfits] at htext
    exact Dec.parse_eq_some_of_ok htext hfits
  have hy : Dec.parse "0.1".toList = some ⟨1, 1⟩ := by decide
  refine ⟨_, _, hx, hy, (decimalArith_finite reads_readDecimal .mul hx hy (by decide)).2 ?_⟩
  rintro ⟨-, hscale⟩
  exact absurd hscale (by decide)

end Secantus.PgNumeric
