/-
  Rounding half away from zero, to an integer and to a number of digits.

  * `eq_halfAway_iff`: it is the nearest integer, and of two the one further from zero;
  * `halfAway_div`: of a quotient of naturals, by the remainder.
-/
import Mathlib.Algebra.Order.Floor.Ring
import Mathlib.Algebra.Order.Field.Power
import Mathlib.Data.Rat.Floor
import Mathlib.Tactic.FieldSimp
import Mathlib.Tactic.Linarith
import Mathlib.Tactic.Positivity
import Mathlib.Tactic.Ring

namespace Rounding

/-- The nearest integer, halves away from zero. -/
def halfAway (q : ℚ) : ℤ := if 0 ≤ q then ⌊q + 1 / 2⌋ else -⌊-q + 1 / 2⌋

/-- The nearest number with `s` digits behind the point, or that many zeros before it where `s` is negative. -/
def roundTo (b : ℕ) (q : ℚ) (s : ℤ) : ℚ := halfAway (q * (b : ℚ) ^ s) / (b : ℚ) ^ s

theorem halfAway_of_nonneg {q : ℚ} (h : 0 ≤ q) : halfAway q = ⌊q + 1 / 2⌋ := if_pos h

@[simp] theorem halfAway_zero : halfAway 0 = 0 := by
  rw [halfAway_of_nonneg le_rfl, Int.floor_eq_iff]
  norm_num

theorem halfAway_neg (q : ℚ) : halfAway (-q) = -halfAway q := by
  rcases lt_trichotomy q 0 with h | rfl | h
  · rw [halfAway_of_nonneg (neg_nonneg.mpr h.le), halfAway, if_neg (not_le.mpr h), neg_neg]
  · rw [neg_zero, halfAway_zero, neg_zero]
  · rw [halfAway_of_nonneg h.le, halfAway, if_neg (by linarith), neg_neg]

/-- The sign of what is rounded can be taken off and put back. -/
theorem halfAway_signed (neg : Bool) (q : ℚ) :
    halfAway (if neg then -q else q) = if neg then -halfAway q else halfAway q := by
  cases neg with
  | true => exact halfAway_neg q
  | false => rfl

theorem eq_halfAway_iff_of_nonneg {q : ℚ} (h : 0 ≤ q) (n : ℤ) :
    n = halfAway q ↔ |(n : ℚ) - q| < 1 / 2 ∨ |(n : ℚ) - q| = 1 / 2 ∧ |q| < |(n : ℚ)| := by
  rw [halfAway_of_nonneg h, eq_comm, Int.floor_eq_iff, abs_of_nonneg h]
  constructor
  · rintro ⟨hlo, hhi⟩
    rcases hlo.lt_or_eq with hlt | heq
    · exact Or.inl (abs_lt.mpr ⟨by linarith, by linarith⟩)
    · refine Or.inr ⟨?_, ?_⟩
      · rw [heq, add_sub_cancel_left, abs_of_pos (by norm_num)]
      · rw [heq, abs_of_nonneg (by linarith)]
        linarith
  · rintro (hlt | ⟨heq, hfar⟩)
    · obtain ⟨h1, h2⟩ := abs_lt.mp hlt
      exact ⟨by linarith, by linarith⟩
    · -- a tie below the number would be nearer to zero
      rcases abs_eq (by norm_num : (0 : ℚ) ≤ 1 / 2) |>.mp heq with hup | hdown
      · exact ⟨by linarith, by linarith⟩
      · have hn : (n : ℚ) = q - 1 / 2 := by linarith
        rcases le_or_gt 0 n with hpos | hneg
        · have hpos' : (0 : ℚ) ≤ n := by exact_mod_cast hpos
          rw [abs_of_nonneg hpos'] at hfar
          linarith
        · have hneg' : (n : ℚ) ≤ -1 := by exact_mod_cast Int.le_sub_one_of_lt hneg
          linarith

/-- The nearest integer, and of two the one further from zero. -/
theorem eq_halfAway_iff (q : ℚ) (n : ℤ) :
    n = halfAway q ↔ |(n : ℚ) - q| < 1 / 2 ∨ |(n : ℚ) - q| = 1 / 2 ∧ |q| < |(n : ℚ)| := by
  rcases le_total 0 q with h | h
  · exact eq_halfAway_iff_of_nonneg h n
  · have hflip := eq_halfAway_iff_of_nonneg (neg_nonneg.mpr h) (-n)
    have habs : |((-n : ℤ) : ℚ) - -q| = |(n : ℚ) - q| := by
      rw [Int.cast_neg, ← abs_neg]
      congr 1
      ring
    rw [halfAway_neg, neg_inj, habs, abs_neg, Int.cast_neg, abs_neg] at hflip
    exact hflip

/-- A quotient is rounded up where twice the remainder is not below the divisor. -/
theorem halfAway_div (num : ℕ) {den : ℕ} (h : 0 < den) :
    halfAway ((num : ℚ) / den) = ((if den ≤ 2 * (num % den) then num / den + 1 else num / den : ℕ) : ℤ) := by
  have hden : (0 : ℚ) < den := by exact_mod_cast h
  have hmod : num % den < den := Nat.mod_lt num h
  have hsplit : (num : ℚ) = den * (num / den : ℕ) + (num % den : ℕ) := by exact_mod_cast (Nat.div_add_mod num den).symm
  have hquot : (num : ℚ) / den = (num / den : ℕ) + ((num % den : ℕ) : ℚ) / den := by
    rw [div_eq_iff hden.ne', add_mul, div_mul_cancel₀ _ hden.ne']
    linarith
  rw [halfAway_of_nonneg (by positivity), Int.floor_eq_iff, hquot]
  have hrest : ((num % den : ℕ) : ℚ) / den < 1 := by
    rw [div_lt_one hden]
    exact_mod_cast hmod
  generalize num / den = k
  generalize num % den = r at hrest
  split
  · next hup =>
    have hup' : 1 / 2 ≤ (r : ℚ) / den := by
      rw [div_le_div_iff₀ (by norm_num) hden]
      have : (den : ℚ) ≤ 2 * r := by exact_mod_cast hup
      linarith
    push_cast
    constructor
    · linarith
    · linarith
  · next hdown =>
    have hdown' : (r : ℚ) / den < 1 / 2 := by
      rw [div_lt_div_iff₀ hden (by norm_num)]
      have : 2 * (r : ℚ) < den := by exact_mod_cast not_le.mp hdown
      linarith
    have hnonneg : 0 ≤ (r : ℚ) / den := by positivity
    push_cast
    constructor
    · linarith
    · linarith

/-- A number that has no more digits is its own rounding. -/
theorem roundTo_of_int {b : ℕ} (hb : 0 < b) {q : ℚ} {s : ℤ} {n : ℤ} (h : q * (b : ℚ) ^ s = n) : roundTo b q s = q := by
  have hpow : (b : ℚ) ^ s ≠ 0 := zpow_ne_zero s (by exact_mod_cast hb.ne')
  have hn : n = halfAway n := by
    rw [eq_halfAway_iff, sub_self, abs_zero]
    exact Or.inl (by norm_num)
  unfold roundTo
  rw [h, ← hn, ← h, mul_div_cancel_right₀ _ hpow]

end Rounding
