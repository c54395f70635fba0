/-
  `exact_f64_parts` on the machine: the limbs are `u64`, and every product, sum and factor the loops compute is checked
  to be one.

  `exact_f64_parts_exact`: no check fails, for any finite double but zero, and the sign, the digits and the exponent are
  the double's own value, the digits with no zero at either end.
-/
import Secantus.Bson.Quantity

namespace Secantus

open Digits ExactF64

namespace ExactF64

/-- A value of a `u64`, if it is one. -/
def u64 (n : ℕ) : Option ℕ := if n < 2 ^ 64 then some n else none

/-- `mul`, each product and each sum with the carry a `u64`. -/
def mulU64 (limbs : List ℕ) (by' carry : ℕ) : Option (List ℕ) :=
  match limbs with
  | [] => some (Nat.digits limb carry)
  | l :: ls => do
    let product ← u64 (l * by')
    let v ← u64 (product + carry)
    let rest ← mulU64 ls by' (v / limb)
    return v % limb :: rest

/-- The loops around `mul`: the factor a `u64` too. -/
def mulPowU64 (base cap : ℕ) : (fuel left : ℕ) → List ℕ → Option (List ℕ)
  | 0, _, limbs => some limbs
  | fuel + 1, left, limbs =>
    if left = 0 then some limbs
    else do
      let by' ← u64 (base ^ min left cap)
      let limbs ← mulU64 limbs by' 0
      mulPowU64 base cap fuel (left - min left cap) limbs

theorem u64_eq {n : ℕ} (h : n < 2 ^ 64) : u64 n = some n := if_pos h

/-- Limbs times a factor of 32 bits: the carry stays below the factor, and nothing leaves 64 bits. -/
theorem mulU64_eq {by' : ℕ} (hby : by' ≤ 2 ^ 32) (limbs : List ℕ) (carry : ℕ) (hlimbs : ∀ l ∈ limbs, l < limb)
    (hcarry : carry < by') : mulU64 limbs by' carry = some (mul limbs by' carry) := by
  induction limbs generalizing carry with
  | nil => rfl
  | cons l ls ih =>
    have hl : l < limb := hlimbs l List.mem_cons_self
    have hv : l * by' + carry < limb * by' := by
      have hle : (l + 1) * by' ≤ limb * by' := Nat.mul_le_mul_right by' hl
      rw [Nat.succ_mul] at hle
      omega
    have hmax : limb * by' ≤ limb * 2 ^ 32 := Nat.mul_le_mul_left limb hby
    have hfits : limb * 2 ^ 32 < 2 ^ 64 := by decide
    have hcarry' : (l * by' + carry) / limb < by' := by
      rw [Nat.div_lt_iff_lt_mul (by decide), Nat.mul_comm by']
      exact hv
    rw [mulU64, u64_eq (by omega), Option.bind_eq_bind, Option.bind_some, u64_eq (by omega), Option.bind_eq_bind,
      Option.bind_some, ih _ (fun l' hl' => hlimbs l' (List.mem_cons_of_mem _ hl')) hcarry']
    rfl

theorem mulPowU64_eq {base cap : ℕ} (hbase : 0 < base) (hcap : base ^ cap ≤ 2 ^ 32) (fuel left : ℕ) (limbs : List ℕ)
    (hlimbs : ∀ l ∈ limbs, l < limb) : mulPowU64 base cap fuel left limbs = some (mulPow base cap fuel left limbs) := by
  induction fuel generalizing left limbs with
  | zero => rfl
  | succ fuel ih =>
    unfold mulPowU64 mulPow
    by_cases h0 : left = 0
    · rw [if_pos h0, if_pos h0]
    · have hpow : base ^ min left cap ≤ 2 ^ 32 := (Nat.pow_le_pow_right hbase (Nat.min_le_right _ _)).trans hcap
      have hpos : 0 < base ^ min left cap := Nat.pow_pos hbase
      rw [if_neg h0, if_neg h0, u64_eq (lt_of_le_of_lt hpow (by decide)), Option.bind_eq_bind, Option.bind_some,
        mulU64_eq hpow limbs 0 hlimbs hpos, Option.bind_eq_bind, Option.bind_some]
      exact ih _ _ (mul_lt _ _ _)

end ExactF64

/-- `exact_f64_parts` with the checks; nothing where one fails. -/
def exactF64PartsU64 (d : F64) : Option (ℤ × List ℕ × ℤ) := do
  let sign : ℤ := if d.negative then -1 else 1
  let (m, e) := d.significand
  let tz := trailingZeros 64 m
  let m := m >>> tz
  let e := e + tz
  let limbs := popZeros [m % limb, m / limb % limb, m / (← u64 (limb * limb))]
  let (limbs, exp10) ←
    if 0 ≤ e then (mulPowU64 2 29 e.toNat e.toNat limbs).map (·, 0)
    else (mulPowU64 5 13 (-e).toNat (-e).toNat limbs).map (·, e)
  let (digits, exp) := normalize (limbDigits limbs) exp10
  return (sign, digits, exp)

theorem exactF64PartsU64_eq (d : F64) : exactF64PartsU64 d = some (exactF64Parts d) := by
  have hlt := d.significand_lt
  unfold exactF64PartsU64 exactF64Parts
  rcases hm : d.significand with ⟨m, e⟩
  rw [hm] at hlt
  simp only at hlt ⊢
  set tz := trailingZeros 64 m
  have hm' : m >>> tz < 2 ^ 53 := by
    rw [Nat.shiftRight_eq_div_pow]
    exact lt_of_le_of_lt (Nat.div_le_self _ _) hlt
  rw [u64_eq (by decide), Option.bind_eq_bind, Option.bind_some]
  by_cases he : 0 ≤ e + tz
  · rw [if_pos he, if_pos he, mulPowU64_eq (by decide) (by decide) _ _ _ (start_lt hm')]
    rfl
  · rw [if_neg he, if_neg he, mulPowU64_eq (by decide) (by decide) _ _ _ (start_lt hm')]
    rfl

/-- Every finite double but zero is its sign times its digits times its power of ten, no digit at either end a zero, and
    no product or carry on the way leaves 64 bits. -/
theorem exact_f64_parts_exact (d : F64) (hne : d.scaled ≠ 0) :
    ∃ sign digits exp, exactF64PartsU64 d = some (sign, digits, exp) ∧
      sign * mag 10 digits exp = d.value ∧ (sign = 1 ∨ sign = -1) ∧ digits ≠ [] ∧ Trimmed 10 digits := by
  have hspec := exactF64Parts_spec d
  have heq := exactF64PartsU64_eq d
  rcases hparts : exactF64Parts d with ⟨sign, digits, exp⟩
  rw [hparts] at hspec heq
  obtain ⟨hsign, htrim, hmag⟩ := hspec
  change sign = _ at hsign
  have hpos : 0 < mag 10 digits exp := by
    have hscaled : (d.scaled : ℚ) ≠ 0 := by exact_mod_cast hne
    rw [hmag, abs_pos, F64.value]
    positivity
  refine ⟨sign, digits, exp, heq, ?_, ?_, ne_nil_of_mag_pos hpos, htrim⟩
  · rw [hmag, hsign]
    push_cast
    exact (F64.value_eq_sign_mul_abs d).symm
  · rw [hsign]
    split_ifs
    · exact Or.inr rfl
    · exact Or.inl rfl

/-- One and a half. -/
theorem exact_f64_parts_exact_three_halves : ∃ sign digits exp,
    exactF64PartsU64 ⟨0x3FF8000000000000⟩ = some (sign, digits, exp) ∧
      sign * mag 10 digits exp = F64.value ⟨0x3FF8000000000000⟩ ∧ (sign = 1 ∨ sign = -1) ∧ digits ≠ [] ∧
      Trimmed 10 digits :=
  exact_f64_parts_exact ⟨0x3FF8000000000000⟩ (by decide +kernel)

end Secantus
