/-
  What a BSON number is: a NaN, an infinity or an exact rational.

  The comparisons of `Numeric` are on digits, on truncated doubles and on texts. Here each
  is shown to compare quantities, so that the rest of the development never looks at a
  digit or a double's bits again.

  * `exactF64Parts_spec`: the limb arithmetic yields the trimmed digits of the double;
  * `fromDecimalStr_spec`: a decimal's text reads back as its value;
  * `classify_spec`: both, for every number type, with the exponent in a range two bytes hold;
  * `Numeric.cmp_spec`, `Numeric.eq_spec`, `Numeric.fastCmp_spec`: all comparisons are
    `Quantity.cmp`, NaN apart.
-/
import Secantus.Bson.Numeric
import Mathlib.Tactic.NormNum

namespace Secantus

open Digits

/-- A number's value, with NaN and the infinities. -/
inductive Quantity where
  | nan
  | negInf
  | fin (q : ℚ)
  | posInf

namespace Quantity

/-- The order of numbers: NaN, `-∞`, the rationals, `+∞`. -/
def cmp : Quantity → Quantity → Ordering
  | .nan, .nan => .eq
  | .nan, _ => .lt
  | _, .nan => .gt
  | .negInf, .negInf => .eq
  | .negInf, _ => .lt
  | _, .negInf => .gt
  | .posInf, .posInf => .eq
  | .posInf, _ => .gt
  | _, .posInf => .lt
  | .fin p, .fin q => compare p q

/-- The comparison of the matcher, in which a NaN is ordered with nothing. -/
def partialCmp : Quantity → Quantity → Option Ordering
  | .nan, _ | _, .nan => none
  | x, y => some (x.cmp y)

theorem cmp_swap (x y : Quantity) : (x.cmp y).swap = y.cmp x := by
  cases x <;> cases y <;> try rfl
  rename_i p q
  exact (Std.OrientedOrd.eq_swap (a := q) (b := p)).symm

theorem cmp_eq_iff (x y : Quantity) : x.cmp y = .eq ↔ x = y := by
  cases x with
  | fin p =>
    cases y with
    | fin q =>
      rw [fin.injEq]
      exact compare_eq_iff_eq
    | nan => simp [cmp]
    | negInf => simp [cmp]
    | posInf => simp [cmp]
  | nan => cases y <;> simp [cmp]
  | negInf => cases y <;> simp [cmp]
  | posInf => cases y <;> simp [cmp]

instance : Std.TransCmp cmp where
  eq_swap {x y} := (cmp_swap y x).symm
  isLE_trans {x y z} hxy hyz := by
    cases x <;> cases y <;> cases z <;> first
      | rfl
      | exact absurd hxy Bool.false_ne_true
      | exact absurd hyz Bool.false_ne_true
      | exact Std.TransOrd.isLE_trans (α := ℚ) hxy hyz

theorem partialCmp_swap (x y : Quantity) : (x.partialCmp y).map Ordering.swap = y.partialCmp x := by
  have h := cmp_swap x y
  cases x <;> cases y <;> simp_all [partialCmp]

end Quantity

def F64.value (d : F64) : ℚ := d.scaled / 2 ^ 1074

def F64.quantity (d : F64) : Quantity :=
  if d.isNan then .nan
  else if d.isInfinite then (if d.negative then .negInf else .posInf)
  else .fin d.value

def DecimalValue.quantity : DecimalValue → Quantity
  | .nan => .nan
  | .inf neg => if neg then .negInf else .posInf
  | .finite neg coeff exp => .fin ((if neg then -1 else 1) * (coeff * 10 ^ Decimal128.unbias exp))

def Decimal128.quantity (d : Decimal128) : Quantity := d.value.quantity

/-- The quantity of a number; `none` for every other value. -/
def quantity : Bson → Option Quantity
  | .int32 n => some (.fin n.toInt)
  | .int64 n => some (.fin n.toInt)
  | .double d => some d.quantity
  | .decimal128 d => some d.quantity
  | _ => none

namespace NumVal

def quantity : NumVal → Quantity
  | .nan => .nan
  | .inf s => if s = 1 then .posInf else .negInf
  | .zero => .fin 0
  | .finite s d e => .fin (s * mag 10 d e)

/-- A sign of `±1` before trimmed digits whose scientific exponent fits two bytes. -/
structure FiniteWf (sign : ℤ) (digits : List ℕ) (exp : ℤ) : Prop where
  sign_eq : sign = 1 ∨ sign = -1
  trimmed : Trimmed 10 digits
  digits_ne : digits ≠ []
  exp_ge : -0x8000 ≤ exp + digits.length - 1
  exp_le : exp + digits.length - 1 ≤ 0x7FFF

def Wf : NumVal → Prop
  | .inf s => s = 1 ∨ s = -1
  | .finite s d e => FiniteWf s d e
  | _ => True

end NumVal

/-! ## The limbs of a double -/

namespace ExactF64

theorem trailingZeros_spec : ∀ fuel m, 2 ^ trailingZeros fuel m * (m >>> trailingZeros fuel m) = m
  | 0, m => by simp [trailingZeros]
  | fuel + 1, m => by
    unfold trailingZeros
    split
    · have ih := trailingZeros_spec fuel (m / 2)
      rw [Nat.shiftRight_eq_div_pow] at ih ⊢
      rw [pow_succ', ← Nat.div_div_eq_div_mul, Nat.mul_assoc, ih]
      omega
    · simp

theorem popZeros_ofDigits (b : ℕ) (ls : List ℕ) : Nat.ofDigits b (popZeros ls) = Nat.ofDigits b ls := by
  induction ls with
  | nil => rfl
  | cons l ls ih =>
    unfold popZeros
    rw [Nat.ofDigits_cons, ← ih]
    rcases popZeros ls with _ | ⟨_ | a, _ | ⟨c, cs⟩⟩ <;> simp [Nat.ofDigits_cons]

theorem popZeros_subset (ls : List ℕ) : ∀ l ∈ popZeros ls, l ∈ ls := by
  induction ls with
  | nil => simp [popZeros]
  | cons a ls ih =>
    intro l hl
    unfold popZeros at hl
    split at hl
    · simp_all
    · simp_all
    · rcases List.mem_cons.mp hl with rfl | hl
      · exact List.mem_cons_self
      · exact List.mem_cons_of_mem a (ih l hl)

theorem mul_ofDigits (k : ℕ) : ∀ (ls : List ℕ) (c : ℕ),
    Nat.ofDigits limb (mul ls k c) = Nat.ofDigits limb ls * k + c
  | [], c => by
    rw [mul, Nat.ofDigits_digits]
    simp
  | l :: ls, c => by
    rw [mul, Nat.ofDigits_cons, Nat.ofDigits_cons, mul_ofDigits k ls]
    have h := Nat.div_add_mod (l * k + c) limb
    nlinarith

theorem mul_lt (k : ℕ) : ∀ (ls : List ℕ) (c : ℕ), ∀ l ∈ mul ls k c, l < limb
  | [], c => fun l hl => Nat.digits_lt_base (by decide) hl
  | a :: ls, c => by
    intro l hl
    rcases List.mem_cons.mp hl with rfl | hl
    · exact Nat.mod_lt _ (by decide)
    · exact mul_lt k ls _ l hl

theorem mulPow_spec (base : ℕ) {cap : ℕ} (hcap : 0 < cap) : ∀ (fuel left : ℕ) (ls : List ℕ),
    left ≤ fuel → (∀ l ∈ ls, l < limb) →
    Nat.ofDigits limb (mulPow base cap fuel left ls) = Nat.ofDigits limb ls * base ^ left ∧
      ∀ l ∈ mulPow base cap fuel left ls, l < limb
  | 0, left, ls, hl, h => by
    obtain rfl : left = 0 := by omega
    simpa [mulPow] using h
  | fuel + 1, left, ls, hl, h => by
    unfold mulPow
    by_cases h0 : left = 0
    · rw [if_pos h0, h0]
      simpa using h
    · rw [if_neg h0]
      obtain ⟨ih, ih'⟩ := mulPow_spec base hcap fuel (left - min left cap)
        (mul ls (base ^ min left cap) 0) (by omega) (mul_lt _ _ _)
      refine ⟨?_, ih'⟩
      rw [ih, mul_ofDigits, Nat.add_zero, Nat.mul_assoc, ← pow_add]
      congr 2
      omega

theorem value_pad9 (l : ℕ) : value 10 (pad9 l) = l := by
  unfold pad9
  rw [value_append, value_decimalDigits]
  simp [value, Nat.ofDigits_replicate_zero]

theorem length_pad9 {l : ℕ} (h : l < limb) : (pad9 l).length = 9 := by
  have h9 : (decimalDigits l).length ≤ 9 := by
    unfold decimalDigits
    split
    · decide
    · rw [List.length_reverse]
      exact (Nat.digits_length_le_iff (by decide) l).mpr h
  unfold pad9
  rw [List.length_append, List.length_replicate]
  omega

theorem value_flatMap_pad9 {ls : List ℕ} (h : ∀ l ∈ ls, l < limb) :
    value 10 (ls.flatMap pad9) = Nat.ofDigits limb ls.reverse ∧
      (ls.flatMap pad9).length = 9 * ls.length := by
  induction ls with
  | nil => simp
  | cons l ls ih =>
    obtain ⟨ihv, ihl⟩ := ih fun x hx => h x (List.mem_cons_of_mem l hx)
    rw [List.flatMap_cons, value_append, value_pad9, ihv, List.length_append, ihl,
      length_pad9 (h l List.mem_cons_self), List.reverse_cons, Nat.ofDigits_append,
      Nat.ofDigits_singleton, List.length_reverse, List.length_cons]
    constructor
    · have : (10 : ℕ) ^ (9 * ls.length) = limb ^ ls.length := by
        rw [pow_mul]
        rfl
      rw [this]
      ring
    · ring

theorem value_limbDigits {ls : List ℕ} (h : ∀ l ∈ ls, l < limb) :
    value 10 (limbDigits ls) = Nat.ofDigits limb ls := by
  have hr : ∀ l ∈ ls.reverse, l < limb := fun l hl => h l (List.mem_reverse.mp hl)
  rw [← List.reverse_reverse ls]
  generalize ls.reverse = rs at hr
  unfold limbDigits
  rw [List.reverse_reverse]
  cases rs with
  | nil => rfl
  | cons top rest =>
    obtain ⟨hv, hl⟩ := value_flatMap_pad9 fun l hl => hr l (List.mem_cons_of_mem top hl)
    simp only
    rw [value_append, hv, value_decimalDigits, hl, List.reverse_cons, Nat.ofDigits_append,
      Nat.ofDigits_singleton, List.length_reverse, pow_mul]
    have : (10 : ℕ) ^ 9 = limb := rfl
    rw [this]
    ring

theorem limbDigits_lt (ls : List ℕ) : ∀ d ∈ limbDigits ls, d < 10 := by
  intro d hd
  unfold limbDigits at hd
  split at hd
  · cases hd
  · rcases List.mem_append.mp hd with hd | hd
    · exact decimalDigits_lt _ d hd
    · obtain ⟨l, -, hd⟩ := List.mem_flatMap.mp hd
      unfold pad9 at hd
      rcases List.mem_append.mp hd with hd | hd
      · rw [List.eq_of_mem_replicate hd]
        decide
      · exact decimalDigits_lt _ d hd

end ExactF64

/-! ## Doubles -/

namespace F64

theorem frac_lt (d : F64) : d.frac < 2 ^ 52 := by
  unfold frac
  rw [UInt64.toNat_and]
  exact Nat.and_lt_two_pow _ (by decide)

theorem rawExp_lt (d : F64) : d.rawExp < 2 ^ 11 := by
  unfold rawExp
  rw [UInt64.toNat_and]
  exact Nat.and_lt_two_pow _ (by decide)

theorem significand_lt (d : F64) : d.significand.1 < 2 ^ 53 := by
  have h := d.frac_lt
  unfold significand
  split <;> simp only <;> omega

theorem significand_exp (d : F64) : -1074 ≤ d.significand.2 ∧ d.significand.2 < 973 := by
  have h := d.rawExp_lt
  unfold significand
  split <;> simp only <;> omega

/-- A double's magnitude is its significand times a power of two. -/
theorem abs_value (d : F64) : |d.value| = d.significand.1 * (2 : ℚ) ^ d.significand.2 := by
  have he := d.significand_exp.1
  have hpow : (2 : ℚ) ^ d.significand.2 = 2 ^ (d.significand.2 + 1074).toNat / 2 ^ 1074 := by
    rw [eq_div_iff (by positivity), ← zpow_natCast, ← zpow_natCast, ← zpow_add₀ (by norm_num)]
    congr 1
    omega
  have habs : |(d.scaled : ℚ)| = d.significand.1 * 2 ^ (d.significand.2 + 1074).toNat := by
    unfold scaled
    simp only
    split
    · push_cast
      rw [abs_neg, abs_of_nonneg (by positivity)]
    · push_cast
      rw [abs_of_nonneg (by positivity)]
  rw [value, abs_div, habs, hpow, abs_of_pos (by positivity : (0 : ℚ) < 2 ^ 1074),
    mul_div_assoc]

theorem value_eq_sign_mul_abs (d : F64) : d.value = (if d.negative then -1 else 1) * |d.value| := by
  have h : (0 : ℚ) ≤ d.significand.1 * 2 ^ (d.significand.2 + 1074).toNat := by positivity
  unfold value scaled
  simp only
  split
  · push_cast
    rw [neg_div, abs_neg, abs_of_nonneg (by positivity), neg_one_mul]
  · push_cast
    rw [abs_of_nonneg (by positivity), one_mul]

end F64

theorem ExactF64.start_lt {m : ℕ} (hm : m < 2 ^ 53) :
    ∀ l ∈ popZeros [m % limb, m / limb % limb, m / (limb * limb)], l < limb := by
  intro l hl
  have hmem := popZeros_subset _ l hl
  simp only [List.mem_cons, List.not_mem_nil, or_false] at hmem
  rcases hmem with rfl | rfl | rfl
  · exact Nat.mod_lt _ (by decide)
  · exact Nat.mod_lt _ (by decide)
  · unfold limb
    omega

open ExactF64 in
/-- The limb arithmetic writes the double: trimmed digits whose magnitude is `|d|`. -/
theorem exactF64Parts_spec (d : F64) :
    (exactF64Parts d).1 = (if d.negative then -1 else 1) ∧
      Trimmed 10 (exactF64Parts d).2.1 ∧
      mag 10 (exactF64Parts d).2.1 (exactF64Parts d).2.2 = |d.value| := by
  rw [F64.abs_value]
  unfold exactF64Parts
  have hlt := d.significand_lt
  rcases hm : d.significand with ⟨m, e⟩
  rw [hm] at hlt
  simp only at hlt ⊢
  set tz := trailingZeros 64 m with htz
  have hshift : 2 ^ tz * (m >>> tz) = m := trailingZeros_spec 64 m
  set m' := m >>> tz
  have hm' : m' < 2 ^ 53 := lt_of_le_of_lt (by rw [← hshift]; exact Nat.le_mul_of_pos_left _ (by positivity)) hlt
  -- the starting limbs are below `1e9` and write `m'`
  set start := popZeros [m' % limb, m' / limb % limb, m' / (limb * limb)]
  have hstart : Nat.ofDigits limb start = m' := by
    rw [popZeros_ofDigits]
    simp only [Nat.ofDigits_cons, Nat.ofDigits_nil]
    have h1 := Nat.div_add_mod m' limb
    have h2 := Nat.div_add_mod (m' / limb) limb
    rw [Nat.div_div_eq_div_mul] at h2
    rw [Nat.mul_zero, Nat.add_zero, Nat.add_comm (m' / limb % limb), h2, Nat.add_comm, h1]
  have hstart_lt : ∀ l ∈ start, l < limb := start_lt hm'
  have hval : (m : ℚ) * 2 ^ e = m' * (2 : ℚ) ^ (e + tz) := by
    rw [zpow_add₀ (by norm_num), zpow_natCast, ← hshift]
    push_cast
    ring
  by_cases he : 0 ≤ e + tz
  · obtain ⟨hof, hof_lt⟩ := mulPow_spec 2 (by decide : 0 < 29) (e + tz).toNat
      (e + tz).toNat start le_rfl hstart_lt
    simp only [he, if_true]
    refine ⟨trivial, trim_trimmed (limbDigits_lt _) _, ?_⟩
    unfold normalize
    rw [mag_trim (by decide), mag, value_limbDigits hof_lt, hof, hstart, hval, zpow_zero, mul_one]
    push_cast
    rw [← zpow_natCast, Int.toNat_of_nonneg he]
  · obtain ⟨hof, hof_lt⟩ := mulPow_spec 5 (by decide : 0 < 13) (-(e + tz)).toNat
      (-(e + tz)).toNat start le_rfl hstart_lt
    simp only [he, if_false]
    refine ⟨trivial, trim_trimmed (limbDigits_lt _) _, ?_⟩
    unfold normalize
    rw [mag_trim (by decide), mag, value_limbDigits hof_lt, hof, hstart, hval]
    push_cast
    -- `5^k / 10^k = 2^-k`
    have h10 : ((10 : ℕ) : ℚ) ^ (e + tz) = 2 ^ (e + tz) * 5 ^ (e + tz) := by
      rw [← mul_zpow]
      norm_num
    have h5 : (5 : ℚ) ^ (-(e + tz)).toNat * 5 ^ (e + tz) = 1 := by
      rw [← zpow_natCast, ← zpow_add₀ (by norm_num), Int.toNat_of_nonneg (by omega)]
      simp
    push_cast at h10
    rw [h10]
    calc (m' : ℚ) * 5 ^ (-(e + tz)).toNat * (2 ^ (e + tz) * 5 ^ (e + tz))
        = m' * 2 ^ (e + tz) * (5 ^ (-(e + tz)).toNat * 5 ^ (e + tz)) := by ring
      _ = m' * 2 ^ (e + tz) := by rw [h5, mul_one]

/-- Digits of a value between `10^-6176` and `10^6145`, with their sign. -/
theorem finiteWf_of_mag {sign : ℤ} {digits : List ℕ} {exp : ℤ} (hs : sign = 1 ∨ sign = -1)
    (ht : Trimmed 10 digits) (hne : digits ≠ []) (hlo : (10 : ℚ) ^ (-6176 : ℤ) ≤ mag 10 digits exp)
    (hhi : mag 10 digits exp < (10 : ℚ) ^ (6146 : ℤ)) : NumVal.FiniteWf sign digits exp := by
  have h10 : ((10 : ℕ) : ℚ) = 10 := by norm_num
  have h := exponent_bounds (b := 10) (by decide) ht hne (by rw [h10]; exact hlo)
    (by rw [h10]; exact hhi)
  exact ⟨hs, ht, hne, by omega, by omega⟩

theorem ne_nil_of_mag_pos {digits : List ℕ} {exp : ℤ} (h : 0 < mag 10 digits exp) : digits ≠ [] := by
  rintro rfl
  simp [mag] at h

theorem F64.value_bounds {d : F64} (h : d.scaled ≠ 0) :
    (10 : ℚ) ^ (-6176 : ℤ) ≤ |d.value| ∧ |d.value| < (10 : ℚ) ^ (6146 : ℤ) := by
  have hval := d.abs_value
  have hm : d.significand.1 ≠ 0 := by
    intro h0
    apply h
    simp [scaled, h0]
  have hm1 : (1 : ℚ) ≤ d.significand.1 := by exact_mod_cast Nat.one_le_iff_ne_zero.mpr hm
  have hm2 : (d.significand.1 : ℚ) < 2 ^ 53 := by exact_mod_cast d.significand_lt
  obtain ⟨he1, he2⟩ := d.significand_exp
  have hpos : (0 : ℚ) < 2 ^ d.significand.2 := by positivity
  constructor
  · calc (10 : ℚ) ^ (-6176 : ℤ) ≤ 10 ^ (-1074 : ℤ) := zpow_le_zpow_right₀ (by norm_num) (by omega)
      _ ≤ 2 ^ (-1074 : ℤ) := by
        rw [zpow_neg, zpow_neg]
        exact inv_anti₀ (by positivity) (zpow_le_zpow_left₀ (by norm_num) (by norm_num) (by norm_num))
      _ ≤ 2 ^ d.significand.2 := zpow_le_zpow_right₀ (by norm_num) he1
      _ ≤ d.significand.1 * 2 ^ d.significand.2 := le_mul_of_one_le_left hpos.le hm1
      _ = |d.value| := hval.symm
  · calc |d.value| = d.significand.1 * 2 ^ d.significand.2 := hval
      _ < 2 ^ 53 * 2 ^ d.significand.2 := mul_lt_mul_of_pos_right hm2 hpos
      _ = 2 ^ (53 + d.significand.2) := by
        rw [zpow_add₀ (by norm_num)]
        norm_num
      _ ≤ 2 ^ (1026 : ℤ) := zpow_le_zpow_right₀ (by norm_num) (by omega)
      _ ≤ 10 ^ (1026 : ℤ) := zpow_le_zpow_left₀ (by norm_num) (by norm_num) (by norm_num)
      _ ≤ 10 ^ (6146 : ℤ) := zpow_le_zpow_right₀ (by norm_num) (by omega)

theorem unbias_range (exp : Fin 12288) :
    -6176 ≤ Decimal128.unbias exp ∧ Decimal128.unbias exp < 6112 := by
  unfold Decimal128.unbias
  omega

theorem decimal_bounds {coeff : ℕ} (h0 : coeff ≠ 0) (hc : coeff < 10 ^ 34) {x : ℤ}
    (hx : -6176 ≤ x ∧ x < 6112) :
    (10 : ℚ) ^ (-6176 : ℤ) ≤ coeff * 10 ^ x ∧ (coeff : ℚ) * 10 ^ x < (10 : ℚ) ^ (6146 : ℤ) := by
  have h1 : (1 : ℚ) ≤ coeff := by exact_mod_cast Nat.one_le_iff_ne_zero.mpr h0
  have h2 : (coeff : ℚ) < 10 ^ 34 := by exact_mod_cast hc
  have hpos : (0 : ℚ) < 10 ^ x := by positivity
  constructor
  · calc (10 : ℚ) ^ (-6176 : ℤ) ≤ 10 ^ x := zpow_le_zpow_right₀ (by norm_num) hx.1
      _ ≤ coeff * 10 ^ x := le_mul_of_one_le_left hpos.le h1
  · calc (coeff : ℚ) * 10 ^ x < 10 ^ 34 * 10 ^ x := mul_lt_mul_of_pos_right h2 hpos
      _ = 10 ^ (34 + x) := by
        rw [zpow_add₀ (by norm_num)]
        norm_num
      _ ≤ 10 ^ (6146 : ℤ) := zpow_le_zpow_right₀ (by norm_num) (by omega)

/-! ## `classify` -/

namespace Numeric

theorem fromInt_spec {n : ℤ} (hn : n.natAbs < 10 ^ 34) :
    (fromInt n).Wf ∧ (fromInt n).quantity = .fin n := by
  unfold fromInt
  by_cases h0 : n = 0
  · rw [if_pos h0, h0]
    exact ⟨trivial, by simp [NumVal.quantity]⟩
  · rw [if_neg h0]
    have hmag := mag_trim (b := 10) (by decide) (decimalDigits n.natAbs) 0
    rw [mag_decimalDigits, zpow_zero, mul_one] at hmag
    have hpos : 0 < n.natAbs := Int.natAbs_pos.mpr h0
    have hb := decimal_bounds (x := 0) hpos.ne' hn (by omega)
    rw [zpow_zero, mul_one] at hb
    have ht := trim_trimmed (b := 10) (decimalDigits_lt n.natAbs) 0
    unfold normalize
    generalize trim (decimalDigits n.natAbs) 0 = p at hmag ht ⊢
    obtain ⟨ds, x⟩ := p
    simp only at hmag ht ⊢
    have hmpos : 0 < mag 10 ds x := by
      rw [hmag]
      exact_mod_cast hpos
    refine ⟨finiteWf_of_mag ?_ ht (ne_nil_of_mag_pos hmpos) (hmag ▸ hb.1) (hmag ▸ hb.2), ?_⟩
    · split <;> simp
    · simp only [NumVal.quantity, hmag]
      congr 1
      by_cases hneg : n < 0
      · have h1 : (n.natAbs : ℤ) = -n := by omega
        have h2 : (n.natAbs : ℚ) = -n := by
          rw [← Int.cast_natCast, h1, Int.cast_neg]
        rw [if_pos hneg, h2]
        push_cast
        ring
      · have h1 : (n.natAbs : ℤ) = n := by omega
        have h2 : (n.natAbs : ℚ) = n := by
          rw [← Int.cast_natCast, h1]
        rw [if_neg hneg, h2]
        push_cast
        ring

theorem fromF64_spec (d : F64) : (fromF64 d).Wf ∧ (fromF64 d).quantity = d.quantity := by
  unfold fromF64 F64.quantity
  by_cases h1 : d.isNan
  · simp [h1, NumVal.Wf, NumVal.quantity]
  · by_cases h2 : d.isInfinite
    · by_cases h3 : d.negative <;> simp [h1, h2, h3, NumVal.Wf, NumVal.quantity]
    · by_cases h3 : d.scaled = 0
      · simp [h1, h2, h3, NumVal.Wf, NumVal.quantity, F64.value]
      · obtain ⟨hs, ht, hm⟩ := exactF64Parts_spec d
        obtain ⟨hlo, hhi⟩ := F64.value_bounds h3
        have hpos : (0 : ℚ) < |d.value| := lt_of_lt_of_le (by positivity) hlo
        simp only [h1, h2, h3, if_false, Bool.false_eq_true]
        refine ⟨finiteWf_of_mag ?_ ht (ne_nil_of_mag_pos (hm ▸ hpos)) (hm ▸ hlo) (hm ▸ hhi), ?_⟩
        · rw [hs]
          split <;> simp
        · simp only [NumVal.quantity, hm, hs]
          congr 1
          nth_rewrite 2 [F64.value_eq_sign_mul_abs]
          split <;> simp

theorem filterMap_toDigit {ds : List ℕ} (h : ∀ d ∈ ds, d < 10) :
    (digitText ds).filterMap toDigit = ds := by
  induction ds with
  | nil => rfl
  | cons d ds ih =>
    unfold digitText at ih ⊢
    rw [List.map_cons, List.filterMap_cons, toDigit_digitChar (h d List.mem_cons_self),
      ih fun x hx => h x (List.mem_cons_of_mem d hx)]

/-- A finite decimal's text reads back as the layout it was written from. -/
theorem fromDecimalStr_signedText {l : Layout} (h : l.Wf) (neg : Bool) :
    fromDecimalStr (signedText neg l) =
      (let p := trim (l.int ++ l.frac) (l.exp.getD 0 - l.frac.length)
       if p.1 = [] then .zero else .finite (if neg then -1 else 1) p.1 p.2) := by
  unfold fromDecimalStr
  simp only [h.not_contains neg _ (.inl rfl), h.not_contains neg _ (.inr rfl), Bool.false_eq_true,
    if_false, h.trimText_signedText, h.signRest_signedText, h.splitOnce_text]
  have hdig := filterMap_toDigit h.digit
  unfold digitText at hdig
  rw [List.map_append] at hdig
  cases hx : l.exp with
  | none =>
    have hmt : l.text = l.mantissa := by
      simp [Layout.text, Layout.expText, hx]
    simp only [Option.map_none, hmt, h.splitOnce_mantissa, normalize, digitText, hdig,
      List.length_map, Option.getD_none]
  | some x =>
    have hpx := parseI64_expText (h.exp_range x hx)
    simp only [Option.map_some, h.splitOnce_mantissa, normalize, digitText, hdig,
      List.length_map, hpx, Option.getD_some]

theorem fromDecimalStr_spec (d : DecimalValue) :
    (fromDecimalStr d.toText).Wf ∧ (fromDecimalStr d.toText).quantity = d.quantity := by
  cases d with
  | nan =>
    have h : fromDecimalStr DecimalValue.nan.toText = .nan := by decide
    rw [h]
    exact ⟨trivial, rfl⟩
  | inf neg =>
    have h : ∀ neg, fromDecimalStr (DecimalValue.inf neg).toText = .inf (if neg then -1 else 1) := by
      decide
    rw [h]
    cases neg <;> simp [NumVal.Wf, NumVal.quantity, DecimalValue.quantity]
  | finite neg coeff exp =>
    have hwf := Decimal128.layout_wf coeff coeff.isLt _ (unbias_range exp)
    have hmag := Decimal128.layout_mag coeff (Decimal128.unbias exp)
    set l := Decimal128.layout coeff (Decimal128.unbias exp) with hl
    have htext : (DecimalValue.finite neg coeff exp).toText = signedText neg l := rfl
    rw [htext, fromDecimalStr_signedText hwf]
    unfold Layout.mag at hmag
    have htrim := mag_trim (b := 10) (by decide) (l.int ++ l.frac) (l.exp.getD 0 - l.frac.length)
    rw [hmag] at htrim
    have ht := trim_trimmed hwf.digit (l.exp.getD 0 - l.frac.length)
    simp only
    split
    · rename_i hnil
      have h0 : (coeff : ℚ) * 10 ^ Decimal128.unbias exp = 0 := by
        rw [← htrim, hnil]
        simp [mag]
      exact ⟨trivial, by simp [NumVal.quantity, DecimalValue.quantity, h0]⟩
    · rename_i hne
      have hpos := mag_pos (by decide) hne ht
        (trim (l.int ++ l.frac) (l.exp.getD 0 - l.frac.length)).2
      rw [htrim] at hpos
      have hc0 : (coeff : ℕ) ≠ 0 := by
        intro h0
        simp [h0] at hpos
      obtain ⟨hlo, hhi⟩ := decimal_bounds hc0 coeff.isLt (unbias_range exp)
      refine ⟨finiteWf_of_mag ?_ ht hne (htrim ▸ hlo) (htrim ▸ hhi), ?_⟩
      · split <;> simp
      · simp only [NumVal.quantity, DecimalValue.quantity, htrim]
        cases neg <;> simp

/-- `classify` is exact: a well-formed number of the value's own quantity. -/
theorem classify_spec (v : Bson) :
    match classify v, quantity v with
    | some n, some q => n.Wf ∧ n.quantity = q
    | none, none => True
    | _, _ => False := by
  cases v with
  | int32 n => exact fromInt_spec (by have := n.toInt_lt; have := n.le_toInt; omega)
  | int64 n => exact fromInt_spec (by have := n.toInt_lt; have := n.le_toInt; omega)
  | double d => exact fromF64_spec d
  | decimal128 d => exact fromDecimalStr_spec d.value
  | _ => exact trivial

theorem exists_classify {v : Bson} {q : Quantity} (h : quantity v = some q) :
    ∃ n, classify v = some n ∧ n.Wf ∧ n.quantity = q := by
  have hspec := classify_spec v
  rw [h] at hspec
  cases hc : classify v with
  | none =>
    rw [hc] at hspec
    exact hspec.elim
  | some n =>
    rw [hc] at hspec
    exact ⟨n, rfl, hspec⟩

/-! ## The comparisons -/

theorem cmpMagnitude_spec {s1 s2 : ℤ} {d1 d2 : List ℕ} {e1 e2 : ℤ} (h1 : NumVal.FiniteWf s1 d1 e1)
    (h2 : NumVal.FiniteWf s2 d2 e2) :
    cmpMagnitude d1 e1 d2 e2 = compare (mag 10 d1 e1) (mag 10 d2 e2) := by
  rw [← compare_scientific (by decide) h1.trimmed h2.trimmed h1.digits_ne h2.digits_ne]
  have hsci : compare (e1 + d1.length - 1) (e2 + d2.length - 1) =
      compare (e1 + d1.length) (e2 + d2.length) := by
    rcases lt_trichotomy (e1 + (d1.length : ℤ)) (e2 + d2.length) with h | h | h
    · rw [compare_lt_iff_lt.mpr h, compare_lt_iff_lt.mpr (by omega)]
    · rw [compare_eq_iff_eq.mpr h, compare_eq_iff_eq.mpr (by omega)]
    · rw [compare_gt_iff_gt.mpr h, compare_gt_iff_gt.mpr (by omega)]
  unfold cmpMagnitude
  simp only [hsci]
  cases compare (e1 + (d1.length : ℤ)) (e2 + d2.length) <;> rfl

theorem compare_neg (p q : ℚ) : compare (-p) (-q) = (compare p q).swap := by
  rcases lt_trichotomy p q with h | h | h
  · rw [compare_lt_iff_lt.mpr h, compare_gt_iff_gt.mpr (neg_lt_neg h)]
    rfl
  · rw [h, compare_eq_iff_eq.mpr rfl, compare_eq_iff_eq.mpr rfl]
    rfl
  · rw [compare_gt_iff_gt.mpr h, compare_lt_iff_lt.mpr (neg_lt_neg h)]
    rfl

theorem cmp_spec {a b : NumVal} (ha : a.Wf) (hb : b.Wf) :
    cmp a b = a.quantity.partialCmp b.quantity := by
  cases a with
  | nan => rfl
  | inf s =>
    rcases ha with rfl | rfl <;> cases b with
    | nan => rfl
    | inf t => rcases hb with rfl | rfl <;> rfl
    | zero => rfl
    | finite => rfl
  | zero =>
    cases b with
    | nan => rfl
    | inf t => rcases hb with rfl | rfl <;> rfl
    | zero => rfl
    | finite t d e =>
      have hpos := mag_pos (by decide) hb.digits_ne hb.trimmed e
      rcases hb.sign_eq with rfl | rfl
      · simp [cmp, NumVal.quantity, Quantity.partialCmp, Quantity.cmp, compare_lt_iff_lt.mpr hpos]
      · have : compare (0 : ℚ) (-mag 10 d e) = .gt := compare_gt_iff_gt.mpr (by linarith)
        simp [cmp, NumVal.quantity, Quantity.partialCmp, Quantity.cmp, this]
  | finite s d e =>
    have hpos := mag_pos (by decide) ha.digits_ne ha.trimmed e
    cases b with
    | nan => rfl
    | inf t => rcases hb with rfl | rfl <;> rfl
    | zero =>
      rcases ha.sign_eq with rfl | rfl
      · simp [cmp, NumVal.quantity, Quantity.partialCmp, Quantity.cmp, compare_gt_iff_gt.mpr hpos]
      · have : compare (-mag 10 d e) (0 : ℚ) = .lt := compare_lt_iff_lt.mpr (by linarith)
        simp [cmp, NumVal.quantity, Quantity.partialCmp, Quantity.cmp, this]
    | finite t d' e' =>
      have hpos' := mag_pos (by decide) hb.digits_ne hb.trimmed e'
      have hmag := cmpMagnitude_spec ha hb
      -- opposite signs decide; equal ones compare magnitudes, reversed below zero
      rcases ha.sign_eq with rfl | rfl <;> rcases hb.sign_eq with rfl | rfl
      · simp [cmp, NumVal.quantity, Quantity.partialCmp, Quantity.cmp, hmag]
      · have : compare (mag 10 d e) (-mag 10 d' e') = .gt := compare_gt_iff_gt.mpr (by linarith)
        simp [cmp, NumVal.quantity, Quantity.partialCmp, Quantity.cmp, this]
        decide
      · have : compare (-mag 10 d e) (mag 10 d' e') = .lt := compare_lt_iff_lt.mpr (by linarith)
        simp [cmp, NumVal.quantity, Quantity.partialCmp, Quantity.cmp, this]
        decide
      · simp [cmp, NumVal.quantity, Quantity.partialCmp, Quantity.cmp, hmag, compare_neg]

/-- Equality of classified numbers is equality of quantities, NaN apart. -/
theorem eq_spec {a b : NumVal} (ha : a.Wf) (hb : b.Wf) : eq a b = (cmp a b == some .eq) := by
  cases a with
  | nan => rfl
  | inf s =>
    rcases ha with rfl | rfl <;> cases b with
    | nan => rfl
    | inf t => rcases hb with rfl | rfl <;> rfl
    | zero => rfl
    | finite => rfl
  | zero =>
    cases b with
    | nan => rfl
    | inf t => rcases hb with rfl | rfl <;> rfl
    | zero => rfl
    | finite t d e => rcases hb.sign_eq with rfl | rfl <;> rfl
  | finite s d e =>
    cases b with
    | nan => rfl
    | inf t => rcases hb with rfl | rfl <;> rfl
    | zero => rcases ha.sign_eq with rfl | rfl <;> rfl
    | finite t d' e' =>
      have hmag := cmpMagnitude_spec ha hb
      by_cases hst : s = t
      · subst hst
        have hiff : (d = d' ∧ e = e') ↔ cmpMagnitude d e d' e' = .eq := by
          rw [hmag, compare_eq_iff_eq]
          constructor
          · rintro ⟨rfl, rfl⟩
            rfl
          · exact mag_injective (by decide) ha.trimmed hb.trimmed ha.digits_ne hb.digits_ne
        have hsw : (cmpMagnitude d e d' e').swap = .eq ↔ cmpMagnitude d e d' e' = .eq :=
          Ordering.swap_eq_eq
        rcases ha.sign_eq with rfl | rfl <;>
          simp [eq, cmp, beq_eq_decide, ← hiff, hsw]
      · rcases ha.sign_eq with rfl | rfl <;> rcases hb.sign_eq with rfl | rfl <;>
          first | exact absurd rfl hst | simp [eq, cmp]

end Numeric

theorem compare_scaled (x y : F64) : compare x.scaled y.scaled = compare x.value y.value := by
  have hu : (0 : ℚ) < 2 ^ 1074 := by positivity
  have hiff : ∀ p q : ℤ, (p : ℚ) / 2 ^ 1074 < q / 2 ^ 1074 ↔ p < q := by
    intro p q
    rw [div_lt_div_iff_of_pos_right hu, Int.cast_lt]
  unfold F64.value
  rcases lt_trichotomy x.scaled y.scaled with h | h | h
  · rw [compare_lt_iff_lt.mpr h, compare_lt_iff_lt.mpr ((hiff _ _).mpr h)]
  · rw [h, compare_eq_iff_eq.mpr rfl, compare_eq_iff_eq.mpr rfl]
  · rw [compare_gt_iff_gt.mpr h, compare_gt_iff_gt.mpr ((hiff _ _).mpr h)]

theorem F64.partialCmp_spec (x y : F64) : x.partialCmp y = x.quantity.partialCmp y.quantity := by
  have hs := compare_scaled x y
  unfold F64.partialCmp F64.quantity
  by_cases hx : x.isNan
  · simp [hx, Quantity.partialCmp]
  · by_cases hy : y.isNan
    · simp only [hy, Bool.or_true, if_true]
      split
      · rfl
      · split
        · split <;> rfl
        · rfl
    · by_cases hxi : x.isInfinite <;> by_cases hyi : y.isInfinite
      · by_cases hxn : x.negative <;> by_cases hyn : y.negative <;>
          simp [hx, hy, hxi, hyi, hxn, hyn, Quantity.partialCmp, Quantity.cmp] <;> decide
      · by_cases hxn : x.negative <;>
          simp [hx, hy, hxi, hyi, hxn, Quantity.partialCmp, Quantity.cmp] <;> decide
      · by_cases hyn : y.negative <;>
          simp [hx, hy, hxi, hyi, hyn, Quantity.partialCmp, Quantity.cmp] <;> decide
      · simp [hx, hy, hxi, hyi, Quantity.partialCmp, Quantity.cmp, hs]

namespace Numeric

theorem unit_pos : 0 < unit := by
  unfold unit
  positivity

theorem compare_int_value (i : ℤ) (f : F64) : compare (i : ℚ) f.value = compare (i * unit) f.scaled := by
  have hu : (0 : ℚ) < 2 ^ 1074 := by positivity
  have hcast : ((i * unit : ℤ) : ℚ) = i * 2 ^ 1074 := by
    simp only [unit, Int.cast_mul, Int.cast_pow, Int.cast_ofNat]
  unfold F64.value
  rcases lt_trichotomy (i * unit) f.scaled with h | h | h
  · rw [compare_lt_iff_lt.mpr h, compare_lt_iff_lt, lt_div_iff₀ hu, ← hcast, Int.cast_lt]
    exact h
  · rw [compare_eq_iff_eq.mpr h, compare_eq_iff_eq, eq_div_iff hu.ne', ← hcast, h]
  · rw [compare_gt_iff_gt.mpr h, compare_gt_iff_gt, div_lt_iff₀ hu, ← hcast, Int.cast_lt]
    exact h

/-- Truncating the double and breaking ties on the remainder is exact. -/
theorem cmpI64F64_spec {i : ℤ} (hi : -2 ^ 63 ≤ i ∧ i < 2 ^ 63) (f : F64) :
    cmpI64F64 i f = (Quantity.fin i).partialCmp f.quantity := by
  unfold cmpI64F64 F64.quantity
  by_cases hnan : f.isNan
  · simp [hnan, Quantity.partialCmp]
  · by_cases hinf : f.isInfinite
    · by_cases hneg : f.negative <;> simp [hnan, hinf, hneg, Quantity.partialCmp, Quantity.cmp]
    · have hu := unit_pos
      simp only [hnan, hinf, Bool.false_eq_true, Bool.false_and, if_false, Quantity.partialCmp,
        Quantity.cmp, compare_int_value]
      have hdiv := Int.mul_tdiv_add_tmod f.scaled unit
      have hmlt := Int.tmod_lt_of_pos f.scaled hu
      have hmgt := Int.lt_tmod_of_pos f.scaled hu
      set t := f.scaled.tdiv unit
      set r := f.scaled.tmod unit
      set s := f.scaled
      split
      · rw [eq_comm]
        congr 1
        rw [compare_lt_iff_lt]
        nlinarith
      · split
        · rw [eq_comm]
          congr 1
          rw [compare_gt_iff_gt]
          nlinarith
        · congr 1
          have hr : s - t * unit = r := by
            rw [← hdiv]
            ring
          rw [hr]
          rcases lt_trichotomy i t with h | h | h
          · rw [compare_lt_iff_lt.mpr h, eq_comm, compare_lt_iff_lt]
            nlinarith
          · rw [compare_eq_iff_eq.mpr h, h]
            rcases lt_trichotomy r 0 with hr0 | hr0 | hr0
            · simp only [not_lt.mpr hr0.le, hr0, if_false, if_true]
              rw [eq_comm, compare_gt_iff_gt]
              nlinarith
            · simp only [hr0, lt_irrefl, if_false]
              rw [eq_comm, compare_eq_iff_eq]
              nlinarith
            · simp only [hr0, if_true]
              rw [eq_comm, compare_lt_iff_lt]
              nlinarith
          · rw [compare_gt_iff_gt.mpr h, eq_comm, compare_gt_iff_gt]
            nlinarith

theorem partialCmp_fin_int (x y : ℤ) :
    some (compare x y) = (Quantity.fin x).partialCmp (Quantity.fin y) := by
  have h : compare x y = compare (x : ℚ) (y : ℚ) := by
    rcases lt_trichotomy x y with h | h | h
    · rw [compare_lt_iff_lt.mpr h, compare_lt_iff_lt.mpr (Int.cast_lt.mpr h)]
    · rw [h, compare_eq_iff_eq.mpr rfl, compare_eq_iff_eq.mpr rfl]
    · rw [compare_gt_iff_gt.mpr h, compare_gt_iff_gt.mpr (Int.cast_lt.mpr h)]
  rw [h]
  rfl

theorem int32_range (n : Int32) : -2 ^ 63 ≤ n.toInt ∧ n.toInt < 2 ^ 63 := by
  have := n.toInt_lt
  have := n.le_toInt
  omega

theorem int64_range (n : Int64) : -2 ^ 63 ≤ n.toInt ∧ n.toInt < 2 ^ 63 := by
  have := n.toInt_lt
  have := n.le_toInt
  omega

theorem fastCmp_spec {a b : Bson} {r : Option Ordering} (h : fastCmp a b = some r) :
    ∃ p q, quantity a = some p ∧ quantity b = some q ∧ r = p.partialCmp q := by
  unfold fastCmp at h
  split at h
  all_goals simp only [Option.some.injEq, reduceCtorEq] at h
  all_goals subst h
  all_goals refine ⟨_, _, rfl, rfl, ?_⟩
  · exact partialCmp_fin_int _ _
  · exact partialCmp_fin_int _ _
  · exact partialCmp_fin_int _ _
  · exact partialCmp_fin_int _ _
  · exact F64.partialCmp_spec _ _
  · exact cmpI64F64_spec (int32_range _) _
  · exact cmpI64F64_spec (int64_range _) _
  · rw [cmpI64F64_spec (int32_range _), Quantity.partialCmp_swap]
  · rw [cmpI64F64_spec (int64_range _), Quantity.partialCmp_swap]

/-- The text of a decimal says it is a NaN exactly when it is one. -/
theorem toLower_toText_nan (v : DecimalValue) :
    (v.toText.map Char.toLower = ['n', 'a', 'n'] ∨ v.toText.map Char.toLower = ['-', 'n', 'a', 'n']) ↔
      v.quantity = .nan := by
  cases v with
  | nan =>
    simp only [DecimalValue.quantity, iff_true]
    decide
  | inf neg => cases neg <;> simp [DecimalValue.quantity] <;> decide
  | finite neg coeff exp =>
    have hwf := Decimal128.layout_wf coeff coeff.isLt _ (unbias_range exp)
    have hn : (DecimalValue.finite neg coeff exp).toText =
        signedText neg (Decimal128.layout coeff (Decimal128.unbias exp)) := rfl
    have hc := hwf.not_contains neg (c := 'n') ['a', 'n'] (.inl rfl)
    rw [← hn] at hc
    have h1 : ∀ s : Text, contains s ['n', 'a', 'n'] = false →
        s ≠ ['n', 'a', 'n'] ∧ s ≠ ['-', 'n', 'a', 'n'] := by
      intro s hs
      constructor
      · rintro rfl
        exact absurd hs (by decide)
      · rintro rfl
        exact absurd hs (by decide)
    obtain ⟨h2, h3⟩ := h1 _ hc
    simp [DecimalValue.quantity, h2, h3]

theorem isNanBson_spec (v : Bson) : isNanBson v = true ↔ quantity v = some .nan := by
  cases v with
  | double d =>
    simp only [isNanBson, quantity, F64.quantity, Option.some.injEq]
    by_cases h : d.isNan
    · simp [h]
    · simp only [h, Bool.false_eq_true, if_false, false_iff]
      split
      · split <;> simp
      · simp
  | decimal128 d =>
    have h := toLower_toText_nan d.value
    rw [← decide_eq_true_iff (p := _ = ['n', 'a', 'n']), ← decide_eq_true_iff (p := _ = ['-', 'n', 'a', 'n']),
      ← Bool.or_eq_true] at h
    exact h.trans (by simp [quantity, Decimal128.quantity])
  | _ => simp [isNanBson, quantity]

end Numeric

end Secantus
