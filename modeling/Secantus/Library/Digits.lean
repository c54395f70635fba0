/-
  Positional digit strings, most significant digit first, in an arbitrary base.

  `value b ds` is the natural number a digit string writes and `mag b ds x` is
  `value · b^x`. A string is `Trimmed` when its digits are digits and neither its
  first nor its last one is zero: such a string and its exponent are determined by
  the number they write.

  Main results:
  * `compare_scientific`: two trimmed strings compare by scientific exponent, then
    letter by letter, exactly as their magnitudes do;
  * `trim_trimmed`, `mag_trim`: dropping leading zeros, and trailing ones against the
    exponent, trims a string and keeps its magnitude;
  * `mag_injective`: equal magnitudes of trimmed strings have equal digits and exponents.
-/
import Mathlib.Data.List.DropRight
import Mathlib.Data.Nat.Digits.Defs
import Mathlib.Data.Rat.Cast.Order
import Mathlib.Algebra.Order.Field.Basic
import Mathlib.Algebra.Order.Field.Power
import Mathlib.Tactic.FieldSimp
import Mathlib.Tactic.Linarith
import Mathlib.Tactic.Positivity
import Mathlib.Tactic.Ring

namespace Digits

variable {b : ℕ}

/-- The number a digit string writes. -/
def value (b : ℕ) (ds : List ℕ) : ℕ := Nat.ofDigits b ds.reverse

/-- The fraction `0.d₁d₂…`. -/
def frac (b : ℕ) : List ℕ → ℚ
  | [] => 0
  | d :: ds => (d + frac b ds) / b

/-- The magnitude `value · b^x`. -/
def mag (b : ℕ) (ds : List ℕ) (x : ℤ) : ℚ := value b ds * (b : ℚ) ^ x

/-- Digits below the base, with a nonzero digit at either end. -/
structure Trimmed (b : ℕ) (ds : List ℕ) : Prop where
  digit : ∀ d ∈ ds, d < b
  head_ne : ∀ d ∈ ds.head?, d ≠ 0
  last_ne : ∀ d ∈ ds.getLast?, d ≠ 0

/-! ## Values and fractions -/

@[simp] theorem value_nil : value b [] = 0 := rfl

theorem value_cons (d : ℕ) (ds : List ℕ) : value b (d :: ds) = d * b ^ ds.length + value b ds := by
  unfold value
  rw [List.reverse_cons, Nat.ofDigits_append, Nat.ofDigits_singleton, List.length_reverse]
  ring

theorem value_append (xs ys : List ℕ) :
    value b (xs ++ ys) = value b xs * b ^ ys.length + value b ys := by
  unfold value
  rw [List.reverse_append, Nat.ofDigits_append, List.length_reverse]
  ring

theorem value_concat (ds : List ℕ) (d : ℕ) : value b (ds ++ [d]) = value b ds * b + d := by
  rw [value_append]
  simp [value]

theorem value_eq_zero_iff (hb : 0 < b) (ds : List ℕ) : value b ds = 0 ↔ ∀ d ∈ ds, d = 0 := by
  induction ds with
  | nil => simp
  | cons d ds ih =>
    have hpow : b ^ ds.length ≠ 0 := (Nat.pow_pos hb).ne'
    rw [value_cons, Nat.add_eq_zero_iff, Nat.mul_eq_zero, or_iff_left hpow, ih, List.forall_mem_cons]

/-- The digits of `n`, most significant first. -/
theorem value_digits_reverse (b n : ℕ) : value b (Nat.digits b n).reverse = n := by
  unfold value
  rw [List.reverse_reverse, Nat.ofDigits_digits]

theorem frac_cons (d : ℕ) (ds : List ℕ) : frac b (d :: ds) = (d + frac b ds) / b := rfl

theorem frac_mul_pow (hb : 0 < b) (ds : List ℕ) : frac b ds * b ^ ds.length = value b ds := by
  have hb' : (b : ℚ) ≠ 0 := by positivity
  induction ds with
  | nil => simp [frac]
  | cons d ds ih =>
    rw [value_cons, frac, List.length_cons, pow_succ]
    push_cast
    rw [← ih]
    field_simp

theorem mag_eq_frac (hb : 0 < b) (ds : List ℕ) (x : ℤ) :
    mag b ds x = frac b ds * (b : ℚ) ^ (x + ds.length) := by
  have hb' : (b : ℚ) ≠ 0 := by positivity
  unfold mag
  rw [← frac_mul_pow hb, zpow_add₀ hb', zpow_natCast]
  ring

theorem frac_nonneg (b : ℕ) (ds : List ℕ) : 0 ≤ frac b ds := by
  induction ds with
  | nil => exact le_rfl
  | cons d ds ih =>
    rw [frac_cons]
    positivity

theorem frac_lt_one (hb : 0 < b) {ds : List ℕ} (h : ∀ d ∈ ds, d < b) : frac b ds < 1 := by
  induction ds with
  | nil => simp [frac]
  | cons d ds ih =>
    have hd : (d : ℚ) + 1 ≤ b := by exact_mod_cast h d List.mem_cons_self
    have hds := ih fun x hx => h x (List.mem_cons_of_mem d hx)
    have hb' : (0 : ℚ) < b := by exact_mod_cast hb
    rw [frac_cons, div_lt_one hb']
    linarith

/-- A string that ends in a nonzero digit writes a nonzero fraction. -/
theorem frac_pos (hb : 0 < b) {ds : List ℕ} (hne : ds ≠ []) (h : ∀ d ∈ ds.getLast?, d ≠ 0) :
    0 < frac b ds := by
  have hb' : (0 : ℚ) < b := by exact_mod_cast hb
  induction ds with
  | nil => exact absurd rfl hne
  | cons d ds ih =>
    rw [frac_cons]
    by_cases hds : ds = []
    · subst hds
      have hd : 0 < d := Nat.pos_of_ne_zero (h d rfl)
      have hd' : (0 : ℚ) < d := by exact_mod_cast hd
      rw [frac, add_zero]
      positivity
    · have hpos := ih hds fun x hx => h x (by rwa [List.getLast?_cons_of_ne_nil hds])
      positivity

theorem frac_head_le (hb : 0 < b) {d : ℕ} (ds : List ℕ) (hd : d ≠ 0) :
    1 / (b : ℚ) ≤ frac b (d :: ds) := by
  have hb' : (0 : ℚ) < b := by exact_mod_cast hb
  have hd' : (1 : ℚ) ≤ d := by exact_mod_cast Nat.one_le_iff_ne_zero.mpr hd
  have hds := frac_nonneg b ds
  rw [frac_cons, div_le_div_iff_of_pos_right hb']
  linarith

/-! ## Lexicographic order -/

/-- Letter by letter is fraction order, for strings that do not end in zero. -/
theorem compare_frac (hb : 0 < b) : ∀ {xs ys : List ℕ}, (∀ d ∈ xs, d < b) → (∀ d ∈ ys, d < b) →
    (∀ d ∈ xs.getLast?, d ≠ 0) → (∀ d ∈ ys.getLast?, d ≠ 0) →
    compare xs ys = compare (frac b xs) (frac b ys)
  | [], [], _, _, _, _ => (compare_eq_iff_eq.mpr rfl).symm
  | [], y :: ys, _, _, _, hy => by
    rw [List.compare_nil_cons, eq_comm, compare_lt_iff_lt]
    exact frac_pos hb (List.cons_ne_nil y ys) hy
  | x :: xs, [], _, _, hx, _ => by
    rw [List.compare_cons_nil, eq_comm, compare_gt_iff_gt]
    exact frac_pos hb (List.cons_ne_nil x xs) hx
  | x :: xs, y :: ys, hxd, hyd, hx, hy => by
    have hb' : (0 : ℚ) < b := by exact_mod_cast hb
    have hxs := frac_lt_one hb fun d h => hxd d (List.mem_cons_of_mem x h)
    have hys := frac_lt_one hb fun d h => hyd d (List.mem_cons_of_mem y h)
    have hxs0 := frac_nonneg b xs
    have hys0 := frac_nonneg b ys
    rw [List.compare_cons_cons]
    rcases lt_trichotomy x y with h | h | h
    · rw [compare_lt_iff_lt.mpr h, Ordering.lt_then, eq_comm, compare_lt_iff_lt]
      have h' : (x : ℚ) + 1 ≤ y := by exact_mod_cast h
      rw [frac_cons, frac_cons, div_lt_div_iff_of_pos_right hb']
      linarith
    · subst h
      have ih := compare_frac hb (fun d h => hxd d (List.mem_cons_of_mem x h))
        (fun d h => hyd d (List.mem_cons_of_mem x h))
        (fun d h => hx d (by cases xs with | nil => cases h | cons a l => exact h))
        (fun d h => hy d (by cases ys with | nil => cases h | cons a l => exact h))
      rw [compare_eq_iff_eq.mpr rfl, Ordering.eq_then, ih]
      have hiff : ∀ p q : ℚ, ((x : ℚ) + p) / b < (x + q) / b ↔ p < q := by
        intro p q
        rw [div_lt_div_iff_of_pos_right hb', add_lt_add_iff_left]
      rw [frac_cons, frac_cons]
      rcases lt_trichotomy (frac b xs) (frac b ys) with h | h | h
      · rw [compare_lt_iff_lt.mpr h, compare_lt_iff_lt.mpr ((hiff _ _).mpr h)]
      · rw [h]
        rw [compare_eq_iff_eq.mpr rfl, compare_eq_iff_eq.mpr rfl]
      · rw [compare_gt_iff_gt.mpr h, compare_gt_iff_gt.mpr ((hiff _ _).mpr h)]
    · rw [compare_gt_iff_gt.mpr h, Ordering.gt_then, eq_comm, compare_gt_iff_gt]
      have h' : (y : ℚ) + 1 ≤ x := by exact_mod_cast h
      rw [frac_cons, frac_cons, div_lt_div_iff_of_pos_right hb']
      linarith

theorem mag_pos (hb : 0 < b) {ds : List ℕ} (hne : ds ≠ []) (h : Trimmed b ds) (x : ℤ) :
    0 < mag b ds x := by
  have hb' : (0 : ℚ) < b := by exact_mod_cast hb
  rw [mag_eq_frac hb]
  have := frac_pos hb hne h.last_ne
  positivity

/-- The scientific exponent from above. -/
theorem mag_lt_zpow (hb : 0 < b) {ds : List ℕ} (h : ∀ d ∈ ds, d < b) (x : ℤ) :
    mag b ds x < (b : ℚ) ^ (x + ds.length) := by
  have hb' : (0 : ℚ) < b := by exact_mod_cast hb
  rw [mag_eq_frac hb]
  calc frac b ds * (b : ℚ) ^ (x + ds.length) < 1 * (b : ℚ) ^ (x + ds.length) :=
        mul_lt_mul_of_pos_right (frac_lt_one hb h) (zpow_pos hb' _)
    _ = (b : ℚ) ^ (x + ds.length) := one_mul _

/-- The scientific exponent from below. -/
theorem zpow_le_mag (hb : 0 < b) {ds : List ℕ} (h : Trimmed b ds) (hne : ds ≠ []) (x : ℤ) :
    (b : ℚ) ^ (x + ds.length - 1) ≤ mag b ds x := by
  have hb' : (0 : ℚ) < b := by exact_mod_cast hb
  obtain ⟨d, ds', rfl⟩ := List.exists_cons_of_ne_nil hne
  rw [mag_eq_frac hb, zpow_sub_one₀ hb'.ne', mul_comm, ← one_div]
  exact mul_le_mul_of_nonneg_right (frac_head_le hb ds' (h.head_ne d rfl)) (zpow_pos hb' _).le

theorem value_lt_pow (hb : 0 < b) {ds : List ℕ} (h : ∀ d ∈ ds, d < b) : value b ds < b ^ ds.length := by
  have hlt := mag_lt_zpow hb h 0
  rw [mag, zpow_zero, mul_one, zero_add, zpow_natCast] at hlt
  exact_mod_cast hlt

theorem pow_le_value (hb : 0 < b) {ds : List ℕ} (h : Trimmed b ds) (hne : ds ≠ []) :
    b ^ (ds.length - 1) ≤ value b ds := by
  have hle := zpow_le_mag hb h hne 0
  have hpos := List.length_pos_iff.mpr hne
  rw [mag, zpow_zero, mul_one, zero_add,
    show (ds.length : ℤ) - 1 = ((ds.length - 1 : ℕ) : ℤ) by omega, zpow_natCast] at hle
  exact_mod_cast hle

/-- A string that ends in a nonzero digit is not a multiple of the base. -/
theorem value_mod_ne {ds : List ℕ} (h : Trimmed b ds) (hne : ds ≠ []) : value b ds % b ≠ 0 := by
  have hlast := h.last_ne (ds.getLast hne) (List.getLast?_eq_some_getLast hne)
  have hlt := h.digit _ (List.getLast_mem hne)
  rw [← List.dropLast_append_getLast hne, value_concat, Nat.mul_add_mod_of_lt hlt]
  exact hlast

/-- A larger scientific exponent writes a larger number. -/
theorem mag_lt_of_exponent (hb : 0 < b) {xs ys : List ℕ} {p q : ℤ} (hx : Trimmed b xs)
    (hy : Trimmed b ys) (hyne : ys ≠ []) (h : p + xs.length < q + ys.length) :
    mag b xs p < mag b ys q := by
  have hb1 : (1 : ℚ) ≤ b := by exact_mod_cast hb
  calc mag b xs p < (b : ℚ) ^ (p + xs.length) := mag_lt_zpow hb hx.digit p
    _ ≤ (b : ℚ) ^ (q + ys.length - 1) := zpow_le_zpow_right₀ hb1 (by omega)
    _ ≤ mag b ys q := zpow_le_mag hb hy hyne q

/-- A magnitude between two powers bounds the scientific exponent. -/
theorem exponent_bounds (hb : 1 < b) {ds : List ℕ} {x lo hi : ℤ} (h : Trimmed b ds) (hne : ds ≠ [])
    (hlo : (b : ℚ) ^ lo ≤ mag b ds x) (hhi : mag b ds x < (b : ℚ) ^ hi) :
    lo ≤ x + ds.length - 1 ∧ x + ds.length - 1 < hi := by
  have hb1 : (1 : ℚ) < b := by exact_mod_cast hb
  have hb0 : 0 < b := by omega
  have h1 := (zpow_lt_zpow_iff_right₀ hb1).mp (hlo.trans_lt (mag_lt_zpow hb0 h.digit x))
  have h2 := (zpow_lt_zpow_iff_right₀ hb1).mp ((zpow_le_mag hb0 h hne x).trans_lt hhi)
  omega

/-- Trimmed strings compare by exponent, then letter by letter, as their magnitudes do. -/
theorem compare_scientific (hb : 0 < b) {xs ys : List ℕ} {p q : ℤ} (hx : Trimmed b xs)
    (hy : Trimmed b ys) (hxne : xs ≠ []) (hyne : ys ≠ []) :
    (compare (p + xs.length) (q + ys.length)).then (compare xs ys) =
      compare (mag b xs p) (mag b ys q) := by
  have hb' : (0 : ℚ) < b := by exact_mod_cast hb
  rcases lt_trichotomy (p + xs.length) (q + ys.length) with h | h | h
  · rw [compare_lt_iff_lt.mpr h, Ordering.lt_then, eq_comm, compare_lt_iff_lt]
    exact mag_lt_of_exponent hb hx hy hyne h
  · rw [compare_eq_iff_eq.mpr h, Ordering.eq_then,
      compare_frac hb hx.digit hy.digit hx.last_ne hy.last_ne, mag_eq_frac hb, mag_eq_frac hb, ← h]
    have hpow := zpow_pos hb' (p + xs.length)
    rcases lt_trichotomy (frac b xs) (frac b ys) with hf | hf | hf
    · rw [compare_lt_iff_lt.mpr hf, compare_lt_iff_lt.mpr (mul_lt_mul_of_pos_right hf hpow)]
    · rw [hf, compare_eq_iff_eq.mpr rfl, compare_eq_iff_eq.mpr rfl]
    · rw [compare_gt_iff_gt.mpr hf, compare_gt_iff_gt.mpr (mul_lt_mul_of_pos_right hf hpow)]
  · rw [compare_gt_iff_gt.mpr h, Ordering.gt_then, eq_comm, compare_gt_iff_gt]
    exact mag_lt_of_exponent hb hy hx hxne h

/-- Strings of one length compare as the numbers they write. -/
theorem compare_of_length_eq (hb : 0 < b) : ∀ {xs ys : List ℕ}, (∀ d ∈ xs, d < b) → (∀ d ∈ ys, d < b) →
    xs.length = ys.length → compare xs ys = compare (value b xs) (value b ys)
  | [], [], _, _, _ => by rw [List.compare_nil_nil, compare_eq_iff_eq.mpr rfl]
  | x :: xs, y :: ys, hx, hy, hlen => by
    have hx' : ∀ d ∈ xs, d < b := fun d hd => hx d (List.mem_cons_of_mem x hd)
    have hy' : ∀ d ∈ ys, d < b := fun d hd => hy d (List.mem_cons_of_mem y hd)
    have hlen' : xs.length = ys.length := Nat.succ.inj hlen
    have hxlt := value_lt_pow hb hx'
    have hylt := value_lt_pow hb hy'
    rw [List.compare_cons_cons, compare_of_length_eq hb hx' hy' hlen', value_cons, value_cons]
    rw [← hlen'] at hylt ⊢
    generalize b ^ xs.length = w at hxlt hylt
    rcases lt_trichotomy x y with h | rfl | h
    · rw [compare_lt_iff_lt.mpr h, Ordering.lt_then, eq_comm, compare_lt_iff_lt]
      nlinarith
    · rw [compare_eq_iff_eq.mpr rfl, Ordering.eq_then]
      generalize value b xs = v
      generalize value b ys = w'
      rcases lt_trichotomy v w' with h | rfl | h
      · rw [compare_lt_iff_lt.mpr h, compare_lt_iff_lt.mpr (by omega)]
      · rw [compare_eq_iff_eq.mpr rfl, compare_eq_iff_eq.mpr rfl]
      · rw [compare_gt_iff_gt.mpr h, compare_gt_iff_gt.mpr (by omega)]
    · rw [compare_gt_iff_gt.mpr h, Ordering.gt_then, eq_comm, compare_gt_iff_gt]
      nlinarith

/-- The digits and the exponent of a trimmed string are determined by its magnitude. -/
theorem mag_injective (hb : 0 < b) {xs ys : List ℕ} {p q : ℤ} (hx : Trimmed b xs)
    (hy : Trimmed b ys) (hxne : xs ≠ []) (hyne : ys ≠ []) (h : mag b xs p = mag b ys q) :
    xs = ys ∧ p = q := by
  have hc := compare_scientific hb (p := p) (q := q) hx hy hxne hyne
  rw [compare_eq_iff_eq.mpr h, Ordering.then_eq_eq, compare_eq_iff_eq, Std.compare_eq_iff_eq] at hc
  obtain ⟨he, rfl⟩ := hc
  exact ⟨rfl, by omega⟩

/-- The first digits of a string are its value in a coarser unit, rounded down. -/
theorem value_take (hb : 0 < b) {ds : List ℕ} (h : ∀ d ∈ ds, d < b) (k : ℕ) :
    value b (ds.take k) * b ^ (ds.length - k) ≤ value b ds ∧
      value b ds < (value b (ds.take k) + 1) * b ^ (ds.length - k) := by
  have hsplit : value b ds = value b (ds.take k) * b ^ (ds.length - k) + value b (ds.drop k) := by
    conv_lhs => rw [← List.take_append_drop k ds]
    rw [value_append, List.length_drop]
  have hrest := value_lt_pow hb fun d hd => h d (List.mem_of_mem_drop (i := k) hd)
  rw [List.length_drop] at hrest
  constructor
  · omega
  · rw [Nat.add_mul, Nat.one_mul]
    omega

theorem mag_take (hb : 0 < b) {ds : List ℕ} (h : ∀ d ∈ ds, d < b) {k : ℕ} (hk : k ≤ ds.length) (x : ℤ) :
    (value b (ds.take k) : ℚ) * b ^ (x - k) ≤ mag b ds (x - ds.length) ∧
      mag b ds (x - ds.length) < ((value b (ds.take k) + 1 : ℕ) : ℚ) * b ^ (x - k) := by
  have hb' : (0 : ℚ) < b := by exact_mod_cast hb
  obtain ⟨hlo, hhi⟩ := value_take hb h k
  have hpow : (b : ℚ) ^ (x - k) = ((b ^ (ds.length - k) : ℕ) : ℚ) * b ^ (x - ds.length) := by
    rw [Nat.cast_pow, ← zpow_natCast, ← zpow_add₀ hb'.ne']
    congr 1
    omega
  have hpos : (0 : ℚ) < (b : ℚ) ^ (x - ds.length) := zpow_pos hb' _
  unfold mag
  rw [hpow, ← mul_assoc, ← mul_assoc]
  constructor
  · exact mul_le_mul_of_nonneg_right (by exact_mod_cast hlo) hpos.le
  · exact mul_lt_mul_of_pos_right (by exact_mod_cast hhi) hpos

/-! ## Trimming -/

/-- Drops trailing zeros, counting each against the exponent. -/
def dropTrailing : List ℕ → ℤ → List ℕ × ℤ
  | [], x => ([], x)
  | d :: ds, x =>
    match dropTrailing ds x with
    | ([], y) => if d = 0 then ([], y + 1) else ([d], y)
    | (e :: es, y) => (d :: e :: es, y)

/-- Drops leading zeros, then trailing ones. -/
def trim (ds : List ℕ) (x : ℤ) : List ℕ × ℤ := dropTrailing (ds.dropWhile (· = 0)) x

theorem mag_dropTrailing (hb : 0 < b) (ds : List ℕ) (x : ℤ) :
    mag b (dropTrailing ds x).1 (dropTrailing ds x).2 = mag b ds x ∧
      ((dropTrailing ds x).1.length : ℤ) + (dropTrailing ds x).2 = ds.length + x := by
  have hb' : (b : ℚ) ≠ 0 := by positivity
  induction ds with
  | nil => simp [dropTrailing]
  | cons d ds ih =>
    obtain ⟨ihm, ihl⟩ := ih
    -- the magnitude of `d :: ds` is its head's share plus the magnitude of `ds`
    have hcons : ∀ (l : List ℕ) (y : ℤ), mag b (d :: l) y =
        d * (b : ℚ) ^ ((l.length : ℤ) + y) + mag b l y := by
      intro l y
      unfold mag
      rw [value_cons, zpow_add₀ hb', zpow_natCast]
      push_cast
      ring
    unfold dropTrailing
    rcases hd : dropTrailing ds x with ⟨_ | ⟨e, es⟩, y⟩
    · rw [hd] at ihm ihl
      simp only at ihm ihl ⊢
      by_cases h0 : d = 0
      · rw [if_pos h0]
        constructor
        · rw [hcons, ← ihm, h0]
          simp [mag]
        · simp only [List.length_nil, List.length_cons] at ihl ⊢
          push_cast
          omega
      · rw [if_neg h0]
        constructor
        · rw [hcons, hcons, ← ihl, ← ihm]
        · simp only [List.length_nil, List.length_cons] at ihl ⊢
          push_cast
          omega
    · rw [hd] at ihm ihl
      simp only at ihm ihl ⊢
      constructor
      · rw [hcons, hcons ds, ihl, ihm]
      · simp only [List.length_cons] at ihl ⊢
        push_cast at ihl ⊢
        omega

theorem mag_dropWhile (ds : List ℕ) (x : ℤ) : mag b (ds.dropWhile (· = 0)) x = mag b ds x := by
  induction ds with
  | nil => rfl
  | cons d ds ih =>
    by_cases h0 : d = 0
    · subst h0
      rw [List.dropWhile_cons_of_pos (by simp), ih]
      unfold mag
      rw [value_cons, Nat.zero_mul, Nat.zero_add]
    · rw [List.dropWhile_cons_of_neg (by simpa using h0)]

/-- Trimming keeps the magnitude. -/
theorem mag_trim (hb : 0 < b) (ds : List ℕ) (x : ℤ) :
    mag b (trim ds x).1 (trim ds x).2 = mag b ds x := by
  unfold trim
  rw [(mag_dropTrailing hb _ _).1, mag_dropWhile]

theorem dropTrailing_subset (ds : List ℕ) (x : ℤ) :
    ∀ d ∈ (dropTrailing ds x).1, d ∈ ds := by
  induction ds with
  | nil => simp [dropTrailing]
  | cons a ds ih =>
    intro d hd
    unfold dropTrailing at hd
    rcases hdt : dropTrailing ds x with ⟨_ | ⟨e, es⟩, y⟩
    · rw [hdt] at hd
      by_cases h0 : a = 0
      · simp [h0] at hd
      · simp only [h0, if_false, List.mem_singleton] at hd
        simp [hd]
    · rw [hdt] at hd ih
      rcases List.mem_cons.mp hd with rfl | h
      · exact List.mem_cons_self
      · exact List.mem_cons_of_mem a (ih d h)

theorem dropTrailing_last (ds : List ℕ) (x : ℤ) :
    ∀ d ∈ (dropTrailing ds x).1.getLast?, d ≠ 0 := by
  induction ds with
  | nil => simp [dropTrailing]
  | cons a ds ih =>
    intro d hd
    unfold dropTrailing at hd
    rcases hdt : dropTrailing ds x with ⟨_ | ⟨e, es⟩, y⟩
    · rw [hdt] at hd
      by_cases h0 : a = 0
      · simp [h0] at hd
      · simp only [h0, if_false, List.getLast?_singleton, Option.mem_def, Option.some.injEq] at hd
        exact hd ▸ h0
    · rw [hdt] at hd ih
      exact ih d hd

theorem dropTrailing_head (a : ℕ) (ds : List ℕ) (x : ℤ) (ha : a ≠ 0) :
    (dropTrailing (a :: ds) x).1.head? = some a := by
  unfold dropTrailing
  rcases dropTrailing ds x with ⟨_ | ⟨e, es⟩, y⟩
  · simp [ha]
  · rfl

/-- What is left without trailing zeros. -/
theorem dropTrailing_eq_rdropWhile (ds : List ℕ) (x : ℤ) :
    (dropTrailing ds x).1 = ds.rdropWhile (· = 0) := by
  induction ds with
  | nil => rfl
  | cons d ds ih =>
    have hrev : (d :: ds).rdropWhile (· = 0) =
        if (ds.rdropWhile (· = 0)).isEmpty then (if d = 0 then [] else [d])
        else d :: ds.rdropWhile (· = 0) := by
      unfold List.rdropWhile
      rw [List.reverse_cons, List.dropWhile_append, List.isEmpty_reverse]
      split
      · by_cases h0 : d = 0
        · simp [h0]
        · simp [h0]
      · simp
    rw [hrev, ← ih, dropTrailing]
    rcases dropTrailing ds x with ⟨_ | ⟨e, es⟩, y⟩
    · by_cases h0 : d = 0
      · simp [h0]
      · simp [h0]
    · rfl

/-- How many digits trimming takes off is what the exponent gains and the leading zeros. -/
theorem length_trim (hb : 0 < b) (ds : List ℕ) (x : ℤ) :
    ((trim ds x).1.length : ℤ) + (trim ds x).2 = (ds.dropWhile (· = 0)).length + x :=
  (mag_dropTrailing hb _ _).2

theorem trim_trimmed {ds : List ℕ} (h : ∀ d ∈ ds, d < b) (x : ℤ) : Trimmed b (trim ds x).1 := by
  have hsub : ∀ d ∈ ds.dropWhile (· = 0), d ∈ ds := fun d hd => (List.dropWhile_sublist _).mem hd
  refine ⟨fun d hd => h d (hsub d (dropTrailing_subset _ x d hd)), ?_, dropTrailing_last _ x⟩
  intro d hd
  unfold trim at hd
  cases hdw : ds.dropWhile (· = 0) with
  | nil =>
    rw [hdw] at hd
    simp [dropTrailing] at hd
  | cons a l =>
    have ha : a ≠ 0 := by
      have := List.head_dropWhile_not (fun x : ℕ => decide (x = 0)) (l := ds) (by rw [hdw]; simp)
      simpa [hdw] using this
    rw [hdw, dropTrailing_head a l x ha] at hd
    simp only [Option.mem_def, Option.some.injEq] at hd
    exact hd ▸ ha

/-- Trimming leaves nothing exactly when the string writes zero. -/
theorem trim_eq_nil_iff (hb : 0 < b) {ds : List ℕ} (h : ∀ d ∈ ds, d < b) (x : ℤ) :
    (trim ds x).1 = [] ↔ value b ds = 0 := by
  have hb' : (0 : ℚ) < b := by exact_mod_cast hb
  have hm := mag_trim hb ds x
  constructor
  · intro h0
    rw [h0] at hm
    have h1 : mag b ds x = 0 := by
      rw [← hm]
      simp [mag]
    unfold mag at h1
    rcases mul_eq_zero.mp h1 with h2 | h2
    · exact_mod_cast h2
    · exact absurd h2 (zpow_pos hb' x).ne'
  · intro h0
    by_contra hne
    have := mag_pos hb hne (trim_trimmed h x) (trim ds x).2
    rw [hm, mag, h0] at this
    simp at this

end Digits
