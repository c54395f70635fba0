/-
  Where a constant sits among the Decimal128s (`decimal128_bracket`).

  A constant some Decimal128 equals is that one; any other lies strictly between two neighbours with none
  between them. `Decimal128::from_str` is a parameter; `Reads` is what the code relies on it for: what it
  accepts it reads exactly, and it accepts its own rendering and up to 35 digits with an exponent when a
  Decimal128 has that value.

  * `decimal128Bracket_plain`: both, for every plain constant;
  * `decimal128Bracket_canonical`: for the NaN and the infinities too.
-/
import Secantus.PgNumeric.SortKey

namespace Secantus.PgNumeric

open Secantus Digits

/-! ## `Decimal128::from_str` -/

/-- `{sign}{digits}E{exp}`, with or without a plus. -/
def scientific (neg : Bool) (digits : Text) (plus : Bool) (exp : ℤ) : Text :=
  (if neg then ['-'] else []) ++ digits ++ 'E' :: ((if plus then ['+'] else []) ++ intText exp)

structure Reads (fromStr : Text → Option Decimal128) : Prop where
  rendered : ∀ v : DecimalValue, ∃ d, fromStr v.toText = some d ∧ d.quantity = v.quantity
  sound : ∀ {neg plus : Bool} {ds : List ℕ} {exp : ℤ} {d : Decimal128}, ds ≠ [] → (∀ x ∈ ds, x < 10) →
    (plus = true → 0 ≤ exp) →
    fromStr (scientific neg (digitText ds) plus exp) = some d →
    d.quantity = .fin (Decimal128.signed neg (mag 10 ds exp))
  complete : ∀ {neg plus : Bool} {ds : List ℕ} {exp : ℤ}, (∀ x ∈ ds, x < 10) → ds.length ≤ 35 →
    Digits.value 10 ds ≠ 0 → (plus = true → 0 ≤ exp) → (∃ d : Decimal128, d.quantity = .fin (Decimal128.signed neg (mag 10 ds exp))) →
    ∃ d, fromStr (scientific neg (digitText ds) plus exp) = some d

/-! ## The bracket -/

inductive Bracket where
  | exact (d : Decimal128)
  | between (lo hi : Decimal128)

def nonFiniteClass (canonical : Text) : Option ℤ :=
  if canonical = ['N', 'a', 'N'] then some 0
  else if canonical = ['I', 'n', 'f', 'i', 'n', 'i', 't', 'y'] then some 1
  else if canonical = ['-', 'I', 'n', 'f', 'i', 'n', 'i', 't', 'y'] then some (-1)
  else none

/-- How many digits a Decimal128 can hold here. -/
def takeDigits (length : ℕ) (exponent : ℤ) : ℕ :=
  let take := min length 34
  if exponent - take < -6176 then (max 0 (min (exponent + 6176) take)).toNat else take

/-- `neg`: the sign of a decimal's text turned. -/
def negDecimal (fromStr : Text → Option Decimal128) (d : Decimal128) : Option Decimal128 :=
  fromStr (match stripPrefix '-' d.toText with
    | some r => r
    | none => '-' :: d.toText)

/-- The texts of the largest Decimal128 and of the smallest above zero. -/
def maxText : Text := scientific false (digitText (List.replicate 34 9)) true 6111

def infinityText : Text := (DecimalValue.inf false).toText

def minText : Text := scientific false ['1'] false (-6176)

/-- The neighbours of a magnitude: the digits that fit and one unit more, or the ends of the line. -/
def neighbours (fromStr : Text → Option Decimal128) (significant : Text) (exponent : ℤ) :
    Option (Decimal128 × Decimal128) := do
  let take := takeDigits significant.length exponent
  let tailExp := exponent - take
  let head ← (significant.take take).mapM toDigit
  let lo := Digits.value 10 head
  let mk (n : ℕ) := fromStr (scientific false (digitText (decimalDigits n)) false tailExp)
  match mk lo, mk (lo + 1) with
  | some lo, some hi => return (lo, hi)
  | _, _ =>
    if 0 < exponent then return (← fromStr maxText, ← fromStr infinityText)
    else return (← fromStr ['0'], ← fromStr minText)

/-- `decimal128_bracket`; an `expect` that fails is `none`. -/
def decimal128Bracket (fromStr : Text → Option Decimal128) (canonical : Text) : Option Bracket := do
  if (nonFiniteClass canonical).isSome then return .exact (← fromStr canonical)
  let p ← splitCanonical canonical
  if isZeroDigits p then return .exact (← fromStr ['0'])
  let (exponent, significant) := significantDigits p
  let exact :=
    if significant.length ≤ 34 then
      fromStr (scientific p.neg significant false (exponent - significant.length))
    else none
  match exact with
  | some d => return .exact d
  | none =>
    let (below, above) ← neighbours fromStr significant exponent
    if p.neg then return .between (← negDecimal fromStr above) (← negDecimal fromStr below)
    else return .between below above

/-- What a bracket says of a number: it is a decimal's, or between two numbers with none between them. -/
def Bracket.Holds (b : Bracket) (x : Quantity) : Prop :=
  match b with
  | .exact d => d.quantity = x
  | .between lo hi => lo.quantity ≠ .nan ∧ lo.quantity.cmp x = .lt ∧ x.cmp hi.quantity = .lt ∧
      ∀ d : Decimal128, ¬(lo.quantity.cmp d.quantity = .lt ∧ d.quantity.cmp hi.quantity = .lt)

/-! ## Reading what a bracket needs -/

section Reads

variable {fromStr : Text → Option Decimal128}

theorem Reads.zero (h : Reads fromStr) : ∃ d, fromStr ['0'] = some d ∧ d.quantity = .fin 0 := by
  obtain ⟨d, hd, hq⟩ := h.rendered (.finite false 0 6176)
  refine ⟨d, hd, ?_⟩
  rw [hq]
  simp [DecimalValue.quantity]

theorem Reads.infinity (h : Reads fromStr) : ∃ d, fromStr infinityText = some d ∧ d.quantity = .posInf :=
  h.rendered (.inf false)

theorem mag_replicate_nine (x : ℤ) : mag 10 (List.replicate 34 9) x = ((10 ^ 34 - 1 : ℕ) : ℚ) * 10 ^ x := by
  have hv : Digits.value 10 (List.replicate 34 9) = 10 ^ 34 - 1 := by decide
  unfold mag
  rw [hv]
  rfl

theorem Reads.max (h : Reads fromStr) : ∃ d, fromStr maxText = some d ∧
    d.quantity = .fin (((10 ^ 34 - 1 : ℕ) : ℚ) * 10 ^ Decimal128.maxExponent) := by
  have hlt : ∀ x ∈ List.replicate 34 9, x < 10 := by decide
  have hval : ∃ d : Decimal128, d.quantity =
      .fin (Decimal128.signed false (mag 10 (List.replicate 34 9) Decimal128.maxExponent)) := by
    rw [mag_replicate_nine]
    exact Decimal128.exists_decimal false (by decide) (by decide) le_rfl
  obtain ⟨d, hd⟩ := @Reads.complete _ h false true _ _ hlt (by decide) (by decide) (by decide) hval
  refine ⟨d, hd, ?_⟩
  rw [h.sound (by decide) hlt (by decide) hd, mag_replicate_nine]
  rfl

theorem Reads.min (h : Reads fromStr) : ∃ d, fromStr minText = some d ∧
    d.quantity = .fin (((0 + 1 : ℕ) : ℚ) * 10 ^ (-6176 : ℤ)) := by
  obtain ⟨d, hd, hq⟩ := h.rendered (.finite false 1 0)
  refine ⟨d, hd, ?_⟩
  rw [hq]
  simp [DecimalValue.quantity, Decimal128.unbias]

/-- The opposite value. -/
def negate : Quantity → Quantity
  | .nan => .nan
  | .negInf => .posInf
  | .fin q => .fin (-q)
  | .posInf => .negInf

theorem Reads.neg (h : Reads fromStr) {d : Decimal128} (hd : d.quantity ≠ .nan) :
    ∃ d', negDecimal fromStr d = some d' ∧ d'.quantity = negate d.quantity := by
  unfold negDecimal Decimal128.toText
  unfold Decimal128.quantity at hd ⊢
  cases hv : d.value with
  | nan =>
    rw [hv] at hd
    exact absurd rfl hd
  | inf neg =>
    obtain ⟨d', hd', hq⟩ := h.rendered (.inf (!neg))
    refine ⟨d', ?_, hq.trans ?_⟩
    · rw [← hd']
      cases neg <;> rfl
    · cases neg <;> rfl
  | finite neg coeff exp =>
    obtain ⟨d', hd', hq⟩ := h.rendered (.finite (!neg) coeff exp)
    have hwf := Decimal128.layout_wf coeff coeff.isLt _ (unbias_range exp)
    have htext : ∀ neg, (DecimalValue.finite neg coeff exp).toText =
        signedText neg (Decimal128.layout coeff (Decimal128.unbias exp)) := fun _ => rfl
    refine ⟨d', ?_, hq.trans ?_⟩
    · rw [← hd', htext, htext, stripPrefix_signedText hwf]
      cases neg <;> rfl
    · cases neg <;> simp [negate, DecimalValue.quantity]

end Reads

/-! ## The order of quantities -/

theorem cmp_negate {x y : Quantity} (hx : x ≠ .nan) (hy : y ≠ .nan) :
    (negate x).cmp (negate y) = y.cmp x := by
  cases x with
  | nan => exact absurd rfl hx
  | negInf => cases y <;> first | exact absurd rfl hy | rfl
  | posInf => cases y <;> first | exact absurd rfl hy | rfl
  | fin p =>
    cases y with
    | nan => exact absurd rfl hy
    | negInf => rfl
    | posInf => rfl
    | fin q =>
      show compare (-p) (-q) = compare q p
      rw [Numeric.compare_neg]
      exact (Std.OrientedOrd.eq_swap (a := q) (b := p)).symm

theorem negate_negate (x : Quantity) : negate (negate x) = x := by
  cases x with
  | fin q => exact congrArg Quantity.fin (neg_neg q)
  | nan => rfl
  | negInf => rfl
  | posInf => rfl

theorem cmp_fin_lt {p q : ℚ} : (Quantity.fin p).cmp (.fin q) = .lt ↔ p < q := compare_lt_iff_lt

/-! ## The neighbours of a magnitude -/

theorem exists_unit {n : ℕ} {t : ℤ} (hn : n ≤ 10 ^ 34) (hlo : -6176 ≤ t) (hhi : t ≤ 6110) :
    ∃ d : Decimal128, d.quantity = .fin (Decimal128.signed false (n * 10 ^ t)) := by
  rcases Nat.lt_or_eq_of_le hn with hlt | rfl
  · exact Decimal128.exists_decimal false hlt hlo (by omega)
  · obtain ⟨d, hd⟩ := Decimal128.exists_decimal false (k := 10 ^ 33) (x := t + 1) (by decide) (by omega) (by omega)
    refine ⟨d, hd.trans ?_⟩
    congr 2
    rw [zpow_add_one₀ (by norm_num)]
    push_cast
    ring

section Neighbours

variable {fromStr : Text → Option Decimal128} {ds : List ℕ} {x : ℤ}

theorem scientific_sound (h : Reads fromStr) {n : ℕ} {t : ℤ} {d : Decimal128}
    (hd : fromStr (scientific false (digitText (decimalDigits n)) false t) = some d) :
    d.quantity = .fin (n * 10 ^ t) := by
  rw [h.sound (decimalDigits_ne_nil n) (decimalDigits_lt n) (by simp) hd, mag_decimalDigits]
  rfl

theorem scientific_complete (h : Reads fromStr) {n : ℕ} {t : ℤ} (h0 : n ≠ 0) (hn : n ≤ 10 ^ 34)
    (hd : ∃ d : Decimal128, d.quantity = .fin (Decimal128.signed false (n * 10 ^ t))) :
    ∃ d, fromStr (scientific false (digitText (decimalDigits n)) false t) = some d := by
  refine h.complete (decimalDigits_lt n) ?_ (by rwa [value_decimalDigits]) (by simp) ?_
  · exact length_decimalDigits (by omega) (by decide)
  · rwa [mag_decimalDigits]

/-- How many digits are taken: all that fit, down to the last exponent. -/
theorem takeDigits_cases (n : ℕ) (x : ℤ) :
    x < -6176 ∧ takeDigits n x = 0 ∨
    -6176 ≤ x ∧ x - takeDigits n x = -6176 ∧ takeDigits n x ≤ min n 34 ∨
    -6176 ≤ x - takeDigits n x ∧ takeDigits n x = min n 34 := by
  unfold takeDigits
  dsimp only
  split
  · rcases lt_or_ge x (-6176) with hx | hx
    · exact .inl ⟨hx, by omega⟩
    · exact .inr (.inl ⟨hx, by omega, by omega⟩)
  · exact .inr (.inr ⟨by omega, rfl⟩)

theorem takeDigits_le (n : ℕ) (x : ℤ) : takeDigits n x ≤ min n 34 := by
  rcases takeDigits_cases n x with ⟨-, h⟩ | ⟨-, -, h⟩ | ⟨-, h⟩
  · omega
  · exact h
  · exact h.le

/-- A decimal strictly between two numbers is one of the rationals between them. -/
theorem finite_of_between {lo hi : ℚ} {d : Decimal128} (hlo : (Quantity.fin lo).cmp d.quantity = .lt)
    (hhi : d.quantity.cmp (.fin hi) = .lt) : ∃ q, d.quantity = .fin q ∧ lo < q ∧ q < hi := by
  cases hq : d.quantity with
  | fin q =>
    rw [hq] at hlo hhi
    exact ⟨q, rfl, cmp_fin_lt.mp hlo, cmp_fin_lt.mp hhi⟩
  | nan =>
    rw [hq] at hlo
    cases hlo
  | negInf =>
    rw [hq] at hlo
    cases hlo
  | posInf =>
    rw [hq] at hhi
    cases hhi

/-- What the two neighbours of a magnitude are. -/
structure Adjacent (lo hi : Decimal128) (m : ℚ) : Prop where
  below : lo.quantity.cmp (.fin m) = .lt
  above : (Quantity.fin m).cmp hi.quantity = .lt
  lo_ne : lo.quantity ≠ .nan
  none_between : ∀ d : Decimal128, ¬(lo.quantity.cmp d.quantity = .lt ∧ d.quantity.cmp hi.quantity = .lt)

/-- Two multiples of a unit side by side, where no decimal is between. -/
theorem adjacent_of_units {lo hi : Decimal128} {m : ℚ} {k : ℕ} {t : ℤ} (hlo : lo.quantity = .fin (k * 10 ^ t))
    (hhi : hi.quantity = .fin (((k + 1 : ℕ) : ℚ) * 10 ^ t)) (hm : (k : ℚ) * 10 ^ t < m)
    (hm' : m < ((k + 1 : ℕ) : ℚ) * 10 ^ t) (hk : t = -6176 ∨ 10 ^ 33 ≤ k) : Adjacent lo hi m := by
  refine ⟨?_, ?_, ?_, ?_⟩
  · rw [hlo]
    exact cmp_fin_lt.mpr hm
  · rw [hhi]
    exact cmp_fin_lt.mpr hm'
  · rw [hlo]
    exact Quantity.noConfusion
  · rintro d ⟨h1, h2⟩
    rw [hlo] at h1
    rw [hhi] at h2
    obtain ⟨q, hq, h1, h2⟩ := finite_of_between h1 h2
    have hpos : 0 ≤ q := (by positivity : (0 : ℚ) ≤ k * 10 ^ t).trans h1.le
    rcases Decimal128.no_decimal_between hq hk with h | h
    · rw [abs_of_nonneg hpos] at h
      exact absurd h (not_le.mpr h1)
    · rw [abs_of_nonneg hpos] at h
      exact absurd h (not_le.mpr h2)

theorem adjacent_of_max {lo hi : Decimal128} {m : ℚ}
    (hlo : lo.quantity = .fin (((10 ^ 34 - 1 : ℕ) : ℚ) * 10 ^ Decimal128.maxExponent)) (hhi : hi.quantity = .posInf)
    (hm : ((10 ^ 34 - 1 : ℕ) : ℚ) * 10 ^ Decimal128.maxExponent < m) : Adjacent lo hi m := by
  refine ⟨?_, ?_, ?_, ?_⟩
  · rw [hlo]
    exact cmp_fin_lt.mpr hm
  · rw [hhi]
    rfl
  · rw [hlo]
    exact Quantity.noConfusion
  · rintro d ⟨h1, h2⟩
    rw [hlo] at h1
    rw [hhi] at h2
    cases hq : d.quantity with
    | fin q =>
      rw [hq] at h1
      have hle := Decimal128.abs_le_max hq
      exact absurd ((le_abs_self q).trans hle) (not_le.mpr (cmp_fin_lt.mp h1))
    | nan =>
      rw [hq] at h1
      cases h1
    | negInf =>
      rw [hq] at h1
      cases h1
    | posInf =>
      rw [hq] at h2
      cases h2

/-- The neighbours of a magnitude, by what `from_str` makes of the digits that fit. -/
theorem neighbours_eq (h : Trimmed 10 ds) : neighbours fromStr (digitText ds) x =
    (match fromStr (scientific false (digitText (decimalDigits
          (Digits.value 10 (ds.take (takeDigits ds.length x))))) false (x - takeDigits ds.length x)),
        fromStr (scientific false (digitText (decimalDigits
          (Digits.value 10 (ds.take (takeDigits ds.length x)) + 1))) false (x - takeDigits ds.length x)) with
      | some lo, some hi => some (lo, hi)
      | _, _ =>
        if 0 < x then (fromStr maxText).bind fun lo => (fromStr infinityText).bind fun hi => some (lo, hi)
        else (fromStr ['0']).bind fun lo => (fromStr minText).bind fun hi => some (lo, hi)) := by
  have hlen : (digitText ds).length = ds.length := List.length_map _
  have htake : (digitText ds).take (takeDigits ds.length x) = digitText (ds.take (takeDigits ds.length x)) :=
    List.map_take.symm
  have hmap := mapM_toDigit fun d hd => h.digit d (List.mem_of_mem_take (i := takeDigits ds.length x) hd)
  unfold neighbours
  simp only [hlen, htake, hmap]
  rfl

/-- Enough digits are taken to fill a decimal, or to reach the last exponent. -/
theorem unit_is_least (h : Trimmed 10 ds) (hne : ds ≠ []) (hx : -6176 ≤ x)
    (hlen : 34 ≤ ds.length ∨ x - takeDigits ds.length x = -6176) :
    x - takeDigits ds.length x = -6176 ∨ 10 ^ 33 ≤ Digits.value 10 (ds.take (takeDigits ds.length x)) := by
  rcases takeDigits_cases ds.length x with ⟨hlt, -⟩ | ⟨-, heq, -⟩ | ⟨-, htake⟩
  · omega
  · exact .inl heq
  · rcases hlen with hlen | hlen
    · right
      have h34 : takeDigits ds.length x = 34 := by omega
      have hlow := pow_le_value (b := 10) (by decide) h hne
      have hhigh := (value_take (b := 10) (by decide) h.digit (takeDigits ds.length x)).2
      rw [h34] at hhigh ⊢
      by_contra hlt
      have hle : Digits.value 10 (ds.take 34) + 1 ≤ 10 ^ 33 := by omega
      have hpow : 10 ^ 33 * 10 ^ (ds.length - 34) = 10 ^ (ds.length - 1) := by
        rw [← Nat.pow_add]
        congr 1
        omega
      have hmul := Nat.mul_le_mul_right (10 ^ (ds.length - 34)) hle
      omega
    · exact .inl hlen

theorem taken_lt (h : Trimmed 10 ds) : Digits.value 10 (ds.take (takeDigits ds.length x)) < 10 ^ 34 := by
  have hlt := value_lt_pow (b := 10) (by decide)
    fun d hd => h.digit d (List.mem_of_mem_take (i := takeDigits ds.length x) hd)
  have hle := takeDigits_le ds.length x
  rw [List.length_take] at hlt
  exact hlt.trans_le (Nat.pow_le_pow_right (by decide) (by omega))

theorem taken_ne_zero (h : Trimmed 10 ds) (hne : ds ≠ []) (ht : 0 < takeDigits ds.length x) :
    Digits.value 10 (ds.take (takeDigits ds.length x)) ≠ 0 := by
  have hle := takeDigits_le ds.length x
  have hlow := pow_le_value (b := 10) (by decide) h hne
  have hhigh := (value_take (b := 10) (by decide) h.digit (takeDigits ds.length x)).2
  intro hzero
  rw [hzero] at hhigh
  have hpow : 10 ^ (ds.length - takeDigits ds.length x) ≤ 10 ^ (ds.length - 1) :=
    Nat.pow_le_pow_right (by decide) (by omega)
  omega

/-- The unit of the digits taken, and the number they write. -/
def tailExp (ds : List ℕ) (x : ℤ) : ℤ := x - takeDigits ds.length x

def taken (ds : List ℕ) (x : ℤ) : ℕ := Digits.value 10 (ds.take (takeDigits ds.length x))

theorem mag_taken (h : Trimmed 10 ds) : (taken ds x : ℚ) * 10 ^ tailExp ds x ≤ mag 10 ds (x - ds.length) ∧
    mag 10 ds (x - ds.length) < ((taken ds x + 1 : ℕ) : ℚ) * 10 ^ tailExp ds x :=
  mag_take (b := 10) (by decide) h.digit (by have := takeDigits_le ds.length x; omega) x

/-- The magnitude is past the taken digits when no decimal is equal to it. -/
theorem taken_lt_mag (h : Trimmed 10 ds)
    (hnone : ¬∃ d : Decimal128, d.quantity = .fin (mag 10 ds (x - ds.length)))
    (hd : ∃ d : Decimal128, d.quantity = .fin (taken ds x * 10 ^ tailExp ds x)) :
    (taken ds x : ℚ) * 10 ^ tailExp ds x < mag 10 ds (x - ds.length) := by
  refine lt_of_le_of_ne (mag_taken h).1 fun heq => hnone ?_
  rwa [← heq]

/-- Where both units are read, they are the neighbours. -/
theorem adjacent_of_read (hr : Reads fromStr) (h : Trimmed 10 ds) (hne : ds ≠ [])
    (hnone : ¬∃ d : Decimal128, d.quantity = .fin (mag 10 ds (x - ds.length))) {lo hi : Decimal128}
    (hlo : fromStr (scientific false (digitText (decimalDigits (taken ds x))) false (tailExp ds x)) = some lo)
    (hhi : fromStr (scientific false (digitText (decimalDigits (taken ds x + 1))) false (tailExp ds x)) = some hi) :
    Adjacent lo hi (mag 10 ds (x - ds.length)) := by
  have hlo' := scientific_sound hr hlo
  have hhi' := scientific_sound hr hhi
  have hstrict := taken_lt_mag h hnone ⟨lo, hlo'⟩
  refine adjacent_of_units hlo' hhi' hstrict (mag_taken h).2 ?_
  rcases lt_or_ge x (-6176) with hx | hx
  · -- with no digit left the upper unit is below every decimal above zero
    exfalso
    have ht : takeDigits ds.length x = 0 := by
      rcases takeDigits_cases ds.length x with ⟨-, ht⟩ | ⟨hge, -⟩ | ⟨hge, -⟩
      · exact ht
      · omega
      · omega
    have hunit : hi.quantity = .fin (Decimal128.signed false (mag 10 [1] x)) := by
      rw [hhi']
      simp [taken, tailExp, ht, Decimal128.signed, mag, Digits.value]
    have hfit := (Decimal128.exists_decimal_iff false ⟨by decide, by decide, by decide⟩ (by decide)).mp ⟨hi, hunit⟩
    omega
  · refine unit_is_least h hne hx ?_
    by_contra hshort
    rw [not_or] at hshort
    -- fewer than 34 digits, all taken, are the magnitude itself
    have ht : takeDigits ds.length x = ds.length := by
      rcases takeDigits_cases ds.length x with ⟨hlt, -⟩ | ⟨-, heq, -⟩ | ⟨-, ht⟩
      · omega
      · exact absurd heq hshort.2
      · omega
    have hsame : (taken ds x : ℚ) * 10 ^ tailExp ds x = mag 10 ds (x - ds.length) := by
      unfold taken tailExp
      rw [ht, List.take_length]
      rfl
    exact absurd hsame hstrict.ne

/-- The texts of both units are read when the units are in range. -/
theorem units_read (hr : Reads fromStr) (h : Trimmed 10 ds) (hne : ds ≠ []) (ht : 0 < takeDigits ds.length x)
    (hlo : -6176 ≤ tailExp ds x) (hhi : tailExp ds x ≤ 6110) :
    (∃ d, fromStr (scientific false (digitText (decimalDigits (taken ds x))) false (tailExp ds x)) = some d) ∧
      ∃ d, fromStr (scientific false (digitText (decimalDigits (taken ds x + 1))) false (tailExp ds x)) = some d := by
  have hlt : taken ds x < 10 ^ 34 := taken_lt h
  exact ⟨scientific_complete hr (taken_ne_zero h hne ht) hlt.le (exists_unit hlt.le hlo hhi),
    scientific_complete hr (Nat.succ_ne_zero _) hlt (exists_unit hlt hlo hhi)⟩

/-- Above zero, a magnitude without both units is past the largest decimal. -/
theorem max_lt_mag (hr : Reads fromStr) (h : Trimmed 10 ds) (hne : ds ≠ [])
    (hnone : ¬∃ d : Decimal128, d.quantity = .fin (mag 10 ds (x - ds.length))) (hx : 0 < x)
    (hfail : ¬((∃ d, fromStr (scientific false (digitText (decimalDigits (taken ds x))) false (tailExp ds x)) =
      some d) ∧ ∃ d, fromStr (scientific false (digitText (decimalDigits (taken ds x + 1))) false (tailExp ds x)) =
      some d)) :
    ((10 ^ 34 - 1 : ℕ) : ℚ) * 10 ^ Decimal128.maxExponent < mag 10 ds (x - ds.length) := by
  have hpos := List.length_pos_iff.mpr hne
  have hrange : ¬(ds.length ≤ 34 ∧ -6176 ≤ x - ds.length ∧ x ≤ 6145) := by
    intro hfit
    refine hnone ((Decimal128.exists_decimal_iff false h hne).mpr ⟨hfit.1, hfit.2.1, ?_⟩)
    omega
  have ht : takeDigits ds.length x = min ds.length 34 := by
    rcases takeDigits_cases ds.length x with ⟨hlt, -⟩ | ⟨-, heq, hle⟩ | ⟨-, ht⟩
    · omega
    · omega
    · exact ht
  rcases lt_or_ge 6145 x with hbig | hsmall
  · -- the first digit alone is past it
    have hmag := zpow_le_mag (b := 10) (by decide) h hne (x - ds.length)
    have hmax : (6145 : ℤ) = Decimal128.maxExponent + 34 := rfl
    rw [hmax] at hbig
    generalize Decimal128.maxExponent = m at hbig ⊢
    calc ((10 ^ 34 - 1 : ℕ) : ℚ) * 10 ^ m < 10 ^ 34 * 10 ^ m :=
          mul_lt_mul_of_pos_right (by norm_num) (by positivity)
      _ = 10 ^ (m + 34) := by
          rw [zpow_add₀ (by norm_num), mul_comm]
          rfl
      _ ≤ 10 ^ (x - ds.length + ds.length - 1) := zpow_le_zpow_right₀ (by norm_num) (by omega)
      _ ≤ mag 10 ds (x - ds.length) := hmag
  · -- 34 digits are taken, and only 34 nines at the last exponent have no next unit
    have h34 : takeDigits ds.length x = 34 := by omega
    have htail : tailExp ds x = x - 34 := by
      unfold tailExp
      rw [h34]
      rfl
    have hx6145 : x = 6145 := by
      by_contra hne6145
      exact hfail (units_read hr h hne (by omega) (by omega) (by omega))
    have htail' : tailExp ds x = Decimal128.maxExponent := by
      rw [htail, hx6145]
      rfl
    have hlt : taken ds x < 10 ^ 34 := taken_lt h
    obtain ⟨d, hd⟩ := Decimal128.exists_decimal false hlt (x := Decimal128.maxExponent) (by decide) le_rfl
    have hlo : ∃ d, fromStr (scientific false (digitText (decimalDigits (taken ds x))) false (tailExp ds x)) = some d := by
      refine scientific_complete hr (taken_ne_zero h hne (by omega)) hlt.le ?_
      rw [htail']
      exact ⟨d, hd⟩
    have hnine : taken ds x = 10 ^ 34 - 1 := by
      by_contra hlt'
      refine hfail ⟨hlo, scientific_complete hr (Nat.succ_ne_zero _) (by omega) ?_⟩
      rw [htail']
      exact Decimal128.exists_decimal false (by omega) (by decide) le_rfl
    have hstrict := taken_lt_mag h hnone (by rw [htail']; exact ⟨d, hd⟩)
    rwa [htail', hnine] at hstrict

/-- At or below one, a magnitude without both units is below the smallest decimal. -/
theorem exponent_le (hr : Reads fromStr) (h : Trimmed 10 ds) (hne : ds ≠ []) (hx : x ≤ 0)
    (hfail : ¬((∃ d, fromStr (scientific false (digitText (decimalDigits (taken ds x))) false (tailExp ds x)) =
      some d) ∧ ∃ d, fromStr (scientific false (digitText (decimalDigits (taken ds x + 1))) false (tailExp ds x)) =
      some d)) : x ≤ -6176 := by
  have hpos := List.length_pos_iff.mpr hne
  by_contra hgt
  have htail : tailExp ds x = x - takeDigits ds.length x := rfl
  rcases takeDigits_cases ds.length x with ⟨hlt, -⟩ | ⟨-, heq, -⟩ | ⟨hge, ht⟩
  · omega
  · exact hfail (units_read hr h hne (by omega) (by omega) (by omega))
  · exact hfail (units_read hr h hne (by omega) (by omega) (by omega))

/-- A magnitude that is no decimal's has neighbours, with no decimal between. -/
theorem neighbours_spec (hr : Reads fromStr) (h : Trimmed 10 ds) (hne : ds ≠ [])
    (hnone : ¬∃ d : Decimal128, d.quantity = .fin (mag 10 ds (x - ds.length))) :
    ∃ lo hi, neighbours fromStr (digitText ds) x = some (lo, hi) ∧ Adjacent lo hi (mag 10 ds (x - ds.length)) := by
  have hends : ¬((∃ d, fromStr (scientific false (digitText (decimalDigits (taken ds x))) false (tailExp ds x)) =
      some d) ∧ ∃ d, fromStr (scientific false (digitText (decimalDigits (taken ds x + 1))) false (tailExp ds x)) =
      some d) → ∃ lo hi, (if 0 < x then
        (fromStr maxText).bind fun lo => (fromStr infinityText).bind fun hi => some (lo, hi)
        else (fromStr ['0']).bind fun lo => (fromStr minText).bind fun hi => some (lo, hi)) = some (lo, hi) ∧
      Adjacent lo hi (mag 10 ds (x - ds.length)) := by
    intro hfail
    by_cases hx : 0 < x
    · obtain ⟨lo, hlo, hloq⟩ := hr.max
      obtain ⟨hi, hhi, hhiq⟩ := hr.infinity
      refine ⟨lo, hi, ?_, adjacent_of_max hloq hhiq (max_lt_mag hr h hne hnone hx hfail)⟩
      rw [if_pos hx, hlo, hhi]
      rfl
    · obtain ⟨lo, hlo, hloq⟩ := hr.zero
      obtain ⟨hi, hhi, hhiq⟩ := hr.min
      have hle := exponent_le hr h hne (not_lt.mp hx) hfail
      have hmag := mag_lt_zpow (b := 10) (by decide) h.digit (x - ds.length)
      refine ⟨lo, hi, ?_, adjacent_of_units (k := 0) (t := -6176) ?_ hhiq ?_ ?_ (.inl rfl)⟩
      · rw [if_neg hx, hlo, hhi]
        rfl
      · simpa using hloq
      · simpa using mag_pos (b := 10) (by decide) hne h (x - ds.length)
      · calc mag 10 ds (x - ds.length) < 10 ^ (x - ds.length + ds.length) := hmag
          _ ≤ 10 ^ (-6176 : ℤ) := zpow_le_zpow_right₀ (by norm_num) (by omega)
          _ = ((0 + 1 : ℕ) : ℚ) * 10 ^ (-6176 : ℤ) := by simp
  rw [neighbours_eq h]
  split
  · rename_i lo hi hlo hhi
    exact ⟨lo, hi, rfl, adjacent_of_read hr h hne hnone hlo hhi⟩
  · rename_i hnot
    refine hends ?_
    rintro ⟨⟨lo, hlo⟩, hi, hhi⟩
    exact hnot lo hi hlo hhi

end Neighbours

/-! ## The bracket of a constant -/

theorem exists_negated (d : Decimal128) : ∃ d' : Decimal128, d'.quantity = negate d.quantity := by
  unfold Decimal128.quantity
  cases d.value with
  | nan => exact ⟨Decimal128.ofValue .nan, by rw [Decimal128.value_ofValue]; rfl⟩
  | inf neg =>
    refine ⟨Decimal128.ofValue (.inf (!neg)), ?_⟩
    rw [Decimal128.value_ofValue]
    cases neg <;> rfl
  | finite neg coeff exp =>
    refine ⟨Decimal128.ofValue (.finite (!neg) coeff exp), ?_⟩
    rw [Decimal128.value_ofValue]
    cases neg <;> simp [negate, DecimalValue.quantity]

theorem Adjacent.hi_ne {lo hi : Decimal128} {m : ℚ} (h : Adjacent lo hi m) : hi.quantity ≠ .nan := by
  intro hn
  have habove := h.above
  rw [hn] at habove
  cases habove

/-- The neighbours of a negative number are the opposites of its magnitude's, in the other order. -/
theorem Adjacent.negated {lo hi lo' hi' : Decimal128} {m : ℚ} (h : Adjacent lo hi m)
    (hlo : lo'.quantity = negate hi.quantity) (hhi : hi'.quantity = negate lo.quantity) :
    Adjacent lo' hi' (-m) := by
  have hfin : negate (.fin m) = .fin (-m) := rfl
  refine ⟨?_, ?_, ?_, ?_⟩
  · rw [hlo, ← hfin, cmp_negate h.hi_ne Quantity.noConfusion]
    exact h.above
  · rw [hhi, ← hfin, cmp_negate Quantity.noConfusion h.lo_ne]
    exact h.below
  · rw [hlo]
    have hne := h.hi_ne
    intro hn
    apply hne
    rw [← negate_negate hi.quantity, hn]
    rfl
  · rintro d ⟨h1, h2⟩
    obtain ⟨d', hd'⟩ := exists_negated d
    have hd : d.quantity ≠ .nan := by
      intro hn
      rw [hn, hlo] at h1
      cases hq : negate hi.quantity <;> rw [hq] at h1 <;> cases h1
    have hd'ne : d'.quantity ≠ .nan := by
      rw [hd']
      intro hn
      apply hd
      rw [← negate_negate d.quantity, hn]
      rfl
    refine h.none_between d' ⟨?_, ?_⟩
    · rw [← cmp_negate hd'ne h.lo_ne, hd', negate_negate, ← hhi]
      exact h2
    · rw [← cmp_negate h.hi_ne hd'ne, hd', negate_negate, ← hlo]
      exact h1

section Canonical

variable {fromStr : Text → Option Decimal128}

theorem decimal128Bracket_plain (hr : Reads fromStr) (p : Plain) :
    ∃ b, decimal128Bracket fromStr p.text = some b ∧ b.Holds (.fin p.value) := by
  have hN : 'N' ∉ decimalChars := by decide
  have hI : 'I' ∉ decimalChars := by decide
  have hclass : (nonFiniteClass p.text).isSome = false := by
    unfold nonFiniteClass
    rw [if_neg (text_ne_letters p hN (by decide)), if_neg (text_ne_letters p hI (by decide)),
      if_neg (text_ne_letters p hI (by decide))]
    rfl
  have htrim := p.significant_trimmed
  have hexp : p.exponent - p.significant.1.length = p.significant.2 := by
    unfold Plain.exponent
    omega
  have hlen : (digitText p.significant.1).length = p.significant.1.length := List.length_map _
  unfold decimal128Bracket
  simp only [hclass, Bool.false_eq_true, if_false, splitCanonical_text, isZeroDigits_plain,
    significantDigits_plain, hlen, Option.pure_def, Option.bind_eq_bind, Option.bind_some, decide_eq_true_eq]
  split
  · rename_i hzero
    obtain ⟨d, hd, hq⟩ := hr.zero
    refine ⟨.exact d, by rw [hd]; rfl, ?_⟩
    rw [Bracket.Holds, hq, p.value_eq, hzero]
    simp [Decimal128.signed, mag]
  · rename_i hne
    split
    · rename_i d hd
      refine ⟨.exact d, rfl, ?_⟩
      split at hd
      · have hq := hr.sound hne htrim.digit (by simp) hd
        rw [Bracket.Holds, hq, p.value_eq, hexp]
      · cases hd
    · rename_i hexact
      have hnone : ¬∃ d : Decimal128,
          d.quantity = .fin (mag 10 p.significant.1 (p.exponent - p.significant.1.length)) := by
        intro hd
        have hfit := (Decimal128.exists_decimal_iff false htrim hne).mp hd
        rw [if_pos hfit.1] at hexact
        have hvalue := pow_le_value (b := 10) (by decide) htrim hne
        have hten : 0 < 10 ^ (p.significant.1.length - 1) := by positivity
        obtain ⟨d', hd'⟩ := @Reads.complete _ hr p.neg false _ _ htrim.digit (by omega) (by omega) (by simp)
          ((Decimal128.exists_decimal_iff p.neg htrim hne).mpr hfit)
        rw [hexact] at hd'
        cases hd'
      obtain ⟨lo, hi, hpair, hadj⟩ := neighbours_spec hr htrim hne hnone
      rw [hexp] at hadj
      rw [hpair, Option.bind_some, p.value_eq]
      cases hneg : p.neg with
      | false =>
        exact ⟨.between lo hi, rfl, hadj.lo_ne, hadj.below, hadj.above, hadj.none_between⟩
      | true =>
        obtain ⟨lo', hlo', hloq⟩ := hr.neg hadj.hi_ne
        obtain ⟨hi', hhi', hhiq⟩ := hr.neg hadj.lo_ne
        have hadj' := hadj.negated hloq hhiq
        refine ⟨.between lo' hi', ?_, hadj'.lo_ne, hadj'.below, hadj'.above, hadj'.none_between⟩
        rw [if_pos rfl, hlo', hhi']
        rfl

theorem decimal128Bracket_canonical (hr : Reads fromStr) (c : Canonical) :
    ∃ b, decimal128Bracket fromStr c.text = some b ∧ b.Holds c.quantity := by
  have hspecial : ∀ v : DecimalValue, (nonFiniteClass v.toText).isSome = true →
      ∃ b, decimal128Bracket fromStr v.toText = some b ∧ b.Holds v.quantity := by
    intro v hv
    obtain ⟨d, hd, hq⟩ := hr.rendered v
    refine ⟨.exact d, ?_, hq⟩
    unfold decimal128Bracket
    rw [if_pos hv, hd]
    rfl
  cases c with
  | nan => exact hspecial .nan (by decide)
  | inf neg => exact hspecial (.inf neg) (by cases neg <;> decide)
  | plain p => exact decimal128Bracket_plain hr p

end Canonical

end Secantus.PgNumeric
