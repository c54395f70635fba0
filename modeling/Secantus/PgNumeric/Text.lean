/-
  PostgreSQL's text of a `numeric` (`numeric.rs`): plain, never in exponent notation.

  * `splitCanonical_text`: the parts of a plain text are its own digits, without leading zeros;
  * `plainNumericText_decimal`: a Decimal128 is rendered as a plain text of the same value.
-/
import Secantus.Bson.DecimalRange

namespace Secantus.PgNumeric

open Secantus Digits

/-- `Parts`: a finite canonical numeric, `int` without leading zeros. -/
structure Parts where
  neg : Bool
  int : Text
  frac : Text

def splitCanonical (text : Text) : Option Parts :=
  let (neg, body) := match stripPrefix '-' text with
    | some r => (true, r)
    | none => (false, text)
  if body.isEmpty || !body.all (fun c => c.isDigit || c = '.') then none
  else
    let (int, frac) := (splitOnce isPoint body).getD (body, [])
    some ⟨neg, int.dropWhile (· = '0'), frac⟩

def isZeroDigits (p : Parts) : Bool := p.int.isEmpty && p.frac.all (· = '0')

/-- `str::parse::<i32>`. -/
def parseI32 (s : Text) : Option ℤ := (parseI64 s).filter fun x => -2 ^ 31 ≤ x ∧ x < 2 ^ 31

/-- The digits on both sides of the point once it is moved right by `exp`: zeros are added in front while
    it is left of every digit, and behind while it is right of them. -/
def shiftPoint {α : Type} (zero : α) (int frac : List α) (exp : ℤ) : List α × List α :=
  let digits := int ++ frac
  let point := int.length + exp
  let (digits, point) :=
    if point ≤ 0 then (List.replicate (1 - point).toNat zero ++ digits, 1) else (digits, point.toNat)
  let digits := digits ++ List.replicate (point - digits.length) zero
  (digits.take point, digits.drop point)

def plainNumericText (text : Text) : Text :=
  match splitOnce isE text with
  | none => text
  | some (mantissa, exp) =>
    match parseI32 exp with
    | none => text
    | some exp =>
      let (sign, mantissa) := match stripPrefix '-' mantissa with
        | some rest => (['-'], rest)
        | none => ([], (stripPrefix '+' mantissa).getD mantissa)
      let (int, frac) := (splitOnce isPoint mantissa).getD (mantissa, [])
      if !(int ++ frac).all Char.isDigit then text
      else
        let (i, f) := shiftPoint '0' int frac exp
        if f.isEmpty then (if i.all (· = '0') then sign ++ ['0'] else sign ++ i)
        else sign ++ i ++ '.' :: f

/-! ## Plain texts -/

/-- A finite number in plain digits, with as many as a sort key's exponent field has room for: PostgreSQL
    stops at 131072 digits before the point and 16383 behind it. -/
structure Plain where
  neg : Bool
  int : List ℕ
  frac : List ℕ
  int_ne : int ≠ []
  int_lt : ∀ d ∈ int, d < 10
  frac_lt : ∀ d ∈ frac, d < 10
  int_len : int.length < 9000000
  frac_len : frac.length ≤ 1000000

namespace Plain

def layout (p : Plain) : Layout := ⟨p.int, p.frac, none⟩

def text (p : Plain) : Text := signedText p.neg p.layout

/-- The number the text writes. -/
def value (p : Plain) : ℚ := Decimal128.signed p.neg p.layout.mag

theorem layout_wf (p : Plain) : p.layout.Wf := ⟨p.int_ne, p.int_lt, p.frac_lt, by simp [layout]⟩

theorem layout_text (p : Plain) : p.layout.text = p.layout.mantissa := by
  unfold Layout.text Layout.expText layout
  exact List.append_nil _

end Plain

theorem isEmpty_digitText (ds : List ℕ) : (digitText ds).isEmpty = ds.isEmpty := by
  cases ds with
  | nil => rfl
  | cons d ds => rfl

theorem dropWhile_digitText {ds : List ℕ} (h : ∀ d ∈ ds, d < 10) :
    (digitText ds).dropWhile (· = '0') = digitText (ds.dropWhile (· = 0)) := by
  induction ds with
  | nil => rfl
  | cons d ds ih =>
    have hd : (Nat.digitChar d = '0') ↔ d = 0 := by
      have hd := h d List.mem_cons_self
      interval_cases d <;> decide
    unfold digitText at ih ⊢
    rw [List.map_cons]
    by_cases h0 : d = 0
    · rw [List.dropWhile_cons_of_pos (by simp [h0]), List.dropWhile_cons_of_pos (by simp [h0])]
      exact ih fun x hx => h x (List.mem_cons_of_mem d hx)
    · rw [List.dropWhile_cons_of_neg (by simp [hd, h0]), List.dropWhile_cons_of_neg (by simp [h0]),
        List.map_cons]

theorem stripPrefix_text {l : Layout} (h : l.Wf) {c : Char} (hc : c.isDigit = false) :
    stripPrefix c l.text = none := by
  obtain ⟨d, ds, hd⟩ := List.exists_cons_of_ne_nil h.int_ne
  have hdigit := digitChar_isDigit (h.int_lt d (by rw [hd]; exact List.mem_cons_self))
  have hne : Nat.digitChar d ≠ c := by
    rintro rfl
    exact absurd hdigit (by simp [hc])
  simp [Layout.text, Layout.mantissa, hd, digitText, stripPrefix, hne]

theorem stripPrefix_signedText {l : Layout} (h : l.Wf) (neg : Bool) :
    stripPrefix '-' (signedText neg l) = if neg then some l.text else none := by
  cases neg with
  | true => simp [signedText, stripPrefix]
  | false => simpa [signedText] using stripPrefix_text h (by decide)

theorem splitCanonical_text (p : Plain) :
    splitCanonical p.text = some ⟨p.neg, digitText (p.int.dropWhile (· = 0)), digitText p.frac⟩ := by
  have hwf := p.layout_wf
  have hbody : p.layout.mantissa.isEmpty = false := by
    obtain ⟨d, ds, hd⟩ := List.exists_cons_of_ne_nil p.int_ne
    simp [Layout.mantissa, Plain.layout, hd, digitText]
  have hchars : p.layout.mantissa.all (fun c => c.isDigit || c = '.') = true := by
    rw [List.all_eq_true]
    intro c hc
    rcases hwf.mantissa_chars c hc with hd | rfl
    · simp [hd]
    · decide
  have hstrip : (match stripPrefix '-' p.text with
      | some r => (true, r)
      | none => (false, p.text)) = (p.neg, p.layout.mantissa) := by
    unfold Plain.text
    rw [stripPrefix_signedText hwf]
    cases p.neg with
    | true => rw [if_pos rfl, p.layout_text]
    | false => simp [signedText, p.layout_text]
  unfold splitCanonical
  rw [hstrip]
  simp only [hbody, hchars, Bool.not_true, Bool.or_self, Bool.false_eq_true, if_false,
    hwf.splitOnce_mantissa]
  rw [show p.layout.int = p.int from rfl, dropWhile_digitText p.int_lt]
  rfl

/-! ## Moving the point -/

theorem mag_replicate_append (k : ℕ) (ds : List ℕ) (x : ℤ) :
    mag 10 (List.replicate k 0 ++ ds) x = mag 10 ds x := by
  have hv : Digits.value 10 (List.replicate k 0 ++ ds) = Digits.value 10 ds := by
    rw [value_append]
    simp [Digits.value, Nat.ofDigits_replicate_zero]
  unfold mag
  rw [hv]

theorem mag_append_replicate (ds : List ℕ) (k : ℕ) (x : ℤ) :
    mag 10 (ds ++ List.replicate k 0) x = mag 10 ds (x + k) := by
  have hv : Digits.value 10 (ds ++ List.replicate k 0) = Digits.value 10 ds * 10 ^ k := by
    rw [value_append, List.length_replicate]
    simp [Digits.value, Nat.ofDigits_replicate_zero]
  unfold mag
  rw [hv, zpow_add₀ (by norm_num), zpow_natCast]
  push_cast
  ring

section ShiftPoint

variable {α β : Type} {zero : α} {int frac : List α} {exp : ℤ}

theorem shiftPoint_of_le (h : int.length + exp ≤ 0) : shiftPoint zero int frac exp =
    ([zero], List.replicate (-(int.length + exp)).toNat zero ++ (int ++ frac)) := by
  have hk : (1 - (int.length + exp)).toNat = (-(int.length + exp)).toNat + 1 := by omega
  unfold shiftPoint
  simp only [if_pos h, hk, List.replicate_succ, List.cons_append, List.length_cons]
  rw [Nat.sub_eq_zero_of_le (by omega), List.replicate_zero, List.append_nil]
  rfl

theorem shiftPoint_of_pos (h : 0 < int.length + exp) : shiftPoint zero int frac exp =
    ((int ++ frac ++ List.replicate ((int.length + exp).toNat - (int ++ frac).length) zero).take
        (int.length + exp).toNat,
      (int ++ frac ++ List.replicate ((int.length + exp).toNat - (int ++ frac).length) zero).drop
        (int.length + exp).toNat) := by
  unfold shiftPoint
  simp only [if_neg (not_le.mpr h)]

theorem map_shiftPoint (g : α → β) : shiftPoint (g zero) (int.map g) (frac.map g) exp =
    ((shiftPoint zero int frac exp).1.map g, (shiftPoint zero int frac exp).2.map g) := by
  rcases le_or_gt ((int.length : ℤ) + exp) 0 with h | h
  · rw [shiftPoint_of_le h, shiftPoint_of_le (by rwa [List.length_map])]
    simp
  · rw [shiftPoint_of_pos h, shiftPoint_of_pos (by rwa [List.length_map])]
    simp

theorem mem_shiftPoint {x : α} (h : x ∈ (shiftPoint zero int frac exp).1 ∨ x ∈ (shiftPoint zero int frac exp).2) :
    x = zero ∨ x ∈ int ++ frac := by
  have hrep : ∀ k, x ∈ List.replicate k zero → x = zero := fun k hx => List.eq_of_mem_replicate hx
  rcases le_or_gt ((int.length : ℤ) + exp) 0 with hp | hp
  · rw [shiftPoint_of_le hp, List.mem_singleton, List.mem_append] at h
    rcases h with h | h | h
    · exact .inl h
    · exact .inl (hrep _ h)
    · exact .inr h
  · have hmem : x ∈ int ++ frac ++ List.replicate ((int.length + exp).toNat - (int ++ frac).length) zero := by
      rw [shiftPoint_of_pos hp] at h
      rcases h with h | h
      · exact List.mem_of_mem_take h
      · exact List.mem_of_mem_drop h
    rcases List.mem_append.mp hmem with h | h
    · exact .inr h
    · exact .inl (hrep _ h)

/-- How many digits there are before and behind the moved point. -/
theorem length_shiftPoint : (shiftPoint zero int frac exp).1 ≠ [] ∧
    (shiftPoint zero int frac exp).1.length ≤ (int.length + exp).toNat + 1 ∧
    (shiftPoint zero int frac exp).2.length = (frac.length - exp).toNat := by
  rcases le_or_gt ((int.length : ℤ) + exp) 0 with h | h
  · rw [shiftPoint_of_le h]
    simp only [List.length_append, List.length_replicate, List.length_singleton]
    exact ⟨List.cons_ne_nil _ _, by omega, by omega⟩
  · rw [shiftPoint_of_pos h, ← List.length_pos_iff]
    simp only [List.length_take, List.length_drop, List.length_append, List.length_replicate]
    exact ⟨by omega, by omega, by omega⟩

end ShiftPoint

theorem mag_shiftPoint (int frac : List ℕ) (exp : ℤ) :
    mag 10 ((shiftPoint 0 int frac exp).1 ++ (shiftPoint 0 int frac exp).2)
      (-((shiftPoint 0 int frac exp).2.length : ℤ)) = mag 10 (int ++ frac) (exp - frac.length) := by
  rw [length_shiftPoint.2.2]
  rcases le_or_gt ((int.length : ℤ) + exp) 0 with h | h
  · rw [shiftPoint_of_le h, ← List.append_assoc]
    have hz : [0] ++ List.replicate (-(int.length + exp)).toNat 0 =
        List.replicate ((-(int.length + exp)).toNat + 1) 0 := rfl
    rw [hz, mag_replicate_append]
    congr 1
    omega
  · rw [shiftPoint_of_pos h, List.take_append_drop, mag_append_replicate, List.length_append]
    congr 1
    omega

/-! ## A decimal's text, plain -/

/-- `plain_numeric_text` of a layout with an exponent. -/
def plainLayout (l : Layout) (x : ℤ) : Layout :=
  let (i, f) := shiftPoint 0 l.int l.frac x
  ⟨if f.isEmpty && i.all (· = 0) then [0] else i, f, none⟩

theorem plainLayout_wf {l : Layout} (h : l.Wf) (x : ℤ) : (plainLayout l x).Wf := by
  have hlt : ∀ d, (d ∈ (shiftPoint 0 l.int l.frac x).1 ∨ d ∈ (shiftPoint 0 l.int l.frac x).2) → d < 10 := by
    intro d hd
    rcases mem_shiftPoint hd with rfl | hd
    · decide
    · exact h.digit d hd
  unfold plainLayout
  refine ⟨?_, ?_, fun d hd => hlt d (.inr hd), by simp⟩
  · dsimp only
    split
    · exact List.cons_ne_nil _ _
    · exact length_shiftPoint.1
  · dsimp only
    split
    · simp
    · exact fun d hd => hlt d (.inl hd)

theorem mag_eq_zero {ds : List ℕ} (h : ∀ d ∈ ds, d = 0) (x : ℤ) : mag 10 ds x = 0 := by
  have hrep : ds = List.replicate ds.length 0 := List.eq_replicate_iff.mpr ⟨rfl, h⟩
  have hzero := mag_replicate_append ds.length [] x
  rw [List.append_nil, ← hrep] at hzero
  rw [hzero]
  simp [mag]

theorem plainLayout_mag {l : Layout} {x : ℤ} (hx : l.exp = some x) : (plainLayout l x).mag = l.mag := by
  have hmag := mag_shiftPoint l.int l.frac x
  unfold plainLayout Layout.mag
  simp only [hx, Option.getD_some, Option.getD_none, zero_sub]
  rw [← hmag]
  split
  · rename_i hz
    simp only [Bool.and_eq_true, List.isEmpty_iff, List.all_eq_true, decide_eq_true_eq] at hz
    rw [hz.1, List.append_nil, List.append_nil, mag_eq_zero hz.2, mag_eq_zero (by simp)]
  · rfl

theorem parseI32_expText {x : ℤ} (h : -2 ^ 31 ≤ x ∧ x < 2 ^ 31) :
    parseI32 ((if 0 < x then ['+'] else []) ++ intText x) = some x := by
  unfold parseI32
  rw [parseI64_expText (by omega), Option.filter_some, if_pos (by simpa using h)]

theorem isE_signedText {l : Layout} (h : l.Wf) (neg : Bool) :
    ∀ c ∈ signedText neg ⟨l.int, l.frac, none⟩, isE c = false := by
  intro c hc
  unfold signedText Layout.text Layout.expText at hc
  rw [List.append_nil] at hc
  rcases List.mem_append.mp hc with hc | hc
  · split at hc
    · rw [List.mem_singleton.mp hc]
      decide
    · cases hc
  · rcases h.mantissa_chars c hc with hd | rfl
    · exact isE_of_isDigit hd
    · decide

/-- A text with an exponent becomes the plain text of its digits. -/
theorem plainNumericText_signedText {l : Layout} (h : l.Wf) (neg : Bool) {x : ℤ} (hx : l.exp = some x)
    (hrange : -2 ^ 31 ≤ x ∧ x < 2 ^ 31) :
    plainNumericText (signedText neg l) = signedText neg (plainLayout l x) := by
  -- the text before its exponent letter
  have hwf : (⟨l.int, l.frac, none⟩ : Layout).Wf := ⟨h.int_ne, h.int_lt, h.frac_lt, by simp⟩
  have hmant : (⟨l.int, l.frac, none⟩ : Layout).text = l.mantissa := by
    simp [Layout.text, Layout.expText, Layout.mantissa]
  have hsplit : splitOnce isE (signedText neg l) =
      some (signedText neg ⟨l.int, l.frac, none⟩, (if 0 < x then ['+'] else []) ++ intText x) := by
    have htext : signedText neg l = signedText neg ⟨l.int, l.frac, none⟩ ++
        'E' :: ((if 0 < x then ['+'] else []) ++ intText x) := by
      unfold signedText
      rw [hmant, Layout.text, Layout.expText, hx, List.append_assoc]
    rw [htext, splitOnce_append (isE_signedText h neg) (by decide)]
  have hstrip : (match stripPrefix '-' (signedText neg ⟨l.int, l.frac, none⟩) with
      | some rest => (['-'], rest)
      | none => ([], (stripPrefix '+' (signedText neg ⟨l.int, l.frac, none⟩)).getD
          (signedText neg ⟨l.int, l.frac, none⟩))) = (if neg then ['-'] else [], l.mantissa) := by
    rw [stripPrefix_signedText hwf, hmant]
    cases neg with
    | true => rfl
    | false =>
      have hplus := stripPrefix_text hwf (c := '+') (by decide)
      rw [hmant] at hplus
      simp [signedText, hmant, hplus]
  have hdigits : (digitText l.int ++ digitText l.frac).all Char.isDigit = true := by
    rw [List.all_eq_true]
    intro c hc
    rcases List.mem_append.mp hc with hc | hc
    · exact isDigit_of_mem_digitText h.int_lt c hc
    · exact isDigit_of_mem_digitText h.frac_lt c hc
  have hshift : shiftPoint '0' (digitText l.int) (digitText l.frac) x =
      (digitText (shiftPoint 0 l.int l.frac x).1, digitText (shiftPoint 0 l.int l.frac x).2) :=
    @map_shiftPoint _ _ 0 _ _ _ Nat.digitChar
  have hzeros : (digitText (shiftPoint 0 l.int l.frac x).1).all (· = '0') =
      (shiftPoint 0 l.int l.frac x).1.all (· = 0) := by
    have hlt : ∀ d ∈ (shiftPoint 0 l.int l.frac x).1, d < 10 := by
      intro d hd
      rcases mem_shiftPoint (.inl hd) with rfl | hd
      · decide
      · exact h.digit d hd
    unfold digitText
    rw [List.all_map, Bool.eq_iff_iff, List.all_eq_true, List.all_eq_true]
    refine forall₂_congr fun d hd => ?_
    have := hlt d hd
    interval_cases d <;> decide
  unfold plainNumericText
  simp only [hsplit, parseI32_expText hrange, hstrip, h.splitOnce_mantissa, hdigits, Bool.not_true,
    Bool.false_eq_true, if_false, hshift, hzeros]
  unfold plainLayout signedText Layout.text Layout.mantissa Layout.expText
  dsimp only
  generalize shiftPoint 0 l.int l.frac x = s
  obtain ⟨i, f⟩ := s
  cases f with
  | nil => cases i.all (· = 0) <;> simp [digitText]
  | cons d f => simp [digitText]

/-! ## Canonical texts -/

/-- What a canonical text writes: a NaN, an infinity or plain digits. -/
inductive Canonical where
  | nan
  | inf (neg : Bool)
  | plain (p : Plain)

namespace Canonical

def text : Canonical → Text
  | nan => DecimalValue.nan.toText
  | inf neg => (DecimalValue.inf neg).toText
  | plain p => p.text

def quantity : Canonical → Quantity
  | nan => .nan
  | inf neg => if neg then .negInf else .posInf
  | plain p => .fin p.value

end Canonical

theorem layout_length {coeff : ℕ} (hc : coeff < 10 ^ 34) {x : ℤ} (hx : -6176 ≤ x ∧ x < 6112) :
    (Decimal128.layout coeff x).int.length ≤ 34 ∧ (Decimal128.layout coeff x).frac.length ≤ 39 ∧
      ∀ y ∈ (Decimal128.layout coeff x).exp, -6176 ≤ y ∧ y ≤ 6144 := by
  have hlen : (decimalDigits coeff).length ≤ 34 := by
    unfold decimalDigits
    split
    · decide
    · rw [List.length_reverse]
      exact (Nat.digits_length_le_iff (by decide) coeff).mpr hc
  have hpos := List.length_pos_iff.mpr (decimalDigits_ne_nil coeff)
  unfold Decimal128.layout
  simp only
  split
  · split
    · exact ⟨hlen, by simp, by simp⟩
    · split
      · refine ⟨by simp, ?_, by simp⟩
        rw [List.length_append, List.length_replicate]
        omega
      · refine ⟨?_, ?_, by simp⟩
        · rw [List.length_take]
          omega
        · rw [List.length_drop]
          omega
  · refine ⟨?_, ?_, ?_⟩
    · rw [List.length_take]
      omega
    · rw [List.length_drop]
      omega
    · intro y hy
      obtain rfl := Option.some.inj hy
      omega

theorem plainNumericText_finite (neg : Bool) (coeff : Fin (10 ^ 34)) (exp : Fin 12288) :
    ∃ p : Plain, plainNumericText (DecimalValue.finite neg coeff exp).toText = p.text ∧
      (DecimalValue.finite neg coeff exp).quantity = .fin p.value := by
  have hx := unbias_range exp
  have hwf := Decimal128.layout_wf coeff coeff.isLt _ hx
  have hmag := Decimal128.layout_mag coeff (Decimal128.unbias exp)
  obtain ⟨hint, hfrac, hexp⟩ := layout_length coeff.isLt hx
  set l := Decimal128.layout coeff (Decimal128.unbias exp) with hl
  have htext : (DecimalValue.finite neg coeff exp).toText = signedText neg l := rfl
  have hvalue : (DecimalValue.finite neg coeff exp).quantity = .fin (Decimal128.signed neg l.mag) := by
    rw [hmag, DecimalValue.quantity]
    unfold Decimal128.signed
    cases neg with
    | true => simp
    | false => simp
  rw [htext, hvalue]
  cases hle : l.exp with
  | none =>
    have hplain : l = ⟨l.int, l.frac, none⟩ := by rw [← hle]
    refine ⟨⟨neg, l.int, l.frac, hwf.int_ne, hwf.int_lt, hwf.frac_lt, by omega, by omega⟩, ?_, ?_⟩
    · have hnone := splitOnce_eq_none (isE_signedText hwf neg)
      rw [← hplain] at hnone
      have hsame : plainNumericText (signedText neg l) = signedText neg l := by
        unfold plainNumericText
        rw [hnone]
      exact hsame.trans (congrArg (signedText neg) hplain)
    · exact congrArg (fun l => Quantity.fin (Decimal128.signed neg (Layout.mag l))) hplain
  | some x =>
    have hrange := hexp x hle
    have hpwf := plainLayout_wf hwf x
    obtain ⟨-, hi, hf⟩ := @length_shiftPoint _ 0 l.int l.frac x
    have hilen : (plainLayout l x).int.length ≤ (l.int.length + x).toNat + 1 := by
      unfold plainLayout
      dsimp only
      split
      · simp
      · exact hi
    have hflen : (plainLayout l x).frac.length = (l.frac.length - x).toNat := hf
    refine ⟨⟨neg, (plainLayout l x).int, (plainLayout l x).frac, hpwf.int_ne, hpwf.int_lt, hpwf.frac_lt,
      by omega, by omega⟩, plainNumericText_signedText hwf neg hle (by omega), ?_⟩
    rw [← plainLayout_mag hle]
    rfl

/-- A Decimal128 is rendered as a canonical text of its own value. -/
theorem plainNumericText_decimal (d : Decimal128) :
    ∃ c : Canonical, plainNumericText d.toText = c.text ∧ d.quantity = c.quantity := by
  unfold Decimal128.toText Decimal128.quantity
  cases d.value with
  | nan => exact ⟨.nan, by decide, rfl⟩
  | inf neg => exact ⟨.inf neg, by cases neg <;> decide, rfl⟩
  | finite neg coeff exp =>
    obtain ⟨p, htext, hvalue⟩ := plainNumericText_finite neg coeff exp
    exact ⟨.plain p, htext, hvalue⟩

theorem intText_plain {n : ℤ} (hn : n.natAbs < 10 ^ 20) : ∃ p : Plain, intText n = p.text ∧ (n : ℚ) = p.value := by
  have hlen : (decimalDigits n.natAbs).length ≤ 20 := by
    unfold decimalDigits
    split
    · decide
    · rw [List.length_reverse]
      exact (Nat.digits_length_le_iff (by decide) _).mpr hn
  refine ⟨⟨decide (n < 0), decimalDigits n.natAbs, [], decimalDigits_ne_nil _, decimalDigits_lt _, by simp,
    by omega, by simp⟩, ?_, ?_⟩
  · unfold intText Plain.text Plain.layout signedText Layout.text Layout.mantissa Layout.expText
    by_cases h : n < 0
    · simp [h]
    · simp [h]
  · have habs : ((n.natAbs : ℕ) : ℚ) = |(n : ℚ)| := by
      rw [Nat.cast_natAbs, Int.cast_abs]
    unfold Plain.value Plain.layout Layout.mag Decimal128.signed
    simp only [List.append_nil, Option.getD_none, List.length_nil, Nat.cast_zero, sub_zero,
      mag_decimalDigits, zpow_zero, mul_one, habs, decide_eq_true_eq]
    split
    · rename_i h
      rw [abs_of_neg (by exact_mod_cast h), neg_neg]
    · rename_i h
      rw [abs_of_nonneg (by exact_mod_cast not_lt.mp h)]

end Secantus.PgNumeric
