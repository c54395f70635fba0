/-
  A reader of decimal texts, as the brackets rely on: it takes a text to the Decimal128 of its value, and
  refuses one that no Decimal128 equals (`reads_readDecimal`).
-/
import Secantus.PgNumeric.Bracket

namespace Secantus.PgNumeric

open Secantus Digits

/-- The decimal of a coefficient and an exponent, where both have room. -/
def finiteDecimal (neg : Bool) (k : ℕ) (x : ℤ) : Option Decimal128 :=
  if h : k < 10 ^ 34 ∧ -6176 ≤ x ∧ x ≤ 6111 then
    some (Decimal128.ofValue (.finite neg ⟨k, h.1⟩ ⟨(x + 6176).toNat, by omega⟩))
  else none

/-- The decimal of the digits before a power of ten: as written, else trimmed, with zeros behind an exponent
    that is too large. -/
def exactDecimal (neg : Bool) (ds : List ℕ) (x : ℤ) : Option Decimal128 :=
  match finiteDecimal neg (Digits.value 10 ds) x with
  | some d => some d
  | none =>
    let (ts, t) := Digits.trim ds x
    if ts = [] then finiteDecimal neg 0 0
    else finiteDecimal neg (Digits.value 10 ts * 10 ^ (t - Decimal128.maxExponent).toNat)
      (min t Decimal128.maxExponent)

def readDigits (s : Text) : Option (List ℕ) := if s.isEmpty then none else s.mapM toDigit

/-- An integer with its sign. -/
def readInt (s : Text) : Option ℤ :=
  match stripPrefix '-' s with
  | some rest => (readDigits rest).map fun ds => -(Digits.value 10 ds : ℤ)
  | none => (readDigits ((stripPrefix '+' s).getD s)).map fun ds => (Digits.value 10 ds : ℤ)

/-- The text before the exponent letter, and the exponent. -/
def splitExponent (body : Text) : Option (Text × ℤ) :=
  match splitOnce isE body with
  | some (m, e) => (readInt e).map (m, ·)
  | none => some (body, 0)

/-- A decimal text: a sign, then a special value or digits with a point and an exponent. -/
def readDecimal (s : Text) : Option Decimal128 :=
  let (neg, body) := match stripPrefix '-' s with
    | some rest => (true, rest)
    | none => (false, s)
  if body = ['N', 'a', 'N'] then some (Decimal128.ofValue .nan)
  else if body = ['I', 'n', 'f', 'i', 'n', 'i', 't', 'y'] then some (Decimal128.ofValue (.inf neg))
  else do
    let (mantissa, exp) ← splitExponent body
    let (int, frac) := (splitOnce isPoint mantissa).getD (mantissa, [])
    let ds ← readDigits (int ++ frac)
    exactDecimal neg ds (exp - frac.length)

/-! ## Digits and an exponent -/

theorem quantity_finiteDecimal {neg : Bool} {k : ℕ} {x : ℤ} {d : Decimal128} (h : finiteDecimal neg k x = some d) :
    d.quantity = .fin (Decimal128.signed neg (k * 10 ^ x)) := by
  unfold finiteDecimal at h
  split at h
  · rename_i hroom
    cases h
    have hx : Decimal128.unbias ⟨(x + 6176).toNat, by omega⟩ = x := by
      unfold Decimal128.unbias
      dsimp only
      omega
    unfold Decimal128.quantity Decimal128.signed
    rw [Decimal128.value_ofValue, DecimalValue.quantity, hx]
    congr 1
    split
    · ring
    · ring
  · cases h

theorem finiteDecimal_isSome (neg : Bool) {k : ℕ} {x : ℤ} (h : k < 10 ^ 34 ∧ -6176 ≤ x ∧ x ≤ 6111) :
    ∃ d, finiteDecimal neg k x = some d := ⟨_, dif_pos h⟩

theorem exactDecimal_sound {neg : Bool} {ds : List ℕ} {x : ℤ} {d : Decimal128}
    (h : exactDecimal neg ds x = some d) : d.quantity = .fin (Decimal128.signed neg (mag 10 ds x)) := by
  unfold exactDecimal at h
  split at h
  · rename_i d' hd'
    cases h
    exact quantity_finiteDecimal hd'
  · have htrim := mag_trim (b := 10) (by decide) ds x
    dsimp only at h
    rw [← htrim]
    split at h
    · rename_i hnil
      rw [quantity_finiteDecimal h, hnil]
      simp [mag]
    · rw [quantity_finiteDecimal h]
      obtain ⟨n, hn, hmin⟩ : ∃ n : ℕ, ((Digits.trim ds x).2 - Decimal128.maxExponent).toNat = n ∧
          (Digits.trim ds x).2 = n + min (Digits.trim ds x).2 Decimal128.maxExponent := ⟨_, rfl, by omega⟩
      have hpow : (10 : ℚ) ^ (Digits.trim ds x).2 = 10 ^ n * 10 ^ min (Digits.trim ds x).2 Decimal128.maxExponent := by
        nth_rewrite 1 [hmin]
        rw [zpow_add₀ (by norm_num), zpow_natCast]
      have hmag : mag 10 (Digits.trim ds x).1 (Digits.trim ds x).2 = (Digits.value 10 (Digits.trim ds x).1 : ℚ) * 10 ^ (Digits.trim ds x).2 := rfl
      rw [hn, hmag, hpow]
      push_cast
      rw [mul_assoc]

theorem exactDecimal_complete {neg : Bool} {ds : List ℕ} {x : ℤ} (hlt : ∀ d ∈ ds, d < 10)
    (h : ∃ d : Decimal128, d.quantity = .fin (Decimal128.signed neg (mag 10 ds x))) :
    ∃ d, exactDecimal neg ds x = some d := by
  unfold exactDecimal
  split
  · rename_i d _
    exact ⟨d, rfl⟩
  · have ht := trim_trimmed hlt x
    dsimp only
    split
    · exact finiteDecimal_isSome neg ⟨by decide, by decide, by decide⟩
    · rename_i hne
      rw [← mag_trim (b := 10) (by decide) ds x, Decimal128.exists_decimal_iff neg ht hne] at h
      obtain ⟨hlen, hlo, hhi⟩ := h
      have hv := value_lt_pow (b := 10) (by decide) ht.digit
      refine finiteDecimal_isSome neg ⟨?_, ?_, ?_⟩
      · have hmax : Decimal128.maxExponent = 6111 := rfl
        calc Digits.value 10 (Digits.trim ds x).1 * 10 ^ ((Digits.trim ds x).2 - Decimal128.maxExponent).toNat
            < 10 ^ (Digits.trim ds x).1.length * 10 ^ ((Digits.trim ds x).2 - Decimal128.maxExponent).toNat :=
              Nat.mul_lt_mul_of_pos_right hv (by positivity)
          _ = 10 ^ ((Digits.trim ds x).1.length + ((Digits.trim ds x).2 - Decimal128.maxExponent).toNat) := (Nat.pow_add 10 _ _).symm
          _ ≤ 10 ^ 34 := Nat.pow_le_pow_right (by decide) (by omega)
      · unfold Decimal128.maxExponent
        omega
      · exact min_le_right _ _

/-! ## Texts -/

theorem readDigits_digitText {ds : List ℕ} (hne : ds ≠ []) (h : ∀ d ∈ ds, d < 10) :
    readDigits (digitText ds) = some ds := by
  unfold readDigits
  rw [if_neg (by simpa [digitText] using hne)]
  exact mapM_toDigit h

theorem stripPrefix_digitText {ds : List ℕ} (h : ∀ d ∈ ds, d < 10) {c : Char} (hc : c.isDigit = false) :
    stripPrefix c (digitText ds) = none := by
  cases ds with
  | nil => rfl
  | cons d ds =>
    have hne : Nat.digitChar d ≠ c := by
      rintro rfl
      rw [digitChar_isDigit (h d List.mem_cons_self)] at hc
      cases hc
    exact if_neg hne

theorem readInt_expText {plus : Bool} {x : ℤ} (h : plus = true → 0 ≤ x) :
    readInt ((if plus then ['+'] else []) ++ intText x) = some x := by
  have hdigits := readDigits_digitText (decimalDigits_ne_nil x.natAbs) (decimalDigits_lt x.natAbs)
  have hminus := stripPrefix_digitText (c := '-') (decimalDigits_lt x.natAbs) (by decide)
  have hplus := stripPrefix_digitText (c := '+') (decimalDigits_lt x.natAbs) (by decide)
  have hvalue : Digits.value 10 (decimalDigits x.natAbs) = x.natAbs := value_decimalDigits _
  unfold intText
  by_cases hx : x < 0
  · have hp : plus = false := by
      cases plus with
      | false => rfl
      | true => exact absurd (h rfl) (by omega)
    rw [if_pos hx, hp]
    show (readDigits (digitText (decimalDigits x.natAbs))).map (fun ds => -(Digits.value 10 ds : ℤ)) = some x
    rw [hdigits, Option.map_some, hvalue]
    congr 1
    omega
  · rw [if_neg hx]
    have hread : (readDigits (digitText (decimalDigits x.natAbs))).map (fun ds => (Digits.value 10 ds : ℤ)) =
        some x := by
      rw [hdigits, Option.map_some, hvalue]
      congr 1
      omega
    cases plus with
    | true => exact hread
    | false =>
      show readInt (digitText (decimalDigits x.natAbs)) = some x
      unfold readInt
      rw [hminus, hplus]
      exact hread

/-- A text of a mantissa and an exponent reads as its digits. -/
theorem readDecimal_mantissa {l : Layout} (hwf : l.Wf) (hexp : l.exp = none) (neg : Bool) (e : Option Text) (x : ℤ)
    (he : match e with
      | none => x = 0
      | some e => readInt e = some x) :
    readDecimal ((if neg then ['-'] else []) ++ (l.mantissa ++ (e.map ('E' :: ·)).getD [])) =
      exactDecimal neg (l.int ++ l.frac) (x - l.frac.length) := by
  have htext : l.text = l.mantissa := by
    unfold Layout.text Layout.expText
    rw [hexp]
    exact List.append_nil _
  obtain ⟨d, ds, hd⟩ := List.exists_cons_of_ne_nil hwf.int_ne
  have hhead : ∀ c : Char, c.isDigit = false → ∀ t, l.mantissa ++ (e.map ('E' :: ·)).getD [] ≠ c :: t := by
    intro c hc t heq
    have hdigit := digitChar_isDigit (hwf.int_lt d (by rw [hd]; exact List.mem_cons_self))
    unfold Layout.mantissa at heq
    rw [hd] at heq
    rw [(List.cons.inj heq).1, hc] at hdigit
    cases hdigit
  have hstrip : stripPrefix '-' (l.mantissa ++ (e.map ('E' :: ·)).getD []) = none := by
    unfold stripPrefix
    split
    · rfl
    · rename_i c cs heq
      rw [if_neg]
      rintro rfl
      exact hhead '-' (by decide) cs heq
  have hsplit : splitOnce isE (l.mantissa ++ (e.map ('E' :: ·)).getD []) = e.map (l.mantissa, ·) := by
    have hchars : ∀ c ∈ l.mantissa, isE c = false := by
      intro c hc
      rcases hwf.mantissa_chars c hc with hc | rfl
      · exact isE_of_isDigit hc
      · decide
    cases e with
    | none => exact splitOnce_eq_none (by simpa using hchars)
    | some e => exact splitOnce_append hchars (by decide) e
  have hbody : (match stripPrefix '-' ((if neg then ['-'] else []) ++ (l.mantissa ++ (e.map ('E' :: ·)).getD [])) with
      | some rest => (true, rest)
      | none => (false, (if neg then ['-'] else []) ++ (l.mantissa ++ (e.map ('E' :: ·)).getD []))) =
      (neg, l.mantissa ++ (e.map ('E' :: ·)).getD []) := by
    cases neg with
    | true => rfl
    | false =>
      show (match stripPrefix '-' (l.mantissa ++ (e.map ('E' :: ·)).getD []) with
        | some rest => (true, rest)
        | none => (false, l.mantissa ++ (e.map ('E' :: ·)).getD [])) = _
      rw [hstrip]
  have hdigits : readDigits (digitText l.int ++ digitText l.frac) = some (l.int ++ l.frac) := by
    rw [show digitText l.int ++ digitText l.frac = digitText (l.int ++ l.frac) from List.map_append.symm]
    exact readDigits_digitText (by simp [hwf.int_ne]) hwf.digit
  have hlen : (digitText l.frac).length = l.frac.length := List.length_map _
  have hpair : splitExponent (l.mantissa ++ (e.map ('E' :: ·)).getD []) = some (l.mantissa, x) := by
    unfold splitExponent
    rw [hsplit]
    cases e with
    | none =>
      obtain rfl := he
      simp
    | some e => simp [he]
  unfold readDecimal
  rw [hbody]
  dsimp only
  rw [if_neg (hhead 'N' (by decide) _), if_neg (hhead 'I' (by decide) _), hpair]
  simp only [Option.bind_eq_bind, Option.bind_some, hwf.splitOnce_mantissa, hdigits, hlen]

theorem readDecimal_scientific {ds : List ℕ} (hne : ds ≠ []) (hlt : ∀ d ∈ ds, d < 10) {neg plus : Bool} {x : ℤ}
    (hplus : plus = true → 0 ≤ x) : readDecimal (scientific neg (digitText ds) plus x) = exactDecimal neg ds x := by
  have hwf : (⟨ds, [], none⟩ : Layout).Wf := ⟨hne, hlt, by simp, by simp⟩
  have hread := readDecimal_mantissa hwf rfl neg (some ((if plus then ['+'] else []) ++ intText x)) x
    (readInt_expText hplus)
  have hmant : (⟨ds, [], none⟩ : Layout).mantissa = digitText ds := List.append_nil _
  rw [hmant] at hread
  simp only [Option.map_some, Option.getD_some, List.append_nil, List.length_nil, Nat.cast_zero, sub_zero] at hread
  unfold scientific
  rw [List.append_assoc]
  exact hread

theorem readDecimal_finite (neg : Bool) (coeff : Fin (10 ^ 34)) (exp : Fin 12288) :
    ∃ d, readDecimal (DecimalValue.finite neg coeff exp).toText = some d ∧
      d.quantity = (DecimalValue.finite neg coeff exp).quantity := by
  have hwf := Decimal128.layout_wf coeff coeff.isLt _ (unbias_range exp)
  have hmag := Decimal128.layout_mag coeff (Decimal128.unbias exp)
  have htext : (DecimalValue.finite neg coeff exp).toText =
      signedText neg (Decimal128.layout coeff (Decimal128.unbias exp)) := rfl
  generalize Decimal128.layout coeff (Decimal128.unbias exp) = l at hwf hmag htext
  have hwf' : (⟨l.int, l.frac, none⟩ : Layout).Wf := ⟨hwf.int_ne, hwf.int_lt, hwf.frac_lt, by simp⟩
  have hread : readDecimal (signedText neg l) = exactDecimal neg (l.int ++ l.frac) (l.exp.getD 0 - l.frac.length) := by
    unfold signedText Layout.text Layout.expText
    cases hx : l.exp with
    | none => exact readDecimal_mantissa hwf' rfl neg none 0 rfl
    | some x =>
      refine readDecimal_mantissa hwf' rfl neg (some ((if 0 < x then ['+'] else []) ++ intText x)) x ?_
      have hint := @readInt_expText (decide (0 < x)) x fun h => (of_decide_eq_true h).le
      simpa using hint
  have hq : (DecimalValue.finite neg coeff exp).quantity = .fin (Decimal128.signed neg l.mag) := by
    rw [hmag]
    cases neg with
    | true => exact congrArg Quantity.fin (neg_one_mul _)
    | false => exact congrArg Quantity.fin (one_mul _)
  obtain ⟨d, hd⟩ := @exactDecimal_complete neg _ (l.exp.getD 0 - l.frac.length) hwf.digit
    ⟨Decimal128.ofValue (.finite neg coeff exp), by
      unfold Decimal128.quantity
      rw [Decimal128.value_ofValue, hq]
      rfl⟩
  refine ⟨d, ?_, ?_⟩
  · rw [htext, hread]
    exact hd
  · rw [hq]
    exact exactDecimal_sound hd

theorem reads_readDecimal : Reads readDecimal where
  rendered v := by
    cases v with
    | nan => exact ⟨_, rfl, by unfold Decimal128.quantity; rw [Decimal128.value_ofValue]⟩
    | inf neg =>
      refine ⟨Decimal128.ofValue (.inf neg), by cases neg <;> rfl, ?_⟩
      unfold Decimal128.quantity
      rw [Decimal128.value_ofValue]
    | finite neg coeff exp => exact readDecimal_finite neg coeff exp
  sound hne hlt hplus h := by
    rw [readDecimal_scientific hne hlt hplus] at h
    exact exactDecimal_sound h
  complete {neg plus ds exp} hlt _ hv hplus h := by
    have hne : ds ≠ [] := by
      rintro rfl
      exact hv rfl
    rw [readDecimal_scientific hne hlt hplus]
    exact exactDecimal_complete hlt h

end Secantus.PgNumeric
