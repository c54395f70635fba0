/-
  Arithmetic on numeric texts (`decimal_arith`).

  Addition, subtraction and multiplication are exact at PostgreSQL's result scale, division is rounded half away
  from zero at the scale `div_scale` selects (`exactResult`); a result the format has no room for is an overflow
  error. Where an operand is a NaN or an infinity the result is PostgreSQL's (`limitResult`).

  * `finiteArith_spec`: the decimal the operators compute;
  * `decimalArith_finite`, `decimalArith_limit`: what `decimal_arith` answers.
-/
import Secantus.Library.Rounding
import Secantus.PgNumeric.Input
import Secantus.PgNumeric.Stored

namespace Secantus.PgNumeric

open Secantus Digits Rounding

/-! ## Decimals -/

namespace Dec

/-- `Dec::lift`. -/
def lift (d : Dec) (scale : ℕ) : ℤ := d.unscaled * 10 ^ (scale - d.scale)

/-- The first group of four digits that is not zero, and its position behind the point. -/
def firstGroup (k : ℕ) : List Text → ℤ × ℤ
  | [] => (0, 0)
  | group :: groups =>
    let value := (parseI64 (group ++ List.replicate (4 - group.length) '0')).getD 0
    if value ≠ 0 then (-(k : ℤ) - 1, value) else firstGroup (k + 1) groups

/-- `Dec::weight_and_first_group`. -/
def weightAndFirstGroup (d : Dec) : ℤ × ℤ :=
  let text := render ⟨d.unscaled.natAbs, d.scale⟩
  let (int, frac) := (splitOnce isPoint text).getD (text, [])
  let int := int.dropWhile (· = '0')
  if !int.isEmpty then
    let weight := (int.length - 1) / 4
    let lead := int.length - weight * 4
    (weight, (parseI64 (int.take lead)).getD 0)
  else firstGroup 0 (frac.toChunks 4)

end Dec

def roundHalfAway (num den : ℕ) : ℕ := if den ≤ num % den * 2 then num / den + 1 else num / den

def divScale (a b : Dec) : ℕ :=
  let (w1, f1) := a.weightAndFirstGroup
  let (w2, f2) := b.weightAndFirstGroup
  let qweight := if f1 ≤ f2 then w1 - w2 - 1 else w1 - w2
  (max 0 (min (max (max (16 - qweight * 4) a.scale) b.scale) 1000)).toNat

/-! ## The operators -/

/-- The class of a NaN or an infinity, or the sign of a decimal. -/
def signOf (t : Text) : Option ℤ → ℤ
  | some c => c
  | none =>
    match Dec.parse t with
    | some d => if d.unscaled = 0 then 0 else if d.unscaled < 0 then -1 else 1
    | none => 0

def infText (s : ℤ) : Text := if s < 0 then (Canonical.inf true).text else (Canonical.inf false).text

def nonFiniteArith (op : String) (a b : Text) : Option (Option (Except NumericError Text)) :=
  let ca := nonFiniteClass a
  let cb := nonFiniteClass b
  if ca.isNone && cb.isNone then if op = "+" ∨ op = "-" ∨ op = "*" ∨ op = "/" then some none else none
  else if ca = some 0 ∨ cb = some 0 then some (some (.ok Canonical.nan.text))
  else
    let sa := signOf a ca
    let sb := signOf b cb
    if op = "+" then
      match ca, cb with
      | some x, some y => if x ≠ y then some (some (.ok Canonical.nan.text)) else some (some (.ok (infText x)))
      | some x, none => some (some (.ok (infText x)))
      | none, some y => some (some (.ok (infText y)))
      | none, none => none
    else if op = "-" then
      match ca, cb with
      | some x, some y => if x = y then some (some (.ok Canonical.nan.text)) else some (some (.ok (infText x)))
      | some x, none => some (some (.ok (infText x)))
      | none, some y => some (some (.ok (infText (-y))))
      | none, none => none
    else if op = "*" then
      if sa = 0 ∨ sb = 0 then some (some (.ok Canonical.nan.text)) else some (some (.ok (infText (sa * sb))))
    else if op = "/" then
      match ca, cb with
      | some _, some _ => some (some (.ok Canonical.nan.text))
      | some _, none => if sb = 0 then some (some (.error .divisionByZero)) else some (some (.ok (infText (sa * sb))))
      | none, some _ => some (some (.ok ['0']))
      | none, none => none
    else none

/-- The operators on decimals. -/
def finiteArith (op : String) (x y : Dec) : Option (Except NumericError Dec) :=
  if op = "+" ∨ op = "-" then
    let scale := max x.scale y.scale
    let xa := x.lift scale
    let ya := y.lift scale
    some (.ok ⟨if op = "+" then xa + ya else xa - ya, scale⟩)
  else if op = "*" then some (.ok ⟨x.unscaled * y.unscaled, x.scale + y.scale⟩)
  else if op = "/" then
    if y.unscaled = 0 then some (.error .divisionByZero)
    else
      let rscale := divScale x y
      let num := x.unscaled.natAbs * 10 ^ (y.scale + rscale)
      let den := y.unscaled.natAbs * 10 ^ x.scale
      let q : ℤ := roundHalfAway num den
      let negative := decide (x.unscaled < 0) != decide (y.unscaled < 0)
      some (.ok ⟨if negative then -q else q, rscale⟩)
  else none

/-- A decimal result, stored where its text is canonical. -/
def storeResult (fromStr : Text → Option Decimal128) (out : Dec) : Except NumericError Bson :=
  match canonicalNumericText out.render with
  | .ok _ => .ok (numericBson fromStr out.render)
  | .error _ => .error numericOverflow

def decimalArith (fromStr : Text → Option Decimal128) (op : String) (a b : Text) : Option (Except NumericError Bson) := do
  let ca ← (canonicalNumericText a).toOption
  let cb ← (canonicalNumericText b).toOption
  match ← nonFiniteArith op ca cb with
  | some text => return text.map (numericBson fromStr)
  | none =>
    let x ← Dec.parse ca
    let y ← Dec.parse cb
    let out ← finiteArith op x y
    return out.bind (storeResult fromStr)

/-! ## The exact results -/

inductive Operator where
  | add
  | sub
  | mul
  | div
  deriving DecidableEq

def Operator.symbol : Operator → String
  | .add => "+"
  | .sub => "-"
  | .mul => "*"
  | .div => "/"

/-- The exact result and PostgreSQL's scale of it; a quotient is rounded at its scale. -/
def exactResult : Operator → Dec → Dec → ℚ × ℕ
  | .add, x, y => (x.value + y.value, max x.scale y.scale)
  | .sub, x, y => (x.value - y.value, max x.scale y.scale)
  | .mul, x, y => (x.value * y.value, x.scale + y.scale)
  | .div, x, y => (roundTo 10 (x.value / y.value) (divScale x y), divScale x y)

/-- The sign of a quantity, and the infinity of a sign. -/
def signum : Quantity → ℤ
  | .nan => 0
  | .negInf => -1
  | .fin q => if q = 0 then 0 else if q < 0 then -1 else 1
  | .posInf => 1

/-- The class `non_finite_class` gives a quantity's text. -/
def classOf : Quantity → Option ℤ
  | .nan => some 0
  | .negInf => some (-1)
  | .fin _ => none
  | .posInf => some 1

def infinity (s : ℤ) : Quantity := if s < 0 then .negInf else .posInf

/-- A sum with an infinity in it. -/
def limitSum : Quantity → Quantity → Quantity
  | .posInf, .negInf => .nan
  | .negInf, .posInf => .nan
  | .fin _, y => y
  | x, _ => x

def limitQuotient : Quantity → Quantity → Option Quantity
  | .fin _, _ => some (.fin 0)
  | x, .fin q => if signum (.fin q) = 0 then none else some (infinity (signum x * signum (.fin q)))
  | _, _ => some .nan

/-- The result where an operand is a NaN or an infinity; none of a division by zero. -/
def limitResult (op : Operator) : Quantity → Quantity → Option Quantity
  | .nan, _ => some .nan
  | _, .nan => some .nan
  | x, y =>
    match op with
    | .add => some (limitSum x y)
    | .sub => some (limitSum x (negate y))
    | .mul => some (if signum x = 0 ∨ signum y = 0 then .nan else infinity (signum x * signum y))
    | .div => limitQuotient x y

theorem limitResult_of_ne {op : Operator} {x y : Quantity} (hx : x ≠ .nan) (hy : y ≠ .nan) : limitResult op x y =
    match op with
    | .add => some (limitSum x y)
    | .sub => some (limitSum x (negate y))
    | .mul => some (if signum x = 0 ∨ signum y = 0 then .nan else infinity (signum x * signum y))
    | .div => limitQuotient x y := by
  cases x with
  | nan => exact absurd rfl hx
  | negInf => cases y <;> first | rfl | exact absurd rfl hy
  | fin p => cases y <;> first | rfl | exact absurd rfl hy
  | posInf => cases y <;> first | rfl | exact absurd rfl hy

/-- The format has room for a number at a scale. -/
def HasRoom (q : ℚ) (s : ℕ) : Prop := |q| < 10 ^ MAX_INT_DIGITS ∧ s ≤ MAX_SCALE

theorem roundHalfAway_eq (num : ℕ) {den : ℕ} (h : 0 < den) : (roundHalfAway num den : ℤ) = halfAway ((num : ℚ) / den) := by
  rw [halfAway_div num h]
  unfold roundHalfAway
  rw [Nat.mul_comm]

theorem signed_roundHalfAway (neg : Bool) (num : ℕ) {den : ℕ} (h : 0 < den) :
    (if neg then -(roundHalfAway num den : ℤ) else roundHalfAway num den) =
      halfAway (if neg then -((num : ℚ) / den) else num / den) := by
  rw [halfAway_signed, roundHalfAway_eq num h]

namespace Dec

theorem value_eq_zero_iff (d : Dec) : d.value = 0 ↔ d.unscaled = 0 := by
  unfold value
  rw [div_eq_zero_iff, or_iff_left (by positivity), Int.cast_eq_zero]

theorem value_neg_iff (d : Dec) : d.value < 0 ↔ d.unscaled < 0 := by
  unfold value
  rw [div_neg_iff]
  have hpow : (0 : ℚ) < 10 ^ d.scale := by positivity
  constructor
  · rintro (⟨-, h⟩ | ⟨h, -⟩)
    · exact absurd h (not_lt.mpr hpow.le)
    · exact_mod_cast h
  · exact fun h => .inr ⟨by exact_mod_cast h, hpow⟩

theorem lift_value (d : Dec) {s : ℕ} (h : d.scale ≤ s) : (d.lift s : ℚ) / 10 ^ s = d.value := by
  obtain ⟨k, rfl⟩ := Nat.exists_eq_add_of_le h
  unfold lift value
  rw [Nat.add_sub_cancel_left, pow_add]
  push_cast
  field_simp

theorem abs_value (d : Dec) : |d.value| = (d.unscaled.natAbs : ℚ) / 10 ^ d.scale := by
  have hpow : (0 : ℚ) < 10 ^ d.scale := by positivity
  unfold value
  rw [abs_div, abs_of_pos hpow, Nat.cast_natAbs, Int.cast_abs]

theorem fits_iff_hasRoom (d : Dec) : d.Fits ↔ HasRoom d.value d.scale := by
  have hpow : (0 : ℚ) < 10 ^ d.scale := by positivity
  unfold Fits HasRoom
  rw [abs_value, div_lt_iff₀ hpow, ← pow_add]
  refine and_congr_left fun _ => ?_
  exact_mod_cast Iff.rfl

end Dec

/-- A quotient of decimals at `r` digits, as one of naturals with the sign put back. -/
theorem quotient_eq (x y : Dec) (r : ℕ) : x.value / y.value * 10 ^ r =
    if decide (x.unscaled < 0) != decide (y.unscaled < 0) then
      -(((x.unscaled.natAbs * 10 ^ (y.scale + r) : ℕ) : ℚ) / (y.unscaled.natAbs * 10 ^ x.scale : ℕ))
    else ((x.unscaled.natAbs * 10 ^ (y.scale + r) : ℕ) : ℚ) / (y.unscaled.natAbs * 10 ^ x.scale : ℕ) := by
  have hsize : x.value / y.value * 10 ^ r =
      (x.unscaled : ℚ) / y.unscaled * (10 ^ (y.scale + r) / 10 ^ x.scale) := by
    unfold Dec.value
    rw [pow_add]
    field_simp
  have habs : ∀ n : ℤ, ((n.natAbs : ℕ) : ℚ) = if n < 0 then -(n : ℚ) else n := by
    intro n
    rw [Nat.cast_natAbs, Int.cast_abs]
    split
    · next hn => exact abs_of_neg (by exact_mod_cast hn)
    · next hn => exact abs_of_nonneg (by exact_mod_cast not_lt.mp hn)
  have hsplit : ((x.unscaled.natAbs * 10 ^ (y.scale + r) : ℕ) : ℚ) / (y.unscaled.natAbs * 10 ^ x.scale : ℕ) =
      (x.unscaled.natAbs : ℚ) / y.unscaled.natAbs * (10 ^ (y.scale + r) / 10 ^ x.scale) := by
    push_cast
    rw [mul_div_mul_comm]
  rw [hsize, hsplit, habs, habs, ← neg_mul]
  by_cases hx : x.unscaled < 0
  · by_cases hy : y.unscaled < 0
    · simp [hx, hy]
    · simp [hx, hy, neg_div]
  · by_cases hy : y.unscaled < 0
    · simp [hx, hy, div_neg]
    · simp [hx, hy]

theorem finiteArith_spec (op : Operator) (x y : Dec) (h : op = .div → y.value ≠ 0) :
    ∃ d, finiteArith op.symbol x y = some (.ok d) ∧ (d.value, d.scale) = exactResult op x y := by
  cases op with
  | add =>
    refine ⟨⟨x.lift (max x.scale y.scale) + y.lift (max x.scale y.scale), max x.scale y.scale⟩, rfl,
      Prod.ext ?_ rfl⟩
    show _ = x.value + y.value
    rw [← x.lift_value (le_max_left x.scale y.scale), ← y.lift_value (le_max_right x.scale y.scale), ← add_div]
    unfold Dec.value
    push_cast
    rfl
  | sub =>
    refine ⟨⟨x.lift (max x.scale y.scale) - y.lift (max x.scale y.scale), max x.scale y.scale⟩, rfl,
      Prod.ext ?_ rfl⟩
    show _ = x.value - y.value
    rw [← x.lift_value (le_max_left x.scale y.scale), ← y.lift_value (le_max_right x.scale y.scale), ← sub_div]
    unfold Dec.value
    push_cast
    rfl
  | mul =>
    refine ⟨⟨x.unscaled * y.unscaled, x.scale + y.scale⟩, rfl, Prod.ext ?_ rfl⟩
    show _ = x.value * y.value
    unfold Dec.value
    rw [div_mul_div_comm, ← pow_add]
    push_cast
    rfl
  | div =>
    have hy : y.unscaled ≠ 0 := fun h0 => h rfl (y.value_eq_zero_iff.mpr h0)
    have hden : 0 < y.unscaled.natAbs * 10 ^ x.scale := Nat.mul_pos (Int.natAbs_pos.mpr hy) (Nat.pow_pos (by decide))
    have hround := signed_roundHalfAway (decide (x.unscaled < 0) != decide (y.unscaled < 0))
      (x.unscaled.natAbs * 10 ^ (y.scale + divScale x y)) hden
    rw [← quotient_eq] at hround
    refine ⟨⟨halfAway (x.value / y.value * 10 ^ divScale x y), divScale x y⟩, ?_, Prod.ext ?_ rfl⟩
    · rw [← hround]
      unfold finiteArith
      exact if_neg hy
    · show ((halfAway (x.value / y.value * 10 ^ divScale x y) : ℤ) : ℚ) / 10 ^ divScale x y =
        roundTo 10 (x.value / y.value) (divScale x y)
      unfold roundTo
      rw [zpow_natCast, Nat.cast_ofNat]

theorem finiteArith_div_zero (x : Dec) {y : Dec} (h : y.value = 0) :
    finiteArith Operator.div.symbol x y = some (.error .divisionByZero) := by
  unfold finiteArith
  exact if_pos (y.value_eq_zero_iff.mp h)

/-! ## What `decimal_arith` answers -/

/-- An answer is a stored numeric whose text is canonical and writes the quantity at the scale. -/
def Answers (r : Option (Except NumericError Bson)) (q : Quantity) (s : ℕ) : Prop :=
  ∃ v t, r = some (.ok v) ∧ numericText v = some t ∧ canonicalNumericText t = .ok t ∧ reading t = some (q, s)

section Answers

variable {fromStr : Text → Option Decimal128}

theorem answers_canonical (hr : Reads fromStr) (c : Canonical) {q : Quantity} {s : ℕ}
    (hc : canonicalNumericText c.text = .ok c.text) (hreading : reading c.text = some (q, s)) :
    Answers (some (.ok (numericBson fromStr c.text))) q s :=
  ⟨_, c.text, rfl, numericText_numericBson hr c, hc, hreading⟩

theorem answers_render (hr : Reads fromStr) {d : Dec} (h : d.Fits) :
    Answers (some (.ok (numericBson fromStr d.render))) (.fin d.value) d.scale := by
  have hcanonical : canonicalNumericText d.render = .ok d.render := by
    rw [d.canonicalNumericText_render, if_pos h]
  rw [← d.plain_text h] at hcanonical ⊢
  exact answers_canonical hr (.plain (d.plain h)) hcanonical (by rw [← d.reading_render, ← d.plain_text h]; rfl)

/-- A decimal result is stored where the format has room for it. -/
theorem storeResult_eq (d : Dec) : storeResult fromStr d =
    if d.Fits then .ok (numericBson fromStr d.render) else .error numericOverflow := by
  unfold storeResult
  rw [d.canonicalNumericText_render]
  split
  · next h =>
    split at h
    · next hfits => rw [if_pos hfits]
    · cases h
  · next h =>
    split at h
    · cases h
    · next hfits => rw [if_neg hfits]

theorem nonFiniteClass_render (d : Dec) : nonFiniteClass d.render = none := by
  have hN : 'N' ∉ decimalChars := by decide
  have hI : 'I' ∉ decimalChars := by decide
  have hne : ∀ {c : Char} {t : Text}, c ∉ decimalChars → c ∈ t → d.render ≠ t := by
    rintro c t hc ht rfl
    rw [d.render_eq] at ht
    exact hc (d.layout_wf.signedText_chars _ c ht)
  unfold nonFiniteClass
  rw [if_neg (hne hN (by decide)), if_neg (hne hI (by decide)), if_neg (hne hI (by decide))]

theorem nonFiniteArith_finite (op : Operator) (x y : Dec) : nonFiniteArith op.symbol x.render y.render = some none := by
  unfold nonFiniteArith
  rw [nonFiniteClass_render, nonFiniteClass_render]
  cases op with
  | add => rfl
  | sub => rfl
  | mul => rfl
  | div => rfl

/-- On two finite texts `decimal_arith` is the operator on their decimals. -/
theorem decimalArith_parsed (op : Operator) {a b : Text} {x y : Dec} (ha : Dec.parse a = some x) (hb : Dec.parse b = some y) :
    decimalArith fromStr op.symbol a b = (finiteArith op.symbol x y).map fun out => out.bind (storeResult fromStr) := by
  obtain ⟨hca, hfa⟩ := Dec.parse_eq_some_iff.mp ha
  obtain ⟨hcb, hfb⟩ := Dec.parse_eq_some_iff.mp hb
  have hx : Dec.parse x.render = some x := by
    rw [Dec.parse_eq_some_iff, x.canonicalNumericText_render, if_pos hfa]
    exact ⟨rfl, hfa⟩
  have hy : Dec.parse y.render = some y := by
    rw [Dec.parse_eq_some_iff, y.canonicalNumericText_render, if_pos hfb]
    exact ⟨rfl, hfb⟩
  unfold decimalArith
  rw [hca, hcb]
  simp only [Except.toOption, Option.bind_eq_bind, Option.bind_some, nonFiniteArith_finite, hx, hy]
  cases finiteArith op.symbol x y with
  | none => rfl
  | some out => rfl

/-- Two finite numbers: the exact result where the format has room for it, else an overflow error. -/
theorem decimalArith_finite (hr : Reads fromStr) (op : Operator) {a b : Text} {x y : Dec} (ha : Dec.parse a = some x)
    (hb : Dec.parse b = some y) (h : op = .div → y.value ≠ 0) :
    (HasRoom (exactResult op x y).1 (exactResult op x y).2 →
      Answers (decimalArith fromStr op.symbol a b) (.fin (exactResult op x y).1) (exactResult op x y).2) ∧
    (¬HasRoom (exactResult op x y).1 (exactResult op x y).2 →
      decimalArith fromStr op.symbol a b = some (.error numericOverflow)) := by
  obtain ⟨d, hd, hexact⟩ := finiteArith_spec op x y h
  have harith : decimalArith fromStr op.symbol a b = some (storeResult fromStr d) := by
    rw [decimalArith_parsed op ha hb, hd]
    rfl
  rw [← hexact, ← d.fits_iff_hasRoom, harith, storeResult_eq]
  constructor
  · intro hfits
    rw [if_pos hfits]
    exact answers_render hr hfits
  · intro hfits
    rw [if_neg hfits]

theorem decimalArith_div_zero {a b : Text} {x y : Dec} (ha : Dec.parse a = some x) (hb : Dec.parse b = some y)
    (h : y.value = 0) : decimalArith fromStr Operator.div.symbol a b = some (.error .divisionByZero) := by
  rw [decimalArith_parsed .div ha hb, finiteArith_div_zero x h]
  rfl

/-- The class and the sign of an accepted operand are those of its number. -/
structure Operand (t : Text) (x : Quantity) : Prop where
  class_eq : nonFiniteClass t = classOf x
  sign_eq : signOf t (classOf x) = signum x

theorem operand_render {d : Dec} (h : d.Fits) : Operand d.render (.fin d.value) where
  class_eq := nonFiniteClass_render d
  sign_eq := by
    have hparse : Dec.parse d.render = some d := by
      rw [Dec.parse_eq_some_iff, d.canonicalNumericText_render, if_pos h]
      exact ⟨rfl, h⟩
    unfold classOf signOf signum
    simp only [hparse, d.value_eq_zero_iff, d.value_neg_iff]

theorem operand_of_ok {t c : Text} (h : canonicalNumericText t = .ok c) : ∃ x s, Operand c x ∧ reading t = some (x, s) := by
  rcases canonicalNumericText_eq_ok h with ⟨c, rfl | ⟨neg, rfl⟩, rfl, hreading⟩ | ⟨d, hfits, rfl, hreading⟩
  · exact ⟨.nan, 0, ⟨rfl, rfl⟩, hreading⟩
  · refine ⟨_, 0, ?_, hreading⟩
    cases neg with
    | true => exact ⟨rfl, rfl⟩
    | false => exact ⟨rfl, rfl⟩
  · exact ⟨_, _, operand_render hfits, hreading⟩

/-- The text of a result with an infinite operand. -/
def limitText : Quantity → Text
  | .nan => Canonical.nan.text
  | .negInf => (Canonical.inf true).text
  | .fin _ => ['0']
  | .posInf => (Canonical.inf false).text

theorem infText_eq (s : ℤ) : infText s = limitText (infinity s) := by
  unfold infText infinity
  split
  · rfl
  · rfl

/-- What the arithmetic answers for a result, or a division by zero. -/
def limitAnswer (r : Option Quantity) : Option (Option (Except NumericError Text)) :=
  some (some ((r.map limitText).elim (.error .divisionByZero) .ok))

theorem limitAnswer_product (p : Prop) [Decidable p] (r : Quantity) :
    (if p then some (some (.ok Canonical.nan.text)) else some (some (.ok (limitText r)))) =
      limitAnswer (some (if p then .nan else r)) := by
  split
  · rfl
  · rfl

theorem limitAnswer_quotient (p : Prop) [Decidable p] (r : Quantity) :
    (if p then some (some (.error .divisionByZero)) else some (some (.ok (limitText r)))) =
      limitAnswer (if p then none else some r) := by
  split
  · rfl
  · rfl

/-- Where an operand is a NaN or an infinity the operators follow PostgreSQL's rules. -/
theorem nonFiniteArith_limit (op : Operator) {s t : Text} {x y : Quantity} (hs : Operand s x) (ht : Operand t y)
    (h : (∀ q, x ≠ .fin q) ∨ ∀ q, y ≠ .fin q) : nonFiniteArith op.symbol s t = limitAnswer (limitResult op x y) := by
  have hfin : ∀ {p q : ℚ}, ¬((∀ r, Quantity.fin p ≠ .fin r) ∨ ∀ r, Quantity.fin q ≠ .fin r) := by
    rintro p q (h | h)
    · exact h p rfl
    · exact h q rfl
  unfold nonFiniteArith
  simp only [hs.class_eq, ht.class_eq, hs.sign_eq, ht.sign_eq, infText_eq]
  cases x with
  | nan => rfl
  | negInf =>
    cases y with
    | nan => rfl
    | fin q =>
      cases op with
      | add => rfl
      | sub => rfl
      | mul => exact limitAnswer_product _ _
      | div => exact limitAnswer_quotient _ _
    | negInf => cases op <;> rfl
    | posInf => cases op <;> rfl
  | posInf =>
    cases y with
    | nan => rfl
    | fin q =>
      cases op with
      | add => rfl
      | sub => rfl
      | mul => exact limitAnswer_product _ _
      | div => exact limitAnswer_quotient _ _
    | negInf => cases op <;> rfl
    | posInf => cases op <;> rfl
  | fin p =>
    cases y with
    | nan => rfl
    | fin q => exact absurd h hfin
    | negInf =>
      cases op with
      | add => rfl
      | sub => rfl
      | mul => exact limitAnswer_product _ _
      | div => rfl
    | posInf =>
      cases op with
      | add => rfl
      | sub => rfl
      | mul => exact limitAnswer_product _ _
      | div => rfl

theorem infinity_ne_fin (s : ℤ) (q : ℚ) : infinity s ≠ .fin q := by
  unfold infinity
  split
  · exact Quantity.noConfusion
  · exact Quantity.noConfusion

theorem limitSum_ne_fin {x y : Quantity} (h : (∀ q, x ≠ .fin q) ∨ ∀ q, y ≠ .fin q) (q : ℚ) : limitSum x y ≠ .fin q := by
  rcases h with h | h
  · cases x with
    | fin p => exact absurd rfl (h p)
    | nan => exact Quantity.noConfusion
    | negInf => cases y <;> exact Quantity.noConfusion
    | posInf => cases y <;> exact Quantity.noConfusion
  · cases y with
    | fin p => exact absurd rfl (h p)
    | nan => cases x <;> exact Quantity.noConfusion
    | negInf => cases x <;> exact Quantity.noConfusion
    | posInf => cases x <;> exact Quantity.noConfusion

theorem limitResult_fin {op : Operator} {x y : Quantity} (h : (∀ q, x ≠ .fin q) ∨ ∀ q, y ≠ .fin q) {q : ℚ}
    (hq : limitResult op x y = some (.fin q)) : q = 0 := by
  by_cases hx : x = .nan
  · subst hx
    cases hq
  by_cases hy : y = .nan
  · subst hy
    cases x <;> cases hq
  rw [limitResult_of_ne hx hy] at hq
  cases op with
  | add => exact absurd (Option.some.inj hq) (limitSum_ne_fin h q)
  | sub =>
    refine absurd (Option.some.inj hq) (limitSum_ne_fin (h.imp_right fun hy p => ?_) q)
    cases y with
    | fin r => exact absurd rfl (hy r)
    | nan => exact Quantity.noConfusion
    | negInf => exact Quantity.noConfusion
    | posInf => exact Quantity.noConfusion
  | mul =>
    have hq := Option.some.inj hq
    split at hq
    · cases hq
    · exact absurd hq (infinity_ne_fin _ q)
  | div =>
    have hq : limitQuotient x y = some (.fin q) := hq
    unfold limitQuotient at hq
    split at hq
    · exact (Quantity.fin.inj (Option.some.inj hq)).symm
    · split at hq
      · cases hq
      · exact absurd (Option.some.inj hq) (infinity_ne_fin _ q)
    · cases hq

/-- A NaN or an infinity among the operands: PostgreSQL's result, at scale zero. -/
theorem decimalArith_limit (hr : Reads fromStr) (op : Operator) {a b ca cb : Text} {x y : Quantity} {s t : ℕ}
    (ha : canonicalNumericText a = .ok ca) (hb : canonicalNumericText b = .ok cb) (hx : reading a = some (x, s))
    (hy : reading b = some (y, t)) (h : (∀ q, x ≠ .fin q) ∨ ∀ q, y ≠ .fin q) :
    (∀ r, limitResult op x y = some r → Answers (decimalArith fromStr op.symbol a b) r 0) ∧
      (limitResult op x y = none → decimalArith fromStr op.symbol a b = some (.error .divisionByZero)) := by
  obtain ⟨x', s', hxs, hx'⟩ := operand_of_ok ha
  obtain ⟨y', t', hyt, hy'⟩ := operand_of_ok hb
  obtain ⟨rfl, rfl⟩ := Prod.mk.inj (Option.some.inj (hx.symm.trans hx'))
  obtain ⟨rfl, rfl⟩ := Prod.mk.inj (Option.some.inj (hy.symm.trans hy'))
  have harith : decimalArith fromStr op.symbol a b =
      some (((limitResult op x y).map limitText).elim (.error .divisionByZero) fun t => .ok (numericBson fromStr t)) := by
    unfold decimalArith
    rw [ha, hb]
    simp only [Except.toOption, Option.bind_eq_bind, Option.bind_some, nonFiniteArith_limit op hxs hyt h, limitAnswer]
    cases limitResult op x y with
    | none => rfl
    | some r => rfl
  constructor
  · intro r hr'
    rw [harith, hr']
    show Answers (some (.ok (numericBson fromStr (limitText r)))) r 0
    cases r with
    | nan => exact answers_canonical hr .nan rfl rfl
    | negInf => exact answers_canonical hr (.inf true) rfl rfl
    | posInf => exact answers_canonical hr (.inf false) rfl rfl
    | fin q =>
      obtain rfl := limitResult_fin h hr'
      have hfits : (⟨0, 0⟩ : Dec).Fits := ⟨Nat.pow_pos (by decide), Nat.zero_le _⟩
      have hzero := answers_render hr hfits
      rwa [show (⟨0, 0⟩ : Dec).value = 0 from (Dec.value_eq_zero_iff _).mpr rfl] at hzero
  · intro hnone
    rw [harith, hnone]
    rfl

end Answers

end Secantus.PgNumeric
