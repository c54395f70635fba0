/-
  The two stored forms of a `numeric` (`numeric_bson`): a Decimal128 that renders as the canonical text,
  else a document of the text and its sort key.

  * `numericBson_stored`: a canonical text is stored as one of the two, of the text's value;
  * `Constant.text`: every numeric operand is rendered as a canonical text of its value.
-/
import Secantus.PgNumeric.Bracket

namespace Secantus.PgNumeric

open Secantus Digits

/-- `WIDE_NUMERIC_KEY`. -/
def wideNumericKey : String := "__numeric"

/-- `WIDE_NUMERIC_SORT_KEY`. -/
def wideNumericSortKey : String := "__numkey"

/-- The string of a sort key. -/
def keyString (canonical : Text) : String := String.ofList (numericSortKey canonical)

/-- The document of a canonical text. -/
def wideNumeric (canonical : Text) : Document :=
  [(wideNumericKey, .string (String.ofList canonical)), (wideNumericSortKey, .string (keyString canonical))]

/-- The coefficient and exponent of a canonical text: an integer's trailing zeros go to the exponent. -/
def exactParts (p : Parts) : Text × ℤ :=
  let coefficient := (p.int ++ p.frac).dropWhile (· = '0')
  let trimmed := if p.frac.isEmpty then coefficient.rdropWhile (· = '0') else coefficient
  (if trimmed.isEmpty then ['0'] else trimmed, -(p.frac.length : ℤ) + (coefficient.length - trimmed.length))

/-- `exact_decimal128`: digits and scale must both come back. -/
def exactDecimal128 (fromStr : Text → Option Decimal128) (canonical : Text) : Option Decimal128 := do
  let p ← splitCanonical canonical
  let (coefficient, exp) := exactParts p
  if 34 < coefficient.length ∨ exp < -6176 ∨ 6111 < exp then none
  else (fromStr (scientific p.neg coefficient false exp)).filter fun d => plainNumericText d.toText = canonical

def numericBson (fromStr : Text → Option Decimal128) (canonical : Text) : Bson :=
  match (fromStr canonical).filter fun _ => !canonical.any Char.isDigit with
  | some d => .decimal128 d
  | none =>
    match exactDecimal128 fromStr canonical with
    | some d => .decimal128 d
    | none => .document (wideNumeric canonical)

def numericText : Bson → Option Text
  | .decimal128 d => some (plainNumericText d.toText)
  | .document d =>
    match Document.get d wideNumericKey with
    | some (.string s) => some s.toList
    | _ => none
  | _ => none

def numericOperandText : Bson → Option Text
  | .int32 n => some (intText n.toInt)
  | .int64 n => some (intText n.toInt)
  | other => numericText other

/-! ## The forms -/

/-- What the field of a numeric column holds, and the number it stands for. -/
inductive Stored : Option Bson → Option Quantity → Prop where
  | missing : Stored none none
  | null : Stored (some .null) none
  | decimal (d : Decimal128) : Stored (some (.decimal128 d)) (some d.quantity)
  | wide (p : Plain) : Stored (some (.document (wideNumeric p.text))) (some (.fin p.value))

/-- A numeric constant, and its number. -/
inductive Constant : Bson → Quantity → Prop where
  | int32 (n : Int32) : Constant (.int32 n) (.fin n.toInt)
  | int64 (n : Int64) : Constant (.int64 n) (.fin n.toInt)
  | decimal (d : Decimal128) : Constant (.decimal128 d) d.quantity
  | wide (p : Plain) : Constant (.document (wideNumeric p.text)) (.fin p.value)

theorem Constant.text {c : Bson} {x : Quantity} (h : Constant c x) :
    ∃ t : Canonical, numericOperandText c = some t.text ∧ t.quantity = x := by
  cases h with
  | int32 n =>
    have hlo := n.le_toInt
    have hhi := n.toInt_lt
    obtain ⟨p, htext, hvalue⟩ := intText_plain (n := n.toInt) (by omega)
    exact ⟨.plain p, congrArg some htext, congrArg Quantity.fin hvalue.symm⟩
  | int64 n =>
    have hlo := n.le_toInt
    have hhi := n.toInt_lt
    obtain ⟨p, htext, hvalue⟩ := intText_plain (n := n.toInt) (by omega)
    exact ⟨.plain p, congrArg some htext, congrArg Quantity.fin hvalue.symm⟩
  | decimal d =>
    obtain ⟨t, htext, hq⟩ := plainNumericText_decimal d
    exact ⟨t, congrArg some htext, hq.symm⟩
  | wide p =>
    refine ⟨.plain p, ?_, rfl⟩
    show some (String.ofList p.text).toList = some p.text
    rw [String.toList_ofList]

/-- Two plain texts with the same characters write the same number. -/
theorem value_of_text {p : Plain} {c : Canonical} (h : c.text = p.text) : c.quantity = .fin p.value := by
  have hkey := compare_sortKey c (.plain p)
  have hself : compare (keyBytes c.text) (keyBytes p.text) = .eq := by
    rw [h]
    exact Std.compare_self
  rw [show (Canonical.plain p).text = p.text from rfl, hself] at hkey
  cases hc : c.quantity with
  | fin q =>
    rw [hc] at hkey
    have heq : compare q p.value = .eq := hkey.symm
    rw [compare_eq_iff_eq.mp heq]
  | nan =>
    rw [hc] at hkey
    cases hkey
  | negInf =>
    rw [hc] at hkey
    cases hkey
  | posInf =>
    rw [hc] at hkey
    cases hkey

theorem exactDecimal128_text {fromStr : Text → Option Decimal128} {canonical : Text} {d : Decimal128}
    (h : exactDecimal128 fromStr canonical = some d) : plainNumericText d.toText = canonical := by
  unfold exactDecimal128 at h
  obtain ⟨p, -, h⟩ := Option.bind_eq_some_iff.mp h
  dsimp only at h
  split at h
  · cases h
  · simpa using (Option.filter_eq_some_iff.mp h).2

theorem Plain.any_isDigit_text (p : Plain) : p.text.any Char.isDigit = true := by
  obtain ⟨d, ds, hd⟩ := List.exists_cons_of_ne_nil p.int_ne
  have hdigit := digitChar_isDigit (p.int_lt d (by rw [hd]; exact List.mem_cons_self))
  rw [List.any_eq_true]
  refine ⟨Nat.digitChar d, ?_, hdigit⟩
  simp [Plain.text, signedText, Layout.text, Layout.mantissa, Plain.layout, hd, digitText]

/-- `numeric_bson` stores a canonical text in one of the two forms, with its value. -/
theorem numericBson_stored {fromStr : Text → Option Decimal128} (hr : Reads fromStr) (c : Canonical) :
    Stored (some (numericBson fromStr c.text)) (some c.quantity) := by
  have hspecial : ∀ v : DecimalValue, v.toText.any Char.isDigit = false →
      Stored (some (numericBson fromStr v.toText)) (some v.quantity) := by
    intro v hv
    obtain ⟨d, hd, hq⟩ := hr.rendered v
    have hfilter : ((fromStr v.toText).filter fun _ => !v.toText.any Char.isDigit) = some d := by
      rw [hd, hv]
      rfl
    unfold numericBson
    rw [hfilter, ← hq]
    exact .decimal d
  cases c with
  | nan => exact hspecial .nan (by decide)
  | inf neg => exact hspecial (.inf neg) (by cases neg <;> decide)
  | plain p =>
    have hfilter : ((fromStr p.text).filter fun _ => !p.text.any Char.isDigit) = none := by
      rw [p.any_isDigit_text]
      cases fromStr p.text <;> rfl
    show Stored (some (numericBson fromStr p.text)) (some (.fin p.value))
    unfold numericBson
    rw [hfilter]
    dsimp only
    split
    · rename_i d hexact
      obtain ⟨t, htext, hq⟩ := plainNumericText_decimal d
      have hvalue := value_of_text (p := p) (htext.symm.trans (exactDecimal128_text hexact))
      rw [← hvalue, ← hq]
      exact .decimal d
    · exact .wide p

/-- The text of what `numeric_bson` stores is the canonical text it was given. -/
theorem numericText_numericBson {fromStr : Text → Option Decimal128} (hr : Reads fromStr) (c : Canonical) :
    numericText (numericBson fromStr c.text) = some c.text := by
  have hspecial : ∀ v : DecimalValue, v.toText.any Char.isDigit = false → v.toText = c.text →
      v.quantity = c.quantity → (∀ t : Canonical, t.quantity = c.quantity → t = c) →
      numericText (numericBson fromStr c.text) = some c.text := by
    intro v hv htext hq honly
    obtain ⟨d, hd, hdq⟩ := hr.rendered v
    have hfilter : ((fromStr v.toText).filter fun _ => !v.toText.any Char.isDigit) = some d := by
      rw [hd, hv]
      rfl
    obtain ⟨t, hplain, ht⟩ := plainNumericText_decimal d
    unfold numericBson
    rw [← htext, hfilter, htext]
    show some (plainNumericText d.toText) = _
    rw [hplain, honly t (ht.symm.trans (hdq.trans hq))]
  cases c with
  | nan =>
    refine hspecial .nan (by decide) rfl rfl fun t ht => ?_
    cases t with
    | nan => rfl
    | inf neg => cases neg <;> cases ht
    | plain p => cases ht
  | inf neg =>
    refine hspecial (.inf neg) (by cases neg <;> decide) rfl (by cases neg <;> rfl) fun t ht => ?_
    cases t with
    | nan => cases neg <;> cases ht
    | inf neg' => cases neg <;> cases neg' <;> first | rfl | cases ht
    | plain p => cases neg <;> cases ht
  | plain p =>
    show numericText (numericBson fromStr p.text) = some p.text
    unfold numericBson
    have hfilter : ((fromStr p.text).filter fun _ => !p.text.any Char.isDigit) = none := by
      rw [p.any_isDigit_text]
      cases fromStr p.text <;> rfl
    rw [hfilter]
    dsimp only
    split
    · next d hexact => exact congrArg some (exactDecimal128_text hexact)
    · show some (String.ofList p.text).toList = some p.text
      rw [String.toList_ofList]

end Secantus.PgNumeric
