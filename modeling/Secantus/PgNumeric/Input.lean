/-
  Numeric literals and the exact decimals of the arithmetic (`canonical_numeric_text`, `Dec`).

  A literal is its sign, its digits on both sides of the point and its exponent (`Literal`), and the number it
  writes has a value and a display scale (`reading`). Its canonical text is the text of a `Dec` of that value and
  scale (`canonicalNumericText_eq_ok`), which is read back as it is (`canonicalNumericText_render`).
-/
import Secantus.Library.Outcome
import Secantus.PgNumeric.Compare

namespace Secantus.PgNumeric

open Secantus Digits

inductive NumericError where
  | invalidText (message : String)
  | numericOutOfRange (message : String)
  | divisionByZero
  | sqlstate (code message : String)
  deriving DecidableEq

def MAX_INT_DIGITS : ℕ := 131072

def MAX_SCALE : ℕ := 16383

/-! ## Literals -/

/-- The digits and the exponent a literal writes, its digit groups joined. -/
structure Literal where
  neg : Bool
  int : Text
  frac : Text
  exp : ℤ

/-- The spellings of a NaN and of the infinities. -/
def specialNumeric (t : Text) : Option Canonical :=
  let lower := t.map Char.toLower
  if lower = "nan".toList ∨ lower = "+nan".toList ∨ lower = "-nan".toList then some .nan
  else if lower = "inf".toList ∨ lower = "+inf".toList ∨ lower = "infinity".toList ∨ lower = "+infinity".toList then
    some (.inf false)
  else if lower = "-inf".toList ∨ lower = "-infinity".toList then some (.inf true)
  else none

def invalidNumeric (t : Text) : NumericError :=
  .invalidText s!"invalid input syntax for type numeric: \"{String.ofList t}\""

def numericOverflow : NumericError := .numericOutOfRange "value overflows numeric format"

/-- The digits of a part whose groups may be set apart by `_`, between digits only. -/
def stripGroups (afterDigit : Bool) : Text → Option Text
  | [] => some []
  | c :: cs =>
    if c.isDigit then (stripGroups true cs).map (c :: ·)
    else if c = '_' && afterDigit && cs.head?.any Char.isDigit then stripGroups false cs
    else none

/-- The exponent behind the `e`. -/
def readExponent (t e : Text) : Except NumericError ℤ :=
  let e := (stripPrefix '+' e).getD e
  let digits := (stripPrefix '-' e).getD e
  if digits.isEmpty || !digits.all Char.isDigit then .error (invalidNumeric t)
  else
    match parseI64 e with
    | some x => .ok x
    | none => .error numericOverflow

def readGroups (t s : Text) : Except NumericError Text :=
  match stripGroups false s with
  | some ds => .ok ds
  | none => .error (invalidNumeric t)

def splitSign (t : Text) : Bool × Text :=
  match stripPrefix '-' t with
  | some r => (true, r)
  | none => (false, (stripPrefix '+' t).getD t)

/-- The mantissa, and what is behind an `e`. -/
def splitMantissa (body : Text) : Text × Option Text :=
  match splitOnce isE body with
  | some (m, e) => (m, some e)
  | none => (body, none)

def readExp (t : Text) : Option Text → Except NumericError ℤ
  | none => .ok 0
  | some e => readExponent t e

def readLiteral (t : Text) : Except NumericError Literal := do
  let signed := splitSign t
  let parts := splitMantissa signed.2
  let exp ← readExp t parts.2
  let raw := (splitOnce isPoint parts.1).getD (parts.1, [])
  let int ← readGroups t raw.1
  let frac ← readGroups t raw.2
  if int.isEmpty && frac.isEmpty then .error (invalidNumeric t) else .ok ⟨signed.1, int, frac, exp⟩

/-- The plain text of a literal, where the format has room for it. -/
def layOut (l : Literal) : Except NumericError Text :=
  if MAX_INT_DIGITS + MAX_SCALE < l.exp.natAbs then .error numericOverflow
  else
    let (int, frac) := shiftPoint '0' l.int l.frac l.exp
    let int := int.dropWhile (· = '0')
    if MAX_INT_DIGITS < int.length ∨ MAX_SCALE < frac.length then .error numericOverflow
    else
      let zero := int.isEmpty && frac.all (· = '0')
      let sign := if l.neg && !zero then ['-'] else []
      let int := if int.isEmpty then ['0'] else int
      .ok (if frac.isEmpty then sign ++ int else sign ++ int ++ '.' :: frac)

def canonicalNumericText (input : Text) : Except NumericError Text :=
  let t := trim input
  match specialNumeric t with
  | some c => .ok c.text
  | none => do
    let l ← readLiteral t
    layOut l

/-! ## Exact decimals -/

structure Dec where
  unscaled : ℤ
  scale : ℕ
  deriving DecidableEq

namespace Dec

/-- `Dec::parse`. -/
def parse (text : Text) : Option Dec := do
  let canonical ← (canonicalNumericText text).toOption
  let p ← splitCanonical canonical
  let digits ← ((if p.int.isEmpty then ['0'] else p.int) ++ p.frac).mapM toDigit
  let unscaled : ℤ := Digits.value 10 digits
  return ⟨if p.neg then -unscaled else unscaled, p.frac.length⟩

/-- `Dec::render`. -/
def render (d : Dec) : Text :=
  if d.scale = 0 then intText d.unscaled
  else
    let digits := digitText (decimalDigits d.unscaled.natAbs)
    let padded :=
      if digits.length ≤ d.scale then List.replicate (d.scale - digits.length + 1) '0' ++ digits else digits
    let split := padded.length - d.scale
    (if d.unscaled < 0 then ['-'] else []) ++ padded.take split ++ '.' :: padded.drop split

/-- The number a decimal stands for. -/
def value (d : Dec) : ℚ := d.unscaled / 10 ^ d.scale

/-- The format has room for the decimal. -/
def Fits (d : Dec) : Prop := d.unscaled.natAbs < 10 ^ (MAX_INT_DIGITS + d.scale) ∧ d.scale ≤ MAX_SCALE

instance (d : Dec) : Decidable d.Fits := inferInstanceAs (Decidable (_ ∧ _))

/-- The digits of a decimal, with one at least before the point. -/
def digits (d : Dec) : List ℕ := padDigits (d.scale + 1) d.unscaled.natAbs

def layout (d : Dec) : Layout :=
  ⟨d.digits.take (d.digits.length - d.scale), d.digits.drop (d.digits.length - d.scale), none⟩

end Dec

/-! ## The number a literal writes -/

/-- The digits among the characters of a text. -/
def digitsOf (t : Text) : List ℕ := t.filterMap toDigit

namespace Literal

/-- The decimal it writes. -/
def dec (l : Literal) : Dec :=
  let parts := shiftPoint 0 (digitsOf l.int) (digitsOf l.frac) l.exp
  let n : ℤ := Digits.value 10 (parts.1 ++ parts.2)
  ⟨if l.neg then -n else n, parts.2.length⟩

def value (l : Literal) : ℚ :=
  Decimal128.signed l.neg (mag 10 (digitsOf (l.int ++ l.frac)) (l.exp - l.frac.length))

/-- The display scale: the digits behind the point, once the exponent has moved it. -/
def scale (l : Literal) : ℕ := (l.frac.length - l.exp).toNat

end Literal

/-- The quantity an input writes, and its display scale. -/
def reading (input : Text) : Option (Quantity × ℕ) :=
  match specialNumeric (trim input) with
  | some c => some (c.quantity, 0)
  | none => (readLiteral (trim input)).toOption.map fun l => (.fin l.value, l.scale)

/-! ## Digits -/

theorem filterMap_toDigit {ds : List ℕ} (h : ∀ d ∈ ds, d < 10) : digitsOf (digitText ds) = ds := by
  unfold digitsOf digitText
  rw [List.filterMap_map]
  refine (List.filterMap_congr fun d hd => toDigit_digitChar (h d hd)).trans (List.filterMap_some)

theorem length_digitText (ds : List ℕ) : (digitText ds).length = ds.length := List.length_map _

theorem isDigit_toDigit {c : Char} (h : c.isDigit = true) : ∃ d, d < 10 ∧ c = Nat.digitChar d := by
  have hd : toDigit c = some (c.toNat - 48) := if_pos h
  exact ⟨_, toDigit_eq_some hd⟩

theorem stripGroups_eq_some {s t : Text} : ∀ {b : Bool}, stripGroups b s = some t →
    ∃ ds, (∀ d ∈ ds, d < 10) ∧ t = digitText ds := by
  induction s generalizing t with
  | nil =>
    intro b h
    obtain rfl : [] = t := Option.some.inj h
    exact ⟨[], by simp, rfl⟩
  | cons c s ih =>
    intro b h
    unfold stripGroups at h
    split at h
    · next hc =>
      obtain ⟨t', ht', rfl⟩ := Option.map_eq_some_iff.mp h
      obtain ⟨ds, hds, rfl⟩ := ih ht'
      obtain ⟨d, hd, rfl⟩ := isDigit_toDigit hc
      exact ⟨d :: ds, by simpa using ⟨hd, hds⟩, rfl⟩
    · split at h
      · exact ih h
      · cases h

theorem stripGroups_digitText {ds : List ℕ} (h : ∀ d ∈ ds, d < 10) :
    ∀ b, stripGroups b (digitText ds) = some (digitText ds) := by
  induction ds with
  | nil => exact fun b => rfl
  | cons d ds ih =>
    intro b
    have hd := digitChar_isDigit (h d List.mem_cons_self)
    have hrest : stripGroups true (ds.map Nat.digitChar) = some (ds.map Nat.digitChar) :=
      ih (fun x hx => h x (List.mem_cons_of_mem d hx)) true
    show (if (Nat.digitChar d).isDigit = true then _ else _) = _
    rw [if_pos hd, hrest]
    rfl

/-- Zeros in front go, one at least stays. -/
def leadingDigits (ds : List ℕ) : List ℕ :=
  if (ds.dropWhile (· = 0)).isEmpty then [0] else ds.dropWhile (· = 0)

theorem value_dropWhile (ds fs : List ℕ) :
    Digits.value 10 (ds.dropWhile (· = 0) ++ fs) = Digits.value 10 (ds ++ fs) := by
  induction ds with
  | nil => rfl
  | cons d ds ih =>
    by_cases h0 : d = 0
    · rw [List.dropWhile_cons_of_pos (by simp [h0]), ih, List.cons_append, value_cons, h0]
      ring
    · rw [List.dropWhile_cons_of_neg (by simp [h0])]

theorem value_leadingDigits (ds fs : List ℕ) :
    Digits.value 10 (leadingDigits ds ++ fs) = Digits.value 10 (ds ++ fs) := by
  rw [← value_dropWhile ds fs]
  unfold leadingDigits
  split
  · next hnil =>
    rw [List.isEmpty_iff.mp hnil, List.singleton_append, List.nil_append, value_cons, zero_mul, zero_add]
  · rfl

theorem leadingDigits_spec (ds : List ℕ) :
    leadingDigits ds = [0] ∨ leadingDigits ds ≠ [] ∧ ∀ d ∈ (leadingDigits ds).head?, d ≠ 0 := by
  unfold leadingDigits
  split
  · exact .inl rfl
  · next hne =>
    refine .inr ⟨fun h => hne (by rw [h]; rfl), fun d hd => ?_⟩
    have h := List.head?_dropWhile_not (fun x : ℕ => decide (x = 0)) ds
    rw [Option.mem_def.mp hd] at h
    simpa using h

theorem leadingDigits_lt {ds : List ℕ} (h : ∀ d ∈ ds, d < 10) : ∀ d ∈ leadingDigits ds, d < 10 := by
  intro d hd
  unfold leadingDigits at hd
  split at hd
  · rw [List.mem_singleton.mp hd]
    decide
  · exact h d ((List.dropWhile_sublist _).mem hd)

theorem leadingDigits_length (ds : List ℕ) : (leadingDigits ds).length = max 1 (ds.dropWhile (· = 0)).length := by
  unfold leadingDigits
  cases ds.dropWhile (· = 0) with
  | nil => rfl
  | cons d ds => exact (max_eq_right (Nat.succ_pos ds.length)).symm

theorem digitText_leadingDigits (ds : List ℕ) :
    (if (ds.dropWhile (· = 0)).isEmpty then ['0'] else digitText (ds.dropWhile (· = 0))) =
      digitText (leadingDigits ds) := by
  unfold leadingDigits
  cases ds.dropWhile (· = 0) with
  | nil => rfl
  | cons d ds => rfl

theorem length_decimalDigits_le_iff {w n : ℕ} (hw : 0 < w) : (decimalDigits n).length ≤ w ↔ n < 10 ^ w := by
  constructor
  · intro h
    have hlt := value_lt_pow (b := 10) (by decide) (decimalDigits_lt n)
    rw [value_decimalDigits] at hlt
    exact hlt.trans_le (Nat.pow_le_pow_right (by decide) h)
  · exact fun h => length_decimalDigits h hw

theorem pow_le_value_of_head {ds : List ℕ} (hne : ds ≠ []) (h : ∀ d ∈ ds.head?, d ≠ 0) :
    10 ^ (ds.length - 1) ≤ Digits.value 10 ds := by
  obtain ⟨d, ds, rfl⟩ := List.exists_cons_of_ne_nil hne
  have hd : 1 ≤ d := Nat.one_le_iff_ne_zero.mpr (h d rfl)
  rw [value_cons, List.length_cons, Nat.add_sub_cancel]
  calc 10 ^ ds.length ≤ d * 10 ^ ds.length := Nat.le_mul_of_pos_left _ hd
    _ ≤ d * 10 ^ ds.length + Digits.value 10 ds := Nat.le_add_right _ _

theorem head_append {int frac : List ℕ} (hne : int ≠ []) (h : ∀ d ∈ int.head?, d ≠ 0) :
    ∀ d ∈ (int ++ frac).head?, d ≠ 0 := by
  obtain ⟨d, int, rfl⟩ := List.exists_cons_of_ne_nil hne
  exact h

/-- The digits of a number with `frac.length` of them behind the point and no zero in front, or one. -/
theorem padDigits_canonical {int frac : List ℕ} (h : ∀ d ∈ int ++ frac, d < 10)
    (hint : int = [0] ∨ int ≠ [] ∧ ∀ d ∈ int.head?, d ≠ 0) :
    padDigits (frac.length + 1) (Digits.value 10 (int ++ frac)) = int ++ frac := by
  have hne : int ≠ [] := by
    rcases hint with rfl | ⟨hne, -⟩
    · exact List.cons_ne_nil _ _
    · exact hne
  have hpos : 0 < (int ++ frac).length := by
    rw [List.length_append]
    have := List.length_pos_iff.mpr hne
    omega
  have hself := eq_padDigits hpos h rfl
  refine Eq.trans ?_ hself.symm
  rcases hint with rfl | ⟨-, hhead⟩
  · rw [List.length_append, List.length_singleton, Nat.add_comm]
  · -- the digits fill both fields
    have hlow := pow_le_value_of_head (List.append_ne_nil_of_left_ne_nil hne frac) (head_append hne hhead)
    generalize hn : Digits.value 10 (int ++ frac) = n at hlow
    have hlt : n < 10 ^ (decimalDigits n).length := by
      have := value_lt_pow (b := 10) (by decide) (decimalDigits_lt n)
      rwa [value_decimalDigits] at this
    have hlen : (int ++ frac).length - 1 < (decimalDigits n).length :=
      (Nat.pow_lt_pow_iff_right (by decide)).mp (hlow.trans_lt hlt)
    have hfrac : frac.length + 1 ≤ (int ++ frac).length := by
      rw [List.length_append]
      have := List.length_pos_iff.mpr hne
      omega
    unfold padDigits
    rw [Nat.sub_eq_zero_of_le (by omega), Nat.sub_eq_zero_of_le (by omega)]

/-! ## Decimals as texts -/

namespace Dec

theorem digits_spec (d : Dec) : d.scale < d.digits.length ∧ (∀ x ∈ d.digits, x < 10) ∧
    Digits.value 10 d.digits = d.unscaled.natAbs := by
  unfold digits padDigits
  refine ⟨?_, ?_, ?_⟩
  · rw [List.length_append, List.length_replicate]
    omega
  · intro x hx
    rcases List.mem_append.mp hx with hx | hx
    · rw [List.eq_of_mem_replicate hx]
      decide
    · exact decimalDigits_lt _ x hx
  · rw [value_append, value_decimalDigits]
    simp [Digits.value, Nat.ofDigits_replicate_zero]

theorem layout_append (d : Dec) : d.layout.int ++ d.layout.frac = d.digits := List.take_append_drop _ _

theorem layout_frac_length (d : Dec) : d.layout.frac.length = d.scale := by
  have := d.digits_spec.1
  unfold layout
  rw [List.length_drop]
  omega

theorem layout_int_length (d : Dec) : d.layout.int.length = d.digits.length - d.scale := by
  unfold layout
  rw [List.length_take]
  omega

theorem layout_wf (d : Dec) : d.layout.Wf where
  int_ne := by
    have hlen := d.layout_int_length
    have hpos := d.digits_spec.1
    intro hnil
    rw [hnil, List.length_nil] at hlen
    omega
  int_lt := fun x hx => d.digits_spec.2.1 x (List.mem_of_mem_take hx)
  frac_lt := fun x hx => d.digits_spec.2.1 x (List.mem_of_mem_drop hx)
  exp_range := by simp [layout]

theorem render_eq (d : Dec) : d.render = signedText (decide (d.unscaled < 0)) d.layout := by
  have htext : d.layout.text = d.layout.mantissa := by
    unfold Layout.text Layout.expText layout
    exact List.append_nil _
  unfold signedText
  simp only [htext, decide_eq_true_eq]
  unfold render
  split
  · next h0 =>
    have hdigits : d.digits = decimalDigits d.unscaled.natAbs := by
      have hpos := List.length_pos_iff.mpr (decimalDigits_ne_nil d.unscaled.natAbs)
      unfold digits padDigits
      rw [h0, Nat.sub_eq_zero_of_le (by omega)]
      rfl
    have hmantissa : d.layout.mantissa = digitText (decimalDigits d.unscaled.natAbs) := by
      unfold Layout.mantissa layout
      rw [hdigits, h0, Nat.sub_zero, List.take_length, List.drop_length, if_pos rfl, List.append_nil]
    rw [hmantissa]
    unfold intText
    split
    · rfl
    · rfl
  · next h0 =>
    have hpadded : (if (digitText (decimalDigits d.unscaled.natAbs)).length ≤ d.scale then
        List.replicate (d.scale - (digitText (decimalDigits d.unscaled.natAbs)).length + 1) '0' ++
          digitText (decimalDigits d.unscaled.natAbs)
        else digitText (decimalDigits d.unscaled.natAbs)) = digitText d.digits := by
      rw [length_digitText]
      unfold digits padDigits digitText
      rw [List.map_append, List.map_replicate]
      split
      · congr 2
        omega
      · rw [Nat.sub_eq_zero_of_le (by omega)]
        rfl
    have hfrac : d.layout.frac ≠ [] := by
      intro hnil
      have := d.layout_frac_length
      rw [hnil, List.length_nil] at this
      omega
    dsimp only
    rw [hpadded, length_digitText]
    unfold Layout.mantissa
    rw [if_neg hfrac, List.append_assoc]
    unfold layout digitText
    rw [List.map_take, List.map_drop]

/-- The format has room for the decimal where it has room for its digits. -/
theorem fits_iff (d : Dec) : d.Fits ↔ d.layout.int.length ≤ MAX_INT_DIGITS ∧ d.scale ≤ MAX_SCALE := by
  have hroom : 1 ≤ MAX_INT_DIGITS := by decide
  have hlen : d.digits.length = max (d.scale + 1) (decimalDigits d.unscaled.natAbs).length := by
    unfold digits padDigits
    rw [List.length_append, List.length_replicate]
    omega
  unfold Fits
  rw [layout_int_length, hlen, ← length_decimalDigits_le_iff (by omega)]
  refine and_congr_left fun _ => ?_
  omega

/-- The literal a decimal's text is read as. -/
def literal (d : Dec) : Literal := ⟨decide (d.unscaled < 0), digitText d.layout.int, digitText d.layout.frac, 0⟩

theorem dec_literal (d : Dec) : d.literal.dec = d := by
  have hwf := d.layout_wf
  have hint : digitsOf (digitText d.layout.int) = d.layout.int := filterMap_toDigit hwf.int_lt
  have hfrac : digitsOf (digitText d.layout.frac) = d.layout.frac := filterMap_toDigit hwf.frac_lt
  have hpoint : shiftPoint 0 d.layout.int d.layout.frac 0 = (d.layout.int, d.layout.frac) := by
    have hpos := List.length_pos_iff.mpr hwf.int_ne
    rw [shiftPoint_of_pos (by omega), List.length_append, Nat.sub_eq_zero_of_le (by omega)]
    simp
  unfold Literal.dec literal
  simp only [hint, hfrac, hpoint, d.layout_append, d.digits_spec.2.2, d.layout_frac_length, decide_eq_true_eq]
  have hsign : (if d.unscaled < 0 then -(d.unscaled.natAbs : ℤ) else d.unscaled.natAbs) = d.unscaled := by
    split
    · omega
    · omega
  rw [hsign]

theorem trim_render (d : Dec) : trim d.render = d.render := by
  have hws : decimalChars.all (fun c => !isWhiteSpace c) = true := by decide
  apply trim_eq_self
  intro c hc
  rw [render_eq] at hc
  simpa using List.all_eq_true.mp hws c (d.layout_wf.signedText_chars _ c hc)

theorem specialNumeric_render (d : Dec) : specialNumeric d.render = none := by
  have hlow : decimalChars.all (fun c => c.toLower != 'n') = true := by decide
  have hn : ∀ u : Text, 'n' ∈ u → d.render.map Char.toLower ≠ u := by
    rintro u hu rfl
    obtain ⟨c, hc, hcn⟩ := List.mem_map.mp hu
    rw [render_eq] at hc
    have h := List.all_eq_true.mp hlow c (d.layout_wf.signedText_chars _ c hc)
    simp [hcn] at h
  unfold specialNumeric
  dsimp only
  rw [if_neg, if_neg, if_neg]
  · rintro (h | h) <;> exact hn _ (by decide) h
  · rintro (h | h | h | h) <;> exact hn _ (by decide) h
  · rintro (h | h | h) <;> exact hn _ (by decide) h

theorem readLiteral_render (d : Dec) : readLiteral d.render = .ok d.literal := by
  have hwf := d.layout_wf
  have htext : d.layout.text = d.layout.mantissa := by
    unfold Layout.text Layout.expText layout
    exact List.append_nil _
  have hsign : splitSign d.render = (decide (d.unscaled < 0), d.layout.mantissa) := by
    unfold splitSign
    rw [render_eq, stripPrefix_signedText hwf, htext]
    cases decide (d.unscaled < 0) with
    | true => rfl
    | false =>
      have hplus : stripPrefix '+' d.layout.mantissa = none := by
        rw [← htext]
        exact stripPrefix_text hwf (by decide)
      show (false, (stripPrefix '+' d.layout.text).getD d.layout.text) = _
      rw [htext, hplus, Option.getD_none]
  have hmantissa : splitMantissa d.layout.mantissa = (d.layout.mantissa, none) := by
    unfold splitMantissa
    rw [splitOnce_eq_none fun c hc => ?_]
    rcases hwf.mantissa_chars c hc with hd | rfl
    · exact isE_of_isDigit hd
    · decide
  have hgroups : ∀ {ds : List ℕ}, (∀ x ∈ ds, x < 10) → readGroups d.render (digitText ds) = .ok (digitText ds) := by
    intro ds hds
    unfold readGroups
    rw [stripGroups_digitText hds]
  have hne : (digitText d.layout.int).isEmpty = false := by
    obtain ⟨x, xs, hx⟩ := List.exists_cons_of_ne_nil hwf.int_ne
    rw [hx]
    rfl
  unfold readLiteral
  simp only [hsign, hmantissa, hwf.splitOnce_mantissa, readExp, hgroups hwf.int_lt, hgroups hwf.frac_lt, bind,
    Except.bind, hne, Bool.false_and, Bool.false_eq_true, if_false]
  rfl

end Dec

/-! ## What a literal is laid out as -/

theorem readGroups_eq_ok {t s r : Text} (h : readGroups t s = .ok r) :
    ∃ ds, (∀ d ∈ ds, d < 10) ∧ r = digitText ds := by
  unfold readGroups at h
  split at h
  · next ds hds =>
    obtain rfl := Except.ok.inj h
    exact stripGroups_eq_some hds
  · cases h

/-- Its parts are digits. -/
structure Literal.Wf (l : Literal) : Prop where
  int_eq : l.int = digitText (digitsOf l.int)
  frac_eq : l.frac = digitText (digitsOf l.frac)

theorem digitsOf_lt (t : Text) : ∀ d ∈ digitsOf t, d < 10 := by
  intro d hd
  obtain ⟨c, -, hc⟩ := List.mem_filterMap.mp hd
  exact (toDigit_eq_some hc).1

theorem readLiteral_wf {t : Text} {l : Literal} (h : readLiteral t = .ok l) : l.Wf := by
  unfold readLiteral at h
  obtain ⟨exp, -, h⟩ := Outcome.bind_eq_ok.mp h
  obtain ⟨int, hint, h⟩ := Outcome.bind_eq_ok.mp h
  obtain ⟨frac, hfrac, h⟩ := Outcome.bind_eq_ok.mp h
  obtain ⟨is, his, rfl⟩ := readGroups_eq_ok hint
  obtain ⟨fs, hfs, rfl⟩ := readGroups_eq_ok hfrac
  split at h
  · cases h
  · obtain rfl := Except.ok.inj h
    exact ⟨by rw [filterMap_toDigit his], by rw [filterMap_toDigit hfs]⟩

namespace Literal

/-- The digits on both sides of the moved point. -/
def shifted (l : Literal) : List ℕ × List ℕ := shiftPoint 0 (digitsOf l.int) (digitsOf l.frac) l.exp

theorem shifted_lt (l : Literal) : ∀ d ∈ l.shifted.1 ++ l.shifted.2, d < 10 := by
  intro d hd
  rcases mem_shiftPoint (List.mem_append.mp hd) with rfl | hd
  · decide
  · rcases List.mem_append.mp hd with hd | hd
    · exact digitsOf_lt _ d hd
    · exact digitsOf_lt _ d hd

variable {l : Literal}

theorem dec_value (h : l.Wf) : l.dec.value = l.value := by
  have hfrac : (l.frac.length : ℤ) = (digitsOf l.frac).length := by
    conv_lhs => rw [h.frac_eq, length_digitText]
  have hdigits : digitsOf (l.int ++ l.frac) = digitsOf l.int ++ digitsOf l.frac := List.filterMap_append
  have hmag := mag_shiftPoint (digitsOf l.int) (digitsOf l.frac) l.exp
  unfold value
  rw [hdigits, hfrac, ← hmag]
  unfold Dec.value dec Decimal128.signed mag
  dsimp only
  rw [zpow_neg, zpow_natCast, ← div_eq_mul_inv]
  cases l.neg with
  | true =>
    rw [if_pos rfl, if_pos rfl, ← neg_div]
    push_cast
    rfl
  | false => rfl

theorem dec_scale (h : l.Wf) : l.dec.scale = l.scale := by
  have hfrac : (l.frac.length : ℤ) = (digitsOf l.frac).length := by
    conv_lhs => rw [h.frac_eq, length_digitText]
  unfold scale
  rw [hfrac]
  exact length_shiftPoint.2.2

theorem dec_layout (l : Literal) : l.dec.layout = ⟨leadingDigits l.shifted.1, l.shifted.2, none⟩ := by
  have hscale : l.dec.scale = l.shifted.2.length := rfl
  have habs : l.dec.unscaled.natAbs = Digits.value 10 (leadingDigits l.shifted.1 ++ l.shifted.2) := by
    rw [value_leadingDigits]
    unfold dec shifted
    dsimp only
    split
    · rw [Int.natAbs_neg, Int.natAbs_natCast]
    · rw [Int.natAbs_natCast]
  have hlt : ∀ d ∈ leadingDigits l.shifted.1 ++ l.shifted.2, d < 10 := by
    intro d hd
    rcases List.mem_append.mp hd with hd | hd
    · exact leadingDigits_lt (fun x hx => l.shifted_lt x (List.mem_append_left _ hx)) d hd
    · exact l.shifted_lt d (List.mem_append_right _ hd)
  have hdigits : l.dec.digits = leadingDigits l.shifted.1 ++ l.shifted.2 := by
    unfold Dec.digits
    rw [hscale, habs, padDigits_canonical hlt (leadingDigits_spec _)]
  unfold Dec.layout
  rw [hdigits, hscale, List.length_append, Nat.add_sub_cancel, List.take_left, List.drop_left]

theorem dec_eq_zero_iff (l : Literal) : l.dec.unscaled = 0 ↔
    ((l.shifted.1.dropWhile (· = 0)).isEmpty && l.shifted.2.all (· = 0)) = true := by
  have hunscaled : l.dec.unscaled = 0 ↔ Digits.value 10 (l.shifted.1 ++ l.shifted.2) = 0 := by
    unfold dec shifted
    dsimp only
    split
    · rw [neg_eq_zero, Int.natCast_eq_zero]
    · exact Int.natCast_eq_zero
  rw [hunscaled, ← value_dropWhile, value_eq_zero_iff (by decide), Bool.and_eq_true, List.isEmpty_iff,
    List.all_eq_true]
  constructor
  · intro h
    refine ⟨?_, fun d hd => decide_eq_true (h d (List.mem_append_right _ hd))⟩
    cases hdrop : l.shifted.1.dropWhile (· = 0) with
    | nil => rfl
    | cons d ds =>
      -- the first digit left is not a zero
      have hhead := List.head?_dropWhile_not (fun x : ℕ => decide (x = 0)) l.shifted.1
      rw [hdrop] at hhead
      have hd := h d (List.mem_append_left _ (by rw [hdrop]; exact List.mem_cons_self))
      simp [hd] at hhead
  · rintro ⟨hnil, hall⟩ d hd
    rw [hnil, List.nil_append] at hd
    exact of_decide_eq_true (hall d hd)

theorem dec_neg_iff (l : Literal) : l.dec.unscaled < 0 ↔ l.neg = true ∧ l.dec.unscaled ≠ 0 := by
  have hdec : l.dec.unscaled = if l.neg then -(Digits.value 10 (l.shifted.1 ++ l.shifted.2) : ℤ)
    else Digits.value 10 (l.shifted.1 ++ l.shifted.2) := rfl
  rw [hdec]
  cases l.neg with
  | true =>
    simp only [if_true, true_and]
    omega
  | false =>
    simp only [Bool.false_eq_true, if_false, false_and, iff_false]
    omega

theorem dec_fits_iff (l : Literal) : l.dec.Fits ↔
    ¬(MAX_INT_DIGITS < (l.shifted.1.dropWhile (· = 0)).length ∨ MAX_SCALE < l.shifted.2.length) := by
  have hroom : 1 ≤ MAX_INT_DIGITS := by decide
  have hscale : l.dec.scale = l.shifted.2.length := rfl
  rw [Dec.fits_iff, dec_layout, hscale, leadingDigits_length]
  omega

/-- A literal whose exponent has room is laid out as its decimal. -/
theorem layOut_eq (h : l.Wf) (hexp : ¬MAX_INT_DIGITS + MAX_SCALE < l.exp.natAbs) :
    layOut l = if l.dec.Fits then .ok l.dec.render else .error numericOverflow := by
  have hshift : shiftPoint '0' l.int l.frac l.exp = (digitText l.shifted.1, digitText l.shifted.2) := by
    conv_lhs => rw [h.int_eq, h.frac_eq]
    exact @map_shiftPoint _ _ 0 _ _ _ Nat.digitChar
  have hdrop := dropWhile_digitText fun d hd => l.shifted_lt d (List.mem_append_left _ hd)
  have hall := all_digitText fun d hd => l.shifted_lt d (List.mem_append_right _ hd)
  unfold layOut
  rw [if_neg hexp, hshift]
  dsimp only
  rw [hdrop, length_digitText, length_digitText, hall, isEmpty_digitText, isEmpty_digitText]
  by_cases hfits : l.dec.Fits
  · rw [if_pos hfits, if_neg (l.dec_fits_iff.mp hfits), Dec.render_eq, dec_layout]
    have hsign : (l.neg && !((l.shifted.1.dropWhile (· = 0)).isEmpty && l.shifted.2.all (· = 0))) =
        decide (l.dec.unscaled < 0) := by
      rw [Bool.eq_iff_iff, decide_eq_true_iff, dec_neg_iff, Bool.and_eq_true, Bool.not_eq_true', ← Bool.not_eq_true,
        ← dec_eq_zero_iff]
    rw [hsign, digitText_leadingDigits]
    unfold signedText Layout.text Layout.mantissa Layout.expText
    cases l.shifted.2 with
    | nil => simp [digitText]
    | cons d ds => simp [digitText]
  · rw [if_neg hfits, if_pos (not_not.mp (mt l.dec_fits_iff.mpr hfits))]

end Literal

/-! ## Canonical texts -/

theorem canonicalNumericText_literal {t : Text} {l : Literal} (hs : specialNumeric (trim t) = none)
    (hl : readLiteral (trim t) = .ok l) (hexp : ¬MAX_INT_DIGITS + MAX_SCALE < l.exp.natAbs) :
    canonicalNumericText t = if l.dec.Fits then .ok l.dec.render else .error numericOverflow := by
  unfold canonicalNumericText
  dsimp only
  rw [hs]
  dsimp only
  rw [hl]
  exact Literal.layOut_eq (readLiteral_wf hl) hexp

namespace Dec

/-- A decimal's text is canonical where the format has room for it. -/
theorem canonicalNumericText_render (d : Dec) :
    canonicalNumericText d.render = if d.Fits then .ok d.render else .error numericOverflow := by
  have htext := canonicalNumericText_literal (t := d.render) (l := d.literal)
    (by rw [d.trim_render, d.specialNumeric_render]) (by rw [d.trim_render, d.readLiteral_render]) (by simp [literal])
  rwa [d.dec_literal] at htext

theorem reading_render (d : Dec) : reading d.render = some (.fin d.value, d.scale) := by
  have hwf := readLiteral_wf d.readLiteral_render
  unfold reading
  rw [d.trim_render, d.specialNumeric_render]
  dsimp only
  rw [d.readLiteral_render]
  show some (Quantity.fin d.literal.value, d.literal.scale) = _
  rw [← Literal.dec_value hwf, ← Literal.dec_scale hwf, d.dec_literal]

end Dec

theorem specialNumeric_eq_some {t : Text} {c : Canonical} (h : specialNumeric t = some c) :
    c = .nan ∨ ∃ neg, c = .inf neg := by
  unfold specialNumeric at h
  dsimp only at h
  split at h
  · exact .inl (Option.some.inj h).symm
  · split at h
    · exact .inr ⟨_, (Option.some.inj h).symm⟩
    · split at h
      · exact .inr ⟨_, (Option.some.inj h).symm⟩
      · cases h

theorem special_text {c : Canonical} (h : c = .nan ∨ ∃ neg, c = .inf neg) :
    canonicalNumericText c.text = .ok c.text ∧ reading c.text = some (c.quantity, 0) := by
  rcases h with rfl | ⟨neg, rfl⟩
  · exact ⟨rfl, rfl⟩
  · cases neg with
    | true => exact ⟨rfl, rfl⟩
    | false => exact ⟨rfl, rfl⟩

/-- An accepted input is a NaN, an infinity, or writes a decimal the format has room for. -/
theorem canonicalNumericText_eq_ok {t c : Text} (h : canonicalNumericText t = .ok c) :
    (∃ s : Canonical, (s = .nan ∨ ∃ neg, s = .inf neg) ∧ c = s.text ∧ reading t = some (s.quantity, 0)) ∨
      ∃ d : Dec, d.Fits ∧ c = d.render ∧ reading t = some (.fin d.value, d.scale) := by
  unfold canonicalNumericText at h
  unfold reading
  dsimp only at h
  cases hs : specialNumeric (trim t) with
  | some s =>
    rw [hs] at h
    exact .inl ⟨s, specialNumeric_eq_some hs, (Except.ok.inj h).symm, rfl⟩
  | none =>
    rw [hs] at h
    obtain ⟨l, hl, h⟩ := Outcome.bind_eq_ok.mp h
    have hwf := readLiteral_wf hl
    have hexp : ¬MAX_INT_DIGITS + MAX_SCALE < l.exp.natAbs := by
      intro hexp
      unfold layOut at h
      rw [if_pos hexp] at h
      cases h
    rw [Literal.layOut_eq hwf hexp] at h
    split at h
    · next hfits =>
      refine .inr ⟨l.dec, hfits, (Except.ok.inj h).symm, ?_⟩
      dsimp only
      rw [hl, Literal.dec_value hwf, Literal.dec_scale hwf]
      rfl
    · cases h

/-- Canonical texts are their own, and keep value and display scale. -/
theorem canonicalNumericText_canonical {t c : Text} (h : canonicalNumericText t = .ok c) :
    canonicalNumericText c = .ok c ∧ (reading t).isSome ∧ reading c = reading t := by
  rcases canonicalNumericText_eq_ok h with ⟨s, hs, rfl, hreading⟩ | ⟨d, hfits, rfl, hreading⟩
  · rw [hreading]
    exact ⟨(special_text hs).1, rfl, (special_text hs).2⟩
  · rw [hreading, d.canonicalNumericText_render, if_pos hfits, d.reading_render]
    exact ⟨rfl, rfl, rfl⟩

/-! ## Reading a decimal back -/

namespace Dec

/-- A decimal the format has room for, as a plain number. -/
def plain (d : Dec) (h : d.Fits) : Plain where
  neg := decide (d.unscaled < 0)
  int := d.layout.int
  frac := d.layout.frac
  int_ne := d.layout_wf.int_ne
  int_lt := d.layout_wf.int_lt
  frac_lt := d.layout_wf.frac_lt
  int_len := lt_of_le_of_lt (d.fits_iff.mp h).1 (by decide)
  frac_len := d.layout_frac_length.trans_le ((d.fits_iff.mp h).2.trans (by decide))

theorem plain_text (d : Dec) (h : d.Fits) : (d.plain h).text = d.render := d.render_eq.symm

theorem splitCanonical_render {d : Dec} (h : d.Fits) : splitCanonical d.render =
    some ⟨decide (d.unscaled < 0), digitText (d.layout.int.dropWhile (· = 0)), digitText d.layout.frac⟩ := by
  have hsplit := splitCanonical_text (d.plain h)
  rwa [d.plain_text h] at hsplit

theorem parse_eq_some_of_ok {t : Text} {d : Dec} (h : canonicalNumericText t = .ok d.render) (hfits : d.Fits) :
    parse t = some d := by
  have hwf := d.layout_wf
  have hdigits : ((if (digitText (d.layout.int.dropWhile (· = 0))).isEmpty then ['0'] else
      digitText (d.layout.int.dropWhile (· = 0))) ++ digitText d.layout.frac).mapM toDigit =
      some (leadingDigits d.layout.int ++ d.layout.frac) := by
    rw [isEmpty_digitText, digitText_leadingDigits, show digitText (leadingDigits d.layout.int) ++ digitText d.layout.frac =
      digitText (leadingDigits d.layout.int ++ d.layout.frac) from (List.map_append).symm]
    refine mapM_toDigit fun x hx => ?_
    rcases List.mem_append.mp hx with hx | hx
    · exact leadingDigits_lt hwf.int_lt x hx
    · exact hwf.frac_lt x hx
  have hvalue : Digits.value 10 (leadingDigits d.layout.int ++ d.layout.frac) = d.unscaled.natAbs := by
    rw [value_leadingDigits, d.layout_append, d.digits_spec.2.2]
  have hsign : (if d.unscaled < 0 then -(d.unscaled.natAbs : ℤ) else d.unscaled.natAbs) = d.unscaled := by
    split
    · omega
    · omega
  unfold parse
  rw [h]
  simp only [Except.toOption, Option.bind_eq_bind, Option.bind_some, splitCanonical_render hfits, hdigits, hvalue,
    length_digitText, d.layout_frac_length, decide_eq_true_eq, hsign, Option.pure_def]

/-- What `Dec::parse` gives is the decimal the canonical text writes. -/
theorem parse_eq_some_iff {t : Text} {d : Dec} :
    parse t = some d ↔ canonicalNumericText t = .ok d.render ∧ d.Fits := by
  refine ⟨fun h => ?_, fun h => parse_eq_some_of_ok h.1 h.2⟩
  cases hc : canonicalNumericText t with
  | error e =>
    unfold parse at h
    rw [hc] at h
    cases h
  | ok c =>
    rcases canonicalNumericText_eq_ok hc with ⟨s, hs, rfl, -⟩ | ⟨d', hfits, rfl, -⟩
    · have hnone : splitCanonical s.text = none := by
        rcases hs with rfl | ⟨neg, rfl⟩
        · rfl
        · cases neg with
          | true => rfl
          | false => rfl
      unfold parse at h
      rw [hc] at h
      simp only [Except.toOption, Option.bind_eq_bind, Option.bind_some, hnone] at h
      cases h
    · obtain rfl := Option.some.inj ((parse_eq_some_of_ok hc hfits).symm.trans h)
      exact ⟨rfl, hfits⟩

end Dec

end Secantus.PgNumeric
