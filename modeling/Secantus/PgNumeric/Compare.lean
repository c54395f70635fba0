/-
  Comparison of numerics by their texts (`compare_decimal_text`): specials by rank, then signs, then
  integer digits by length and letters, then the fractions padded to one length.

  * `compareMagnitude_mag`: digits compare so as the numbers they write;
  * `compareDecimalText_canonical`: on canonical texts it is the order of PostgreSQL;
  * `sortKey_order`: and the order of the sort keys, which are equal for equal numbers only.
-/
import Secantus.PgNumeric.SortKey

namespace Secantus.PgNumeric

open Secantus Digits ByteOrder

/-- `char::is_whitespace`: Unicode's `White_Space`. -/
def isWhiteSpace (c : Char) : Bool :=
  let n := c.toNat
  (9 ≤ n && n ≤ 13) || n = 0x20 || n = 0x85 || n = 0xA0 || n = 0x1680 || (0x2000 ≤ n && n ≤ 0x200A) ||
    n = 0x2028 || n = 0x2029 || n = 0x202F || n = 0x205F || n = 0x3000

/-- `str::trim`. -/
def trim (t : Text) : Text := (t.dropWhile isWhiteSpace).rdropWhile isWhiteSpace

/-- `rank`: the place of a text that is no number, NaN highest. -/
def specialRank (t : Text) : Option ℤ :=
  let u := (trim t).map Char.toLower
  if u = "nan".toList then some 2
  else if u = "infinity".toList ∨ u = "inf".toList ∨ u = "+infinity".toList ∨ u = "+inf".toList then some 1
  else if u = "-infinity".toList ∨ u = "-inf".toList then some (-1)
  else none

/-- `split`: sign, integer digits without leading zeros, fraction without trailing ones. -/
def splitDecimal (t : Text) : Option (Bool × Text × Text) :=
  let t := trim t
  let (neg, body) := match stripPrefix '-' t with
    | some r => (true, r)
    | none => (false, (stripPrefix '+' t).getD t)
  if body.isEmpty || !body.all (fun c => c.isDigit || c = '.') then none
  else
    let (i, f) := (splitOnce isPoint body).getD (body, [])
    some (neg, i.dropWhile (· = '0'), f.rdropWhile (· = '0'))

/-- The magnitudes of two numbers by their digits. -/
def compareMagnitude {α : Type} [Ord α] (zero : α) (ai af bi bf : List α) : Ordering :=
  let n := max af.length bf.length
  let pad (f : List α) := f ++ List.replicate (n - f.length) zero
  (compare ai.length bi.length).then ((compare ai bi).then (compare (pad af) (pad bf)))

def compareDecimalText (a b : Text) : Option Ordering :=
  match specialRank a, specialRank b with
  | some x, some y => some (compare x y)
  | some x, none => some (if 0 < x then .gt else .lt)
  | none, some y => some (if 0 < y then .lt else .gt)
  | none, none => do
    let (an, ai, af) ← splitDecimal a
    let (bn, bi, bf) ← splitDecimal b
    let aZero := ai.isEmpty && af.isEmpty
    let bZero := bi.isEmpty && bf.isEmpty
    -- negative zero is zero
    let an := an && !aZero
    let bn := bn && !bZero
    if an ≠ bn then some (if an then .lt else .gt)
    else
      let magnitude := compareMagnitude '0' ai af bi bf
      some (if an then magnitude.swap else magnitude)

/-! ## Digits -/

theorem compare_mag_same (xs ys : List ℕ) (x : ℤ) :
    compare (mag 10 xs x) (mag 10 ys x) = compare (Digits.value 10 xs) (Digits.value 10 ys) := by
  have hpow : (0 : ℚ) < (10 : ℕ) ^ x := zpow_pos (by norm_num) x
  unfold mag
  rcases lt_trichotomy (Digits.value 10 xs) (Digits.value 10 ys) with h | h | h
  · rw [compare_lt_iff_lt.mpr h, compare_lt_iff_lt]
    exact mul_lt_mul_of_pos_right (by exact_mod_cast h) hpow
  · rw [h, compare_eq_iff_eq.mpr rfl, compare_eq_iff_eq.mpr rfl]
  · rw [compare_gt_iff_gt.mpr h, compare_gt_iff_gt]
    exact mul_lt_mul_of_pos_right (by exact_mod_cast h) hpow

/-- Of two strings with fractions of one length the one with more integer digits is larger, when those
    start with no zero. -/
theorem value_lt_of_longer {i f j g : List ℕ} (hi : ∀ d ∈ i ++ f, d < 10) (hj : ∀ d ∈ j.head?, d ≠ 0)
    (hlen : i.length < j.length) (hfrac : f.length = g.length) :
    Digits.value 10 (i ++ f) < Digits.value 10 (j ++ g) := by
  obtain ⟨d, js, rfl⟩ := List.exists_cons_of_length_pos (Nat.zero_lt_of_lt hlen)
  have hd : 1 ≤ d := Nat.one_le_iff_ne_zero.mpr (hj d rfl)
  rw [List.length_cons] at hlen
  calc Digits.value 10 (i ++ f) < 10 ^ (i ++ f).length := value_lt_pow (by decide) hi
    _ ≤ 10 ^ (js ++ g).length := by
      refine Nat.pow_le_pow_right (by decide) ?_
      rw [List.length_append, List.length_append]
      omega
    _ ≤ d * 10 ^ (js ++ g).length := Nat.le_mul_of_pos_left _ hd
    _ ≤ Digits.value 10 (d :: js ++ g) := by
      rw [List.cons_append, value_cons]
      exact Nat.le_add_right _ _

/-- The comparison of digits is that of the numbers they write. -/
theorem compareMagnitude_mag {i f j g : List ℕ} (hi : ∀ d ∈ i ++ f, d < 10) (hj : ∀ d ∈ j ++ g, d < 10)
    (hi0 : ∀ d ∈ i.head?, d ≠ 0) (hj0 : ∀ d ∈ j.head?, d ≠ 0) :
    compareMagnitude 0 i f j g =
      compare (mag 10 (i ++ f) (-f.length)) (mag 10 (j ++ g) (-g.length)) := by
  set n := max f.length g.length with hn
  have hpad : ∀ {k h : List ℕ}, h.length ≤ n → mag 10 (k ++ h) (-h.length) =
      mag 10 (k ++ (h ++ List.replicate (n - h.length) 0)) (-n) := by
    intro k h hle
    rw [← List.append_assoc, mag_append_replicate]
    congr 1
    omega
  have hdigit : ∀ {k h : List ℕ}, (∀ d ∈ k ++ h, d < 10) →
      ∀ d ∈ k ++ (h ++ List.replicate (n - h.length) 0), d < 10 := by
    intro k h hkh d hd
    rw [← List.append_assoc] at hd
    rcases List.mem_append.mp hd with hd | hd
    · exact hkh d hd
    · rw [List.eq_of_mem_replicate hd]
      decide
  have hflen : (f ++ List.replicate (n - f.length) 0).length = n := by
    rw [List.length_append, List.length_replicate]
    omega
  have hglen : (g ++ List.replicate (n - g.length) 0).length = n := by
    rw [List.length_append, List.length_replicate]
    omega
  rw [hpad (by omega), hpad (by omega), compare_mag_same]
  unfold compareMagnitude
  rw [← hn]
  dsimp only
  have hi' := hdigit hi
  have hj' := hdigit hj
  generalize f ++ List.replicate (n - f.length) 0 = f' at hflen hi' ⊢
  generalize g ++ List.replicate (n - g.length) 0 = g' at hglen hj' ⊢
  rcases lt_trichotomy i.length j.length with h | h | h
  · rw [compare_lt_iff_lt.mpr h, Ordering.lt_then, eq_comm, compare_lt_iff_lt]
    exact value_lt_of_longer hi' hj0 h (hflen.trans hglen.symm)
  · have hsame : (i ++ f').length = (j ++ g').length := by
      rw [List.length_append, List.length_append, h, hflen, hglen]
    rw [compare_eq_iff_eq.mpr h, Ordering.eq_then, ← settled_of_length_eq h f' g',
      compare_of_length_eq (by decide) hi' hj' hsame]
  · rw [compare_gt_iff_gt.mpr h, Ordering.gt_then, eq_comm, compare_gt_iff_gt]
    exact value_lt_of_longer hj' hi0 h (hglen.trans hflen.symm)

theorem compare_digitText {xs ys : List ℕ} (hx : ∀ d ∈ xs, d < 10) (hy : ∀ d ∈ ys, d < 10) :
    compare (digitText xs) (digitText ys) = compare xs ys := by
  have hchar : ∀ a < 10, ∀ b < 10, compare (Nat.digitChar a) (Nat.digitChar b) = compare a b := by
    decide
  exact compare_map fun a ha b hb => hchar a (hx a ha) b (hy b hb)

theorem compareMagnitude_digitText {i f j g : List ℕ} (hi : ∀ d ∈ i ++ f, d < 10)
    (hj : ∀ d ∈ j ++ g, d < 10) :
    compareMagnitude '0' (digitText i) (digitText f) (digitText j) (digitText g) =
      compareMagnitude 0 i f j g := by
  have hpad : ∀ (h : List ℕ) (k : ℕ),
      digitText h ++ List.replicate k '0' = digitText (h ++ List.replicate k 0) := by
    intro h k
    unfold digitText
    rw [List.map_append, List.map_replicate]
    rfl
  have hlt : ∀ {k h : List ℕ} (m : ℕ), (∀ d ∈ k ++ h, d < 10) → ∀ d ∈ h ++ List.replicate m 0, d < 10 := by
    intro k h m hkh d hd
    rcases List.mem_append.mp hd with hd | hd
    · exact hkh d (List.mem_append_right _ hd)
    · rw [List.eq_of_mem_replicate hd]
      decide
  have hlen : ∀ h : List ℕ, (digitText h).length = h.length := fun h => List.length_map _
  unfold compareMagnitude
  dsimp only
  rw [hlen, hlen, hlen, hlen, hpad, hpad, compare_digitText (fun d hd => hi d (List.mem_append_left _ hd))
    (fun d hd => hj d (List.mem_append_left _ hd)), compare_digitText (hlt _ hi) (hlt _ hj)]

/-! ## Canonical texts -/

theorem trim_eq_self {t : Text} (h : ∀ c ∈ t, isWhiteSpace c = false) : trim t = t := by
  have hdrop : t.dropWhile isWhiteSpace = t := by
    cases t with
    | nil => rfl
    | cons c t => rw [List.dropWhile_cons_of_neg (by simp [h c List.mem_cons_self])]
  unfold trim
  rw [hdrop, List.rdropWhile_eq_self_iff]
  intro hne
  simp [h _ (List.getLast_mem hne)]

namespace Plain

theorem trim_text (p : Plain) : trim p.text = p.text := by
  have hws : decimalChars.all (fun c => !isWhiteSpace c) = true := by decide
  apply trim_eq_self
  intro c hc
  simpa using List.all_eq_true.mp hws c (p.layout_wf.signedText_chars p.neg c hc)

theorem specialRank_text (p : Plain) : specialRank p.text = none := by
  have hlow : decimalChars.all (fun c => c.toLower != 'n') = true := by decide
  have hn : ∀ u : Text, 'n' ∈ u → p.text.map Char.toLower ≠ u := by
    rintro u hu rfl
    obtain ⟨c, hc, hcn⟩ := List.mem_map.mp hu
    have h := List.all_eq_true.mp hlow c (p.layout_wf.signedText_chars p.neg c hc)
    simp [hcn] at h
  unfold specialRank
  dsimp only
  rw [p.trim_text, if_neg (hn _ (by decide)), if_neg, if_neg]
  · rintro (h | h)
    · exact hn _ (by decide) h
    · exact hn _ (by decide) h
  · rintro (h | h | h | h)
    · exact hn _ (by decide) h
    · exact hn _ (by decide) h
    · exact hn _ (by decide) h
    · exact hn _ (by decide) h

/-- The digits `split` gives. -/
def intDigits (p : Plain) : List ℕ := p.int.dropWhile (· = 0)

def fracDigits (p : Plain) : List ℕ := p.frac.rdropWhile (· = 0)

theorem splitDecimal_text (p : Plain) :
    splitDecimal p.text = some (p.neg, digitText p.intDigits, digitText p.fracDigits) := by
  have hwf := p.layout_wf
  have hplus : stripPrefix '+' p.layout.text = none := stripPrefix_text hwf (by decide)
  have hstrip : (match stripPrefix '-' p.text with
      | some r => (true, r)
      | none => (false, (stripPrefix '+' p.text).getD p.text)) = (p.neg, p.layout.text) := by
    unfold text
    rw [stripPrefix_signedText hwf]
    cases p.neg with
    | true => rfl
    | false =>
      have hsigned : signedText false p.layout = p.layout.text := rfl
      rw [if_neg (by decide), hsigned, hplus]
      rfl
  have hempty : p.layout.text.isEmpty = false := by
    obtain ⟨d, ds, hd⟩ := List.exists_cons_of_ne_nil p.int_ne
    rw [layout_text]
    simp [Layout.mantissa, layout, hd, digitText]
  have hchars : p.layout.text.all (fun c => c.isDigit || c = '.') = true := by
    rw [layout_text, List.all_eq_true]
    intro c hc
    rcases hwf.mantissa_chars c hc with hd | rfl
    · simp [hd]
    · decide
  unfold splitDecimal
  dsimp only
  rw [p.trim_text, hstrip]
  dsimp only
  rw [hempty, hchars, Bool.not_true, Bool.or_self, if_neg (by decide), layout_text,
    hwf.splitOnce_mantissa]
  show some (p.neg, (digitText p.int).dropWhile (· = '0'), (digitText p.frac).rdropWhile (· = '0')) = _
  rw [dropWhile_digitText p.int_lt, rdropWhile_digitText p.frac_lt]
  rfl

theorem digits_lt (p : Plain) : ∀ d ∈ p.intDigits ++ p.fracDigits, d < 10 := by
  intro d hd
  rcases List.mem_append.mp hd with hd | hd
  · exact p.int_lt d ((List.dropWhile_sublist _).mem hd)
  · exact p.frac_lt d ((List.rdropWhile_prefix _ _).subset hd)

theorem intDigits_head (p : Plain) : ∀ d ∈ p.intDigits.head?, d ≠ 0 := by
  intro d hd
  have h := List.head?_dropWhile_not (fun x : ℕ => decide (x = 0)) p.int
  unfold intDigits at hd
  rw [Option.mem_def.mp hd] at h
  simpa using h

theorem mag_digits (p : Plain) :
    mag 10 (p.intDigits ++ p.fracDigits) (-p.fracDigits.length) = p.layout.mag := by
  have hint : p.int = List.replicate (p.int.takeWhile (· = 0)).length 0 ++ p.intDigits := by
    have hzeros : p.int.takeWhile (· = 0) = List.replicate (p.int.takeWhile (· = 0)).length 0 :=
      List.eq_replicate_iff.mpr ⟨rfl, fun d hd => by simpa using List.mem_takeWhile_imp hd⟩
    rw [← hzeros]
    exact (List.takeWhile_append_dropWhile).symm
  have hfrac : p.frac = p.fracDigits ++ List.replicate (p.frac.rtakeWhile (· = 0)).length 0 := by
    have hzeros : p.frac.rtakeWhile (· = 0) = List.replicate (p.frac.rtakeWhile (· = 0)).length 0 :=
      List.eq_replicate_iff.mpr ⟨rfl, fun d hd => by simpa using List.mem_rtakeWhile_imp hd⟩
    rw [← hzeros]
    exact (List.rdropWhile_append_rtakeWhile).symm
  have hlen := congrArg List.length hfrac
  rw [List.length_append, List.length_replicate] at hlen
  unfold Layout.mag layout
  dsimp only
  rw [Option.getD_none, zero_sub]
  generalize (p.int.takeWhile (· = 0)).length = m at hint
  generalize (p.frac.rtakeWhile (· = 0)).length = k at hfrac hlen
  rw [hlen, hfrac, hint]
  rw [List.append_assoc, mag_replicate_append, ← List.append_assoc, mag_append_replicate]
  congr 1
  push_cast
  ring

end Plain

/-! ## The order -/

theorem mag_nonneg (ds : List ℕ) (x : ℤ) : 0 ≤ mag 10 ds x :=
  mul_nonneg (Nat.cast_nonneg _) (zpow_pos (by norm_num) x).le

namespace Plain

theorem digits_eq_nil_iff (p : Plain) :
    (p.intDigits.isEmpty && p.fracDigits.isEmpty) = true ↔ p.layout.mag = 0 := by
  rw [← p.mag_digits, Bool.and_eq_true, List.isEmpty_iff, List.isEmpty_iff]
  constructor
  · rintro ⟨hi, hf⟩
    rw [hi, hf]
    simp [mag]
  · intro hzero
    have hvalue : Digits.value 10 (p.intDigits ++ p.fracDigits) = 0 := by
      have hpow : ((10 : ℕ) : ℚ) ^ (-(p.fracDigits.length : ℤ)) ≠ 0 := zpow_ne_zero _ (by norm_num)
      unfold mag at hzero
      exact_mod_cast (mul_eq_zero.mp hzero).resolve_right hpow
    have htrim := (trim_eq_nil_iff (by decide) p.digits_lt 0).mpr hvalue
    unfold Digits.trim at htrim
    rw [dropTrailing_eq_rdropWhile, List.rdropWhile_eq_nil_iff] at htrim
    have hall : ∀ d ∈ p.intDigits ++ p.fracDigits, d = 0 := by
      intro d hd
      rw [← List.takeWhile_append_dropWhile (p := fun d => decide (d = 0))
        (l := p.intDigits ++ p.fracDigits)] at hd
      rcases List.mem_append.mp hd with hd | hd
      · simpa using List.mem_takeWhile_imp hd
      · simpa using htrim d hd
    constructor
    · cases hi : p.intDigits with
      | nil => rfl
      | cons d ds =>
        have hd := p.intDigits_head d (by rw [hi]; rfl)
        exact absurd (hall d (by rw [hi]; simp)) hd
    · by_contra hne
      have hlast := List.rdropWhile_last_not (fun x : ℕ => decide (x = 0)) p.frac hne
      have hd := hall _ (List.mem_append_right p.intDigits (List.getLast_mem hne))
      simp only [fracDigits] at hd
      simp [hd] at hlast

theorem compareDecimalText_text (p q : Plain) :
    compareDecimalText p.text q.text = some (compare p.value q.value) := by
  have hmag := compareMagnitude_mag p.digits_lt q.digits_lt p.intDigits_head q.intDigits_head
  have hp0 := p.digits_eq_nil_iff
  have hq0 := q.digits_eq_nil_iff
  have hpos : 0 ≤ p.layout.mag := mag_nonneg _ _
  have hqos : 0 ≤ q.layout.mag := mag_nonneg _ _
  rw [p.mag_digits, q.mag_digits] at hmag
  unfold compareDecimalText
  rw [p.specialRank_text, q.specialRank_text, p.splitDecimal_text, q.splitDecimal_text]
  simp only [Option.bind_eq_bind, Option.bind_some, isEmpty_digitText,
    compareMagnitude_digitText p.digits_lt q.digits_lt, hmag]
  unfold value
  generalize p.layout.mag = x at hp0 hpos ⊢
  generalize q.layout.mag = y at hq0 hqos ⊢
  have hsign : ∀ {zero : Bool} {x : ℚ}, (zero = true ↔ x = 0) → 0 ≤ x → ∀ neg : Bool,
      (neg && !zero) = true ∧ Decimal128.signed neg x = -x ∧ 0 < x ∨
        (neg && !zero) = false ∧ Decimal128.signed neg x = x := by
    intro zero x hzero hx neg
    unfold Decimal128.signed
    cases neg with
    | false => exact Or.inr ⟨rfl, rfl⟩
    | true =>
      cases zero with
      | true =>
        have hx0 : x = 0 := hzero.mp rfl
        exact Or.inr ⟨rfl, by rw [hx0]; exact neg_zero⟩
      | false =>
        have hx0 : x ≠ 0 := fun h => Bool.false_ne_true (hzero.mpr h)
        exact Or.inl ⟨rfl, rfl, lt_of_le_of_ne hx (Ne.symm hx0)⟩
  rcases hsign hp0 hpos p.neg with ⟨hpn, hpv, hx⟩ | ⟨hpn, hpv⟩ <;>
    rcases hsign hq0 hqos q.neg with ⟨hqn, hqv, hy⟩ | ⟨hqn, hqv⟩
  · rw [hpn, hqn, hpv, hqv, if_neg (by decide), if_pos rfl, Numeric.compare_neg]
  · rw [hpn, hqn, hpv, hqv, if_pos (by decide), if_pos rfl, compare_lt_iff_lt.mpr (by linarith)]
  · rw [hpn, hqn, hpv, hqv, if_pos (by decide), if_neg (by decide), compare_gt_iff_gt.mpr (by linarith)]
  · rw [hpn, hqn, hpv, hqv, if_neg (by decide), if_neg (by decide)]

end Plain

/-- On canonical texts the comparison is the order of PostgreSQL. -/
theorem compareDecimalText_canonical (a b : Canonical) :
    compareDecimalText a.text b.text = some (pgCmp a.quantity b.quantity) := by
  have hrank : ∀ c : Canonical, (∃ p, c = .plain p) ∨
      ∃ r, specialRank c.text = some r ∧ (c = .nan ∧ r = 2 ∨ c = .inf false ∧ r = 1 ∨ c = .inf true ∧ r = -1) := by
    intro c
    cases c with
    | plain p => exact Or.inl ⟨p, rfl⟩
    | nan => exact Or.inr ⟨2, by decide, Or.inl ⟨rfl, rfl⟩⟩
    | inf neg =>
      cases neg with
      | false => exact Or.inr ⟨1, by decide, Or.inr (Or.inl ⟨rfl, rfl⟩)⟩
      | true => exact Or.inr ⟨-1, by decide, Or.inr (Or.inr ⟨rfl, rfl⟩)⟩
  rcases hrank a with ⟨p, rfl⟩ | ⟨r, hr, ha⟩ <;> rcases hrank b with ⟨q, rfl⟩ | ⟨s, hs, hb⟩
  · exact p.compareDecimalText_text q
  · have hp : specialRank (Canonical.plain p).text = none := p.specialRank_text
    unfold compareDecimalText
    rw [hp, hs]
    rcases hb with ⟨rfl, rfl⟩ | ⟨rfl, rfl⟩ | ⟨rfl, rfl⟩ <;> rfl
  · have hq : specialRank (Canonical.plain q).text = none := q.specialRank_text
    unfold compareDecimalText
    rw [hr, hq]
    rcases ha with ⟨rfl, rfl⟩ | ⟨rfl, rfl⟩ | ⟨rfl, rfl⟩ <;> rfl
  · unfold compareDecimalText
    rw [hr, hs]
    rcases ha with ⟨rfl, rfl⟩ | ⟨rfl, rfl⟩ | ⟨rfl, rfl⟩ <;>
      rcases hb with ⟨rfl, rfl⟩ | ⟨rfl, rfl⟩ | ⟨rfl, rfl⟩ <;> rfl

theorem pgCmp_eq_iff (x y : Quantity) : pgCmp x y = .eq ↔ x = y := by
  constructor
  · intro h
    cases x <;> cases y <;> first | rfl | cases h | exact congrArg Quantity.fin (compare_eq_iff_eq.mp h)
  · rintro rfl
    exact pgCmp_self x

theorem keyBytes_inj {s t : Text} : keyBytes s = keyBytes t ↔ numericSortKey s = numericSortKey t := by
  constructor
  · intro h
    have hchars := congrArg String.toList (Library.bytesOf_injective h)
    rwa [String.toList_ofList, String.toList_ofList] at hchars
  · intro h
    unfold keyBytes
    rw [h]

/-- Sort keys are in the order of the numbers, which is also that of `compare_decimal_text`, and equal for
    equal numbers only. -/
theorem sortKey_order (a b : Canonical) :
    compare (keyBytes a.text) (keyBytes b.text) = pgCmp a.quantity b.quantity ∧
      compareDecimalText a.text b.text = some (compare (keyBytes a.text) (keyBytes b.text)) ∧
      (numericSortKey a.text = numericSortKey b.text ↔ a.quantity = b.quantity) := by
  have hkey := compare_sortKey a b
  refine ⟨hkey, ?_, ?_⟩
  · rw [hkey]
    exact compareDecimalText_canonical a b
  · rw [← keyBytes_inj, ← pgCmp_eq_iff, ← hkey]
    exact Std.compare_eq_iff_eq.symm

end Secantus.PgNumeric
