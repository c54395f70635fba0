/-
  The sort key of a `numeric` (`numeric.rs`): a string whose bytes are in numeric order.

  A class byte, then for a number other than zero the exponent in seven digits and the significant digits;
  for a negative one both are nines-complemented and a `~` closes them.

  * `numericSortKey_plain`: the key of a plain text, by its trimmed digits;
  * `compare_sortKey`: two keys compare byte by byte as PostgreSQL compares the numbers.
-/
import Secantus.PgNumeric.Text

namespace Secantus.PgNumeric

open Secantus Digits ByteOrder

/-- The order of PostgreSQL: a NaN equals itself and is above every other number. -/
def pgCmp : Quantity → Quantity → Ordering
  | .nan, .nan => .eq
  | .nan, _ => .gt
  | _, .nan => .lt
  | x, y => x.cmp y

/-- `{n:0w}`. -/
def zeroPadded (w : ℕ) (n : ℤ) : Text :=
  let digits := digitText (decimalDigits n.natAbs)
  if n < 0 then '-' :: List.replicate (w - 1 - digits.length) '0' ++ digits
  else List.replicate (w - digits.length) '0' ++ digits

/-- The exponent of `0.d₁d₂…` and the significant digits of a number's parts. -/
def significantDigits (p : Parts) : ℤ × Text :=
  let all := p.int ++ p.frac
  let leadingZeros := (all.takeWhile (· = '0')).length
  (p.int.length - leadingZeros, (all.drop leadingZeros).rdropWhile (· = '0'))

/-- Nines-complements a text of digits. -/
def complement (s : Text) : Text := s.map fun c => Char.ofNat (48 + (9 - (c.toNat - 48)))

def numericSortKey (canonical : Text) : Text :=
  if canonical = ['N', 'a', 'N'] then ['5']
  else if canonical = ['I', 'n', 'f', 'i', 'n', 'i', 't', 'y'] then ['4']
  else if canonical = ['-', 'I', 'n', 'f', 'i', 'n', 'i', 't', 'y'] then ['0']
  else
    match splitCanonical canonical with
    | none => ['5']
    | some p =>
      if isZeroDigits p then ['2']
      else
        let (exponent, significant) := significantDigits p
        let expField := zeroPadded 7 (exponent + 1000000)
        if p.neg then '1' :: complement expField ++ complement significant ++ ['~']
        else '3' :: expField ++ significant

/-! ## The digits of a plain text -/

namespace Plain

/-- The significant digits and the exponent of the last one. -/
def significant (p : Plain) : List ℕ × ℤ := trim (p.int ++ p.frac) (-p.frac.length)

/-- The exponent of `0.d₁d₂…`. -/
def exponent (p : Plain) : ℤ := p.significant.2 + p.significant.1.length

theorem digit_lt (p : Plain) : ∀ d ∈ p.int ++ p.frac, d < 10 := p.layout_wf.digit

theorem significant_trimmed (p : Plain) : Trimmed 10 p.significant.1 := trim_trimmed p.digit_lt _

theorem value_eq (p : Plain) :
    p.value = Decimal128.signed p.neg (mag 10 p.significant.1 p.significant.2) := by
  unfold value significant
  rw [mag_trim (by decide)]
  unfold Layout.mag layout
  rw [Option.getD_none, zero_sub]

theorem exponent_eq (p : Plain) :
    p.exponent = ((p.int ++ p.frac).dropWhile (· = 0)).length - p.frac.length := by
  have h := length_trim (b := 10) (by decide) (p.int ++ p.frac) (-p.frac.length)
  unfold exponent significant
  omega

theorem exponent_range (p : Plain) (h : p.significant.1 ≠ []) :
    -1000000 < p.exponent ∧ p.exponent < 9000000 := by
  have hint := p.int_len
  have hfrac := p.frac_len
  have hle := (List.dropWhile_suffix (l := p.int ++ p.frac) (fun d : ℕ => decide (d = 0))).length_le
  have hpos : 0 < ((p.int ++ p.frac).dropWhile (· = 0)).length := by
    rw [List.length_pos_iff]
    intro hnil
    apply h
    unfold significant trim
    rw [hnil]
    rfl
  rw [List.length_append] at hle
  rw [exponent_eq]
  omega

end Plain

theorem all_digitText {ds : List ℕ} (h : ∀ d ∈ ds, d < 10) :
    (digitText ds).all (· = '0') = ds.all (· = 0) := by
  unfold digitText
  rw [List.all_map, Bool.eq_iff_iff, List.all_eq_true, List.all_eq_true]
  refine forall₂_congr fun d hd => ?_
  have := h d hd
  interval_cases d <;> decide

theorem rdropWhile_digitText {ds : List ℕ} (h : ∀ d ∈ ds, d < 10) :
    (digitText ds).rdropWhile (· = '0') = digitText (ds.rdropWhile (· = 0)) := by
  have hrev := @dropWhile_digitText ds.reverse fun d hd => h d (List.mem_reverse.mp hd)
  unfold List.rdropWhile
  unfold digitText at hrev ⊢
  rw [← List.map_reverse, hrev, List.map_reverse]

/-- The parts of a plain text, as `numeric_sort_key` and `decimal128_bracket` read them. -/
theorem significantDigits_plain (p : Plain) :
    significantDigits ⟨p.neg, digitText (p.int.dropWhile (· = 0)), digitText p.frac⟩ =
      (p.exponent, digitText p.significant.1) := by
  set int' := p.int.dropWhile (· = 0) with hint'
  have hlt : ∀ d ∈ int' ++ p.frac, d < 10 := by
    intro d hd
    rcases List.mem_append.mp hd with hd | hd
    · exact p.int_lt d ((List.dropWhile_sublist _).mem hd)
    · exact p.frac_lt d hd
  have hall : digitText int' ++ digitText p.frac = digitText (int' ++ p.frac) := (List.map_append).symm
  have hdrop : (int' ++ p.frac).dropWhile (· = 0) = (p.int ++ p.frac).dropWhile (· = 0) := by
    rw [List.dropWhile_append, List.dropWhile_append, hint', List.dropWhile_idempotent]
  have htake := List.takeWhile_append_dropWhile (p := fun c => decide (c = '0')) (l := digitText (int' ++ p.frac))
  have hdropText := dropWhile_digitText hlt
  have hlen := congrArg List.length htake
  have hdropped : (digitText (int' ++ p.frac)).drop
      ((digitText (int' ++ p.frac)).takeWhile (· = '0')).length = digitText ((p.int ++ p.frac).dropWhile (· = 0)) := by
    rw [← hdrop, ← hdropText]
    have hleft := @List.drop_left _ ((digitText (int' ++ p.frac)).takeWhile (· = '0'))
      ((digitText (int' ++ p.frac)).dropWhile (· = '0'))
    rwa [htake] at hleft
  have hdlt : ∀ d ∈ (p.int ++ p.frac).dropWhile (· = 0), d < 10 := fun d hd =>
    p.digit_lt d ((List.dropWhile_sublist _).mem hd)
  unfold significantDigits
  simp only [hall, hdropped, rdropWhile_digitText hdlt]
  rw [Prod.mk.injEq]
  constructor
  · rw [p.exponent_eq, ← hdrop]
    rw [hdropText] at hlen
    simp only [List.length_append, digitText, List.length_map] at hlen ⊢
    omega
  · unfold Plain.significant trim
    rw [dropTrailing_eq_rdropWhile]

theorem isZeroDigits_plain (p : Plain) :
    isZeroDigits ⟨p.neg, digitText (p.int.dropWhile (· = 0)), digitText p.frac⟩ =
      decide (p.significant.1 = []) := by
  unfold isZeroDigits
  rw [all_digitText p.frac_lt]
  unfold digitText Plain.significant trim
  rw [dropTrailing_eq_rdropWhile, Bool.eq_iff_iff, decide_eq_true_iff, List.rdropWhile_eq_nil_iff]
  have hdrop : ∀ l : List ℕ, (∀ d ∈ l.dropWhile (· = 0), decide (d = 0) = true) ↔ ∀ d ∈ l, d = 0 := by
    intro l
    constructor
    · intro h d hd
      rw [← List.takeWhile_append_dropWhile (p := fun d => decide (d = 0)) (l := l)] at hd
      rcases List.mem_append.mp hd with hd | hd
      · simpa using List.mem_takeWhile_imp hd
      · simpa using h d hd
    · intro h d hd
      simpa using h d ((List.dropWhile_sublist _).mem hd)
  rw [hdrop]
  simp [List.dropWhile_eq_nil_iff, or_imp, forall_and]

/-! ## The bytes of a key -/

/-- The digits of `{n:07}`. -/
def padDigits (w n : ℕ) : List ℕ := List.replicate (w - (decimalDigits n).length) 0 ++ decimalDigits n

theorem length_decimalDigits {w n : ℕ} (h : n < 10 ^ w) (hw : 0 < w) : (decimalDigits n).length ≤ w := by
  unfold decimalDigits
  split
  · exact hw
  · rw [List.length_reverse]
    exact (Nat.digits_length_le_iff (by decide) n).mpr h

theorem padDigits_spec {w n : ℕ} (h : n < 10 ^ w) (hw : 0 < w) :
    (padDigits w n).length = w ∧ (∀ d ∈ padDigits w n, d < 10) ∧ Digits.value 10 (padDigits w n) = n := by
  have hlen := length_decimalDigits h hw
  refine ⟨?_, ?_, ?_⟩
  · unfold padDigits
    rw [List.length_append, List.length_replicate]
    omega
  · intro d hd
    rcases List.mem_append.mp hd with hd | hd
    · rw [List.eq_of_mem_replicate hd]
      decide
    · exact decimalDigits_lt n d hd
  · unfold padDigits
    rw [value_append, value_decimalDigits]
    simp [Digits.value, Nat.ofDigits_replicate_zero]

theorem eq_padDigits {w : ℕ} {ds : List ℕ} (hw : 0 < w) (h : ∀ d ∈ ds, d < 10) (hlen : ds.length = w) :
    ds = padDigits w (value 10 ds) := by
  have hlt : value 10 ds < 10 ^ w := hlen ▸ value_lt_pow (by decide) h
  obtain ⟨hplen, hpdigit, hpvalue⟩ := padDigits_spec hlt hw
  have hcmp := compare_of_length_eq (by decide : 0 < 10) h hpdigit (hlen.trans hplen.symm)
  rw [hpvalue, compare_eq_iff_eq.mpr rfl] at hcmp
  exact Std.LawfulEqCmp.eq_of_compare hcmp

theorem zeroPadded_natCast (w n : ℕ) : zeroPadded w n = digitText (padDigits w n) := by
  unfold zeroPadded padDigits digitText
  rw [if_neg (by omega)]
  simp

/-- The byte of a digit, and of its complement. -/
def digitByte (d : ℕ) : UInt8 := UInt8.ofNat (48 + d)

def complementByte (d : ℕ) : UInt8 := UInt8.ofNat (48 + (9 - d))

theorem complement_digitText {ds : List ℕ} (h : ∀ d ∈ ds, d < 10) :
    complement (digitText ds) = ds.map fun d => Nat.digitChar (9 - d) := by
  unfold complement digitText
  rw [List.map_map]
  refine List.map_congr_left fun d hd => ?_
  have := h d hd
  interval_cases d <;> decide

theorem digitChar_toNat {d : ℕ} (h : d < 10) : (Nat.digitChar d).toNat = 48 + d := by
  interval_cases d <;> decide

theorem compare_digitByte {a b : ℕ} (ha : a < 10) (hb : b < 10) :
    compare (digitByte a) (digitByte b) = compare a b := by
  unfold digitByte
  rw [compare_ofNat (by omega) (by omega)]
  rcases lt_trichotomy a b with h | h | h
  · rw [compare_lt_iff_lt.mpr h, compare_lt_iff_lt.mpr (by omega)]
  · rw [compare_eq_iff_eq.mpr h, compare_eq_iff_eq.mpr (by omega)]
  · rw [compare_gt_iff_gt.mpr h, compare_gt_iff_gt.mpr (by omega)]

theorem compare_complementByte {a b : ℕ} (ha : a < 10) (hb : b < 10) :
    compare (complementByte a) (complementByte b) = (compare a b).swap := by
  unfold complementByte
  rw [compare_ofNat (by omega) (by omega)]
  rcases lt_trichotomy a b with h | h | h
  · rw [compare_lt_iff_lt.mpr h, compare_gt_iff_gt.mpr (by omega)]
    rfl
  · rw [compare_eq_iff_eq.mpr h, compare_eq_iff_eq.mpr (by omega)]
    rfl
  · rw [compare_gt_iff_gt.mpr h, compare_lt_iff_lt.mpr (by omega)]
    rfl

/-- The bytes of a text's key. -/
def keyBytes (t : Text) : Bytes := utf8 (String.ofList (numericSortKey t))

/-- The exponent field's digits. -/
def Plain.expDigits (p : Plain) : List ℕ := padDigits 7 (p.exponent + 1000000).toNat

theorem bytes_of_digitChars {ds : List ℕ} (h : ∀ d ∈ ds, d < 10) :
    (digitText ds).map (fun c => UInt8.ofNat c.toNat) = ds.map digitByte := by
  unfold digitText
  rw [List.map_map]
  refine List.map_congr_left fun d hd => ?_
  show UInt8.ofNat (Nat.digitChar d).toNat = _
  rw [digitChar_toNat (h d hd)]
  rfl

theorem bytes_of_complement {ds : List ℕ} (h : ∀ d ∈ ds, d < 10) :
    (complement (digitText ds)).map (fun c => UInt8.ofNat c.toNat) = ds.map complementByte := by
  rw [complement_digitText h, List.map_map]
  refine List.map_congr_left fun d hd => ?_
  show UInt8.ofNat (Nat.digitChar (9 - d)).toNat = _
  rw [digitChar_toNat (by omega)]
  rfl

theorem text_ne_letters (p : Plain) {c : Char} (hc : c ∉ decimalChars) {t : Text} (ht : c ∈ t) : p.text ≠ t := by
  rintro rfl
  exact hc (p.layout_wf.signedText_chars p.neg c ht)

/-- The key of a plain text. -/
theorem numericSortKey_plain (p : Plain) : numericSortKey p.text =
    if p.significant.1 = [] then ['2']
    else if p.neg then
      '1' :: complement (digitText p.expDigits) ++ complement (digitText p.significant.1) ++ ['~']
    else '3' :: digitText p.expDigits ++ digitText p.significant.1 := by
  have hN : 'N' ∉ decimalChars := by decide
  have hI : 'I' ∉ decimalChars := by decide
  unfold numericSortKey
  rw [if_neg (text_ne_letters p hN (by decide)), if_neg (text_ne_letters p hI (by decide)),
    if_neg (text_ne_letters p hI (by decide)), splitCanonical_text]
  simp only [isZeroDigits_plain, significantDigits_plain, decide_eq_true_eq]
  split
  · rfl
  · rename_i hne
    have hrange := p.exponent_range hne
    have hcast : p.exponent + 1000000 = ((p.exponent + 1000000).toNat : ℤ) := by omega
    rw [hcast, zeroPadded_natCast]
    rfl

theorem expDigits_spec (p : Plain) (h : p.significant.1 ≠ []) :
    p.expDigits.length = 7 ∧ (∀ d ∈ p.expDigits, d < 10) ∧
      (Digits.value 10 p.expDigits : ℤ) = p.exponent + 1000000 := by
  have hrange := p.exponent_range h
  have hlt : (p.exponent + 1000000).toNat < 10 ^ 7 := by omega
  obtain ⟨hlen, hdigit, hvalue⟩ := padDigits_spec hlt (by decide)
  refine ⟨hlen, hdigit, ?_⟩
  unfold Plain.expDigits
  omega

theorem keyBytes_plain (p : Plain) : keyBytes p.text =
    if p.significant.1 = [] then [50]
    else if p.neg then 49 :: p.expDigits.map complementByte ++ (p.significant.1.map complementByte ++ [126])
    else 51 :: p.expDigits.map digitByte ++ p.significant.1.map digitByte := by
  have hsig : ∀ d ∈ p.significant.1, d < 10 := p.significant_trimmed.digit
  have hascii : ∀ ds : List ℕ, (∀ d ∈ ds, d < 10) → ∀ c ∈ digitText ds, c.toNat < 128 := by
    intro ds h c hc
    obtain ⟨d, hd, rfl⟩ := List.mem_map.mp hc
    rw [digitChar_toNat (h d hd)]
    have := h d hd
    omega
  have hcompl : ∀ ds : List ℕ, (∀ d ∈ ds, d < 10) → ∀ c ∈ complement (digitText ds), c.toNat < 128 := by
    intro ds h c hc
    rw [complement_digitText h] at hc
    obtain ⟨d, hd, rfl⟩ := List.mem_map.mp hc
    rw [digitChar_toNat (by omega)]
    omega
  unfold keyBytes
  rw [numericSortKey_plain]
  split
  · rfl
  · rename_i hne
    obtain ⟨-, hexp, -⟩ := expDigits_spec p hne
    split
    · refine (Library.bytesOf_ofList_ascii ?_).trans ?_
      · intro c hc
        simp only [List.mem_append, List.mem_cons, List.not_mem_nil, or_false] at hc
        rcases hc with ((rfl | hc) | hc) | rfl
        · decide
        · exact hcompl _ hexp c hc
        · exact hcompl _ hsig c hc
        · decide
      · rw [List.map_append, List.map_append, List.map_cons, bytes_of_complement hexp,
          bytes_of_complement hsig, List.append_assoc]
        rfl
    · refine (Library.bytesOf_ofList_ascii ?_).trans ?_
      · intro c hc
        simp only [List.mem_append, List.mem_cons] at hc
        rcases hc with (rfl | hc) | hc
        · decide
        · exact hascii _ hexp c hc
        · exact hascii _ hsig c hc
      · rw [List.map_append, List.map_cons, bytes_of_digitChars hexp, bytes_of_digitChars hsig]
        rfl

/-! ## The order of keys -/

/-- Two magnitudes compare by their exponent fields, then by their digits. -/
theorem compare_fields {p q : Plain} (hp : p.significant.1 ≠ []) (hq : q.significant.1 ≠ []) :
    (compare p.expDigits q.expDigits).then (compare p.significant.1 q.significant.1) =
      compare (mag 10 p.significant.1 p.significant.2) (mag 10 q.significant.1 q.significant.2) := by
  obtain ⟨hlp, hdp, hvp⟩ := expDigits_spec p hp
  obtain ⟨hlq, hdq, hvq⟩ := expDigits_spec q hq
  rw [← compare_scientific (by decide) p.significant_trimmed q.significant_trimmed hp hq,
    compare_of_length_eq (b := 10) (by decide) hdp hdq (hlp.trans hlq.symm)]
  congr 1
  unfold Plain.exponent at hvp hvq
  generalize Digits.value 10 p.expDigits = v at hvp ⊢
  generalize Digits.value 10 q.expDigits = w at hvq ⊢
  rcases lt_trichotomy v w with h | h | h
  · rw [compare_lt_iff_lt.mpr h, compare_lt_iff_lt.mpr (by omega)]
  · rw [compare_eq_iff_eq.mpr h, compare_eq_iff_eq.mpr (by omega)]
  · rw [compare_gt_iff_gt.mpr h, compare_gt_iff_gt.mpr (by omega)]

theorem compare_positive {p q : Plain} (hp : p.significant.1 ≠ []) (hq : q.significant.1 ≠ []) :
    compare (51 :: p.expDigits.map digitByte ++ p.significant.1.map digitByte)
        (51 :: q.expDigits.map digitByte ++ q.significant.1.map digitByte) =
      compare (mag 10 p.significant.1 p.significant.2) (mag 10 q.significant.1 q.significant.2) := by
  obtain ⟨hlp, hdp, -⟩ := expDigits_spec p hp
  obtain ⟨hlq, hdq, -⟩ := expDigits_spec q hq
  have hfield : Settled (compare (p.expDigits.map digitByte) (q.expDigits.map digitByte))
      (p.expDigits.map digitByte) (q.expDigits.map digitByte) :=
    settled_of_length_eq (by rw [List.length_map, List.length_map, hlp, hlq])
  rw [List.cons_append, List.cons_append, List.compare_cons_cons, hfield,
    compare_map fun a ha b hb => compare_digitByte (hdp a ha) (hdq b hb),
    compare_map fun a ha b hb => compare_digitByte (p.significant_trimmed.digit a ha)
      (q.significant_trimmed.digit b hb), compare_fields hp hq]
  rfl

theorem compare_negative {p q : Plain} (hp : p.significant.1 ≠ []) (hq : q.significant.1 ≠ []) :
    compare (49 :: p.expDigits.map complementByte ++ (p.significant.1.map complementByte ++ [126]))
        (49 :: q.expDigits.map complementByte ++ (q.significant.1.map complementByte ++ [126])) =
      (compare (mag 10 p.significant.1 p.significant.2) (mag 10 q.significant.1 q.significant.2)).swap := by
  obtain ⟨hlp, hdp, -⟩ := expDigits_spec p hp
  obtain ⟨hlq, hdq, -⟩ := expDigits_spec q hq
  have hfield : Settled (compare p.expDigits q.expDigits).swap
      (p.expDigits.map complementByte) (q.expDigits.map complementByte) :=
    (settled_of_length_eq (hlp.trans hlq.symm)).map (fun o => Ordering.swap_eq_eq)
      fun a ha b hb => compare_complementByte (hdp a ha) (hdq b hb)
  have hdigits : compare (p.significant.1.map complementByte ++ [126])
      (q.significant.1.map complementByte ++ [126]) = (compare p.significant.1 q.significant.1).swap := by
    refine compare_map_swap rfl (fun a ha b hb => compare_complementByte (p.significant_trimmed.digit a ha)
      (q.significant_trimmed.digit b hb)) (fun a _ => ?_) fun b _ => ?_
    · exact (compare_ofNat (b := 126) (by omega) (by decide)).trans (compare_lt_iff_lt.mpr (by omega))
    · exact (compare_ofNat (a := 126) (by decide) (by omega)).trans (compare_gt_iff_gt.mpr (by omega))
  rw [List.cons_append, List.cons_append, List.compare_cons_cons, hfield, hdigits, ← Ordering.swap_then,
    compare_fields hp hq]
  rfl

/-- The class of a number, as the first byte of its key counts it. -/
def place : Quantity → ℕ
  | .negInf => 0
  | .fin q => if q < 0 then 1 else if q = 0 then 2 else 3
  | .posInf => 4
  | .nan => 5

theorem place_fin (q : ℚ) : place (.fin q) = 1 ∧ q < 0 ∨ place (.fin q) = 2 ∧ q = 0 ∨ place (.fin q) = 3 ∧ 0 < q := by
  unfold place
  rcases lt_trichotomy q 0 with hq | hq | hq
  · exact .inl ⟨if_pos hq, hq⟩
  · exact .inr (.inl ⟨by simp [hq], hq⟩)
  · exact .inr (.inr ⟨by simp [not_lt.mpr hq.le, hq.ne'], hq⟩)

theorem pgCmp_of_place_ne {x y : Quantity} (h : place x ≠ place y) :
    pgCmp x y = compare (place x) (place y) := by
  have hlt : ∀ {p q : ℚ} {m n : ℕ}, place (.fin p) = m → place (.fin q) = n → m < n → p < q →
      pgCmp (.fin p) (.fin q) = compare (place (.fin p)) (place (.fin q)) ∧
        pgCmp (.fin q) (.fin p) = compare (place (.fin q)) (place (.fin p)) := by
    intro p q m n hp hq hmn hpq
    rw [hp, hq, compare_lt_iff_lt.mpr hmn, compare_gt_iff_gt.mpr hmn]
    exact ⟨compare_lt_iff_lt.mpr hpq, compare_gt_iff_gt.mpr hpq⟩
  cases x with
  | fin p =>
    cases y with
    | fin q =>
      rcases place_fin p with ⟨hp, hp'⟩ | ⟨hp, hp'⟩ | ⟨hp, hp'⟩ <;>
        rcases place_fin q with ⟨hq, hq'⟩ | ⟨hq, hq'⟩ | ⟨hq, hq'⟩
      · exact absurd (hp.trans hq.symm) h
      · exact (hlt hp hq (by decide) (by linarith)).1
      · exact (hlt hp hq (by decide) (by linarith)).1
      · exact (hlt hq hp (by decide) (by linarith)).2
      · exact absurd (hp.trans hq.symm) h
      · exact (hlt hp hq (by decide) (by linarith)).1
      · exact (hlt hq hp (by decide) (by linarith)).2
      · exact (hlt hq hp (by decide) (by linarith)).2
      · exact absurd (hp.trans hq.symm) h
    | nan => rcases place_fin p with ⟨hp, -⟩ | ⟨hp, -⟩ | ⟨hp, -⟩ <;> rw [hp] <;> rfl
    | negInf => rcases place_fin p with ⟨hp, -⟩ | ⟨hp, -⟩ | ⟨hp, -⟩ <;> rw [hp] <;> rfl
    | posInf => rcases place_fin p with ⟨hp, -⟩ | ⟨hp, -⟩ | ⟨hp, -⟩ <;> rw [hp] <;> rfl
  | nan =>
    cases y with
    | fin q => rcases place_fin q with ⟨hq, -⟩ | ⟨hq, -⟩ | ⟨hq, -⟩ <;> rw [hq] <;> rfl
    | nan => exact absurd rfl h
    | negInf => rfl
    | posInf => rfl
  | negInf =>
    cases y with
    | fin q => rcases place_fin q with ⟨hq, -⟩ | ⟨hq, -⟩ | ⟨hq, -⟩ <;> rw [hq] <;> rfl
    | nan => rfl
    | negInf => exact absurd rfl h
    | posInf => rfl
  | posInf =>
    cases y with
    | fin q => rcases place_fin q with ⟨hq, -⟩ | ⟨hq, -⟩ | ⟨hq, -⟩ <;> rw [hq] <;> rfl
    | nan => rfl
    | negInf => rfl
    | posInf => exact absurd rfl h

theorem place_plain (p : Plain) : place (.fin p.value) =
    if p.significant.1 = [] then 2 else if p.neg then 1 else 3 := by
  rw [p.value_eq]
  unfold place Decimal128.signed
  by_cases hnil : p.significant.1 = []
  · have hzero : mag 10 p.significant.1 p.significant.2 = 0 := by
      rw [hnil]
      simp [mag]
    rw [hzero, if_pos hnil, neg_zero, ite_self]
    dsimp only
    rw [if_neg (lt_irrefl _), if_pos rfl]
  · have hpos := mag_pos (by decide) hnil p.significant_trimmed p.significant.2
    rw [if_neg hnil]
    cases p.neg with
    | true => simp [hpos]
    | false => simp [not_lt.mpr hpos.le, hpos.ne']

theorem keyBytes_head (c : Canonical) : ∃ rest, keyBytes c.text = UInt8.ofNat (48 + place c.quantity) :: rest := by
  cases c with
  | nan => exact ⟨[], by decide⟩
  | inf neg => exact ⟨[], by cases neg <;> decide⟩
  | plain p =>
    show ∃ rest, keyBytes p.text = UInt8.ofNat (48 + place (.fin p.value)) :: rest
    rw [keyBytes_plain, place_plain]
    split
    · exact ⟨_, rfl⟩
    · split
      · exact ⟨_, rfl⟩
      · exact ⟨_, rfl⟩

theorem place_le (x : Quantity) : place x ≤ 5 := by
  cases x with
  | fin q => rcases place_fin q with ⟨hq, -⟩ | ⟨hq, -⟩ | ⟨hq, -⟩ <;> rw [hq] <;> decide
  | nan => exact le_rfl
  | negInf => decide
  | posInf => decide

theorem pgCmp_self (x : Quantity) : pgCmp x x = .eq := by
  cases x with
  | fin q => exact compare_eq_iff_eq.mpr rfl
  | nan => rfl
  | negInf => rfl
  | posInf => rfl

theorem compare_plain {p q : Plain} (h : place (.fin p.value) = place (.fin q.value)) :
    compare (keyBytes p.text) (keyBytes q.text) = compare p.value q.value := by
  rw [place_plain, place_plain] at h
  rw [keyBytes_plain, keyBytes_plain, p.value_eq, q.value_eq]
  by_cases hp : p.significant.1 = []
  · by_cases hq : q.significant.1 = []
    · have hzero : ∀ neg x, Decimal128.signed neg (mag 10 [] x) = 0 := by
        intro neg x
        simp [Decimal128.signed, mag]
      rw [if_pos hp, if_pos hq, hp, hq, hzero, hzero, compare_eq_iff_eq.mpr rfl]
      rfl
    · exfalso
      rw [if_pos hp, if_neg hq] at h
      cases hneg : q.neg <;> simp [hneg] at h
  · by_cases hq : q.significant.1 = []
    · exfalso
      rw [if_neg hp, if_pos hq] at h
      cases hneg : p.neg <;> simp [hneg] at h
    · rw [if_neg hp, if_neg hq] at h ⊢
      cases hnp : p.neg with
      | true =>
        cases hnq : q.neg with
        | true =>
          rw [if_pos rfl, if_pos rfl, compare_negative hp hq]
          exact (Numeric.compare_neg _ _).symm
        | false => simp [hnp, hnq] at h
      | false =>
        cases hnq : q.neg with
        | true => simp [hnp, hnq] at h
        | false =>
          rw [if_neg (by decide), if_neg (by decide), compare_positive hp hq]
          rfl

/-- Keys compare byte by byte as PostgreSQL compares the numbers. -/
theorem compare_sortKey (a b : Canonical) :
    compare (keyBytes a.text) (keyBytes b.text) = pgCmp a.quantity b.quantity := by
  by_cases hplace : place a.quantity = place b.quantity
  · have hself : ∀ t, compare (keyBytes t) (keyBytes t) = .eq := fun t => Std.compare_self
    have hfin : ∀ q : ℚ, place (.fin q) ≠ 0 ∧ place (.fin q) ≠ 4 ∧ place (.fin q) ≠ 5 := by
      intro q
      rcases place_fin q with ⟨hq, -⟩ | ⟨hq, -⟩ | ⟨hq, -⟩ <;> rw [hq] <;> decide
    cases a with
    | plain p =>
      cases b with
      | plain q => exact compare_plain hplace
      | nan => exact absurd hplace (hfin _).2.2
      | inf neg =>
        cases neg with
        | true => exact absurd hplace (hfin _).1
        | false => exact absurd hplace (hfin _).2.1
    | nan =>
      cases b with
      | plain q => exact absurd hplace.symm (hfin _).2.2
      | nan => exact hself _
      | inf neg => cases neg <;> cases hplace
    | inf neg =>
      cases b with
      | plain q =>
        cases neg with
        | true => exact absurd hplace.symm (hfin _).1
        | false => exact absurd hplace.symm (hfin _).2.1
      | nan => cases neg <;> cases hplace
      | inf neg' =>
        cases neg <;> cases neg' <;> first | exact hself _ | cases hplace
  · obtain ⟨r, hr⟩ := keyBytes_head a
    obtain ⟨r', hr'⟩ := keyBytes_head b
    have hla := place_le a.quantity
    have hlb := place_le b.quantity
    rw [hr, hr', List.compare_cons_cons, compare_ofNat (by omega) (by omega), pgCmp_of_place_ne hplace]
    rcases Nat.lt_or_gt_of_ne hplace with h | h
    · rw [compare_lt_iff_lt.mpr h, compare_lt_iff_lt.mpr (by omega)]
      rfl
    · rw [compare_gt_iff_gt.mpr h, compare_gt_iff_gt.mpr (by omega)]
      rfl

end Secantus.PgNumeric
