/-
  Number keys are in numeric order.

  `numKey` is the key of a classified number; `encodeNumber_eq` says the encoder writes it
  for every number type. Keys of two numbers are SETTLED at the comparison of their
  quantities (`settled_encodeNumber`): the sign byte separates NaN, the infinities, zero and
  the two signs, and within a sign the biased exponent and the digit pairs are in magnitude
  order, reversed below zero.
-/
import Secantus.SortKey.Encode
import Secantus.Bson.Quantity

namespace Secantus.SortKey

open Secantus Digits ByteOrder

/-- The key of a classified number. -/
def numKey : NumVal → Bytes
  | .nan => [numNan]
  | .inf s => [if 0 < s then numPosInf else numNegInf]
  | .zero => [numZero]
  | .finite s d e => encodeNumberFromParts ⟨s, d, e⟩

/-! ## The encoder classifies as the comparator does -/

theorem partsFromInt_eq (n : ℤ) :
    (match partsFromInt n with
      | none => [numZero]
      | some p => encodeNumberFromParts p) = numKey (Numeric.fromInt n) := by
  unfold partsFromInt Numeric.fromInt
  by_cases h : n = 0
  · simp [h, numKey]
  · simp [h, numKey]

/-- A finite decimal's text parses as the layout it was written from. -/
theorem parseDecimalStr_signedText {l : Layout} (h : l.Wf) (neg : Bool) :
    parseDecimalStr (signedText neg l) =
      (let p := trim (l.int ++ l.frac) (l.exp.getD 0 - l.frac.length)
       if p.1 = [] then none else some ⟨if neg then -1 else 1, p.1, p.2⟩) := by
  unfold parseDecimalStr
  simp only [h.trimText_signedText, h.signRest_signedText, h.splitOnce_text]
  have hdig := mapM_toDigit h.digit
  unfold digitText at hdig
  rw [List.map_append] at hdig
  cases hx : l.exp with
  | none =>
    have hmt : l.text = l.mantissa := by
      simp [Layout.text, Layout.expText, hx]
    simp only [Option.map_none, hmt, h.splitOnce_mantissa, normalize, digitText, hdig,
      List.length_map, Option.getD_none, Option.bind_eq_bind, Option.bind_some]
  | some x =>
    have hpx := parseI64_expText (h.exp_range x hx)
    simp only [Option.map_some, h.splitOnce_mantissa, normalize, digitText, hdig, hpx,
      List.length_map, Option.getD_some, Option.bind_eq_bind, Option.bind_some]

theorem encodeNumber_decimal (d : Decimal128) :
    encodeNumber (.decimal128 d) = numKey (Numeric.fromDecimalStr d.toText) := by
  simp only [encodeNumber]
  generalize hs : d.toText = s
  have hs' : s = d.value.toText := hs.symm
  generalize d.value = v at hs'
  subst hs'
  clear hs
  cases v with
  | nan => decide
  | inf neg => cases neg <;> decide
  | finite neg coeff exp =>
    have hwf := Decimal128.layout_wf coeff coeff.isLt _ (unbias_range exp)
    have htext : (DecimalValue.finite neg coeff exp).toText =
        signedText neg (Decimal128.layout coeff (Decimal128.unbias exp)) := rfl
    simp only [htext, hwf.not_contains neg _ (.inl rfl), hwf.not_contains neg _ (.inr rfl),
      Bool.false_eq_true, if_false, parseDecimalStr_signedText hwf,
      Numeric.fromDecimalStr_signedText hwf]
    split_ifs <;> rfl

/-- The encoder's number key is the key of the number the value is classified as. -/
theorem encodeNumber_eq {v : Bson} {n : NumVal} (h : Numeric.classify v = some n) :
    encodeNumber v = numKey n := by
  cases v <;> simp only [Numeric.classify, Option.some.injEq, reduceCtorEq] at h
  case int32 n =>
    rw [← h, ← partsFromInt_eq]
    rfl
  case int64 n =>
    rw [← h, ← partsFromInt_eq]
    rfl
  case double d =>
    subst h
    unfold encodeNumber Numeric.fromF64
    by_cases h1 : d.isNan
    · simp [h1, numKey]
    · by_cases h2 : d.isInfinite
      · by_cases h3 : d.negative <;> simp [h1, h2, h3, numKey]
      · by_cases h3 : d.scaled = 0 <;> simp [h1, h2, h3, numKey]
  case decimal128 d =>
    rw [← h]
    exact encodeNumber_decimal d

/-! ## Digit pairs -/

theorem digitPairs_range {ds : List ℕ} (h : ∀ d ∈ ds, d < 10) :
    ∀ b ∈ digitPairs ds, 1 ≤ b ∧ b ≤ 100 := by
  induction ds using digitPairs.induct with
  | case1 => simp [digitPairs]
  | case2 d =>
    have := h d List.mem_cons_self
    simp only [digitPairs, List.mem_singleton, forall_eq]
    omega
  | case3 d d' ds ih =>
    have h1 := h d (by simp)
    have h2 := h d' (by simp)
    intro b hb
    rcases List.mem_cons.mp hb with rfl | hb
    · omega
    · exact ih (fun x hx => h x (by simp [hx])) b hb

theorem compare_pair {d d' e e' : ℕ} (hd' : d' < 10) (he' : e' < 10) :
    compare (d * 10 + d' + 1) (e * 10 + e' + 1) = (compare d e).then (compare d' e') := by
  rcases lt_trichotomy d e with h | h | h
  · rw [compare_lt_iff_lt.mpr h, Ordering.lt_then, compare_lt_iff_lt]
    omega
  · subst h
    rw [compare_eq_iff_eq.mpr rfl, Ordering.eq_then]
    rcases lt_trichotomy d' e' with h | h | h
    · rw [compare_lt_iff_lt.mpr h, compare_lt_iff_lt]
      omega
    · rw [compare_eq_iff_eq.mpr h, compare_eq_iff_eq]
      omega
    · rw [compare_gt_iff_gt.mpr h, compare_gt_iff_gt]
      omega
  · rw [compare_gt_iff_gt.mpr h, Ordering.gt_then, compare_gt_iff_gt]
    omega

theorem settled_zero_digitPairs {ds : List ℕ} (hne : ds ≠ []) (h : ∀ d ∈ ds, d < 10) :
    Settled .lt [0] (digitPairs ds ++ [0]) ∧ Settled .gt (digitPairs ds ++ [0]) [0] := by
  obtain ⟨b, bs, hb⟩ : ∃ b bs, digitPairs ds = b :: bs := by
    match ds, hne with
    | [d], _ => exact ⟨_, _, rfl⟩
    | d :: d' :: ds, _ => exact ⟨_, _, rfl⟩
  have hpos := (digitPairs_range h b (by rw [hb]; exact List.mem_cons_self)).1
  have hlt : compare 0 b = .lt := compare_lt_iff_lt.mpr hpos
  have hgt : compare b 0 = .gt := compare_gt_iff_gt.mpr hpos
  rw [hb]
  constructor
  · have h1 := (settled_singleton 0 b).extend (by rw [hlt]; decide) [] (bs ++ [0])
    rwa [hlt] at h1
  · have h1 := (settled_singleton b 0).extend (by rw [hgt]; decide) (bs ++ [0]) []
    rwa [hgt] at h1

/-- Closed digit pairs are in the order of the digits. -/
theorem settled_digitPairs : ∀ {ds es : List ℕ}, (∀ d ∈ ds, d < 10) → (∀ d ∈ es, d < 10) →
    (∀ d ∈ ds.getLast?, d ≠ 0) → (∀ d ∈ es.getLast?, d ≠ 0) →
    Settled (compare ds es) (digitPairs ds ++ [0]) (digitPairs es ++ [0])
  | [], [], _, _, _, _ => settled_refl [0]
  | [], e :: es, _, he, _, _ => (settled_zero_digitPairs (List.cons_ne_nil e es) he).1
  | d :: ds, [], hd, _, _, _ => (settled_zero_digitPairs (List.cons_ne_nil d ds) hd).2
  | [d], [e], hd, he, _, _ => by
    have h := (settled_refl [0]).cons (d * 10 + 0 + 1) (e * 10 + 0 + 1)
    rw [compare_pair (d := d) (e := e) (by decide : 0 < 10) (by decide : 0 < 10),
      compare_eq_iff_eq.mpr (rfl : (0 : ℕ) = 0)] at h
    simpa [digitPairs, List.compare_cons_cons, List.compare_nil_nil] using h
  | [d], e :: e' :: es, hd, he, _, hel => by
    have he' := he e' (by simp)
    -- an odd last digit is padded with zero, and no string goes on with zeros to its end
    have hrest : Settled ((compare 0 e').then .lt) ([0] : List ℕ) (digitPairs es ++ [0]) ∨
        compare 0 e' = .lt := by
      rcases Nat.eq_zero_or_pos e' with h0 | h0
      · left
        have hne : es ≠ [] := by
          rintro rfl
          exact hel e' rfl h0
        rw [h0, compare_eq_iff_eq.mpr rfl]
        exact (settled_zero_digitPairs hne fun x hx => he x (by simp [hx])).1
      · exact .inr (compare_lt_iff_lt.mpr h0)
    have hcmp : compare [d] (e :: e' :: es) = (compare d e).then .lt := by
      rw [List.compare_cons_cons, List.compare_nil_cons]
    rw [hcmp]
    change Settled _ ((d * 10 + 0 + 1) :: [0]) ((e * 10 + e' + 1) :: (digitPairs es ++ [0]))
    have hpair := compare_pair (d := d) (e := e) (by decide : 0 < 10) he'
    rcases hrest with hrest | hlt
    · have h := hrest.cons (d * 10 + 0 + 1) (e * 10 + e' + 1)
      rw [hpair, Ordering.then_assoc] at h
      have hthen : (compare 0 e').then ((compare 0 e').then .lt) = .lt := by
        rcases Nat.eq_zero_or_pos e' with h0 | h0
        · rw [h0]
          rfl
        · rw [compare_lt_iff_lt.mpr h0]
          rfl
      rwa [hthen] at h
    · have hne : (compare d e).then .lt ≠ .eq := by
        intro h
        exact absurd (Ordering.then_eq_eq.mp h).2 (by decide)
      have h := (settled_singleton (d * 10 + 0 + 1) (e * 10 + e' + 1)).extend
        (by rw [hpair, hlt]; exact hne) [0] (digitPairs es ++ [0])
      rwa [hpair, hlt] at h
  | d :: d' :: ds, [e], hd, he, hdl, _ => by
    have hd' := hd d' (by simp)
    have hrest : Settled ((compare d' 0).then .gt) (digitPairs ds ++ [0]) ([0] : List ℕ) ∨
        compare d' 0 = .gt := by
      rcases Nat.eq_zero_or_pos d' with h0 | h0
      · left
        have hne : ds ≠ [] := by
          rintro rfl
          exact hdl d' rfl h0
        rw [h0, compare_eq_iff_eq.mpr rfl]
        exact (settled_zero_digitPairs hne fun x hx => hd x (by simp [hx])).2
      · exact .inr (compare_gt_iff_gt.mpr h0)
    have hcmp : compare (d :: d' :: ds) [e] = (compare d e).then .gt := by
      rw [List.compare_cons_cons, List.compare_cons_nil]
    rw [hcmp]
    change Settled _ ((d * 10 + d' + 1) :: (digitPairs ds ++ [0])) ((e * 10 + 0 + 1) :: [0])
    have hpair := compare_pair (d := d) (e := e) hd' (by decide : 0 < 10)
    rcases hrest with hrest | hgt
    · have h := hrest.cons (d * 10 + d' + 1) (e * 10 + 0 + 1)
      rw [hpair, Ordering.then_assoc] at h
      have hthen : (compare d' 0).then ((compare d' 0).then .gt) = .gt := by
        rcases Nat.eq_zero_or_pos d' with h0 | h0
        · rw [h0]
          rfl
        · rw [compare_gt_iff_gt.mpr h0]
          rfl
      rwa [hthen] at h
    · have hne : (compare d e).then .gt ≠ .eq := by
        intro h
        exact absurd (Ordering.then_eq_eq.mp h).2 (by decide)
      have h := (settled_singleton (d * 10 + d' + 1) (e * 10 + 0 + 1)).extend
        (by rw [hpair, hgt]; exact hne) (digitPairs ds ++ [0]) [0]
      rwa [hpair, hgt] at h
  | d :: d' :: ds, e :: e' :: es, hd, he, hdl, hel => by
    have ih := @settled_digitPairs ds es (fun x hx => hd x (by simp [hx]))
      (fun x hx => he x (by simp [hx]))
      (fun x hx => hdl x (by cases ds with | nil => cases hx | cons => exact hx))
      (fun x hx => hel x (by cases es with | nil => cases hx | cons => exact hx))
    have h := ih.cons (d * 10 + d' + 1) (e * 10 + e' + 1)
    rw [compare_pair (hd d' (by simp)) (he e' (by simp)), Ordering.then_assoc] at h
    rwa [List.compare_cons_cons, List.compare_cons_cons]

/-! ## Keys -/

/-- A pair's byte below zero; the terminator `0` becomes `ff`. -/
def negPair (b : ℕ) : UInt8 := if b = 0 then 0xFF else UInt8.ofNat (0x64 - b)

theorem compare_negPair {a b : ℕ} (ha : a ≤ 100) (hb : b ≤ 100) :
    compare (negPair a) (negPair b) = (compare a b).swap := by
  have hnat : ∀ n ≤ 100, (negPair n).toNat = if n = 0 then 255 else 100 - n := by
    intro n hn
    unfold negPair
    split
    · rfl
    · exact UInt8.toNat_ofNat_of_lt' (by change 100 - n < 256; omega)
  rw [compare_toNat, hnat a ha, hnat b hb]
  rcases lt_trichotomy a b with h | h | h
  · rw [compare_lt_iff_lt.mpr h, Ordering.swap_lt, compare_gt_iff_gt]
    split_ifs <;> omega
  · rw [h, compare_eq_iff_eq.mpr rfl, compare_eq_iff_eq.mpr rfl, Ordering.swap_eq]
  · rw [compare_gt_iff_gt.mpr h, Ordering.swap_gt, compare_lt_iff_lt]
    split_ifs <;> omega

theorem biased_eq {s : ℤ} {d : List ℕ} {e : ℤ} (h : NumVal.FiniteWf s d e) :
    (((max 0 (min (0x8000 + (e + d.length - 1)) 0xFFFF)).toNat : ℕ) : ℤ) =
      0x8000 + (e + d.length - 1) := by
  have h1 := h.exp_ge
  have h2 := h.exp_le
  omega

/-- The exponent of a well-formed number, biased. -/
def biased (d : List ℕ) (e : ℤ) : ℕ := (0x8000 + (e + d.length - 1)).toNat

theorem biased_lt {s : ℤ} {d : List ℕ} {e : ℤ} (h : NumVal.FiniteWf s d e) : biased d e < 65536 := by
  have h1 := h.exp_ge
  have h2 := h.exp_le
  unfold biased
  omega

theorem encodeNumberFromParts_pos {d : List ℕ} {e : ℤ} (h : NumVal.FiniteWf 1 d e) :
    encodeNumberFromParts ⟨1, d, e⟩ =
      numPos :: (beBytes 2 (biased d e) ++ (digitPairs d ++ [0]).map UInt8.ofNat) := by
  have hb := biased_eq h
  have hb' : (max 0 (min (0x8000 + (e + d.length - 1)) 0xFFFF)).toNat = biased d e := by
    unfold biased
    omega
  simp only [encodeNumberFromParts, hb']
  simp

theorem encodeNumberFromParts_neg {d : List ℕ} {e : ℤ} (h : NumVal.FiniteWf (-1) d e) :
    encodeNumberFromParts ⟨-1, d, e⟩ =
      numNeg :: (beBytes 2 (0xFFFF - biased d e) ++ (digitPairs d ++ [0]).map negPair) := by
  have hb := biased_eq h
  have hb' : (max 0 (min (0x8000 + (e + d.length - 1)) 0xFFFF)).toNat = biased d e := by
    unfold biased
    omega
  have hmap : (digitPairs d).map (fun b => UInt8.ofNat (0x64 - b)) = (digitPairs d).map negPair := by
    apply List.map_congr_left
    intro b hbm
    have := (digitPairs_range h.trimmed.digit b hbm).1
    unfold negPair
    rw [if_neg (by omega)]
  simp only [encodeNumberFromParts, hb']
  simp [hmap, negPair]

theorem compare_biased {s t : ℤ} {d d' : List ℕ} {e e' : ℤ} (h : NumVal.FiniteWf s d e)
    (h' : NumVal.FiniteWf t d' e') :
    compare (biased d e) (biased d' e') = compare (e + d.length) (e' + d'.length) := by
  have h1 := h.exp_ge
  have h2 := h'.exp_ge
  unfold biased
  rcases lt_trichotomy (e + (d.length : ℤ)) (e' + d'.length) with hlt | heq | hgt
  · rw [compare_lt_iff_lt.mpr hlt, compare_lt_iff_lt]
    omega
  · rw [compare_eq_iff_eq.mpr heq, compare_eq_iff_eq]
    omega
  · rw [compare_gt_iff_gt.mpr hgt, compare_gt_iff_gt]
    omega

theorem closedPairs_le {d : List ℕ} (h : ∀ x ∈ d, x < 10) : ∀ b ∈ digitPairs d ++ [0], b ≤ 100 := by
  intro b hb
  rcases List.mem_append.mp hb with hb | hb
  · exact (digitPairs_range h b hb).2
  · rw [List.mem_singleton.mp hb]
    decide

/-- Two numbers above zero. -/
theorem settled_pos {d d' : List ℕ} {e e' : ℤ} (h : NumVal.FiniteWf 1 d e)
    (h' : NumVal.FiniteWf 1 d' e') :
    Settled (compare (mag 10 d e) (mag 10 d' e')) (encodeNumberFromParts ⟨1, d, e⟩)
      (encodeNumberFromParts ⟨1, d', e'⟩) := by
  rw [encodeNumberFromParts_pos h, encodeNumberFromParts_pos h',
    ← compare_scientific (by decide) h.trimmed h'.trimmed h.digits_ne h'.digits_ne,
    ← compare_biased h h']
  have hpairs := settled_digitPairs h.trimmed.digit h'.trimmed.digit h.trimmed.last_ne
    h'.trimmed.last_ne
  have hbytes := hpairs.map (g := id) (f := UInt8.ofNat) (by simp) (by
    intro a ha b hb
    have ha' := closedPairs_le h.trimmed.digit a ha
    have hb' := closedPairs_le h'.trimmed.digit b hb
    exact compare_ofNat (by omega) (by omega))
  have hall := ((settled_beBytes (w := 2) (biased_lt h) (biased_lt h')).append hbytes).cons
    numPos numPos
  rwa [Std.compare_self, Ordering.eq_then] at hall

/-- Two numbers below zero: exponent and pairs are complemented. -/
theorem settled_neg {d d' : List ℕ} {e e' : ℤ} (h : NumVal.FiniteWf (-1) d e)
    (h' : NumVal.FiniteWf (-1) d' e') :
    Settled (compare (mag 10 d e) (mag 10 d' e')).swap (encodeNumberFromParts ⟨-1, d, e⟩)
      (encodeNumberFromParts ⟨-1, d', e'⟩) := by
  rw [encodeNumberFromParts_neg h, encodeNumberFromParts_neg h',
    ← compare_scientific (by decide) h.trimmed h'.trimmed h.digits_ne h'.digits_ne,
    ← compare_biased h h', Ordering.swap_then]
  have hpairs := settled_digitPairs h.trimmed.digit h'.trimmed.digit h.trimmed.last_ne
    h'.trimmed.last_ne
  have hbytes := hpairs.map (g := Ordering.swap) (f := negPair) (by simp) (by
    intro a ha b hb
    exact compare_negPair (closedPairs_le h.trimmed.digit a ha)
      (closedPairs_le h'.trimmed.digit b hb))
  have hb := biased_lt h
  have hb' := biased_lt h'
  have hexp : compare (0xFFFF - biased d e) (0xFFFF - biased d' e') =
      (compare (biased d e) (biased d' e')).swap := by
    rcases lt_trichotomy (biased d e) (biased d' e') with hlt | heq | hgt
    · rw [compare_lt_iff_lt.mpr hlt, Ordering.swap_lt, compare_gt_iff_gt]
      omega
    · rw [heq, compare_eq_iff_eq.mpr rfl, compare_eq_iff_eq.mpr rfl, Ordering.swap_eq]
    · rw [compare_gt_iff_gt.mpr hgt, Ordering.swap_gt, compare_lt_iff_lt]
      omega
  have hbe := settled_beBytes (w := 2) (n := 0xFFFF - biased d e) (m := 0xFFFF - biased d' e')
    (by omega) (by omega)
  rw [hexp] at hbe
  have hall := (hbe.append hbytes).cons numNeg numNeg
  rwa [Std.compare_self, Ordering.eq_then] at hall

/-- The sign byte of a key: the class of the number. -/
def signByte : NumVal → UInt8
  | .nan => numNan
  | .inf s => if 0 < s then numPosInf else numNegInf
  | .zero => numZero
  | .finite s _ _ => if 0 < s then numPos else numNeg

theorem numKey_head (n : NumVal) : ∃ rest, numKey n = signByte n :: rest := by
  cases n with
  | nan => exact ⟨[], rfl⟩
  | inf s => exact ⟨[], rfl⟩
  | zero => exact ⟨[], rfl⟩
  | finite s d e => exact ⟨_, rfl⟩

theorem settled_of_signByte {a b : NumVal} {o : Ordering} (h : compare (signByte a) (signByte b) = o)
    (ho : o ≠ .eq) : Settled o (numKey a) (numKey b) := by
  obtain ⟨x, hx⟩ := numKey_head a
  obtain ⟨y, hy⟩ := numKey_head b
  rw [hx, hy]
  have h1 := (settled_singleton (signByte a) (signByte b)).extend (by rw [h]; exact ho) x y
  rwa [h] at h1

theorem settled_lt {a b : NumVal} (h : compare (signByte a) (signByte b) = .lt) :
    Settled .lt (numKey a) (numKey b) :=
  settled_of_signByte h (by decide)

theorem settled_gt {a b : NumVal} (h : compare (signByte a) (signByte b) = .gt) :
    Settled .gt (numKey a) (numKey b) :=
  settled_of_signByte h (by decide)

/-- Keys of two classified numbers are settled at the comparison of their quantities. -/
theorem settled_numKey {a b : NumVal} (ha : a.Wf) (hb : b.Wf) :
    Settled (a.quantity.cmp b.quantity) (numKey a) (numKey b) := by
  have hfin : ∀ {s : ℤ} {d : List ℕ} {e : ℤ}, NumVal.FiniteWf s d e → 0 < mag 10 d e :=
    fun h => mag_pos (by decide) h.digits_ne h.trimmed _
  cases a with
  | nan =>
    cases b with
    | nan => exact settled_refl _
    | inf t => rcases hb with rfl | rfl <;> exact settled_lt rfl
    | zero => exact settled_lt rfl
    | finite t d e =>
      rcases hb.sign_eq with rfl | rfl <;> exact settled_lt rfl
  | inf s =>
    cases b with
    | nan => rcases ha with rfl | rfl <;> first | exact settled_lt rfl | exact settled_gt rfl
    | inf t =>
      rcases ha with rfl | rfl <;> rcases hb with rfl | rfl <;> first
        | exact settled_refl _
        | first | exact settled_lt rfl | exact settled_gt rfl
    | zero => rcases ha with rfl | rfl <;> first | exact settled_lt rfl | exact settled_gt rfl
    | finite t d e =>
      rcases ha with rfl | rfl <;> rcases hb.sign_eq with rfl | rfl <;>
        first | exact settled_lt rfl | exact settled_gt rfl
  | zero =>
    cases b with
    | nan => first | exact settled_lt rfl | exact settled_gt rfl
    | inf t => rcases hb with rfl | rfl <;> first | exact settled_lt rfl | exact settled_gt rfl
    | zero => exact settled_refl _
    | finite t d e =>
      have hpos := hfin hb
      rcases hb.sign_eq with rfl | rfl
      · have hc : (NumVal.quantity .zero).cmp (NumVal.quantity (.finite 1 d e)) = .lt := by
          simp [NumVal.quantity, Quantity.cmp, compare_lt_iff_lt.mpr hpos]
        rw [hc]
        exact settled_lt rfl
      · have hc : (NumVal.quantity .zero).cmp (NumVal.quantity (.finite (-1) d e)) = .gt := by
          have : compare (0 : ℚ) (-mag 10 d e) = .gt := compare_gt_iff_gt.mpr (by linarith)
          simp [NumVal.quantity, Quantity.cmp, this]
        rw [hc]
        exact settled_gt rfl
  | finite s d e =>
    have hpos := hfin ha
    cases b with
    | nan =>
      rcases ha.sign_eq with rfl | rfl <;> first | exact settled_lt rfl | exact settled_gt rfl
    | inf t =>
      rcases ha.sign_eq with rfl | rfl <;> rcases hb with rfl | rfl <;>
        first | exact settled_lt rfl | exact settled_gt rfl
    | zero =>
      rcases ha.sign_eq with rfl | rfl
      · have hc : (NumVal.quantity (.finite 1 d e)).cmp (NumVal.quantity .zero) = .gt := by
          simp [NumVal.quantity, Quantity.cmp, compare_gt_iff_gt.mpr hpos]
        rw [hc]
        exact settled_gt rfl
      · have hc : (NumVal.quantity (.finite (-1) d e)).cmp (NumVal.quantity .zero) = .lt := by
          have : compare (-mag 10 d e) (0 : ℚ) = .lt := compare_lt_iff_lt.mpr (by linarith)
          simp [NumVal.quantity, Quantity.cmp, this]
        rw [hc]
        exact settled_lt rfl
    | finite t d' e' =>
      have hpos' := hfin hb
      rcases ha.sign_eq with rfl | rfl <;> rcases hb.sign_eq with rfl | rfl
      · simpa [NumVal.quantity, Quantity.cmp, numKey] using settled_pos ha hb
      · have hc : (NumVal.quantity (.finite 1 d e)).cmp (NumVal.quantity (.finite (-1) d' e')) =
            .gt := by
          have : compare (mag 10 d e) (-mag 10 d' e') = .gt := compare_gt_iff_gt.mpr (by linarith)
          simp [NumVal.quantity, Quantity.cmp, this]
        rw [hc]
        first | exact settled_lt rfl | exact settled_gt rfl
      · have hc : (NumVal.quantity (.finite (-1) d e)).cmp (NumVal.quantity (.finite 1 d' e')) =
            .lt := by
          have : compare (-mag 10 d e) (mag 10 d' e') = .lt := compare_lt_iff_lt.mpr (by linarith)
          simp [NumVal.quantity, Quantity.cmp, this]
        rw [hc]
        exact settled_lt rfl
      · simpa [NumVal.quantity, Quantity.cmp, Numeric.compare_neg, numKey] using settled_neg ha hb

/-- Number keys are in the order of the numbers, whatever follows them. -/
theorem settled_encodeNumber {a b : Bson} {p q : Quantity} (ha : quantity a = some p)
    (hb : quantity b = some q) : Settled (p.cmp q) (encodeNumber a) (encodeNumber b) := by
  obtain ⟨x, hx, hxwf, rfl⟩ := Numeric.exists_classify ha
  obtain ⟨y, hy, hywf, rfl⟩ := Numeric.exists_classify hb
  rw [encodeNumber_eq hx, encodeNumber_eq hy]
  exact settled_numKey hxwf hywf

end Secantus.SortKey
