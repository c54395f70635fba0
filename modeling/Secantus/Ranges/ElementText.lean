/-
  The texts of the elements of `int4range`, `int8range` and `daterange`. An element is a number: an integer, or
  a date's day count from 2000-01-01, whose extremes are the two infinities (`date_send`).

  * `readIso_dateText`, `readIso_eq_some`: a date of four-digit year is its text `YYYY-MM-DD`;
  * `compare_dateText`: such texts are in the order of the dates;
  * `castValue_text`, `compareConstants_value`, `step_text`: the casts, the comparison and the step of texts are
    those of the elements, while the step stays where the type has texts for them.
-/
import Secantus.Ranges.Sets

namespace Secantus.Ranges.Literal

open Secantus PgNumeric Calendar Digits ByteOrder

/-! ## Fields of digits -/

/-- The `w` digits of a number. -/
def fieldText (w n : ℕ) : Text := digitText (padDigits w n)

theorem length_fieldText {w n : ℕ} (hw : 0 < w) (h : n < 10 ^ w) : (fieldText w n).length = w := by
  unfold fieldText digitText
  rw [List.length_map]
  exact (padDigits_spec h hw).1

theorem mapM_fieldText {w n : ℕ} (hw : 0 < w) (h : n < 10 ^ w) :
    (fieldText w n).mapM toDigit = some (padDigits w n) :=
  mapM_toDigit (padDigits_spec h hw).2.1

theorem eq_fieldText {w : ℕ} {t : Text} {ds : List ℕ} (hw : 0 < w) (hlen : t.length = w)
    (h : t.mapM toDigit = some ds) : t = fieldText w (value 10 ds) ∧ value 10 ds < 10 ^ w := by
  obtain ⟨hdigit, rfl⟩ := mapM_toDigit_eq_some h
  have hlen' : ds.length = w := by rwa [digitText, List.length_map] at hlen
  refine ⟨?_, hlen' ▸ value_lt_pow (by decide) hdigit⟩
  unfold fieldText
  rw [← eq_padDigits hw hdigit hlen']

theorem settled_fieldText {w m n : ℕ} (hw : 0 < w) (hm : m < 10 ^ w) (hn : n < 10 ^ w) :
    Settled (compare m n) (fieldText w m) (fieldText w n) := by
  obtain ⟨hmlen, hmdigit, hmvalue⟩ := padDigits_spec hm hw
  obtain ⟨hnlen, hndigit, hnvalue⟩ := padDigits_spec hn hw
  have hcmp : compare (fieldText w m) (fieldText w n) = compare m n := by
    unfold fieldText
    rw [compare_digitText hmdigit hndigit,
      compare_of_length_eq (by decide) hmdigit hndigit (hmlen.trans hnlen.symm), hmvalue, hnvalue]
  rw [← hcmp]
  exact settled_of_length_eq ((length_fieldText hw hm).trans (length_fieldText hw hn).symm)

/-! ## Dates -/

/-- A date whose year has four digits. -/
def FourDigit (d : Date) : Prop := 0 ≤ d.year ∧ d.year ≤ 9999

theorem FourDigit.year_lt {d : Date} (h : FourDigit d) : d.year.toNat < 10 ^ 4 := by
  obtain ⟨hlo, hhi⟩ := h
  omega

theorem month_lt_pow (d : Date) : d.month + 1 < 10 ^ 2 := by
  have := d.month_lt
  omega

theorem day_lt_pow (d : Date) : d.day + 1 < 10 ^ 2 := by
  have := d.day_lt
  omega

theorem FourDigit.dateText {d : Date} (h : FourDigit d) :
    dateText d =
      fieldText 4 d.year.toNat ++ '-' :: fieldText 2 (d.month + 1) ++ '-' :: fieldText 2 (d.day + 1) := by
  have hyear : yearText d.year = fieldText 4 d.year.toNat := by
    have hcast : d.year = (d.year.toNat : ℤ) := (Int.toNat_of_nonneg h.1).symm
    unfold yearText
    rw [if_pos ⟨h.1, h.2⟩, hcast, zeroPadded_natCast]
    rfl
  unfold Literal.dateText
  rw [hyear]
  have hmonth := zeroPadded_natCast 2 (d.month + 1)
  have hday := zeroPadded_natCast 2 (d.day + 1)
  push_cast at hmonth hday
  rw [hmonth, hday]
  rfl

theorem readIso_dateText {d : Date} (h : FourDigit d) : readIso (dateText d) = some d := by
  have hy := length_fieldText (by decide) h.year_lt
  have hm := length_fieldText (by decide) (month_lt_pow d)
  have hd := length_fieldText (by decide) (day_lt_pow d)
  have hym := mapM_fieldText (by decide) h.year_lt
  have hmm := mapM_fieldText (by decide) (month_lt_pow d)
  have hdm := mapM_fieldText (by decide) (day_lt_pow d)
  have hyv := (padDigits_spec h.year_lt (by decide)).2.2
  have hmv := (padDigits_spec (month_lt_pow d) (by decide)).2.2
  have hdv := (padDigits_spec (day_lt_pow d) (by decide)).2.2
  rw [h.dateText]
  generalize fieldText 4 d.year.toNat = y at hy hym
  generalize fieldText 2 (d.month + 1) = m at hm hmm
  generalize fieldText 2 (d.day + 1) = k at hd hdm
  match y, hy with
  | [a, b, c, e], _ =>
    match m, hm with
    | [f, g], _ =>
      match k, hd with
      | [i, j], _ =>
        unfold readIso
        rw [if_pos ⟨rfl, rfl, rfl⟩]
        show ([a, b, c, e].mapM toDigit).bind _ = _
        rw [hym, Option.bind_some]
        show ([f, g].mapM toDigit).bind _ = _
        rw [hmm, Option.bind_some]
        show ([i, j].mapM toDigit).bind _ = _
        rw [hdm, Option.bind_some, hyv, hmv, hdv, Int.toNat_of_nonneg h.1]
        exact Date.ofYmd_self d

theorem readIso_eq_some {t : Text} {d : Date} (h : readIso t = some d) : FourDigit d ∧ t = dateText d := by
  unfold readIso at h
  split at h
  · next hshape =>
    obtain ⟨hlen, h4, h7⟩ := hshape
    obtain ⟨y, hy, h⟩ := Option.bind_eq_some_iff.mp h
    obtain ⟨m, hm, h⟩ := Option.bind_eq_some_iff.mp h
    obtain ⟨k, hk, h⟩ := Option.bind_eq_some_iff.mp h
    obtain ⟨hyear, hmonth, hday⟩ := Date.ofYmd_eq_some h
    obtain ⟨hyt, hylt⟩ := eq_fieldText (by decide : 0 < 4) (by rw [List.length_take, hlen]; rfl) hy
    obtain ⟨hmt, -⟩ := eq_fieldText (by decide : 0 < 2)
      (by rw [List.length_take, List.length_drop, hlen]; rfl) hm
    obtain ⟨hkt, -⟩ := eq_fieldText (by decide : 0 < 2) (by rw [List.length_drop, hlen]) hk
    have hfour : FourDigit d := by
      unfold FourDigit
      rw [hyear]
      omega
    refine ⟨hfour, ?_⟩
    rw [hfour.dateText, hyear, hmonth, hday, Int.toNat_natCast, ← hyt, ← hmt, ← hkt]
    match t, hlen with
    | [a, b, c, e, f, g, i, j, k, l], _ =>
      obtain rfl : f = '-' := Option.some.inj h4
      obtain rfl : j = '-' := Option.some.inj h7
      rfl
  · cases h

theorem compare_dateText_of_before {d e : Date} (hd : FourDigit d) (he : FourDigit e) (h : d.Before e) :
    compare (dateText d) (dateText e) = .lt := by
  have hdash : Settled .eq ['-'] ['-'] := settled_singleton '-' '-'
  have hfields := (settled_fieldText (by decide) hd.year_lt he.year_lt).append (hdash.append
    ((settled_fieldText (by decide) (month_lt_pow d) (month_lt_pow e)).append (hdash.append
    (settled_fieldText (by decide) (day_lt_pow d) (day_lt_pow e)))))
  have hcmp := hfields.compare_eq
  rw [Ordering.eq_then, Ordering.eq_then] at hcmp
  rw [hd.dateText, he.dateText]
  simp only [List.append_assoc, List.cons_append]
  refine hcmp.trans ?_
  rcases h with hy | ⟨hy, h⟩
  · have hlt : d.year.toNat < e.year.toNat := by
      have := hd.1
      omega
    rw [compare_lt_iff_lt.mpr hlt, Ordering.lt_then]
  · rw [hy, compare_eq_iff_eq.mpr rfl, Ordering.eq_then]
    rcases h with hm | ⟨hm, hk⟩
    · rw [compare_lt_iff_lt.mpr (Nat.succ_lt_succ hm), Ordering.lt_then]
    · rw [hm, compare_eq_iff_eq.mpr rfl, Ordering.eq_then, compare_lt_iff_lt]
      exact Nat.succ_lt_succ hk

theorem compare_dateText {d e : Date} (hd : FourDigit d) (he : FourDigit e) :
    compare (dateText d) (dateText e) = compare d.days e.days := by
  rcases Date.before_or_eq_or_before d e with h | rfl | h
  · rw [compare_dateText_of_before hd he h, compare_lt_iff_lt.mpr (Date.days_lt_of_before h)]
  · rw [Std.ReflOrd.compare_self, compare_eq_iff_eq.mpr rfl]
  · rw [Std.OrientedOrd.eq_swap, compare_dateText_of_before he hd h,
      compare_gt_iff_gt.mpr (Date.days_lt_of_before h)]
    rfl

/-- The characters of a date's text. -/
def dateChars : Text := "0123456789-".toList

theorem dateText_chars {d : Date} (h : FourDigit d) : ∀ c ∈ dateText d, c ∈ dateChars := by
  have hfield : ∀ {w n : ℕ}, 0 < w → n < 10 ^ w → ∀ c ∈ fieldText w n, c ∈ dateChars := by
    intro w n hw hn c hc
    obtain ⟨d, hd, rfl⟩ := List.mem_map.mp hc
    have hdigit := (padDigits_spec hn hw).2.1 d hd
    interval_cases d <;> decide
  intro c hc
  rw [h.dateText, List.append_assoc, List.cons_append] at hc
  rcases List.mem_append.mp hc with hc | hc
  · exact hfield (by decide) h.year_lt c hc
  · rcases List.mem_cons.mp hc with rfl | hc
    · decide
    · rcases List.mem_append.mp hc with hc | hc
      · exact hfield (by decide) (month_lt_pow d) c hc
      · rcases List.mem_cons.mp hc with rfl | hc
        · decide
        · exact hfield (by decide) (day_lt_pow d) c hc

theorem dateText_head {d : Date} (h : FourDigit d) : ∃ k t, k < 10 ∧ dateText d = Nat.digitChar k :: t := by
  obtain ⟨hlen, hdigit, -⟩ := padDigits_spec h.year_lt (by decide)
  rw [h.dateText]
  unfold fieldText
  generalize padDigits 4 d.year.toNat = y at hlen hdigit
  match y, hlen with
  | k :: y, _ => exact ⟨k, _, hdigit k List.mem_cons_self, rfl⟩

theorem trim_dateText {d : Date} (h : FourDigit d) : trim (dateText d) = dateText d := by
  have hws : dateChars.all (fun c => !isWhiteSpace c) = true := by decide
  exact trim_eq_self fun c hc => by simpa using List.all_eq_true.mp hws c (dateText_chars h c hc)

theorem toLower_dateText {d : Date} (h : FourDigit d) : (dateText d).map Char.toLower = dateText d := by
  have hlow : dateChars.all (fun c => c.toLower = c) = true := by decide
  refine (List.map_congr_left fun c hc => ?_).trans (List.map_id _)
  simpa using List.all_eq_true.mp hlow c (dateText_chars h c hc)

theorem dateText_ne {d : Date} (h : FourDigit d) {t : Text} {c : Char} (hc : c ∈ t) (hd : c ∉ dateChars) :
    dateText d ≠ t := by
  rintro rfl
  exact hd (dateText_chars h c hc)

/-! ## Elements as numbers -/

/-- The day number of 2000-01-01. -/
def pgEpoch : ℤ := 730485

/-- The text of a day count. -/
def dayText (n : ℤ) : Text :=
  if n = -2 ^ 31 then negInfinityText
  else if n = 2 ^ 31 - 1 then infinityText
  else dateText (Date.ofDays (n + pgEpoch))

def dayNumber (t : Text) : Option ℤ :=
  if t = negInfinityText then some (-2 ^ 31)
  else if t = infinityText then some (2 ^ 31 - 1)
  else (readIso t).map fun d => d.days - pgEpoch

namespace Element

def least : Element → ℤ
  | .int4 => -2 ^ 31
  | .int8 => -2 ^ 63
  | .date => -2 ^ 31

def greatest : Element → ℤ
  | .int4 => 2 ^ 31 - 1
  | .int8 => 2 ^ 63 - 1
  | .date => 2 ^ 31 - 1

/-- The values of the type. -/
def IsValue (e : Element) (n : ℤ) : Prop := e.least ≤ n ∧ n ≤ e.greatest

/-- The last value that a step cannot be made from: the type's greatest, and of dates the 31st of December of
    the year 9999, after which a date is not written with four digits. -/
def last : Element → ℤ
  | .int4 => 2 ^ 31 - 1
  | .int8 => 2 ^ 63 - 1
  | .date => 2921939

/-- The values whose texts are in their order: of dates, the infinities and those of a four-digit year. -/
def Ordinary : Element → ℤ → Prop
  | .int4, n => -2 ^ 31 ≤ n ∧ n < 2 ^ 31
  | .int8, n => -2 ^ 63 ≤ n ∧ n < 2 ^ 63
  | .date, n => n = -2 ^ 31 ∨ n = 2 ^ 31 - 1 ∨ -pgEpoch ≤ n ∧ n ≤ 2921939

/-- The text of a value. -/
def text : Element → ℤ → Text
  | .int4, n => intText n
  | .int8, n => intText n
  | .date, n => dayText n

def value : Element → ℤ → Value
  | .int4, n => .int n
  | .int8, n => .int n
  | .date, n => .text (dayText n)

end Element

/-- The number that a value is. -/
def Value.number : Value → Option ℤ
  | .int n => some n
  | .text t => dayNumber t

open Element

theorem Element.Ordinary.isValue {e : Element} {n : ℤ} (h : e.Ordinary n) : e.IsValue n := by
  unfold IsValue
  cases e with
  | int4 => exact ⟨h.1, Int.le_sub_one_of_lt h.2⟩
  | int8 => exact ⟨h.1, Int.le_sub_one_of_lt h.2⟩
  | date =>
    simp only [Ordinary, pgEpoch, least, greatest] at *
    omega

theorem fourDigit_iff (d : Date) : FourDigit d ↔ 0 ≤ d.days ∧ d.days < 3652425 := by
  have hord := d.ordinal_lt
  have hdays : d.days = yearStart d.year + d.ordinal := rfl
  have hzero : yearStart 0 = 0 := rfl
  have hend : yearStart 10000 = 3652425 := rfl
  unfold FourDigit
  constructor
  · rintro ⟨hlo, hhi⟩
    have h0 := yearStart_mono hlo
    have h1 := yearStart_mono (y := d.year + 1) (z := 10000) (by omega)
    omega
  · rintro ⟨hlo, hhi⟩
    constructor
    · by_contra hneg
      have := yearStart_mono (y := d.year + 1) (z := 0) (by omega)
      omega
    · by_contra hbig
      have := yearStart_mono (y := 10000) (z := d.year) (by omega)
      omega

theorem fourDigit_ofDays {n : ℤ} (h : -pgEpoch ≤ n ∧ n ≤ 2921939) : FourDigit (Date.ofDays (n + pgEpoch)) := by
  rw [fourDigit_iff, Date.days_ofDays]
  unfold pgEpoch at *
  omega

theorem dayText_finite {n : ℤ} (h : -pgEpoch ≤ n ∧ n ≤ 2921939) :
    dayText n = dateText (Date.ofDays (n + pgEpoch)) := by
  unfold dayText
  unfold pgEpoch at h
  rw [if_neg (by omega), if_neg (by omega)]

theorem dayNumber_dayText {n : ℤ} (h : Ordinary .date n) : dayNumber (dayText n) = some n := by
  rcases h with rfl | rfl | h
  · rfl
  · rfl
  · have hd := fourDigit_ofDays h
    have h1 : dateText (Date.ofDays (n + pgEpoch)) ≠ negInfinityText :=
      dateText_ne hd (c := 'i') (by decide) (by decide)
    have h2 : dateText (Date.ofDays (n + pgEpoch)) ≠ infinityText :=
      dateText_ne hd (c := 'i') (by decide) (by decide)
    rw [dayText_finite h]
    unfold dayNumber
    rw [if_neg h1, if_neg h2, readIso_dateText hd, Option.map_some, Date.days_ofDays, add_sub_cancel_right]

theorem number_value {e : Element} {n : ℤ} (h : e.Ordinary n) : (e.value n).number = some n := by
  cases e with
  | int4 => rfl
  | int8 => rfl
  | date => exact dayNumber_dayText h

theorem dayNumber_eq_some {t : Text} {n : ℤ} (h : dayNumber t = some n) : Ordinary .date n ∧ t = dayText n := by
  unfold dayNumber at h
  split at h
  · next ht =>
    obtain rfl := Option.some.inj h
    exact ⟨Or.inl rfl, ht⟩
  · split at h
    · next ht =>
      obtain rfl := Option.some.inj h
      exact ⟨Or.inr (Or.inl rfl), ht⟩
    · obtain ⟨d, hd, rfl⟩ := Option.map_eq_some_iff.mp h
      obtain ⟨hfour, rfl⟩ := readIso_eq_some hd
      have hdays := (fourDigit_iff d).mp hfour
      have hrange : -pgEpoch ≤ d.days - pgEpoch ∧ d.days - pgEpoch ≤ 2921939 := by
        unfold pgEpoch
        omega
      refine ⟨Or.inr (Or.inr hrange), ?_⟩
      rw [dayText_finite hrange, sub_add_cancel, Date.ofDays_days]

/-! ## Casts, comparisons and steps of texts -/

theorem parseI32_intText {n : ℤ} (h : -2 ^ 31 ≤ n ∧ n < 2 ^ 31) : parseI32 (intText n) = some n := by
  unfold parseI32
  rw [parseI64_intText (by omega), Option.filter_some, if_pos (by simpa using h)]

theorem castInteger_eq_ok {parse : Text → Option ℤ} {name : String} {s : Text} {v : Value}
    (h : castInteger parse name s = .ok v) : ∃ n, parse (trim s) = some n ∧ v = .int n := by
  unfold castInteger at h
  dsimp only at h
  split at h
  · next n hn => exact ⟨n, hn, (Except.ok.inj h).symm⟩
  · split at h
    · cases h
    · cases h

/-- What a cast reads as a number is an ordinary value of the type. -/
theorem castValue_eq_ok {reader : DateReader} {e : Element} {s : Text} {v : Value} {n : ℤ}
    (h : castValue reader e s = .ok v) (hn : v.number = some n) : e.Ordinary n ∧ v = e.value n := by
  cases e with
  | int4 =>
    obtain ⟨k, hk, rfl⟩ := castInteger_eq_ok h
    obtain rfl : k = n := Option.some.inj hn
    obtain ⟨-, hrange⟩ := Option.filter_eq_some_iff.mp hk
    have hrange' : -2 ^ 31 ≤ k ∧ k < 2 ^ 31 := by simpa only [decide_eq_true_iff] using hrange
    exact ⟨hrange', rfl⟩
  | int8 =>
    obtain ⟨k, hk, rfl⟩ := castInteger_eq_ok h
    obtain rfl : k = n := Option.some.inj hn
    exact ⟨parseI64_range hk, rfl⟩
  | date =>
    obtain ⟨t, -, rfl⟩ : ∃ t, parseDate reader s = .ok t ∧ Value.text t = v := by
      change (parseDate reader s).map .text = .ok v at h
      cases hp : parseDate reader s with
      | error err =>
        rw [hp] at h
        cases h
      | ok t =>
        rw [hp] at h
        exact ⟨t, rfl, Except.ok.inj h⟩
    obtain ⟨hord, rfl⟩ := dayNumber_eq_some hn
    exact ⟨hord, rfl⟩

theorem trim_intText (n : ℤ) : trim (intText n) = intText n := by
  have hws : decimalChars.all (fun c => !isWhiteSpace c) = true := by decide
  exact trim_eq_self fun c hc => by simpa using List.all_eq_true.mp hws c (mem_decimalChars_of_intText n c hc)

theorem castInteger_intText {parse : Text → Option ℤ} {n : ℤ} (h : parse (intText n) = some n) (name : String) :
    castInteger parse name (intText n) = .ok (.int n) := by
  unfold castInteger
  dsimp only
  rw [trim_intText, h]

theorem parseDate_dateText (reader : DateReader) {d : Date} (h : FourDigit d) :
    parseDate reader (dateText d) = .ok (dateText d) := by
  have hne : ∀ t : Text, 'i' ∈ t → dateText d ≠ t := fun t ht => dateText_ne h ht (by decide)
  have hinfinity : ¬ (dateText d = infinityText ∨ dateText d = "+infinity".toList) := by
    rintro (ht | ht)
    · exact hne _ (by decide) ht
    · exact hne _ (by decide) ht
  have hepoch : dateText d ≠ "epoch".toList := dateText_ne h (c := 'e') (by decide) (by decide)
  unfold parseDate
  dsimp only
  rw [trim_dateText h, toLower_dateText h, if_neg hinfinity, if_neg (hne _ (by decide)), if_neg hepoch,
    readIso_dateText h]

theorem parseDate_dayText (reader : DateReader) {n : ℤ} (h : Ordinary .date n) :
    parseDate reader (dayText n) = .ok (dayText n) := by
  rcases h with rfl | rfl | h
  · rfl
  · rfl
  · rw [dayText_finite h]
    exact parseDate_dateText reader (fourDigit_ofDays h)

theorem castValue_text (reader : DateReader) {e : Element} {n : ℤ} (h : e.Ordinary n) :
    castValue reader e (e.text n) = .ok (e.value n) := by
  cases e with
  | int4 => exact castInteger_intText (parseI32_intText h) _
  | int8 => exact castInteger_intText (parseI64_intText h) _
  | date =>
    show (parseDate reader (dayText n)).map Value.text = _
    rw [parseDate_dayText reader h]
    rfl

theorem renderValueText_value (e : Element) (n : ℤ) : renderValueText (e.value n) = e.text n := by
  cases e <;> rfl

theorem compare_negInfinity {d : Date} (h : FourDigit d) : compare negInfinityText (dateText d) = .lt := by
  obtain ⟨k, t, hk, ht⟩ := dateText_head h
  have hlt : compare '-' (Nat.digitChar k) = .lt := by interval_cases k <;> rfl
  rw [ht]
  show compare ('-' :: "infinity".toList) (Nat.digitChar k :: t) = .lt
  rw [List.compare_cons_cons, hlt, Ordering.lt_then]

theorem compare_infinity {d : Date} (h : FourDigit d) : compare (dateText d) infinityText = .lt := by
  obtain ⟨k, t, hk, ht⟩ := dateText_head h
  have hlt : compare (Nat.digitChar k) 'i' = .lt := by interval_cases k <;> rfl
  rw [ht]
  show compare (Nat.digitChar k :: t) ('i' :: "nfinity".toList) = .lt
  rw [List.compare_cons_cons, hlt, Ordering.lt_then]

theorem compare_dayText_of_lt {m n : ℤ} (hm : Ordinary .date m) (hn : Ordinary .date n) (h : m < n) :
    compare (dayText m) (dayText n) = .lt := by
  rcases hm with rfl | rfl | hm
  · rcases hn with rfl | rfl | hn
    · exact absurd h (lt_irrefl _)
    · rfl
    · rw [dayText_finite hn]
      exact compare_negInfinity (fourDigit_ofDays hn)
  · have := Ordinary.isValue (e := .date) hn
    exact absurd h (not_lt.mpr this.2)
  · rcases hn with rfl | rfl | hn
    · have := Ordinary.isValue (e := .date) (Or.inr (Or.inr hm))
      exact absurd h (not_lt.mpr this.1)
    · rw [dayText_finite hm]
      exact compare_infinity (fourDigit_ofDays hm)
    · rw [dayText_finite hm, dayText_finite hn, compare_dateText (fourDigit_ofDays hm) (fourDigit_ofDays hn),
        Date.days_ofDays, Date.days_ofDays, compare_lt_iff_lt]
      omega

theorem compare_dayText {m n : ℤ} (hm : Ordinary .date m) (hn : Ordinary .date n) :
    compare (dayText m) (dayText n) = compare m n := by
  rcases lt_trichotomy m n with h | rfl | h
  · rw [compare_dayText_of_lt hm hn h, compare_lt_iff_lt.mpr h]
  · rw [Std.ReflOrd.compare_self, compare_eq_iff_eq.mpr rfl]
  · rw [Std.OrientedOrd.eq_swap, compare_dayText_of_lt hn hm h, compare_gt_iff_gt.mpr h]
    rfl

theorem compareConstants_value {e : Element} {m n : ℤ} (hm : e.Ordinary m) (hn : e.Ordinary n) :
    compareConstants (e.value m) (e.value n) = some (compare m n) := by
  cases e with
  | int4 => rfl
  | int8 => rfl
  | date => exact congrArg some (compare_dayText hm hn)

theorem compareBounds_text (reader : DateReader) {e : Element} {m n : ℤ} (hm : e.Ordinary m) (hn : e.Ordinary n) :
    compareBounds reader e (e.text m) (e.text n) = .ok (compare m n) := by
  unfold compareBounds
  rw [castValue_text reader hm, castValue_text reader hn]
  dsimp only [bind, Except.bind]
  rw [compareConstants_value hm hn]
  rfl

theorem wrapAdd_eq {a b : ℤ} (h : -2 ^ 63 ≤ a + b ∧ a + b < 2 ^ 63) : wrapAdd a b = a + b := by
  unfold wrapAdd
  rw [Int.bmod_def]
  omega

/-- The step of an integer's text. -/
theorem stepInteger_text {n : ℤ} (h : -2 ^ 63 ≤ n ∧ n + 1 < 2 ^ 63) {t : Text}
    (hs : (match parseI64 (trim (intText n)) with
      | some k => Except.ok (intText (wrapAdd k 1))
      | none => Except.error (badRange (intText n))) = .ok t) : t = intText (n + 1) := by
  rw [trim_intText, parseI64_intText (by omega)] at hs
  dsimp only at hs
  rw [wrapAdd_eq (by omega)] at hs
  exact (Except.ok.inj hs).symm

theorem takeWhile_dateText {d : Date} (h : FourDigit d) (rest : Text) :
    (dateText d ++ ' ' :: rest).takeWhile (· ≠ ' ') = dateText d := by
  have hspace : ∀ c ∈ dateText d, (decide (c ≠ ' ')) = true := by
    intro c hc
    have hall : dateChars.all (· ≠ ' ') = true := by decide
    exact List.all_eq_true.mp hall c (dateText_chars h c hc)
  rw [List.takeWhile_append_of_pos hspace, List.takeWhile_cons_of_neg (by decide), List.append_nil]

theorem stepDate_text (reader : DateReader) {n : ℤ} (h : -pgEpoch ≤ n ∧ n + 1 ≤ 2921939) :
    step reader .date (dayText n) 1 = .ok (dayText (n + 1)) := by
  have hd : FourDigit (Date.ofDays (n + pgEpoch)) := fourDigit_ofDays (by omega)
  have hnext : FourDigit (Date.ofDays (n + 1 + pgEpoch)) := fourDigit_ofDays (by omega)
  have hparse : parseTimestamp reader (dateText (Date.ofDays (n + pgEpoch))) =
      .ok ((n + pgEpoch - unixEpoch) * microsPerDay) := by
    unfold parseTimestamp
    dsimp only
    rw [trim_dateText hd, readIso_dateText hd]
    dsimp only
    rw [Date.days_ofDays]
  have hsum : wrapAdd ((n + pgEpoch - unixEpoch) * microsPerDay) (1 * microsPerDay) =
      (n + 1 + pgEpoch - unixEpoch) * microsPerDay := by
    rw [wrapAdd_eq]
    · ring
    · unfold pgEpoch unixEpoch microsPerDay at *
      omega
  have hinstant : fromTimestampMicros ((n + 1 + pgEpoch - unixEpoch) * microsPerDay) =
      (Date.ofDays (n + 1 + pgEpoch), 0) := by
    have hpos : microsPerDay ≠ 0 := by decide
    unfold fromTimestampMicros
    dsimp only
    rw [Int.mul_ediv_cancel _ hpos, sub_add_cancel, Int.mul_emod_left, if_pos]
    obtain ⟨hlo, hhi⟩ := hnext
    omega
  rw [dayText_finite (by omega), dayText_finite (by omega)]
  show (parseTimestamp reader _).bind _ = _
  rw [hparse]
  show Except.ok (List.takeWhile _ (renderTimestamp _)) = _
  rw [hsum]
  unfold renderTimestamp
  rw [hinstant]
  dsimp only
  rw [takeWhile_dateText hnext]

/-- A step that succeeds is to the next value's text, short of the last value. -/
theorem step_text (reader : DateReader) {e : Element} {n : ℤ} (h : e.Ordinary n) (hlast : n ≠ e.last) {t : Text}
    (hs : step reader e (e.text n) 1 = .ok t) : e.Ordinary (n + 1) ∧ t = e.text (n + 1) := by
  cases e with
  | int4 =>
    obtain ⟨hlo, hhi⟩ := h
    change n ≠ 2 ^ 31 - 1 at hlast
    exact ⟨⟨by omega, by omega⟩, stepInteger_text (by omega) hs⟩
  | int8 =>
    obtain ⟨hlo, hhi⟩ := h
    change n ≠ 2 ^ 63 - 1 at hlast
    exact ⟨⟨by omega, by omega⟩, stepInteger_text (by omega) hs⟩
  | date =>
    rcases h with rfl | rfl | h
    · cases hs
    · cases hs
    · change n ≠ 2921939 at hlast
      have hnext : -pgEpoch ≤ n ∧ n + 1 ≤ 2921939 := by omega
      have hstep := stepDate_text reader hnext
      rw [Element.text, hstep] at hs
      exact ⟨Or.inr (Or.inr (by omega)), (Except.ok.inj hs).symm⟩

end Secantus.Ranges.Literal
