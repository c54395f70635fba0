/-
  Canonical ranges of `int4`, `int8` and `date`: a literal that is accepted has its elements in `[lo,hi)`.

  The casts and steps of texts are those of integers (`canonicalise_refines`), so the canonical form is that of
  the integers (`canonicalise_integers`), cut to the values of the type. Two ranges of one set of values are the
  same range unless just one of them has no lower bound (`HalfOpen.ext_of_values`): without one a range goes
  below every value, as the range from the least value does. A step from the last value is not checked, so it is
  left out (`Stays`).

  The canonical range of an `int4`, `int8` or `date` literal.

  A range of texts is read as a range of numbers (`read`), and `canonicalise` of the texts is that of the
  integers (`canonicalise_refines`) where every date is infinite or of a four-digit year and no bound is stepped
  from the last value (`Stays`). `fromText_discrete` is what follows for the values of the type.
-/
import Secantus.Ranges.ElementText
import Mathlib.Order.Interval.Set.Basic

namespace Secantus.Ranges

open Secantus.Library

/-! ## Half-open ranges of integers -/

theorem mem_elems_iff {α : Type*} [LinearOrder α] {r : Range α} (h : r.empty = false) (x : α) :
    x ∈ elems r ↔ (∀ l ∈ r.lower, if r.lowerInc then l ≤ x else l < x) ∧
      ∀ u ∈ r.upper, if r.upperInc then x ≤ u else x < u := by
  obtain ⟨e, lo, hi, li, ui⟩ := r
  obtain rfl : e = false := h
  show containsElem _ x = true ↔ _
  unfold containsElem
  rw [if_neg Bool.false_ne_true, Bool.and_eq_true]
  refine and_congr ?_ ?_
  · cases lo with
    | none => simp
    | some l =>
      rcases lt_trichotomy l x with h | rfl | h
      · cases li <;> simp [compare_lt_iff_lt.mpr h, h, h.le]
      · cases li <;> simp
      · cases li <;> simp [compare_gt_iff_gt.mpr h, not_lt.mpr h.le, not_le.mpr h]
  · cases hi with
    | none => simp
    | some u =>
      rcases lt_trichotomy u x with h | rfl | h
      · cases ui <;> simp [compare_lt_iff_lt.mpr h, not_lt.mpr h.le, not_le.mpr h]
      · cases ui <;> simp
      · cases ui <;> simp [compare_gt_iff_gt.mpr h, h, h.le]

/-- `[lo,hi)`, with something between the bounds. -/
structure HalfOpen (r : Range ℤ) : Prop where
  notEmpty : r.empty = false
  lowerInc : r.lowerInc = r.lower.isSome
  upperInc : r.upperInc = false
  lt : ∀ l ∈ r.lower, ∀ u ∈ r.upper, l < u

theorem HalfOpen.mem_elems {r : Range ℤ} (h : HalfOpen r) (x : ℤ) :
    x ∈ elems r ↔ (∀ l ∈ r.lower, l ≤ x) ∧ ∀ u ∈ r.upper, x < u := by
  rw [mem_elems_iff h.notEmpty, h.lowerInc, h.upperInc]
  refine and_congr (forall₂_congr fun l hl => ?_) (forall₂_congr fun u _ => ?_)
  · rw [Option.mem_def.mp hl, Option.isSome_some, if_pos rfl]
  · rw [if_neg Bool.false_ne_true]

/-- The integers step by one. -/
def integers : RangeType ℤ := ⟨some (· + 1)⟩

theorem elems_halfOpen {r : Range ℤ} (h : r.empty = false) :
    elems (halfOpen (· + 1) r).excludeInfinite = elems r := by
  ext x
  rw [mem_elems_iff h, mem_elems_iff (show (halfOpen (· + 1) r).excludeInfinite.empty = false from h)]
  obtain ⟨e, lo, hi, li, ui⟩ := r
  refine and_congr ?_ ?_
  · cases lo with
    | none => cases li <;> simp [halfOpen, Range.excludeInfinite]
    | some l => cases li <;> simp [halfOpen, Range.excludeInfinite, Int.add_one_le_iff]
  · cases hi with
    | none => cases ui <;> simp [halfOpen, Range.excludeInfinite]
    | some u => cases ui <;> simp [halfOpen, Range.excludeInfinite, Int.lt_add_one_iff]

theorem lower_halfOpen_eq_none (r : Range ℤ) :
    (halfOpen (· + 1) r).excludeInfinite.lower = none ↔ r.lower = none := by
  obtain ⟨e, lo, hi, li, ui⟩ := r
  cases lo <;> cases li <;> simp [halfOpen, Range.excludeInfinite]

/-- A canonical range of integers has the elements it was given, and is marked empty where it has none. -/
theorem canonicalise_integers {r r' : Range ℤ} (hr : r.empty = false) (h : canonicalise integers r = .ok r') :
    r' = Range.none ∧ elems r = ∅ ∧ r.lower ≠ none ∨
      HalfOpen r' ∧ (r'.lower = none ↔ r.lower = none) ∧ elems r' = elems r := by
  have hnone := lower_halfOpen_eq_none r
  have hset := elems_halfOpen hr
  have hopen : (halfOpen (· + 1) r).excludeInfinite.empty = false := hr
  have hlinc : (halfOpen (· + 1) r).excludeInfinite.lowerInc = (halfOpen (· + 1) r).excludeInfinite.lower.isSome :=
    Bool.and_true _
  have huinc : (halfOpen (· + 1) r).excludeInfinite.upperInc = false := Bool.and_false _
  unfold canonicalise integers at h
  rw [if_neg (by rw [hr]; exact Bool.false_ne_true)] at h
  dsimp only at h
  generalize (halfOpen (· + 1) r).excludeInfinite = s at *
  -- the bounds, where there are two, are compared
  have hkeep : (∀ l ∈ s.lower, ∀ u ∈ s.upper, l < u) → r' = s →
      HalfOpen r' ∧ (r'.lower = none ↔ r.lower = none) ∧ elems r' = elems r := by
    rintro hlt rfl
    exact ⟨⟨hopen, hlinc, huinc, hlt⟩, hnone, hset⟩
  unfold checkBounds at h
  split at h
  · next l u hl hu =>
    split at h
    · cases h
    · next hcmp =>
      rw [huinc, Bool.and_false, if_neg Bool.false_ne_true] at h
      obtain rfl := Except.ok.inj h
      have hlow : r.lower ≠ none := fun hlow => absurd ((hnone.mpr hlow).symm.trans hl) (Option.some_ne_none l).symm
      refine Or.inl ⟨rfl, ?_, hlow⟩
      rw [← hset, Set.eq_empty_iff_forall_notMem]
      intro x hx
      have heq := compare_eq_iff_eq.mp hcmp
      obtain ⟨hlx, hxu⟩ := (mem_elems_iff hopen x).mp hx
      have h1 := hlx l hl
      have h2 := hxu u hu
      rw [hlinc, hl, Option.isSome_some, if_pos rfl] at h1
      rw [huinc, if_neg Bool.false_ne_true] at h2
      omega
    · next hcmp =>
      refine Or.inr (hkeep (fun l' hl' u' hu' => ?_) (Except.ok.inj h).symm)
      obtain rfl : l = l' := Option.some.inj (hl.symm.trans hl')
      obtain rfl : u = u' := Option.some.inj (hu.symm.trans hu')
      exact compare_lt_iff_lt.mp hcmp
  · next hone =>
    refine Or.inr (hkeep (fun l hl u hu => ?_) (Except.ok.inj h).symm)
    exact absurd hu (hone l u hl)

/-! ## Ranges of the values of a type -/

section Values

variable {lo hi : ℤ} {r s : Range ℤ}

/-- The bounds are values. -/
def BoundsIn (lo hi : ℤ) (r : Range ℤ) : Prop := (∀ l ∈ r.lower, lo ≤ l ∧ l ≤ hi) ∧ ∀ u ∈ r.upper, lo ≤ u ∧ u ≤ hi

/-- A range of values has one unless it is all that is below the least. -/
theorem HalfOpen.exists_value (h : HalfOpen r) (hin : BoundsIn lo hi r) (hle : lo ≤ hi)
    (hne : ¬ (r.lower = none ∧ r.upper = some lo)) : ∃ x, lo ≤ x ∧ x ≤ hi ∧ x ∈ elems r := by
  cases hl : r.lower with
  | some l =>
    obtain ⟨hlo, hhi⟩ := hin.1 l hl
    refine ⟨l, hlo, hhi, (h.mem_elems l).mpr ⟨fun l' hl' => ?_, fun u hu => h.lt l hl u hu⟩⟩
    exact (Option.some.inj (hl.symm.trans hl')).ge
  | none =>
    refine ⟨lo, le_rfl, hle, (h.mem_elems lo).mpr ⟨fun l hl' => ?_, fun u hu => ?_⟩⟩
    · exact absurd (hl.symm.trans hl') (Option.some_ne_none l).symm
    · refine lt_of_le_of_ne (hin.2 u hu).1 fun heq => hne ⟨hl, ?_⟩
      rw [heq]
      exact hu

theorem HalfOpen.lower_le (hr : HalfOpen r) (hs : HalfOpen s) (hrin : BoundsIn lo hi r)
    (hset : ∀ x, lo ≤ x → x ≤ hi → (x ∈ elems r ↔ x ∈ elems s)) {l m : ℤ} (hl : r.lower = some l)
    (hm : s.lower = some m) : m ≤ l := by
  have hmem : l ∈ elems r := by
    refine (hr.mem_elems l).mpr ⟨fun l' hl' => ?_, fun u hu => hr.lt l hl u hu⟩
    exact (Option.some.inj (hl.symm.trans hl')).ge
  have hmem' := (hset l (hrin.1 l hl).1 (hrin.1 l hl).2).mp hmem
  exact ((hs.mem_elems l).mp hmem').1 m hm

/-- An upper bound is not in a range of the same values and lower bound, which so ends no later. -/
theorem HalfOpen.upper_le (hr : HalfOpen r) (hs : HalfOpen s) (hrin : BoundsIn lo hi r)
    (hset : ∀ x, lo ≤ x → x ≤ hi → (x ∈ elems r ↔ x ∈ elems s)) (hlower : r.lower = s.lower) {u : ℤ}
    (hu : r.upper = some u) : ∃ w, s.upper = some w ∧ w ≤ u := by
  have hout : u ∉ elems s := by
    intro hmem
    have hmem' := (hset u (hrin.2 u hu).1 (hrin.2 u hu).2).mpr hmem
    exact absurd (((hr.mem_elems u).mp hmem').2 u hu) (lt_irrefl u)
  rw [hs.mem_elems, not_and] at hout
  have hafter : ∀ l ∈ s.lower, l ≤ u := fun l hl => (hr.lt l (hlower.trans hl) u hu).le
  have hends := hout hafter
  push Not at hends
  exact hends

/-- The bounds are determined by the values between them, and by whether there is a lower one. -/
theorem HalfOpen.ext_of_values (hr : HalfOpen r) (hs : HalfOpen s) (hrin : BoundsIn lo hi r)
    (hsin : BoundsIn lo hi s) (hset : ∀ x, lo ≤ x → x ≤ hi → (x ∈ elems r ↔ x ∈ elems s))
    (hnone : r.lower = none ↔ s.lower = none) : r = s := by
  have hset' : ∀ x, lo ≤ x → x ≤ hi → (x ∈ elems s ↔ x ∈ elems r) := fun x h1 h2 => (hset x h1 h2).symm
  have hlower : r.lower = s.lower := by
    cases hl : r.lower with
    | none => exact (hnone.mp hl).symm
    | some l =>
      cases hm : s.lower with
      | none => exact absurd ((hnone.mpr hm).symm.trans hl) (Option.some_ne_none l).symm
      | some m =>
        have h1 := hr.lower_le hs hrin hset hl hm
        have h2 := hs.lower_le hr hsin hset' hm hl
        rw [le_antisymm h1 h2]
  have hupper : r.upper = s.upper := by
    cases hu : r.upper with
    | none =>
      cases hw : s.upper with
      | none => rfl
      | some w =>
        obtain ⟨u, hu', -⟩ := hs.upper_le hr hsin hset' hlower.symm hw
        exact absurd (hu.symm.trans hu') (Option.some_ne_none u).symm
    | some u =>
      obtain ⟨w, hw, hwu⟩ := hr.upper_le hs hrin hset hlower hu
      obtain ⟨u', hu', huw⟩ := hs.upper_le hr hsin hset' hlower.symm hw
      obtain rfl : u = u' := Option.some.inj (hu.symm.trans hu')
      rw [hw, le_antisymm huw hwu]
  obtain ⟨e, l, u, li, ui⟩ := r
  obtain ⟨e', l', u', li', ui'⟩ := s
  obtain rfl : l = l' := hlower
  obtain rfl : u = u' := hupper
  obtain rfl : e = e' := hr.notEmpty.trans hs.notEmpty.symm
  obtain rfl : li = li' := hr.lowerInc.trans hs.lowerInc.symm
  obtain rfl : ui = ui' := hr.upperInc.trans hs.upperInc.symm
  rfl

end Values

end Secantus.Ranges

namespace Secantus.Ranges.Literal

open Secantus PgNumeric Outcome Element

variable (reader : DateReader) (e : Element)

/-! ## Ranges of texts and of numbers -/

/-- The number of a bound's text. -/
def boundNumber (t : Text) : Option ℤ :=
  match castValue reader e t with
  | .ok v => v.number
  | .error _ => none

def readBound : Option Text → Option (Option ℤ)
  | none => some none
  | some t => (boundNumber reader e t).map some

/-- The range of numbers that a range of texts is. -/
def read (r : Range Text) : Option (Range ℤ) := do
  let lower ← readBound reader e r.lower
  let upper ← readBound reader e r.upper
  return ⟨r.empty, lower, upper, r.lowerInc, r.upperInc⟩

/-- The values of the type in a range of texts. -/
def elements (r : Range Text) : Set ℤ := {x | e.IsValue x ∧ ∃ v, read reader e r = some v ∧ x ∈ elems v}

def write (v : Range ℤ) : Range Text := ⟨v.empty, v.lower.map e.text, v.upper.map e.text, v.lowerInc, v.upperInc⟩

/-- Every date is infinite or of a four-digit year, and no bound is stepped from the last value. -/
def Stays (r : Range Text) : Prop :=
  (e = .date → (read reader e r).isSome = true) ∧
    ∀ v, read reader e r = some v →
      (v.lowerInc = false → v.lower ≠ some e.last) ∧ (v.upperInc = true → v.upper ≠ some e.last)

/-- A range that is not empty goes below every value. -/
def Unbounded (r : Range Text) : Prop := r.empty = false ∧ r.lower = none

/-- The values that have no next one in the type. -/
def Element.NoNext : Element → ℤ → Prop
  | .int4, n => n = 2 ^ 31 - 1
  | .int8, n => n = 2 ^ 63 - 1
  | .date, n => n = -2 ^ 31 ∨ n = 2 ^ 31 - 1

/-- The canonical form of a discrete range, `empty` or `[lo,hi)`. -/
def CanonicalForm (r : Range Text) : Prop :=
  r = Range.none ∨ r.empty = false ∧ r.lowerInc = r.lower.isSome ∧ r.upperInc = false

/-- Bounds whose texts are in their order. -/
def OrdinaryBounds (v : Range ℤ) : Prop := (∀ l ∈ v.lower, e.Ordinary l) ∧ ∀ u ∈ v.upper, e.Ordinary u

variable {reader e}

/-! ## One bound -/

theorem boundNumber_text {n : ℤ} (h : e.Ordinary n) : boundNumber reader e (e.text n) = some n := by
  unfold boundNumber
  rw [castValue_text reader h]
  exact number_value h

theorem readBound_text {b : Option ℤ} (h : ∀ n ∈ b, e.Ordinary n) :
    readBound reader e (b.map e.text) = some b := by
  cases b with
  | none => rfl
  | some n =>
    show (boundNumber reader e (e.text n)).map some = _
    rw [boundNumber_text (h n rfl)]
    rfl

/-- The bounds that read as numbers are cast to the texts of these. -/
theorem castBound_eq {b : Option Text} {b' : Option ℤ} (h : readBound reader e b = some b') :
    castBound reader e b = .ok (b'.map e.text) ∧ ∀ n ∈ b', e.Ordinary n := by
  cases b with
  | none =>
    obtain rfl : none = b' := Option.some.inj h
    exact ⟨rfl, fun n hn => absurd hn (Option.not_mem_none n)⟩
  | some t =>
    obtain ⟨n, hn, rfl⟩ := Option.map_eq_some_iff.mp h
    unfold boundNumber at hn
    split at hn
    · next v hv =>
      obtain ⟨hord, rfl⟩ := castValue_eq_ok hv hn
      refine ⟨?_, fun k hk => Option.some.inj hk ▸ hord⟩
      show (castValue reader e t).bind _ = _
      rw [hv]
      show Except.ok (some (renderValueText (e.value n))) = _
      rw [renderValueText_value]
      rfl
    · cases hn

theorem readBound_isSome {b : Option Text} {c : Option Text} (hdate : e ≠ .date)
    (h : castBound reader e b = .ok c) : ∃ b', readBound reader e b = some b' := by
  cases b with
  | none => exact ⟨none, rfl⟩
  | some t =>
    obtain ⟨v, hv, -⟩ := bind_eq_ok.mp h
    have hint : ∃ n, v = .int n := by
      cases e with
      | int4 => exact (castInteger_eq_ok hv).imp fun n hn => hn.2
      | int8 => exact (castInteger_eq_ok hv).imp fun n hn => hn.2
      | date => exact absurd rfl hdate
    obtain ⟨n, rfl⟩ := hint
    refine ⟨some n, ?_⟩
    show (boundNumber reader e t).map some = _
    unfold boundNumber
    rw [hv]
    rfl

/-- The bound of numbers after `stepBound`. -/
def nextBound (steps : Bool) (b : Option ℤ) : Option ℤ := if steps then b.map (· + 1) else b

theorem stepBound_text {b : Option ℤ} (hord : ∀ n ∈ b, e.Ordinary n) {steps : Bool}
    (hlast : steps = true → b ≠ some e.last) {c : Option Text}
    (h : stepBound reader e steps (b.map e.text) = .ok c) :
    c = (nextBound steps b).map e.text ∧ ∀ n ∈ nextBound steps b, e.Ordinary n := by
  cases steps with
  | false => exact ⟨(Except.ok.inj h).symm, hord⟩
  | true =>
    cases b with
    | none => exact ⟨(Except.ok.inj h).symm, fun n hn => absurd hn (Option.not_mem_none n)⟩
    | some n =>
      obtain ⟨t, ht, h⟩ := bind_eq_ok.mp h
      obtain rfl : some t = c := Except.ok.inj h
      obtain ⟨hnext, rfl⟩ := step_text reader (hord n rfl) (fun hn => hlast rfl (congrArg some hn)) ht
      exact ⟨rfl, fun k hk => Option.some.inj hk ▸ hnext⟩

/-! ## The range -/

theorem read_write {v : Range ℤ} (h : OrdinaryBounds e v) : read reader e (write e v) = some v := by
  unfold read write
  rw [readBound_text h.1, readBound_text h.2]
  rfl

theorem read_eq_some {r : Range Text} {v : Range ℤ} (h : read reader e r = some v) :
    readBound reader e r.lower = some v.lower ∧ readBound reader e r.upper = some v.upper ∧
      v = ⟨r.empty, v.lower, v.upper, r.lowerInc, r.upperInc⟩ := by
  obtain ⟨lower, hlower, h⟩ := Option.bind_eq_some_iff.mp h
  obtain ⟨upper, hupper, h⟩ := Option.bind_eq_some_iff.mp h
  obtain rfl := Option.some.inj h
  exact ⟨hlower, hupper, rfl⟩

theorem halfOpen_next (v : Range ℤ) : Ranges.halfOpen (· + 1) v =
    ⟨v.empty, nextBound (!v.lowerInc) v.lower, nextBound v.upperInc v.upper, true, false⟩ := by
  obtain ⟨b, lo, hi, li, ui⟩ := v
  cases li <;> rfl

theorem halfOpen_write {v : Range ℤ} (hord : OrdinaryBounds e v) (hlower : v.lowerInc = false → v.lower ≠ some e.last)
    (hupper : v.upperInc = true → v.upper ≠ some e.last) {s : Range Text}
    (h : halfOpen reader e (write e v) = .ok s) :
    s = write e (Ranges.halfOpen (· + 1) v) ∧ OrdinaryBounds e (Ranges.halfOpen (· + 1) v) := by
  obtain ⟨lower, hl, h⟩ := bind_eq_ok.mp h
  obtain ⟨upper, hu, h⟩ := bind_eq_ok.mp h
  obtain rfl := Except.ok.inj h
  obtain ⟨rfl, hlord⟩ := stepBound_text hord.1 (fun hinc => hlower ((Bool.not_eq_true' _).mp hinc)) hl
  obtain ⟨rfl, huord⟩ := stepBound_text hord.2 hupper hu
  rw [halfOpen_next]
  exact ⟨rfl, hlord, huord⟩

theorem excludeInfinite_write (v : Range ℤ) : (write e v).excludeInfinite = write e v.excludeInfinite := by
  obtain ⟨b, lo, hi, li, ui⟩ := v
  unfold write Range.excludeInfinite
  simp only [Option.isSome_map]

theorem checkBounds_write {v : Range ℤ} (hord : OrdinaryBounds e v) {s : Range Text}
    (h : checkBounds reader e (write e v) = .ok s) : ∃ v', Ranges.checkBounds v = .ok v' ∧ s = write e v' := by
  obtain ⟨b, lo, hi, li, ui⟩ := v
  cases lo with
  | none => exact ⟨_, rfl, (Except.ok.inj h).symm⟩
  | some l =>
    cases hi with
    | none => exact ⟨_, rfl, (Except.ok.inj h).symm⟩
    | some u =>
      obtain ⟨ord, hcmp, h⟩ := bind_eq_ok.mp h
      have hcmp' := compareBounds_text reader (hord.1 l rfl) (hord.2 u rfl)
      obtain rfl : compare l u = ord := Except.ok.inj (hcmp'.symm.trans hcmp)
      unfold Ranges.checkBounds
      dsimp only
      cases hlu : compare l u with
      | lt =>
        rw [hlu] at h
        exact ⟨_, rfl, (Except.ok.inj h).symm⟩
      | gt =>
        rw [hlu] at h
        cases h
      | eq =>
        rw [hlu] at h
        dsimp only at h ⊢
        by_cases hinc : (li && ui) = true
        · rw [if_pos hinc]
          refine ⟨_, rfl, ?_⟩
          exact (Except.ok.inj ((if_pos hinc).symm.trans h)).symm
        · rw [if_neg hinc]
          refine ⟨_, rfl, ?_⟩
          exact (Except.ok.inj ((if_neg hinc).symm.trans h)).symm

theorem ordinaryBounds_excludeInfinite {v : Range ℤ} (h : OrdinaryBounds e v) :
    OrdinaryBounds e v.excludeInfinite := h

theorem ordinaryBounds_checkBounds {v v' : Range ℤ} (hord : OrdinaryBounds e v)
    (h : Ranges.checkBounds v = .ok v') : OrdinaryBounds e v' := by
  have hnone : OrdinaryBounds e Range.none :=
    ⟨fun n hn => absurd hn (Option.not_mem_none n), fun n hn => absurd hn (Option.not_mem_none n)⟩
  unfold Ranges.checkBounds at h
  split at h
  · split at h
    · cases h
    · split at h
      · exact Except.ok.inj h ▸ hord
      · exact Except.ok.inj h ▸ hnone
    · exact Except.ok.inj h ▸ hord
  · exact Except.ok.inj h ▸ hord

/-- What `canonicalise` makes of texts is the text of what it makes of the numbers. -/
theorem canonicalise_refines {r r' : Range Text} {v : Range ℤ} (hr : r.empty = false)
    (hv : read reader e r = some v) (hlower : v.lowerInc = false → v.lower ≠ some e.last)
    (hupper : v.upperInc = true → v.upper ≠ some e.last) (h : canonicalise reader e r = .ok r') :
    ∃ v', Ranges.canonicalise integers v = .ok v' ∧ r' = write e v' ∧ OrdinaryBounds e v' := by
  obtain ⟨hrl, hru, hvr⟩ := read_eq_some hv
  obtain ⟨hcl, hlord⟩ := castBound_eq hrl
  obtain ⟨hcu, huord⟩ := castBound_eq hru
  have hempty : v.empty = false := by rw [hvr]; exact hr
  unfold canonicalise at h
  rw [if_neg (by rw [hr]; exact Bool.false_ne_true), hcl, hcu] at h
  obtain ⟨lower, hl, h⟩ := bind_eq_ok.mp h
  obtain ⟨upper, hu, h⟩ := bind_eq_ok.mp h
  obtain ⟨s, hs, h⟩ := bind_eq_ok.mp h
  obtain rfl := Except.ok.inj hl
  obtain rfl := Except.ok.inj hu
  have hcast : (⟨r.empty, v.lower.map e.text, v.upper.map e.text, r.lowerInc, r.upperInc⟩ : Range Text) = write e v := by
    rw [hvr]
    rfl
  rw [hcast] at hs
  obtain ⟨rfl, hord⟩ := halfOpen_write ⟨hlord, huord⟩ hlower hupper hs
  rw [excludeInfinite_write] at h
  obtain ⟨v', hv', rfl⟩ := checkBounds_write (ordinaryBounds_excludeInfinite hord) h
  refine ⟨v', ?_, rfl, ordinaryBounds_checkBounds (ordinaryBounds_excludeInfinite hord) hv'⟩
  unfold Ranges.canonicalise integers
  rw [if_neg (by rw [hempty]; exact Bool.false_ne_true)]
  exact hv'

/-- An accepted literal whose dates are ordinary reads as a range of numbers. -/
theorem Stays.exists_read {r r' : Range Text} (hstays : Stays reader e r) (hr : r.empty = false)
    (h : canonicalise reader e r = .ok r') : ∃ v, read reader e r = some v := by
  by_cases hdate : e = .date
  · exact Option.isSome_iff_exists.mp (hstays.1 hdate)
  · unfold canonicalise at h
    rw [if_neg (by rw [hr]; exact Bool.false_ne_true)] at h
    obtain ⟨lower, hl, h⟩ := bind_eq_ok.mp h
    obtain ⟨upper, hu, -⟩ := bind_eq_ok.mp h
    obtain ⟨l, hl'⟩ := readBound_isSome hdate hl
    obtain ⟨u, hu'⟩ := readBound_isSome hdate hu
    refine ⟨⟨r.empty, l, u, r.lowerInc, r.upperInc⟩, ?_⟩
    unfold read
    rw [hl', hu']
    rfl

theorem elements_eq {r : Range Text} {v : Range ℤ} (h : read reader e r = some v) (x : ℤ) :
    x ∈ elements reader e r ↔ (e.least ≤ x ∧ x ≤ e.greatest) ∧ x ∈ elems v := by
  unfold elements
  refine and_congr Iff.rfl ?_
  rw [h]
  exact ⟨fun ⟨v', hv', hx⟩ => Option.some.inj hv' ▸ hx, fun hx => ⟨v, rfl, hx⟩⟩

theorem elements_none : elements reader e Range.none = ∅ := by
  rw [Set.eq_empty_iff_forall_notMem]
  intro x hx
  rw [elements_eq (v := Range.none) rfl, elems_of_empty rfl] at hx
  exact hx.2

theorem boundsIn_of_ordinary {v : Range ℤ} (h : OrdinaryBounds e v) : BoundsIn e.least e.greatest v :=
  ⟨fun l hl => (h.1 l hl).isValue, fun u hu => (h.2 u hu).isValue⟩

/-- What becomes of an accepted range of texts: no values and `empty`, or the text of the half-open range of
    its numbers. -/
theorem canonicalise_cases {r r' : Range Text} (hr : r.empty = false) (hstays : Stays reader e r)
    (h : canonicalise reader e r = .ok r') :
    r' = Range.none ∧ elements reader e r = ∅ ∧ r.lower ≠ none ∨
      ∃ v', r' = write e v' ∧ Ranges.HalfOpen v' ∧ OrdinaryBounds e v' ∧ (v'.lower = none ↔ r.lower = none) ∧
        ∀ x, x ∈ elements reader e r ↔ (e.least ≤ x ∧ x ≤ e.greatest) ∧ x ∈ elems v' := by
  obtain ⟨v, hv⟩ := hstays.exists_read hr h
  obtain ⟨hlower, hupper⟩ := hstays.2 v hv
  obtain ⟨v', hv', rfl, hord⟩ := canonicalise_refines hr hv hlower hupper h
  obtain ⟨hrl, -, hvr⟩ := read_eq_some hv
  have hempty : v.empty = false := by rw [hvr]; exact hr
  have hnone : v.lower = none ↔ r.lower = none := by
    cases hl : r.lower with
    | none =>
      rw [hl] at hrl
      exact ⟨fun _ => rfl, fun _ => (Option.some.inj hrl).symm⟩
    | some t =>
      rw [hl] at hrl
      obtain ⟨n, -, hn⟩ := Option.map_eq_some_iff.mp hrl
      simp [← hn]
  rcases canonicalise_integers hempty hv' with ⟨rfl, hset, hlow⟩ | ⟨hopen, hlow, hset⟩
  · refine Or.inl ⟨rfl, ?_, hlow ∘ hnone.mpr⟩
    rw [Set.eq_empty_iff_forall_notMem]
    intro x hx
    rw [elements_eq hv, hset] at hx
    exact hx.2
  · refine Or.inr ⟨v', rfl, hopen, hord, hlow.trans hnone, fun x => ?_⟩
    rw [elements_eq hv, hset]

/-! ## Literals -/

theorem parseLiteral_empty {lit : Text} {r : Range Text} (h : parseLiteral lit = .ok r) (hr : r.empty = true) :
    r = Range.none := by
  unfold parseLiteral at h
  dsimp only at h
  split at h
  · exact (Except.ok.inj h).symm
  · split at h
    · cases h
    · split at h
      · obtain rfl := Except.ok.inj h
        cases hr
      · cases h

theorem fromText_eq {lit : Text} {r : Range Text} (h : parseLiteral lit = .ok r) :
    fromText reader e lit = canonicalise reader e r := by
  unfold fromText
  rw [h]
  rfl

/-- A literal with its canonical range, and what is read of it. -/
structure Accepted (reader : DateReader) (e : Element) (lit : Text) (r r' : Range Text) : Prop where
  parsed : parseLiteral lit = .ok r
  accepted : fromText reader e lit = .ok r'
  stays : Stays reader e r

namespace Accepted

variable {lit : Text} {r r' : Range Text}

theorem canonicalise_eq (h : Accepted reader e lit r r') : canonicalise reader e r = .ok r' :=
  fromText_eq h.parsed ▸ h.accepted

theorem cases (h : Accepted reader e lit r r') :
    r' = Range.none ∧ elements reader e r = ∅ ∧ ¬ Unbounded r ∨
      ∃ v', r' = write e v' ∧ Ranges.HalfOpen v' ∧ OrdinaryBounds e v' ∧ (v'.lower = none ↔ Unbounded r) ∧
        ∀ x, x ∈ elements reader e r ↔ (e.least ≤ x ∧ x ≤ e.greatest) ∧ x ∈ elems v' := by
  cases hr : r.empty with
  | true =>
    obtain rfl := parseLiteral_empty h.parsed hr
    exact Or.inl ⟨(Except.ok.inj h.canonicalise_eq).symm, elements_none, fun hu => Bool.false_ne_true hu.1.symm⟩
  | false =>
    have hunbounded : r.lower = none ↔ Unbounded r := ⟨fun hl => ⟨hr, hl⟩, fun hu => hu.2⟩
    rw [← hunbounded]
    exact canonicalise_cases hr h.stays h.canonicalise_eq

theorem elements_eq (h : Accepted reader e lit r r') : elements reader e r' = elements reader e r := by
  rcases h.cases with ⟨rfl, hset, -⟩ | ⟨v', rfl, -, hord, -, hset⟩
  · rw [hset, elements_none]
  · ext x
    rw [hset, Literal.elements_eq (read_write hord)]

theorem canonicalForm (h : Accepted reader e lit r r') : CanonicalForm r' := by
  rcases h.cases with ⟨rfl, -, -⟩ | ⟨v', rfl, hopen, -, -, -⟩
  · exact Or.inl rfl
  · refine Or.inr ⟨hopen.notEmpty, ?_, hopen.upperInc⟩
    show v'.lowerInc = (v'.lower.map e.text).isSome
    rw [Option.isSome_map]
    exact hopen.lowerInc

theorem least_le_greatest (e : Element) : e.least ≤ e.greatest := by
  cases e <;> decide

theorem text_injective {m n : ℤ} (hm : e.Ordinary m) (hn : e.Ordinary n) (h : e.text m = e.text n) : m = n := by
  have h1 : boundNumber ⟨fun _ => .ok [], fun _ => .ok 0⟩ e (e.text m) = some m := boundNumber_text hm
  rw [h, boundNumber_text hn] at h1
  exact (Option.some.inj h1).symm

theorem ordinary_least (e : Element) : e.Ordinary e.least := by
  cases e with
  | int4 => exact ⟨le_rfl, by decide⟩
  | int8 => exact ⟨le_rfl, by decide⟩
  | date => exact Or.inl rfl

/-- It is `empty` where the literal has no value, but for what is below the least one. -/
theorem empty_iff (h : Accepted reader e lit r r') :
    elements reader e r = ∅ ↔ r'.empty = true ∨ r'.lower = none ∧ r'.upper = some (e.text e.least) := by
  rcases h.cases with ⟨rfl, hset, -⟩ | ⟨v', rfl, hopen, hord, -, hset⟩
  · exact ⟨fun _ => Or.inl rfl, fun _ => hset⟩
  · have hin := boundsIn_of_ordinary hord
    constructor
    · intro hnone
      refine Or.inr ?_
      by_contra hne
      obtain ⟨x, hlo, hhi, hx⟩ := hopen.exists_value hin (least_le_greatest e) fun ⟨hl, hu⟩ => hne
        ⟨congrArg (Option.map e.text) hl, congrArg (Option.map e.text) hu⟩
      exact Set.eq_empty_iff_forall_notMem.mp hnone x ((hset x).mpr ⟨⟨hlo, hhi⟩, hx⟩)
    · rintro (hempty | ⟨-, hu⟩)
      · exact absurd (hempty.symm.trans hopen.notEmpty) Bool.true_eq_false_eq_False.elim
      · obtain ⟨u, huv, htext⟩ := Option.map_eq_some_iff.mp hu
        obtain rfl := text_injective (hord.2 u huv) (ordinary_least e) htext
        rw [Set.eq_empty_iff_forall_notMem]
        intro x hx
        obtain ⟨⟨hlo, -⟩, hx⟩ := (hset x).mp hx
        exact absurd (((hopen.mem_elems x).mp hx).2 _ huv) (not_lt.mpr hlo)

theorem eq_none (h : Accepted reader e lit r r') (hset : elements reader e r = ∅) (hu : ¬ Unbounded r) :
    r' = Range.none := by
  rcases h.cases with ⟨hr', -, -⟩ | ⟨v', rfl, hopen, hord, hlower, hmem⟩
  · exact hr'
  · obtain ⟨x, hlo, hhi, hx⟩ := hopen.exists_value (boundsIn_of_ordinary hord) (least_le_greatest e)
      fun hall => hu (hlower.mp hall.1)
    exact absurd ((hmem x).mpr ⟨⟨hlo, hhi⟩, hx⟩) (Set.eq_empty_iff_forall_notMem.mp hset x)

/-- Literals of the same values have one canonical range, unless just one of them has no lower bound. -/
theorem unique {lit₂ : Text} {r₂ r₂' : Range Text} (h : Accepted reader e lit r r')
    (h₂ : Accepted reader e lit₂ r₂ r₂') (hset : elements reader e r = elements reader e r₂)
    (hlower : Unbounded r ↔ Unbounded r₂) : r' = r₂' := by
  rcases h.cases with ⟨rfl, hnone, hu⟩ | ⟨v, rfl, hopen, hord, hv, hmem⟩
  · exact (h₂.eq_none (hset ▸ hnone) (hlower.not.mp hu)).symm
  · rcases h₂.cases with ⟨rfl, hnone, hu⟩ | ⟨w, rfl, hopen₂, hord₂, hw, hmem₂⟩
    · exact h.eq_none (hset ▸ hnone) (hlower.not.mpr hu)
    · have hvw : v = w := by
        refine hopen.ext_of_values hopen₂ (boundsIn_of_ordinary hord) (boundsIn_of_ordinary hord₂)
          (fun x hlo hhi => ?_) (hv.trans (hlower.trans hw.symm))
        have hx := hmem x
        rw [hset, hmem₂ x] at hx
        exact ⟨fun hxv => (hx.mpr ⟨⟨hlo, hhi⟩, hxv⟩).2, fun hxw => (hx.mp ⟨⟨hlo, hhi⟩, hxw⟩).2⟩
      rw [hvw]

end Accepted

/-! ## Bounds without a next value -/

theorem castValue_past_int4 {v : Value} : castValue reader .int4 (intText (2 ^ 31)) ≠ .ok v := by
  intro h
  change castInteger parseI32 "integer" (intText (2 ^ 31)) = .ok v at h
  obtain ⟨n, hn, -⟩ := castInteger_eq_ok h
  rw [trim_intText, parseI32, parseI64_intText (by decide), Option.filter_some] at hn
  exact absurd hn (by simp)

theorem stepBound_past_int4 {c : Option Text}
    (h : stepBound reader .int4 true (some (intText (2 ^ 31 - 1))) = .ok c) : c = some (intText (2 ^ 31)) := by
  obtain ⟨t, ht, h⟩ := bind_eq_ok.mp h
  unfold step at ht
  have htext := stepInteger_text (n := 2 ^ 31 - 1) (by decide) ht
  rw [sub_add_cancel] at htext
  exact htext ▸ (Except.ok.inj h).symm

theorem stepBound_ne_none {steps : Bool} {b c : Option Text} (hb : b ≠ none)
    (h : stepBound reader e steps b = .ok c) : ∃ t, c = some t := by
  obtain ⟨s, rfl⟩ := Option.ne_none_iff_exists'.mp hb
  cases steps with
  | false => exact ⟨s, (Except.ok.inj h).symm⟩
  | true =>
    obtain ⟨t, -, h⟩ := bind_eq_ok.mp h
    exact ⟨t, (Except.ok.inj h).symm⟩

theorem readBound_ne_none {b : Option Text} {b' : Option ℤ} (hb : b ≠ none)
    (h : readBound reader e b = some b') : b' ≠ none := by
  obtain ⟨t, rfl⟩ := Option.ne_none_iff_exists'.mp hb
  obtain ⟨n, -, rfl⟩ := Option.map_eq_some_iff.mp h
  exact Option.some_ne_none n

/-- A bound of `int4` that is stepped past the type is found when it is compared with the other one. -/
theorem checkBounds_past_int4 {s s' : Range Text} {l u : Text} (hl : s.lower = some l) (hu : s.upper = some u)
    (hpast : l = intText (2 ^ 31) ∨ u = intText (2 ^ 31)) : checkBounds reader .int4 s ≠ .ok s' := by
  intro h
  unfold checkBounds at h
  rw [hl, hu] at h
  obtain ⟨ord, hcmp, -⟩ := bind_eq_ok.mp h
  obtain ⟨a, ha, hcmp⟩ := bind_eq_ok.mp hcmp
  obtain ⟨b, hb, -⟩ := bind_eq_ok.mp hcmp
  rcases hpast with rfl | rfl
  · exact castValue_past_int4 ha
  · exact castValue_past_int4 hb

theorem stepBound_date {n : ℤ} (h : NoNext .date n) {c : Option Text} :
    stepBound reader .date true (some (dayText n)) ≠ .ok c := by
  rcases h with rfl | rfl
  · exact fun h => nomatch h
  · exact fun h => nomatch h

/-- A bound that is stepped and has no next value. -/
def Stuck (e : Element) (v : Range ℤ) : Prop :=
  (v.lowerInc = false ∧ ∃ n, v.lower = some n ∧ e.NoNext n) ∨ v.upperInc = true ∧ ∃ n, v.upper = some n ∧ e.NoNext n

/-- The canonical form of a range with such a bound is an error: for a date always, for an `int4` where it has
    both bounds. -/
theorem canonicalise_stuck {r : Range Text} {v : Range ℤ} (hr : r.empty = false) (hv : read reader e r = some v)
    (hstuck : Stuck e v) (he : e = .date ∨ e = .int4 ∧ r.lower ≠ none ∧ r.upper ≠ none) :
    ∃ err, canonicalise reader e r = .error err := by
  cases hc : canonicalise reader e r with
  | error err => exact ⟨err, rfl⟩
  | ok r' =>
    exfalso
    obtain ⟨hrl, hru, hvr⟩ := read_eq_some hv
    obtain ⟨hcl, -⟩ := castBound_eq hrl
    obtain ⟨hcu, -⟩ := castBound_eq hru
    have hli : v.lowerInc = r.lowerInc := congrArg Range.lowerInc hvr
    have hui : v.upperInc = r.upperInc := congrArg Range.upperInc hvr
    unfold canonicalise at hc
    rw [if_neg (by rw [hr]; exact Bool.false_ne_true), hcl, hcu] at hc
    obtain ⟨lower, hl, hc⟩ := bind_eq_ok.mp hc
    obtain ⟨upper, hu, hc⟩ := bind_eq_ok.mp hc
    obtain rfl := Except.ok.inj hl
    obtain rfl := Except.ok.inj hu
    obtain ⟨s, hs, hc⟩ := bind_eq_ok.mp hc
    obtain ⟨lo, hlo, hs⟩ := bind_eq_ok.mp hs
    obtain ⟨hi, hhi, hs⟩ := bind_eq_ok.mp hs
    obtain rfl := Except.ok.inj hs
    dsimp only at hlo hhi
    rw [← hli] at hlo
    rw [← hui] at hhi
    rcases he with rfl | ⟨rfl, hrlow, hrup⟩
    · rcases hstuck with ⟨hinc, n, hn, hnext⟩ | ⟨hinc, n, hn, hnext⟩
      · rw [hinc, hn] at hlo
        exact stepBound_date hnext hlo
      · rw [hinc, hn] at hhi
        exact stepBound_date hnext hhi
    · have hlne := readBound_ne_none hrlow hrl
      have hune := readBound_ne_none hrup hru
      obtain ⟨l, rfl⟩ := stepBound_ne_none (by simpa using hlne) hlo
      obtain ⟨u, rfl⟩ := stepBound_ne_none (by simpa using hune) hhi
      refine checkBounds_past_int4 (l := l) (u := u) rfl rfl ?_ hc
      rcases hstuck with ⟨hinc, n, hn, rfl⟩ | ⟨hinc, n, hn, rfl⟩
      · rw [hinc, hn] at hlo
        exact Or.inl (Option.some.inj (stepBound_past_int4 hlo))
      · rw [hinc, hn] at hhi
        exact Or.inr (Option.some.inj (stepBound_past_int4 hhi))

/-! ## The main result -/

/-- A literal that is accepted, with no date outside of the four-digit years and no step from the last value,
    has its values in a canonical range, which is `empty` where there are none unless it is all below the least
    one. It is the range of every such literal of these values that has a lower bound where it has. Where a
    stepped bound has no next value the literal is refused: dates always, an `int4` with both bounds. -/
theorem fromText_discrete (reader : DateReader) (e : Element) :
    (∀ lit r r', Accepted reader e lit r r' →
      elements reader e r' = elements reader e r ∧ CanonicalForm r' ∧
        (elements reader e r = ∅ ↔ r'.empty = true ∨ r'.lower = none ∧ r'.upper = some (e.text e.least))) ∧
    (∀ lit₁ r₁ r₁' lit₂ r₂ r₂', Accepted reader e lit₁ r₁ r₁' → Accepted reader e lit₂ r₂ r₂' →
      elements reader e r₁ = elements reader e r₂ → (Unbounded r₁ ↔ Unbounded r₂) → r₁' = r₂') ∧
    ∀ lit r v, parseLiteral lit = .ok r → r.empty = false → read reader e r = some v → Stuck e v →
      (e = .date ∨ e = .int4 ∧ r.lower ≠ none ∧ r.upper ≠ none) → ∃ err, fromText reader e lit = .error err := by
  refine ⟨fun lit r r' h => ⟨h.elements_eq, h.canonicalForm, h.empty_iff⟩, ?_, ?_⟩
  · intro lit₁ r₁ r₁' lit₂ r₂ r₂' h₁ h₂ hset hlower
    exact h₁.unique h₂ hset hlower
  · intro lit r v hparse hr hv hstuck he
    rw [fromText_eq hparse]
    exact canonicalise_stuck hr hv hstuck he

/-- A reader of no date that is not written `YYYY-MM-DD`. -/
def isoOnly : DateReader := ⟨fun t => .error (badRange t), fun t => .error (badRange t)⟩

/-- `(2020-02-28,2020-03-01]` is `[2020-02-29,2020-03-02)`. -/
theorem fromText_discrete_leap :
    ∃ r, parseLiteral "(2020-02-28,2020-03-01]".toList = .ok r ∧
      fromText isoOnly .date "(2020-02-28,2020-03-01]".toList =
        .ok ⟨false, some "2020-02-29".toList, some "2020-03-02".toList, true, false⟩ ∧
      elements isoOnly .date ⟨false, some "2020-02-29".toList, some "2020-03-02".toList, true, false⟩ =
        elements isoOnly .date r := by
  let r : Range Text := ⟨false, some "2020-02-28".toList, some "2020-03-01".toList, false, true⟩
  have hread : read isoOnly .date r = some ⟨false, some 7363, some 7365, false, true⟩ := by decide +kernel
  have hparse : parseLiteral "(2020-02-28,2020-03-01]".toList = .ok r := by decide +kernel
  have hfrom : fromText isoOnly .date "(2020-02-28,2020-03-01]".toList =
      .ok ⟨false, some "2020-02-29".toList, some "2020-03-02".toList, true, false⟩ := by decide +kernel
  have hstays : Stays isoOnly .date r := by
    refine ⟨fun _ => by rw [hread]; rfl, fun v hv => ?_⟩
    obtain rfl := Option.some.inj (hread.symm.trans hv)
    exact ⟨fun _ => by decide, fun _ => by decide⟩
  exact ⟨r, hparse, hfrom, ((fromText_discrete isoOnly .date).1 _ _ _ ⟨hparse, hfrom, hstays⟩).1⟩

/-- `(,5)` and `[-2147483648,5)` have the same `int4` values, and are two canonical ranges. -/
theorem fromText_unbounded :
    ∃ r₁ r₂ r₁' r₂', Accepted isoOnly .int4 "(,5)".toList r₁ r₁' ∧
      Accepted isoOnly .int4 "[-2147483648,5)".toList r₂ r₂' ∧
      elements isoOnly .int4 r₁ = elements isoOnly .int4 r₂ ∧ r₁' ≠ r₂' := by
  let below : Range Text := ⟨false, none, some "5".toList, false, false⟩
  let fromLeast : Range Text := ⟨false, some "-2147483648".toList, some "5".toList, true, false⟩
  have hbelow : read isoOnly .int4 below = some ⟨false, none, some 5, false, false⟩ := by decide
  have hleast : read isoOnly .int4 fromLeast = some ⟨false, some (-2147483648), some 5, true, false⟩ := by
    decide
  refine ⟨below, fromLeast, below, fromLeast, ⟨by decide, by decide, ?_, fun v hv => ?_⟩,
    ⟨by decide +kernel, by decide +kernel, ?_, fun v hv => ?_⟩, ?_, by decide⟩
  · exact fun h => nomatch h
  · obtain rfl := Option.some.inj (hbelow.symm.trans hv)
    exact ⟨fun _ => Option.some_ne_none _ ∘ Eq.symm, fun h => absurd h Bool.false_ne_true⟩
  · exact fun h => nomatch h
  · obtain rfl := Option.some.inj (hleast.symm.trans hv)
    exact ⟨fun h => absurd h.symm Bool.false_ne_true, fun h => absurd h Bool.false_ne_true⟩
  · ext x
    rw [elements_eq hbelow, elements_eq hleast, mem_elems_iff rfl, mem_elems_iff rfl]
    simp [least, greatest]
    omega

end Secantus.Ranges.Literal
