/-
  The set operations of ranges and multiranges are those of their sets of elements, over any total order.

  A bound's place is just before, at, or just after its value, so that `cmp` is the order of the places and a
  range that is not marked empty is a closed interval of places (`Proper`). Every range that the operations
  make has its lower place at or before its upper one, and `canonicalise` leaves it as it is.
-/
import Mathlib.Data.List.Pairwise
import Mathlib.Order.MinMax
import Mathlib.Tactic.Tauto
import Secantus.Ranges.Range

namespace Secantus.Ranges

open Secantus.Library Place

variable {α : Type*}

/-- Where a bound begins or ends a range. -/
def Bound.place (b : Bound α) : Place α :=
  match b.val with
  | none => if b.lower then ⊥ else ⊤
  | some x => near x (if b.inclusive then 0 else if b.lower then 1 else -1)

namespace Range

def low (r : Range α) : Place α := r.lowerBound.place

def high (r : Range α) : Place α := r.upperBound.place

end Range

theorem Range.low_excludeInfinite (r : Range α) : r.excludeInfinite.low = r.low := by
  obtain ⟨e, lo, hi, li, ui⟩ := r
  cases lo <;> rfl

theorem Range.high_excludeInfinite (r : Range α) : r.excludeInfinite.high = r.high := by
  obtain ⟨e, lo, hi, li, ui⟩ := r
  cases hi <;> rfl

theorem excludeInfinite_halfOpen (next : α → α) {r : Range α}
    (hlower : r.lower.isSome = true → r.lowerInc = true) (hupper : r.upper.isSome = true → r.upperInc = false) :
    (halfOpen next r).excludeInfinite = r.excludeInfinite := by
  obtain ⟨e, lo, hi, li, ui⟩ := r
  cases lo with
  | none =>
    cases hi with
    | none => cases li <;> cases ui <;> rfl
    | some u =>
      obtain rfl : ui = false := hupper rfl
      cases li <;> rfl
  | some l =>
    obtain rfl : li = true := hlower rfl
    cases hi with
    | none => cases ui <;> rfl
    | some u =>
      obtain rfl : ui = false := hupper rfl
      rfl

variable [LinearOrder α]

/-! ## Comparing bounds -/

theorem cmp_eq_compare (a b : Bound α) : cmp a b = compare a.place b.place := by
  obtain ⟨va, ia, la⟩ := a
  obtain ⟨vb, ib, lb⟩ := b
  cases va with
  | none =>
    cases vb with
    | none =>
      cases la with
      | true =>
        cases lb with
        | true => exact (compare_eq_iff_eq.mpr rfl).symm
        | false => exact (compare_lt_iff_lt.mpr before_lt_after).symm
      | false =>
        cases lb with
        | true => exact (compare_gt_iff_gt.mpr before_lt_after).symm
        | false => exact (compare_eq_iff_eq.mpr rfl).symm
    | some y =>
      cases la with
      | true => exact (compare_lt_iff_lt.mpr (bot_lt_iff_ne_bot.mpr (near_ne_bot y _))).symm
      | false => exact (compare_gt_iff_gt.mpr (lt_top_iff_ne_top.mpr (near_ne_top y _))).symm
  | some x =>
    cases vb with
    | none =>
      cases lb with
      | true => exact (compare_gt_iff_gt.mpr (bot_lt_iff_ne_bot.mpr (near_ne_bot x _))).symm
      | false => exact (compare_lt_iff_lt.mpr (lt_top_iff_ne_top.mpr (near_ne_top x _))).symm
    | some y =>
      rcases lt_trichotomy x y with hxy | rfl | hxy
      · have hplace : (⟨some x, ia, la⟩ : Bound α).place < (⟨some y, ib, lb⟩ : Bound α).place :=
          near_lt_near.mpr (Or.inl hxy)
        rw [compare_lt_iff_lt.mpr hplace]
        simp only [cmp, compare_lt_iff_lt.mpr hxy]
      · have hsame : ∀ j k : ℤ, compare (near x j) (near x k) = compare j k := by
          intro j k
          rcases lt_trichotomy j k with h | rfl | h
          · rw [compare_lt_iff_lt.mpr h, compare_lt_iff_lt.mpr (near_lt_near.mpr (Or.inr ⟨rfl, h⟩))]
          · rw [compare_eq_iff_eq.mpr rfl, compare_eq_iff_eq.mpr rfl]
          · rw [compare_gt_iff_gt.mpr h, compare_gt_iff_gt.mpr (near_lt_near.mpr (Or.inr ⟨rfl, h⟩))]
        simp only [cmp, Bound.place, hsame, compare_eq_iff_eq.mpr]
        cases ia <;> cases ib <;> cases la <;> cases lb <;> rfl
      · have hplace : (⟨some y, ib, lb⟩ : Bound α).place < (⟨some x, ia, la⟩ : Bound α).place :=
          near_lt_near.mpr (Or.inl hxy)
        rw [compare_gt_iff_gt.mpr hplace]
        simp only [cmp, compare_gt_iff_gt.mpr hxy]

theorem cmp_isLT (a b : Bound α) : (cmp a b).isLT = true ↔ a.place < b.place := by
  rw [cmp_eq_compare, Ordering.isLT_iff_eq_lt, compare_lt_iff_lt]

theorem cmp_isGT (a b : Bound α) : (cmp a b).isGT = true ↔ b.place < a.place := by
  rw [cmp_eq_compare, Ordering.isGT_iff_eq_gt, compare_gt_iff_gt]

theorem cmp_isLE (a b : Bound α) : (cmp a b).isLE = true ↔ a.place ≤ b.place := by
  rw [cmp_eq_compare, Ordering.isLE_iff_ne_gt]
  exact compare_le_iff_le

theorem cmp_isGE (a b : Bound α) : (cmp a b).isGE = true ↔ b.place ≤ a.place := by
  rw [cmp_eq_compare, Ordering.isGE_iff_ne_lt]
  exact compare_ge_iff_ge

/-- An element is in a range where its place is between those of the bounds. -/
theorem containsElem_iff {r : Range α} (hr : r.empty = false) (x : α) :
    containsElem r x = true ↔ r.low ≤ near x 0 ∧ near x 0 ≤ r.high := by
  obtain ⟨e, lo, hi, li, ui⟩ := r
  obtain rfl : e = false := hr
  show (_ && _) = true ↔ (⟨lo, li, true⟩ : Bound α).place ≤ near x 0 ∧ near x 0 ≤ (⟨hi, ui, false⟩ : Bound α).place
  rw [Bool.and_eq_true]
  refine and_congr ?_ ?_
  · cases lo with
    | none => simp [Bound.place]
    | some l =>
      rcases lt_trichotomy l x with h | rfl | h
      · simp [compare_lt_iff_lt.mpr h, Bound.place, near_le_near, h]
      · cases li <;> simp [Bound.place, near_le_near]
      · simp [compare_gt_iff_gt.mpr h, Bound.place, near_le_near, h.ne', not_lt.mpr h.le]
  · cases hi with
    | none => simp [Bound.place]
    | some u =>
      rcases lt_trichotomy u x with h | rfl | h
      · simp [compare_lt_iff_lt.mpr h, Bound.place, near_le_near, h.ne', not_lt.mpr h.le]
      · cases ui <;> simp [Bound.place, near_le_near]
      · simp [compare_gt_iff_gt.mpr h, Bound.place, near_le_near, h]

/-! ## Ranges as the type stores them -/

/-- A finite bound of a discrete type includes its value exactly when it is a lower one. -/
def RangeType.Allows (t : RangeType α) (b : Bound α) : Prop :=
  t.step.isSome = true → b.val.isSome = true → b.inclusive = b.lower

omit [LinearOrder α] in
theorem allows_flip {t : RangeType α} {b : Bound α} (h : t.Allows b) : t.Allows b.flip :=
  fun hstep hval => congrArg (!·) (h hstep hval)

/-- A range that is not marked empty, as `canonicalise` leaves it. -/
structure Proper (t : RangeType α) (r : Range α) : Prop where
  notEmpty : r.empty = false
  low_le_high : r.low ≤ r.high
  lowerInfinite : r.lower = none → r.lowerInc = false
  upperInfinite : r.upper = none → r.upperInc = false
  allowsLower : t.Allows r.lowerBound
  allowsUpper : t.Allows r.upperBound

/-- A range that a range type can hold. -/
def Canonical (t : RangeType α) (r : Range α) : Prop := r.empty = true ∨ Proper t r

theorem canonical_none (t : RangeType α) : Canonical t Range.none := Or.inl rfl

theorem canonicalise_of_allows {t : RangeType α} {r : Range α} (hr : r.empty = false)
    (hlower : t.Allows r.lowerBound) (hupper : t.Allows r.upperBound) (hle : r.low ≤ r.high) :
    canonicalise t r = .ok r.excludeInfinite := by
  have hchecked : canonicalise t r = checkBounds r.excludeInfinite := by
    unfold canonicalise
    rw [if_neg (by rw [hr]; exact Bool.false_ne_true)]
    cases hs : t.step with
    | none => rfl
    | some next =>
      show checkBounds (halfOpen next r).excludeInfinite = _
      rw [excludeInfinite_halfOpen next (hlower (by rw [hs]; rfl)) (hupper (by rw [hs]; rfl))]
  rw [hchecked]
  obtain ⟨e, lo, hi, li, ui⟩ := r
  cases lo with
  | none => rfl
  | some l =>
    cases hi with
    | none => rfl
    | some u =>
      rcases near_le_near.mp hle with hlt | ⟨rfl, hflags⟩
      · simp only [checkBounds, Range.excludeInfinite, compare_lt_iff_lt.mpr hlt]
      · -- at one value both bounds include it
        cases li <;> cases ui <;> simp_all [checkBounds, Range.excludeInfinite, Range.lowerBound, Range.upperBound]

theorem proper_excludeInfinite {t : RangeType α} {r : Range α} (hr : r.empty = false) (hlower : t.Allows r.lowerBound)
    (hupper : t.Allows r.upperBound) (hle : r.low ≤ r.high) : Proper t r.excludeInfinite where
  notEmpty := hr
  low_le_high := by rw [Range.low_excludeInfinite, Range.high_excludeInfinite]; exact hle
  lowerInfinite h := by
    change r.lower = none at h
    show (r.lower.isSome && r.lowerInc) = false
    rw [h]
    rfl
  upperInfinite h := by
    change r.upper = none at h
    show (r.upper.isSome && r.upperInc) = false
    rw [h]
    rfl
  allowsLower hstep hval := by
    show (r.lower.isSome && r.lowerInc) = true
    rw [show r.lower.isSome = true from hval]
    exact hlower hstep hval
  allowsUpper hstep hval := by
    show (r.upper.isSome && r.upperInc) = false
    rw [show r.upper.isSome = true from hval]
    exact hupper hstep hval

/-- Between two bounds in order `make` makes the range from the one to the other. -/
theorem make_spec {t : RangeType α} {lo hi : Bound α} (hlo : lo.lower = true) (hhi : hi.lower = false)
    (hlower : t.Allows lo) (hupper : t.Allows hi) (hle : lo.place ≤ hi.place) :
    ∃ r, make t lo hi = .ok r ∧ Proper t r ∧ r.low = lo.place ∧ r.high = hi.place := by
  obtain ⟨lv, li, ll⟩ := lo
  obtain ⟨hv, ui, hl⟩ := hi
  obtain rfl : ll = true := hlo
  obtain rfl : hl = false := hhi
  refine ⟨(⟨false, lv, hv, li, ui⟩ : Range α).excludeInfinite, canonicalise_of_allows rfl hlower hupper hle,
    proper_excludeInfinite rfl hlower hupper hle, Range.low_excludeInfinite _, Range.high_excludeInfinite _⟩

/-! ## Two ranges -/

theorem containsElem_of_empty {r : Range α} (h : r.empty = true) (x : α) : containsElem r x = false := by
  unfold containsElem
  rw [if_pos h]

theorem Proper.contains {t : RangeType α} {r : Range α} (h : Proper t r) (x : α) :
    containsElem r x = true ↔ r.low ≤ near x 0 ∧ near x 0 ≤ r.high :=
  containsElem_iff h.notEmpty x

theorem Proper.overlaps_iff {t : RangeType α} {a b : Range α} (ha : Proper t a) (hb : Proper t b) :
    overlaps a b = true ↔ a.low ≤ b.high ∧ b.low ≤ a.high := by
  unfold overlaps
  rw [if_neg (by simp [ha.notEmpty, hb.notEmpty])]
  simp only [Bool.or_eq_true, Bool.and_eq_true, cmp_isGE, cmp_isLE]
  show (b.low ≤ a.low ∧ a.low ≤ b.high) ∨ (a.low ≤ b.low ∧ b.low ≤ a.high) ↔ _
  constructor
  · rintro (⟨h, h'⟩ | ⟨h, h'⟩)
    · exact ⟨h', h.trans ha.low_le_high⟩
    · exact ⟨h.trans hb.low_le_high, h'⟩
  · rintro ⟨h, h'⟩
    rcases le_total b.low a.low with hle | hle
    · exact Or.inl ⟨hle, h⟩
    · exact Or.inr ⟨hle, h'⟩

/-- An upper bound and a lower one are adjacent when the one is in the place just after the other's. -/
theorem boundsAdjacent_iff {up lo : Bound α} (hup : up.lower = false) (hlo : lo.lower = true) :
    boundsAdjacent up lo = true ↔ ∃ v k, up.place = near v k ∧ lo.place = near v (k + 1) := by
  obtain ⟨vu, iu, lu⟩ := up
  obtain ⟨vl, il, ll⟩ := lo
  obtain rfl : lu = false := hup
  obtain rfl : ll = true := hlo
  cases vu with
  | none =>
    refine ⟨fun h => (by cases h), ?_⟩
    rintro ⟨v, k, h, -⟩
    exact absurd h.symm (near_ne_top v k)
  | some u =>
    cases vl with
    | none =>
      refine ⟨fun h => (by cases h), ?_⟩
      rintro ⟨v, k, -, h⟩
      exact absurd h.symm (near_ne_bot v (k + 1))
    | some l =>
      simp only [boundsAdjacent, Bool.and_eq_true, decide_eq_true_eq, compare_eq_iff_eq, bne_iff_ne, ne_eq]
      constructor
      · rintro ⟨rfl, hne⟩
        cases iu with
        | true =>
          cases il with
          | true => exact absurd rfl hne
          | false => exact ⟨u, 0, rfl, rfl⟩
        | false =>
          cases il with
          | true => exact ⟨u, -1, rfl, rfl⟩
          | false => exact absurd rfl hne
      · rintro ⟨v, k, hu, hl⟩
        obtain ⟨rfl, hk⟩ := near_inj.mp hu
        obtain ⟨rfl, hk'⟩ := near_inj.mp hl
        refine ⟨rfl, ?_⟩
        rintro rfl
        cases iu <;> simp at hk hk' <;> omega

/-- The place of a range's upper bound is just before that of another's lower one. -/
def EndsAt (a b : Range α) : Prop := ∃ v k, a.high = near v k ∧ b.low = near v (k + 1)

theorem EndsAt.lt {a b : Range α} (h : EndsAt a b) : a.high < b.low := by
  obtain ⟨v, k, hhigh, hlow⟩ := h
  rw [hhigh, hlow]
  exact near_lt_near.mpr (Or.inr ⟨rfl, Int.lt_succ k⟩)

theorem EndsAt.le_or_le {a b : Range α} (h : EndsAt a b) (p : Place α) : p ≤ a.high ∨ b.low ≤ p := by
  obtain ⟨v, k, hhigh, hlow⟩ := h
  rw [hhigh, hlow, near_succ_le_iff]
  exact le_or_gt p (near v k)

theorem Proper.adjacent_iff {t : RangeType α} {a b : Range α} (ha : Proper t a) (hb : Proper t b) :
    adjacent a b = true ↔ EndsAt a b ∨ EndsAt b a := by
  unfold adjacent
  rw [if_neg (by simp [ha.notEmpty, hb.notEmpty]), Bool.or_eq_true, boundsAdjacent_iff rfl rfl,
    boundsAdjacent_iff rfl rfl]
  rfl

/-- Nothing lies between two ranges that overlap or are adjacent. -/
theorem Proper.le_or_le_of_contiguous {t : RangeType α} {a b : Range α} (ha : Proper t a) (hb : Proper t b)
    (h : overlaps a b = true ∨ adjacent a b = true) (p : Place α) : p ≤ a.high ∨ b.low ≤ p := by
  rcases h with h | h
  · obtain ⟨-, hle⟩ := (ha.overlaps_iff hb).mp h
    rcases le_total p a.high with hp | hp
    · exact Or.inl hp
    · exact Or.inr (hle.trans hp)
  · rcases (ha.adjacent_iff hb).mp h with h | h
    · exact h.le_or_le p
    · -- `b` ends where `a` begins
      have hle : b.low ≤ a.high := hb.low_le_high.trans (h.lt.le.trans ha.low_le_high)
      rcases le_total p a.high with hp | hp
      · exact Or.inl hp
      · exact Or.inr (hle.trans hp)

theorem overlaps_comm (a b : Range α) : overlaps a b = overlaps b a := by
  unfold overlaps
  rw [Bool.or_comm a.empty, Bool.or_comm ((cmp a.lowerBound b.lowerBound).isGE && _)]

theorem adjacent_comm (a b : Range α) : adjacent a b = adjacent b a := by
  unfold adjacent
  rw [Bool.or_comm a.empty, Bool.or_comm (boundsAdjacent a.upperBound _)]

/-- The lesser of two lower bounds, or the greater, is in the lesser or the greater place. -/
theorem place_ite_isLE (a b : Bound α) :
    (if (cmp a b).isLE then a else b).place = min a.place b.place := by
  by_cases h : (cmp a b).isLE = true
  · rw [if_pos h, min_eq_left ((cmp_isLE a b).mp h)]
  · rw [if_neg h, min_eq_right (le_of_lt (not_le.mp fun hle => h ((cmp_isLE a b).mpr hle)))]

theorem place_ite_isGE (a b : Bound α) :
    (if (cmp a b).isGE then a else b).place = max a.place b.place := by
  by_cases h : (cmp a b).isGE = true
  · rw [if_pos h, max_eq_left ((cmp_isGE a b).mp h)]
  · rw [if_neg h, max_eq_right (le_of_lt (not_le.mp fun hle => h ((cmp_isGE a b).mpr hle)))]

/-- `make` from the one or the other of two ranges' bounds. -/
theorem make_ite {t : RangeType α} {a b : Range α} (ha : Proper t a) (hb : Proper t b) (c d : Bool)
    (hle : (if c then a.lowerBound else b.lowerBound).place ≤ (if d then a.upperBound else b.upperBound).place) :
    ∃ r, make t (if c then a.lowerBound else b.lowerBound) (if d then a.upperBound else b.upperBound) = .ok r ∧
      Proper t r ∧ r.low = (if c then a.lowerBound else b.lowerBound).place ∧
      r.high = (if d then a.upperBound else b.upperBound).place := by
  refine make_spec ?_ ?_ ?_ ?_ hle
  · cases c <;> rfl
  · cases d <;> rfl
  · cases c
    · exact hb.allowsLower
    · exact ha.allowsLower
  · cases d
    · exact hb.allowsUpper
    · exact ha.allowsUpper

/-- A union of two ranges that overlap or are adjacent has the elements of both; there is none of others. -/
theorem union_spec {t : RangeType α} {a b : Range α} (ha : Canonical t a) (hb : Canonical t b) :
    (∃ c, union t a b true = .ok c ∧ Canonical t c ∧
        ∀ x, containsElem c x = true ↔ containsElem a x = true ∨ containsElem b x = true) ∨
      (a.empty = false ∧ b.empty = false ∧ overlaps a b = false ∧ adjacent a b = false ∧
        union t a b true = .error ⟨"result of range union would not be contiguous"⟩) := by
  unfold union
  cases hea : a.empty with
  | true => exact Or.inl ⟨b, rfl, hb, fun x => by rw [containsElem_of_empty hea]; simp⟩
  | false =>
    cases heb : b.empty with
    | true => exact Or.inl ⟨a, rfl, ha, fun x => by rw [containsElem_of_empty heb]; simp⟩
    | false =>
      have hpa : Proper t a := ha.resolve_left (by rw [hea]; exact Bool.false_ne_true)
      have hpb : Proper t b := hb.resolve_left (by rw [heb]; exact Bool.false_ne_true)
      by_cases hcont : overlaps a b = true ∨ adjacent a b = true
      · have hpass : (true && !overlaps a b && !adjacent a b) = false := by
          rcases hcont with h | h <;> simp [h]
        rw [hpass]
        have hle : min a.lowerBound.place b.lowerBound.place ≤ max a.upperBound.place b.upperBound.place :=
          (min_le_left _ _).trans (hpa.low_le_high.trans (le_max_left _ _))
        rw [← place_ite_isLE, ← place_ite_isGE] at hle
        obtain ⟨r, hr, hproper, hlow, hhigh⟩ := make_ite hpa hpb _ _ hle
        rw [place_ite_isLE] at hlow
        rw [place_ite_isGE] at hhigh
        refine Or.inl ⟨r, hr, Or.inr hproper, fun x => ?_⟩
        rw [hproper.contains, hpa.contains, hpb.contains, hlow, hhigh]
        have hab := hpa.le_or_le_of_contiguous hpb hcont (near x 0)
        have hba := hpb.le_or_le_of_contiguous hpa (by rwa [overlaps_comm, adjacent_comm]) (near x 0)
        show min a.low b.low ≤ _ ∧ _ ≤ max a.high b.high ↔ _
        rw [min_le_iff, le_max_iff]
        tauto
      · rw [not_or, Bool.not_eq_true, Bool.not_eq_true] at hcont
        refine Or.inr ⟨rfl, rfl, hcont.1, hcont.2, ?_⟩
        rw [hcont.1, hcont.2]
        rfl

theorem intersect_spec {t : RangeType α} {a b : Range α} (ha : Canonical t a) (hb : Canonical t b) :
    ∃ c, intersect t a b = .ok c ∧ Canonical t c ∧
      ∀ x, containsElem c x = true ↔ containsElem a x = true ∧ containsElem b x = true := by
  unfold intersect
  cases hea : a.empty with
  | true =>
    exact ⟨Range.none, rfl, canonical_none t, fun x => by
      rw [containsElem_of_empty hea, containsElem_of_empty rfl]; simp⟩
  | false =>
    cases heb : b.empty with
    | true =>
      exact ⟨Range.none, rfl, canonical_none t, fun x => by
        rw [containsElem_of_empty heb, containsElem_of_empty rfl]; simp⟩
    | false =>
      have hpa : Proper t a := ha.resolve_left (by rw [hea]; exact Bool.false_ne_true)
      have hpb : Proper t b := hb.resolve_left (by rw [heb]; exact Bool.false_ne_true)
      cases hov : overlaps a b with
      | false =>
        refine ⟨Range.none, rfl, canonical_none t, fun x => ?_⟩
        rw [containsElem_of_empty rfl, hpa.contains, hpb.contains]
        refine ⟨fun h => (by cases h), fun hboth => ?_⟩
        obtain ⟨⟨hal, hah⟩, hbl, hbh⟩ := hboth
        have := (hpa.overlaps_iff hpb).mpr ⟨hal.trans hbh, hbl.trans hah⟩
        rw [hov] at this
        cases this
      | true =>
        obtain ⟨hab, hba⟩ := (hpa.overlaps_iff hpb).mp hov
        have hle : max a.lowerBound.place b.lowerBound.place ≤ min a.upperBound.place b.upperBound.place :=
          max_le (le_min hpa.low_le_high hab) (le_min hba hpb.low_le_high)
        rw [← place_ite_isLE, ← place_ite_isGE] at hle
        obtain ⟨r, hr, hproper, hlow, hhigh⟩ := make_ite hpa hpb _ _ hle
        rw [place_ite_isGE] at hlow
        rw [place_ite_isLE] at hhigh
        refine ⟨r, hr, Or.inr hproper, fun x => ?_⟩
        rw [hproper.contains, hpa.contains, hpb.contains, hlow, hhigh]
        show max a.low b.low ≤ _ ∧ _ ≤ min a.high b.high ↔ _
        rw [max_le_iff, le_min_iff]
        tauto

/-- What is at or before the flip of a lower bound is before the bound. -/
theorem le_flip_iff {b : Bound α} (hlower : b.lower = true) (hne : b.place ≠ ⊥) (p : Place α) :
    p ≤ b.flip.place ↔ p < b.place := by
  obtain ⟨v, i, l⟩ := b
  obtain rfl : l = true := hlower
  cases v with
  | none => exact absurd rfl hne
  | some y =>
    cases i with
    | true => exact le_near_pred_iff p y 0
    | false => exact le_near_pred_iff p y 1

theorem flip_le_iff {b : Bound α} (hupper : b.lower = false) (hne : b.place ≠ ⊤) (p : Place α) :
    b.flip.place ≤ p ↔ b.place < p := by
  obtain ⟨v, i, l⟩ := b
  obtain rfl : l = false := hupper
  cases v with
  | none => exact absurd rfl hne
  | some y =>
    cases i with
    | true => exact near_succ_le_iff p y 0
    | false => exact near_succ_le_iff p y (-1)

omit [LinearOrder α] in
theorem exists_mem_one {p : Range α → Prop} (r : Range α) : (∃ r' ∈ [r], p r') ↔ p r := by
  simp only [List.mem_singleton, exists_eq_left]

theorem piece_spec {t : RangeType α} {lo hi : Bound α} (hlo : lo.lower = true) (hhi : hi.lower = false)
    (hlower : t.Allows lo) (hupper : t.Allows hi) (hle : lo.place ≤ hi.place) :
    ∃ r, piece t lo hi = .ok [r] ∧ Proper t r ∧ r.low = lo.place ∧ r.high = hi.place := by
  obtain ⟨r, hr, hproper, hlow, hhigh⟩ := make_spec hlo hhi hlower hupper hle
  refine ⟨r, ?_, hproper, hlow, hhigh⟩
  unfold piece
  rw [hr]
  show Except.ok (if r.empty then [] else [r]) = _
  rw [hproper.notEmpty]
  rfl

/-- The part of `a` before `b`, when there is one. -/
theorem before_spec {t : RangeType α} {a b : Range α} (ha : Proper t a) (hb : Proper t b) :
    ∃ ps, pieceBefore t a b = .ok ps ∧
      (∀ p ∈ ps, Proper t p) ∧
      ∀ x, (∃ p ∈ ps, containsElem p x = true) ↔ a.low ≤ near x 0 ∧ near x 0 < b.low := by
  unfold pieceBefore
  by_cases hlt : a.low < b.low
  · rw [if_pos ((cmp_isLT _ _).mpr hlt)]
    have hne : b.lowerBound.place ≠ ⊥ := (bot_le.trans_lt hlt).ne'
    obtain ⟨r, hr, hproper, hlow, hhigh⟩ := piece_spec (t := t) rfl rfl ha.allowsLower
      (allows_flip hb.allowsLower) ((le_flip_iff rfl hne _).mpr hlt)
    refine ⟨[r], hr, by simpa using hproper, fun x => ?_⟩
    rw [exists_mem_one, hproper.contains, hlow, hhigh, le_flip_iff rfl hne]
    rfl
  · rw [if_neg fun h => hlt ((cmp_isLT _ _).mp h)]
    refine ⟨[], rfl, by simp, fun x => ⟨fun h => (by simp at h), fun h => absurd (h.1.trans_lt h.2) hlt⟩⟩

theorem after_spec {t : RangeType α} {a b : Range α} (ha : Proper t a) (hb : Proper t b) :
    ∃ ps, pieceAfter t a b = .ok ps ∧
      (∀ p ∈ ps, Proper t p) ∧
      ∀ x, (∃ p ∈ ps, containsElem p x = true) ↔ b.high < near x 0 ∧ near x 0 ≤ a.high := by
  unfold pieceAfter
  by_cases hlt : b.high < a.high
  · rw [if_pos ((cmp_isGT _ _).mpr hlt)]
    have hne : b.upperBound.place ≠ ⊤ := (hlt.trans_le le_top).ne
    obtain ⟨r, hr, hproper, hlow, hhigh⟩ := piece_spec (t := t) rfl rfl (allows_flip hb.allowsUpper)
      ha.allowsUpper ((flip_le_iff rfl hne _).mpr hlt)
    refine ⟨[r], hr, by simpa using hproper, fun x => ?_⟩
    rw [exists_mem_one, hproper.contains, hlow, hhigh, flip_le_iff rfl hne]
    rfl
  · rw [if_neg fun h => hlt ((cmp_isGT _ _).mp h)]
    refine ⟨[], rfl, by simp, fun x => ⟨fun h => (by simp at h), fun h => absurd (h.1.trans_le h.2) hlt⟩⟩

/-- The pieces of a difference have the elements of the one range that the other has not. -/
theorem minusPieces_spec {t : RangeType α} {a b : Range α} (ha : Canonical t a) (hb : Canonical t b) :
    ∃ ps, minusPieces t a b = .ok ps ∧ (∀ p ∈ ps, Proper t p) ∧
      ∀ x, (∃ p ∈ ps, containsElem p x = true) ↔ containsElem a x = true ∧ ¬ containsElem b x = true := by
  unfold minusPieces
  cases hea : a.empty with
  | true => exact ⟨[], rfl, by simp, fun x => by rw [containsElem_of_empty hea]; simp⟩
  | false =>
    have hpa : Proper t a := ha.resolve_left (by rw [hea]; exact Bool.false_ne_true)
    cases heb : b.empty with
    | true =>
      refine ⟨[a], rfl, by simpa using hpa, fun x => ?_⟩
      rw [exists_mem_one, containsElem_of_empty heb]
      simp
    | false =>
      have hpb : Proper t b := hb.resolve_left (by rw [heb]; exact Bool.false_ne_true)
      cases hov : overlaps a b with
      | false =>
        refine ⟨[a], rfl, by simpa using hpa, fun x => ?_⟩
        rw [exists_mem_one, hpb.contains, hpa.contains]
        refine ⟨fun hx => ⟨hx, fun hx' => ?_⟩, And.left⟩
        have := (hpa.overlaps_iff hpb).mpr ⟨hx.1.trans hx'.2, hx'.1.trans hx.2⟩
        rw [hov] at this
        cases this
      | true =>
        obtain ⟨hab, hba⟩ := (hpa.overlaps_iff hpb).mp hov
        obtain ⟨before, hbefore, hproper, hmem⟩ := before_spec hpa hpb
        obtain ⟨after, hafter, hproper', hmem'⟩ := after_spec hpa hpb
        refine ⟨before ++ after, ?_, ?_, fun x => ?_⟩
        · rw [hbefore, hafter]
          rfl
        · intro p hp
          rcases List.mem_append.mp hp with hp | hp
          · exact hproper p hp
          · exact hproper' p hp
        · have hsplit : (∃ p ∈ before ++ after, containsElem p x = true) ↔
              (∃ p ∈ before, containsElem p x = true) ∨ ∃ p ∈ after, containsElem p x = true := by
            simp only [List.mem_append, or_and_right, exists_or]
          rw [hsplit, hmem, hmem', hpa.contains, hpb.contains, not_and_or, not_le, not_le]
          constructor
          · rintro (⟨h, h'⟩ | ⟨h, h'⟩)
            · exact ⟨⟨h, h'.le.trans hba⟩, Or.inl h'⟩
            · exact ⟨⟨hab.trans h.le, h'⟩, Or.inr h⟩
          · rintro ⟨⟨h, h'⟩, hx | hx⟩
            · exact Or.inl ⟨h, hx⟩
            · exact Or.inr ⟨hx, h'⟩

end Secantus.Ranges
