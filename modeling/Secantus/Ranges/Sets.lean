/-
  Ranges and multiranges as sets of elements.

  The set operations are exact over every total order. The tests (`@>`, `&&`, `<<`, `>>`, `-|-`) compare
  bounds, so they are the tests of the sets just where every range that is not marked empty has an element
  (`Full`): a range type without a step has no canonical form for `(1,2)`, which over the integers has none.
-/
import Mathlib.Order.Bounds.Basic
import Mathlib.Order.CompletePartialOrder
import Secantus.Ranges.Multirange

namespace Secantus.Ranges

open Secantus.Library Place

variable {α : Type*} [LinearOrder α]

/-- The elements of a range. -/
def elems (r : Range α) : Set α := {x | containsElem r x = true}

/-- The elements of a multirange. -/
def multiElems (ms : List (Range α)) : Set α := {x | multirangeContainsElem ms x = true}

/-- All of one set is before all of another. -/
def Before (A B : Set α) : Prop := A.Nonempty ∧ B.Nonempty ∧ ∀ a ∈ A, ∀ b ∈ B, a < b

/-- One set is before another, with nothing between them. -/
def NextTo (A B : Set α) : Prop := Before A B ∧ ¬ ∃ x, (∀ a ∈ A, a < x) ∧ ∀ b ∈ B, x < b

/-- The tests of two ranges are those of their sets. -/
structure Agree (a b : Range α) : Prop where
  contains : containsRange a b = true ↔ elems b ⊆ elems a
  overlaps : Ranges.overlaps a b = true ↔ (elems a ∩ elems b).Nonempty
  leftOf : Ranges.leftOf a b = true ↔ Before (elems a) (elems b)
  rightOf : Ranges.rightOf a b = true ↔ Before (elems b) (elems a)
  adjacent : Ranges.adjacent a b = true ↔ NextTo (elems a) (elems b) ∨ NextTo (elems b) (elems a)

/-- Every range of the type that is not marked empty has an element. -/
def Full (t : RangeType α) : Prop := ∀ r, Canonical t r → r.empty = false → (elems r).Nonempty

/-! ## The tests of ranges -/

section Tests

variable {t : RangeType α}

theorem Proper.mem_elems {r : Range α} (h : Proper t r) (x : α) :
    x ∈ elems r ↔ r.low ≤ near x 0 ∧ near x 0 ≤ r.high :=
  h.contains x

theorem elems_of_empty {r : Range α} (h : r.empty = true) : elems r = ∅ := by
  ext x
  simp [elems, containsElem_of_empty h]

theorem Full.exists_mem (hfull : Full t) {r : Range α} (h : Proper t r) : ∃ x, x ∈ elems r :=
  hfull r (Or.inr h) h.notEmpty

theorem Full.between (hfull : Full t) {lo hi : Bound α} (hlo : lo.lower = true) (hhi : hi.lower = false)
    (hlower : t.Allows lo) (hupper : t.Allows hi) (hle : lo.place ≤ hi.place) :
    ∃ x, lo.place ≤ near x 0 ∧ near x 0 ≤ hi.place := by
  obtain ⟨r, -, hproper, hlow, hhigh⟩ := make_spec hlo hhi hlower hupper hle
  obtain ⟨x, hx⟩ := hfull.exists_mem hproper
  rw [hproper.mem_elems, hlow, hhigh] at hx
  exact ⟨x, hx⟩

/-- There is an element of `a` before `b` where `a` starts before it. -/
theorem Full.exists_before (hfull : Full t) {a b : Range α} (ha : Proper t a) (hb : Proper t b)
    (hlt : a.low < b.low) : ∃ x, a.low ≤ near x 0 ∧ near x 0 < b.low := by
  have hne : b.lowerBound.place ≠ ⊥ := (bot_le.trans_lt hlt).ne'
  obtain ⟨x, hx, hx'⟩ := hfull.between rfl rfl ha.allowsLower (allows_flip hb.allowsLower)
    ((le_flip_iff rfl hne _).mpr hlt)
  exact ⟨x, hx, (le_flip_iff rfl hne _).mp hx'⟩

theorem Full.exists_after (hfull : Full t) {a b : Range α} (ha : Proper t a) (hb : Proper t b)
    (hlt : b.high < a.high) : ∃ x, b.high < near x 0 ∧ near x 0 ≤ a.high := by
  have hne : b.upperBound.place ≠ ⊤ := (hlt.trans_le le_top).ne
  obtain ⟨x, hx, hx'⟩ := hfull.between rfl rfl (allows_flip hb.allowsUpper) ha.allowsUpper
    ((flip_le_iff rfl hne _).mpr hlt)
  exact ⟨x, (flip_le_iff rfl hne _).mp hx, hx'⟩

theorem Full.exists_in_gap (hfull : Full t) {a b : Range α} (ha : Proper t a) (hb : Proper t b)
    (h : Apart a b) : ∃ x, a.high < near x 0 ∧ near x 0 < b.low := by
  have htop : a.upperBound.place ≠ ⊤ := (h.1.trans_le le_top).ne
  have hbot : b.lowerBound.place ≠ ⊥ := (bot_le.trans_lt h.1).ne'
  have hle : a.upperBound.flip.place ≤ b.lowerBound.flip.place := by
    rw [le_flip_iff rfl hbot]
    refine lt_of_le_of_ne ((flip_le_iff rfl htop _).mpr h.1) fun heq => h.2 ?_
    -- the place just after the one is the other's
    rcases cases_near a.upperBound.place with hp | hp | ⟨v, k, hp⟩
    · exact absurd hp (by
        unfold Bound.place Range.upperBound
        cases a.upper with
        | none => exact before_lt_after.ne'
        | some y => exact near_ne_bot _ _)
    · exact absurd hp htop
    · refine ⟨v, k, hp, heq.symm.trans ?_⟩
      refine le_antisymm ?_ ?_
      · rw [flip_le_iff rfl htop, hp]
        exact near_lt_near.mpr (Or.inr ⟨rfl, Int.lt_succ k⟩)
      · rw [near_succ_le_iff, ← hp, ← flip_le_iff rfl htop]
  obtain ⟨x, hx, hx'⟩ := hfull.between rfl rfl (allows_flip ha.allowsUpper) (allows_flip hb.allowsLower) hle
  exact ⟨x, (flip_le_iff rfl htop _).mp hx, (le_flip_iff rfl hbot _).mp hx'⟩

theorem near_zero_lt {x y : α} : near x 0 < near y 0 ↔ x < y := by
  rw [near_lt_near]
  simp

/-- Two ranges have a common element where each begins no later than the other ends. -/
theorem Full.exists_common (hfull : Full t) {a b : Range α} (ha : Proper t a) (hb : Proper t b)
    (hab : a.low ≤ b.high) (hba : b.low ≤ a.high) : (elems a ∩ elems b).Nonempty := by
  have hmk : ∀ {c d : Range α}, Proper t c → Proper t d → c.low ≤ d.high →
      ∃ x, c.low ≤ near x 0 ∧ near x 0 ≤ d.high :=
    fun hc hd hle => hfull.between rfl rfl hc.allowsLower hd.allowsUpper hle
  rcases le_total a.low b.low with hlow | hlow <;> rcases le_total a.high b.high with hhigh | hhigh
  · obtain ⟨x, hx, hx'⟩ := hmk hb ha hba
    exact ⟨x, (ha.mem_elems x).mpr ⟨hlow.trans hx, hx'⟩, (hb.mem_elems x).mpr ⟨hx, hx'.trans hhigh⟩⟩
  · obtain ⟨x, hx, hx'⟩ := hmk hb hb hb.low_le_high
    exact ⟨x, (ha.mem_elems x).mpr ⟨hlow.trans hx, hx'.trans hhigh⟩, (hb.mem_elems x).mpr ⟨hx, hx'⟩⟩
  · obtain ⟨x, hx, hx'⟩ := hmk ha ha ha.low_le_high
    exact ⟨x, (ha.mem_elems x).mpr ⟨hx, hx'⟩, (hb.mem_elems x).mpr ⟨hlow.trans hx, hx'.trans hhigh⟩⟩
  · obtain ⟨x, hx, hx'⟩ := hmk ha hb hab
    exact ⟨x, (ha.mem_elems x).mpr ⟨hx, hx'.trans hhigh⟩, (hb.mem_elems x).mpr ⟨hlow.trans hx, hx'⟩⟩

theorem Full.overlaps_iff (hfull : Full t) {a b : Range α} (ha : Proper t a) (hb : Proper t b) :
    overlaps a b = true ↔ (elems a ∩ elems b).Nonempty := by
  rw [ha.overlaps_iff hb]
  refine ⟨fun h => hfull.exists_common ha hb h.1 h.2, fun ⟨x, hxa, hxb⟩ => ?_⟩
  rw [ha.mem_elems] at hxa
  rw [hb.mem_elems] at hxb
  exact ⟨hxa.1.trans hxb.2, hxb.1.trans hxa.2⟩

theorem Proper.containsRange_iff {a b : Range α} (ha : Proper t a) (hb : Proper t b) :
    containsRange a b = true ↔ a.low ≤ b.low ∧ b.high ≤ a.high := by
  unfold containsRange
  rw [if_neg (by simp [hb.notEmpty]), if_neg (by simp [ha.notEmpty]), Bool.and_eq_true, cmp_isLE, cmp_isGE]
  rfl

theorem Full.contains_iff (hfull : Full t) {a b : Range α} (ha : Proper t a) (hb : Proper t b) :
    containsRange a b = true ↔ elems b ⊆ elems a := by
  rw [ha.containsRange_iff hb]
  constructor
  · rintro ⟨hlow, hhigh⟩ x hx
    rw [hb.mem_elems] at hx
    exact (ha.mem_elems x).mpr ⟨hlow.trans hx.1, hx.2.trans hhigh⟩
  · intro hsub
    obtain ⟨y, hy⟩ := hfull.exists_mem hb
    have hya := (ha.mem_elems y).mp (hsub hy)
    have hyb := (hb.mem_elems y).mp hy
    constructor
    · by_contra hlt
      obtain ⟨x, hx, hx'⟩ := hfull.exists_before hb ha (not_le.mp hlt)
      have hxb : x ∈ elems b := (hb.mem_elems x).mpr ⟨hx, hx'.le.trans (hya.1.trans hyb.2)⟩
      exact absurd ((ha.mem_elems x).mp (hsub hxb)).1 (not_le.mpr hx')
    · by_contra hlt
      obtain ⟨x, hx, hx'⟩ := hfull.exists_after hb ha (not_le.mp hlt)
      have hxb : x ∈ elems b := (hb.mem_elems x).mpr ⟨hyb.1.trans (hya.2.trans hx.le), hx'⟩
      exact absurd ((ha.mem_elems x).mp (hsub hxb)).2 (not_le.mpr hx)

theorem Full.before_iff (hfull : Full t) {a b : Range α} (ha : Proper t a) (hb : Proper t b) :
    a.high < b.low ↔ Before (elems a) (elems b) := by
  constructor
  · intro hlt
    refine ⟨hfull.exists_mem ha, hfull.exists_mem hb, fun x hx y hy => ?_⟩
    exact near_zero_lt.mp (((ha.mem_elems x).mp hx).2.trans_lt (hlt.trans_le ((hb.mem_elems y).mp hy).1))
  · rintro ⟨⟨x, hx⟩, ⟨y, hy⟩, hall⟩
    by_contra hle
    rcases le_or_gt a.low b.high with hab | hba
    · obtain ⟨z, hza, hzb⟩ := hfull.exists_common ha hb hab (not_lt.mp hle)
      exact absurd (hall z hza z hzb) (lt_irrefl z)
    · -- `b` is before `a`
      have hyx : y < x :=
        near_zero_lt.mp (((hb.mem_elems y).mp hy).2.trans_lt (hba.trans_le ((ha.mem_elems x).mp hx).1))
      exact absurd (hall x hx y hy) hyx.le.not_gt

theorem Full.endsAt_iff (hfull : Full t) {a b : Range α} (ha : Proper t a) (hb : Proper t b) :
    EndsAt a b ↔ NextTo (elems a) (elems b) := by
  constructor
  · intro h
    refine ⟨(hfull.before_iff ha hb).mp h.lt, fun ⟨x, hxa, hxb⟩ => ?_⟩
    obtain ⟨y, hy⟩ := hfull.exists_mem ha
    obtain ⟨z, hz⟩ := hfull.exists_mem hb
    rcases h.le_or_le (near x 0) with hle | hle
    · refine absurd (hxa x ((ha.mem_elems x).mpr ⟨?_, hle⟩)) (lt_irrefl x)
      exact ((ha.mem_elems y).mp hy).1.trans (near_zero_lt.mpr (hxa y hy)).le
    · refine absurd (hxb x ((hb.mem_elems x).mpr ⟨hle, ?_⟩)) (lt_irrefl x)
      exact (near_zero_lt.mpr (hxb z hz)).le.trans ((hb.mem_elems z).mp hz).2
  · rintro ⟨hbefore, hgap⟩
    by_contra hends
    obtain ⟨x, hxa, hxb⟩ := hfull.exists_in_gap ha hb ⟨(hfull.before_iff ha hb).mpr hbefore, hends⟩
    refine hgap ⟨x, fun y hy => ?_, fun y hy => ?_⟩
    · exact near_zero_lt.mp (((ha.mem_elems y).mp hy).2.trans_lt hxa)
    · exact near_zero_lt.mp (hxb.trans_le ((hb.mem_elems y).mp hy).1)

theorem Canonical.cases {r : Range α} (h : Canonical t r) : r.empty = true ∨ r.empty = false ∧ Proper t r := by
  rcases h with h | h
  · exact Or.inl h
  · exact Or.inr ⟨h.notEmpty, h⟩

theorem not_before_of_empty {A B : Set α} (h : A = ∅ ∨ B = ∅) : ¬ Before A B := by
  rintro ⟨ha, hb, -⟩
  rcases h with rfl | rfl
  · exact Set.not_nonempty_empty ha
  · exact Set.not_nonempty_empty hb

/-- With a range marked empty no test but containment holds, and neither does that of its set. -/
theorem agree_of_empty {a b : Range α} (h : a.empty = true ∨ b.empty = true)
    (hcontains : containsRange a b = true ↔ elems b ⊆ elems a) : Agree a b := by
  have hor : (a.empty || b.empty) = true := by rcases h with h | h <;> simp [h]
  have hsets : elems a = ∅ ∨ elems b = ∅ := h.imp elems_of_empty elems_of_empty
  refine ⟨hcontains, ?_, ?_, ?_, ?_⟩
  · unfold overlaps
    rw [if_pos hor]
    refine ⟨fun h => (by cases h), fun ⟨x, hxa, hxb⟩ => ?_⟩
    rcases hsets with h | h
    · exact absurd (h ▸ hxa) (Set.notMem_empty x)
    · exact absurd (h ▸ hxb) (Set.notMem_empty x)
  · refine iff_of_false (fun hl => ?_) (not_before_of_empty hsets)
    unfold leftOf at hl
    rcases h with h | h <;> simp [h] at hl
  · refine iff_of_false (fun hl => ?_) (not_before_of_empty hsets.symm)
    unfold rightOf at hl
    rcases h with h | h <;> simp [h] at hl
  · refine iff_of_false (fun hl => ?_) fun hn => ?_
    · unfold adjacent at hl
      rw [if_pos hor] at hl
      cases hl
    · rcases hn with hn | hn
      · exact not_before_of_empty hsets hn.1
      · exact not_before_of_empty hsets.symm hn.1

theorem Full.agree (hfull : Full t) {a b : Range α} (ha : Canonical t a) (hb : Canonical t b) : Agree a b := by
  rcases hb.cases with heb | ⟨heb, hpb⟩
  · refine agree_of_empty (Or.inr heb) (iff_of_true ?_ ?_)
    · unfold containsRange
      rw [if_pos heb]
    · rw [elems_of_empty heb]
      exact Set.empty_subset _
  · rcases ha.cases with hea | ⟨hea, hpa⟩
    · refine agree_of_empty (Or.inl hea) (iff_of_false ?_ fun hsub => ?_)
      · unfold containsRange
        simp [hea, heb]
      · obtain ⟨x, hx⟩ := hfull.exists_mem hpb
        rw [elems_of_empty hea] at hsub
        exact absurd (hsub hx) (Set.notMem_empty x)
    · refine ⟨hfull.contains_iff hpa hpb, hfull.overlaps_iff hpa hpb, ?_, ?_, ?_⟩
      · rw [← hfull.before_iff hpa hpb]
        unfold leftOf
        rw [hea, heb]
        exact cmp_isLT _ _
      · rw [← hfull.before_iff hpb hpa]
        unfold rightOf
        rw [hea, heb]
        exact cmp_isGT _ _
      · rw [hpa.adjacent_iff hpb, hfull.endsAt_iff hpa hpb, hfull.endsAt_iff hpb hpa]

theorem full_of_agree (h : ∀ a b, Canonical t a → Canonical t b → Agree a b) : Full t := by
  intro r hr hne
  have hp : Proper t r := hr.resolve_left (by rw [hne]; exact Bool.false_ne_true)
  have hself := (h r r hr hr).overlaps.mp ((hp.overlaps_iff hp).mpr ⟨hp.low_le_high, hp.low_le_high⟩)
  rwa [Set.inter_self] at hself

/-! ## The tests of multiranges -/

theorem mem_multiElems (ms : List (Range α)) (x : α) : x ∈ multiElems ms ↔ ∃ r ∈ ms, x ∈ elems r :=
  multirangeContainsElem_iff ms x

/-- A range within members that are apart is within one of them. -/
theorem Full.exists_container (hfull : Full t) {y : Range α} (hy : Proper t y) {ms : List (Range α)}
    (hms : Normal t ms) (hsub : ∀ x ∈ elems y, ∃ r ∈ ms, x ∈ elems r) :
    ∃ r ∈ ms, containsRange r y = true := by
  induction ms with
  | nil =>
    obtain ⟨x, hx⟩ := hfull.exists_mem hy
    obtain ⟨r, hr, -⟩ := hsub x hx
    cases hr
  | cons o ms ih =>
    obtain ⟨hafter, hapart⟩ := List.pairwise_cons.mp hms.apart
    have ho := hms.proper o List.mem_cons_self
    have hrest : ∀ r ∈ ms, Proper t r := fun r hr => hms.proper r (List.mem_cons_of_mem _ hr)
    -- an element of `y` that is not beyond `o` is in `o`
    have hin : ∀ x ∈ elems y, (∀ r ∈ ms, near x 0 < r.low) → x ∈ elems o := by
      intro x hx hbefore
      obtain ⟨r, hr, hxr⟩ := hsub x hx
      rcases List.mem_cons.mp hr with rfl | hr
      · exact hxr
      · exact absurd (((hrest r hr).mem_elems x).mp hxr).1 (not_le.mpr (hbefore r hr))
    rcases le_or_gt y.low o.high with hlow | hlow
    · refine ⟨o, List.mem_cons_self, (ho.containsRange_iff hy).mpr ⟨?_, ?_⟩⟩
      · -- the part of `y` before `o` has no element
        by_contra hlt
        obtain ⟨x, hx, hx'⟩ := hfull.exists_before hy ho (not_le.mp hlt)
        obtain ⟨z, hz, hz'⟩ : ∃ z, z ∈ elems y ∧ near z 0 < o.low := by
          rcases le_or_gt (near x 0) y.high with hle | hgt
          · exact ⟨x, (hy.mem_elems x).mpr ⟨hx, hle⟩, hx'⟩
          · obtain ⟨z, hz⟩ := hfull.exists_mem hy
            exact ⟨z, hz, ((hy.mem_elems z).mp hz).2.trans_lt (hgt.trans hx')⟩
        have hzo := hin z hz fun r hr =>
          hz'.trans_le (ho.low_le_high.trans (hafter r hr).1.le)
        exact absurd ((ho.mem_elems z).mp hzo).1 (not_le.mpr hz')
      · -- nor has the part after it
        by_contra hlt
        obtain ⟨z, hzo, hzy, hzr⟩ : ∃ z, o.high < near z 0 ∧ near z 0 ≤ y.high ∧ ∀ r ∈ ms, near z 0 < r.low := by
          cases ms with
          | nil =>
            obtain ⟨z, hz, hz'⟩ := hfull.exists_after hy ho (not_le.mp hlt)
            exact ⟨z, hz, hz', fun r hr => (by cases hr)⟩
          | cons m ms =>
            have hfirst : ∀ r ∈ m :: ms, m.low ≤ r.low := by
              intro r hr
              rcases List.mem_cons.mp hr with rfl | hr
              · exact le_rfl
              · exact (hrest m List.mem_cons_self).low_le_high.trans
                  ((List.pairwise_cons.mp hapart).1 r hr).1.le
            rcases le_or_gt m.low y.high with hle | hgt
            · obtain ⟨z, hz, hz'⟩ := hfull.exists_in_gap ho (hrest m List.mem_cons_self)
                (hafter m List.mem_cons_self)
              exact ⟨z, hz, hz'.le.trans hle, fun r hr => hz'.trans_le (hfirst r hr)⟩
            · obtain ⟨z, hz, hz'⟩ := hfull.exists_after hy ho (not_le.mp hlt)
              exact ⟨z, hz, hz', fun r hr => hz'.trans_lt (hgt.trans_le (hfirst r hr))⟩
        have hz : z ∈ elems y := (hy.mem_elems z).mpr ⟨hlow.trans hzo.le, hzy⟩
        exact absurd ((ho.mem_elems z).mp (hin z hz hzr)).2 (not_le.mpr hzo)
    · -- `y` begins after `o` ends
      obtain ⟨r, hr, hcontains⟩ := ih ⟨hrest, hapart⟩ fun x hx => by
        obtain ⟨r, hr, hxr⟩ := hsub x hx
        rcases List.mem_cons.mp hr with rfl | hr
        · exact absurd (((hy.mem_elems x).mp hx).1.trans ((ho.mem_elems x).mp hxr).2) (not_le.mpr hlow)
        · exact ⟨r, hr, hxr⟩
      exact ⟨r, List.mem_cons_of_mem _ hr, hcontains⟩

/-- An operand as a list of members: a multirange, or one range. -/
def Operand (t : RangeType α) (ms : List (Range α)) : Prop :=
  Normal t ms ∨ ∃ r, Canonical t r ∧ ms = [r]

theorem Operand.canonical {ms : List (Range α)} (h : Operand t ms) : ∀ r ∈ ms, Canonical t r := by
  rcases h with h | ⟨r, hr, rfl⟩
  · exact fun r hr => Or.inr (h.proper r hr)
  · simpa using hr

theorem Operand.normal_filter {ms : List (Range α)} (h : Operand t ms) : Normal t (ms.filter (!·.empty)) := by
  refine ⟨fun r hr => ?_, ?_⟩
  · obtain ⟨hr, hne⟩ := List.mem_filter.mp hr
    exact (h.canonical r hr).resolve_left (by simpa using hne)
  · rcases h with h | ⟨r, -, rfl⟩
    · exact h.apart.sublist List.filter_sublist
    · exact (List.pairwise_singleton _ _).sublist List.filter_sublist

theorem Full.multirangeContains_iff (hfull : Full t) {ma mb : List (Range α)} (ha : Operand t ma)
    (hb : Operand t mb) : multirangeContains ma mb = true ↔ multiElems mb ⊆ multiElems ma := by
  unfold multirangeContains
  simp only [List.all_eq_true, List.any_eq_true]
  constructor
  · intro h x hx
    obtain ⟨y, hy, hxy⟩ := (mem_multiElems mb x).mp hx
    have hne : y.empty = false := by
      by_contra hempty
      rw [elems_of_empty (by simpa using hempty)] at hxy
      exact hxy
    obtain ⟨r, hr, hcontains⟩ := h y (List.mem_filter.mpr ⟨hy, by simp [hne]⟩)
    exact (mem_multiElems ma x).mpr
      ⟨r, hr, (hfull.agree (ha.canonical r hr) (hb.canonical y hy)).contains.mp hcontains hxy⟩
  · intro hsub y hy
    have hpy := hb.normal_filter.proper y hy
    obtain ⟨r, hr, hcontains⟩ := hfull.exists_container hpy ha.normal_filter fun x hx => by
      obtain ⟨r, hr, hxr⟩ := (mem_multiElems ma x).mp
        (hsub ((mem_multiElems mb x).mpr ⟨y, List.mem_of_mem_filter hy, hx⟩))
      refine ⟨r, List.mem_filter.mpr ⟨hr, ?_⟩, hxr⟩
      cases hempty : r.empty with
      | true =>
        rw [elems_of_empty hempty] at hxr
        exact absurd hxr (Set.notMem_empty x)
      | false => rfl
    exact ⟨r, List.mem_of_mem_filter hr, hcontains⟩

theorem Full.multirangeOverlaps_iff (hfull : Full t) {ma mb : List (Range α)} (ha : ∀ r ∈ ma, Canonical t r)
    (hb : ∀ r ∈ mb, Canonical t r) :
    multirangeOverlaps ma mb = true ↔ (multiElems ma ∩ multiElems mb).Nonempty := by
  unfold multirangeOverlaps
  simp only [List.any_eq_true]
  constructor
  · rintro ⟨r, hr, r', hr', hov⟩
    obtain ⟨x, hx, hx'⟩ := (hfull.agree (ha r hr) (hb r' hr')).overlaps.mp hov
    exact ⟨x, (mem_multiElems ma x).mpr ⟨r, hr, hx⟩, (mem_multiElems mb x).mpr ⟨r', hr', hx'⟩⟩
  · rintro ⟨x, hx, hx'⟩
    obtain ⟨r, hr, hx⟩ := (mem_multiElems ma x).mp hx
    obtain ⟨r', hr', hx'⟩ := (mem_multiElems mb x).mp hx'
    exact ⟨r, hr, r', hr', (hfull.agree (ha r hr) (hb r' hr')).overlaps.mpr ⟨x, hx, hx'⟩⟩

theorem Normal.first {ms : List (Range α)} (h : Normal t ms) {f : Range α} (hf : ms.head? = some f) :
    f ∈ ms ∧ ∀ r ∈ ms, f.low ≤ r.low := by
  cases ms with
  | nil => cases hf
  | cons m ms =>
    obtain rfl := Option.some.inj hf
    refine ⟨List.mem_cons_self, fun r hr => ?_⟩
    rcases List.mem_cons.mp hr with rfl | hr
    · exact le_rfl
    · exact (h.proper m List.mem_cons_self).low_le_high.trans ((List.pairwise_cons.mp h.apart).1 r hr).1.le

theorem Normal.last {ms : List (Range α)} (h : Normal t ms) {l : Range α} (hl : ms.getLast? = some l) :
    l ∈ ms ∧ ∀ r ∈ ms, r.high ≤ l.high := by
  obtain ⟨before, rfl⟩ := List.getLast?_eq_some_iff.mp hl
  refine ⟨List.mem_append_right _ List.mem_cons_self, fun r hr => ?_⟩
  rcases List.mem_append.mp hr with hr | hr
  · have hap := (List.pairwise_append.mp h.apart).2.2 r hr l List.mem_cons_self
    exact hap.1.le.trans (h.proper l (List.mem_append_right _ List.mem_cons_self)).low_le_high
  · rw [List.mem_singleton.mp hr]

/-- One multirange is before another, or next to it, just where its last member is before, or next to, the
other's first. -/
theorem Full.spans (hfull : Full t) {x y : List (Range α)} (hx : Normal t x) (hy : Normal t y) {xl yf : Range α}
    (hxl : x.getLast? = some xl) (hyf : y.head? = some yf) :
    (xl.high < yf.low ↔ Before (multiElems x) (multiElems y)) ∧
      (EndsAt xl yf ↔ NextTo (multiElems x) (multiElems y)) := by
  obtain ⟨hxlmem, hxlast⟩ := hx.last hxl
  obtain ⟨hyfmem, hyfirst⟩ := hy.first hyf
  have hpx := hx.proper xl hxlmem
  have hpy := hy.proper yf hyfmem
  have hsubx : elems xl ⊆ multiElems x := fun z hz => (mem_multiElems x z).mpr ⟨xl, hxlmem, hz⟩
  have hsuby : elems yf ⊆ multiElems y := fun z hz => (mem_multiElems y z).mpr ⟨yf, hyfmem, hz⟩
  have hbefore : xl.high < yf.low ↔ Before (multiElems x) (multiElems y) := by
    constructor
    · intro hlt
      have hb := (hfull.before_iff hpx hpy).mp hlt
      refine ⟨hb.1.mono hsubx, hb.2.1.mono hsuby, fun a ha b hb => ?_⟩
      obtain ⟨r, hr, ha⟩ := (mem_multiElems x a).mp ha
      obtain ⟨r', hr', hb⟩ := (mem_multiElems y b).mp hb
      have hle := (((hx.proper r hr).mem_elems a).mp ha).2.trans (hxlast r hr)
      have hle' := (hyfirst r' hr').trans (((hy.proper r' hr').mem_elems b).mp hb).1
      exact near_zero_lt.mp (hle.trans_lt (hlt.trans_le hle'))
    · rintro ⟨-, -, hall⟩
      exact (hfull.before_iff hpx hpy).mpr ⟨hfull.exists_mem hpx, hfull.exists_mem hpy,
        fun a ha b hb => hall a (hsubx ha) b (hsuby hb)⟩
  refine ⟨hbefore, ?_⟩
  rw [hfull.endsAt_iff hpx hpy]
  -- what is after the last member is after all, and what is before the first is before all
  have hupper : ∀ z, (∀ a ∈ multiElems x, a < z) ↔ ∀ a ∈ elems xl, a < z := by
    intro z
    refine ⟨fun h a ha => h a (hsubx ha), fun h a ha => ?_⟩
    obtain ⟨r, hr, ha⟩ := (mem_multiElems x a).mp ha
    by_contra hle
    have hza : near z 0 ≤ near a 0 := near_le_near.mpr (by
      rcases lt_or_eq_of_le (not_lt.mp hle) with h | h
      · exact Or.inl h
      · exact Or.inr ⟨h, le_rfl⟩)
    obtain ⟨b, hb⟩ := hfull.exists_mem hpx
    have hbz : near b 0 < near z 0 := near_zero_lt.mpr (h b hb)
    have hzl : near z 0 ≤ xl.high := hza.trans ((((hx.proper r hr).mem_elems a).mp ha).2.trans (hxlast r hr))
    exact absurd (h z ((hpx.mem_elems z).mpr ⟨((hpx.mem_elems b).mp hb).1.trans hbz.le, hzl⟩)) (lt_irrefl z)
  have hlower : ∀ z, (∀ b ∈ multiElems y, z < b) ↔ ∀ b ∈ elems yf, z < b := by
    intro z
    refine ⟨fun h b hb => h b (hsuby hb), fun h b hb => ?_⟩
    obtain ⟨r, hr, hb⟩ := (mem_multiElems y b).mp hb
    by_contra hle
    have hbz : near b 0 ≤ near z 0 := near_le_near.mpr (by
      rcases lt_or_eq_of_le (not_lt.mp hle) with h | h
      · exact Or.inl h
      · exact Or.inr ⟨h, le_rfl⟩)
    obtain ⟨a, ha⟩ := hfull.exists_mem hpy
    have hza : near z 0 < near a 0 := near_zero_lt.mpr (h a ha)
    have hfz : yf.low ≤ near z 0 := ((hyfirst r hr).trans (((hy.proper r hr).mem_elems b).mp hb).1).trans hbz
    exact absurd (h z ((hpy.mem_elems z).mpr ⟨hfz, hza.le.trans ((hpy.mem_elems a).mp ha).2⟩)) (lt_irrefl z)
  unfold NextTo
  rw [← hbefore, ← hfull.before_iff hpx hpy]
  simp only [hupper, hlower]

theorem multiElems_normalise {ms : List (Range α)} (h : ∀ r ∈ ms, Canonical t r) :
    multiElems (normaliseMultirange ms) = multiElems ms :=
  Set.ext (normaliseMultirange_spec h).2

theorem multiElems_nil : multiElems ([] : List (Range α)) = ∅ := by
  ext x
  simp [multiElems, multirangeContainsElem]

/-- A test of the spans is one of the sets where it is so of members apart, and fails without elements. -/
theorem spansMeet_iff {test : Range α → Range α → Range α → Range α → Bool} {P : Set α → Set α → Prop}
    (hempty : ∀ A B, A = ∅ ∨ B = ∅ → ¬ P A B)
    (htest : ∀ x y, Normal t x → Normal t y → ∀ xf xl yf yl, x.head? = some xf → x.getLast? = some xl →
      y.head? = some yf → y.getLast? = some yl → (test xf xl yf yl = true ↔ P (multiElems x) (multiElems y)))
    {ma mb : List (Range α)} (ha : ∀ r ∈ ma, Canonical t r) (hb : ∀ r ∈ mb, Canonical t r) :
    spansMeet test ma mb = true ↔ P (multiElems ma) (multiElems mb) := by
  rw [← multiElems_normalise ha, ← multiElems_normalise hb]
  have hx := (normaliseMultirange_spec ha).1
  have hy := (normaliseMultirange_spec hb).1
  unfold spansMeet
  generalize normaliseMultirange ma = x at hx ⊢
  generalize normaliseMultirange mb = y at hy ⊢
  cases x with
  | nil => exact iff_of_false (by simp) (hempty _ _ (Or.inl multiElems_nil))
  | cons xf xs =>
    cases y with
    | nil => exact iff_of_false (by simp) (hempty _ _ (Or.inr multiElems_nil))
    | cons yf ys =>
      obtain ⟨xl, hxl⟩ := Option.isSome_iff_exists.mp (show (xf :: xs).getLast?.isSome = true by simp)
      obtain ⟨yl, hyl⟩ := Option.isSome_iff_exists.mp (show (yf :: ys).getLast?.isSome = true by simp)
      simp only [hxl, hyl, List.head?_cons]
      exact htest _ _ hx hy xf xl yf yl rfl hxl rfl hyl

theorem Full.multirangeLeftOf_iff (hfull : Full t) {ma mb : List (Range α)} (ha : ∀ r ∈ ma, Canonical t r)
    (hb : ∀ r ∈ mb, Canonical t r) :
    multirangeLeftOf ma mb = true ↔ Before (multiElems ma) (multiElems mb) := by
  refine spansMeet_iff (t := t) (fun _ _ => not_before_of_empty) ?_ ha hb
  intro x y hx hy xf xl yf yl _ hxl hyf _
  rw [← (hfull.spans hx hy hxl hyf).1]
  exact cmp_isLT _ _

theorem Full.multirangeRightOf_iff (hfull : Full t) {ma mb : List (Range α)} (ha : ∀ r ∈ ma, Canonical t r)
    (hb : ∀ r ∈ mb, Canonical t r) :
    multirangeRightOf ma mb = true ↔ Before (multiElems mb) (multiElems ma) := by
  refine spansMeet_iff (t := t) (P := fun A B => Before B A) (fun _ _ h => not_before_of_empty h.symm) ?_ ha hb
  intro x y hx hy xf xl yf yl hxf _ _ hyl
  rw [← (hfull.spans hy hx hyl hxf).1]
  exact cmp_isGT _ _

theorem Full.multirangeAdjacent_iff (hfull : Full t) {ma mb : List (Range α)} (ha : ∀ r ∈ ma, Canonical t r)
    (hb : ∀ r ∈ mb, Canonical t r) :
    multirangeAdjacent ma mb = true ↔
      NextTo (multiElems ma) (multiElems mb) ∨ NextTo (multiElems mb) (multiElems ma) := by
  refine spansMeet_iff (t := t) (P := fun A B => NextTo A B ∨ NextTo B A) (fun _ _ h hn => ?_) ?_ ha hb
  · rcases hn with hn | hn
    · exact not_before_of_empty h hn.1
    · exact not_before_of_empty h.symm hn.1
  · intro x y hx hy xf xl yf yl hxf hxl hyf hyl
    rw [Bool.or_eq_true, boundsAdjacent_iff rfl rfl, boundsAdjacent_iff rfl rfl]
    exact or_congr (hfull.spans hx hy hxl hyf).2 (hfull.spans hy hx hyl hxf).2

end Tests

/-- The tests of two multiranges are those of their sets. -/
structure MultiAgree (ma mb : List (Range α)) : Prop where
  contains : multirangeContains ma mb = true ↔ multiElems mb ⊆ multiElems ma
  overlaps : multirangeOverlaps ma mb = true ↔ (multiElems ma ∩ multiElems mb).Nonempty
  leftOf : multirangeLeftOf ma mb = true ↔ Before (multiElems ma) (multiElems mb)
  rightOf : multirangeRightOf ma mb = true ↔ Before (multiElems mb) (multiElems ma)
  adjacent : multirangeAdjacent ma mb = true ↔
    NextTo (multiElems ma) (multiElems mb) ∨ NextTo (multiElems mb) (multiElems ma)

theorem Full.multiAgree {t : RangeType α} (hfull : Full t) {ma mb : List (Range α)} (ha : Operand t ma)
    (hb : Operand t mb) : MultiAgree ma mb where
  contains := hfull.multirangeContains_iff ha hb
  overlaps := hfull.multirangeOverlaps_iff ha.canonical hb.canonical
  leftOf := hfull.multirangeLeftOf_iff ha.canonical hb.canonical
  rightOf := hfull.multirangeRightOf_iff ha.canonical hb.canonical
  adjacent := hfull.multirangeAdjacent_iff ha.canonical hb.canonical

/-- Members that are not marked empty, each before the next, neither overlapping nor adjacent to it. -/
def Sorted (t : RangeType α) (ms : List (Range α)) : Prop :=
  (∀ r ∈ ms, Canonical t r ∧ r.empty = false) ∧
    ms.Pairwise fun a b => leftOf a b = true ∧ Disjoint (elems a) (elems b) ∧ adjacent a b = false

theorem Normal.sorted {t : RangeType α} {ms : List (Range α)} (h : Normal t ms) : Sorted t ms := by
  refine ⟨fun r hr => ⟨Or.inr (h.proper r hr), (h.proper r hr).notEmpty⟩, ?_⟩
  refine h.apart.imp_of_mem fun {a b} ha hb hapart => ?_
  have hpa := h.proper a ha
  have hpb := h.proper b hb
  have hle : a.low ≤ b.low := hpa.low_le_high.trans hapart.1.le
  refine ⟨?_, Set.disjoint_left.mpr fun x hxa hxb => ?_, ((hpa.apart_iff hpb hle).mp hapart).2⟩
  · unfold leftOf
    rw [hpa.notEmpty, hpb.notEmpty]
    exact (cmp_isLT _ _).mpr hapart.1
  · exact absurd (((hpb.mem_elems x).mp hxb).1.trans ((hpa.mem_elems x).mp hxa).2) (not_le.mpr hapart.1)

/-- Range algebra is set algebra. The operations of ranges and multiranges over any element type have just the
elements of the set operations (`+` of two ranges that are not contiguous is an error), and normalising keeps
the elements and leaves members that are sorted, not marked empty, disjoint and not adjacent. The tests are
those of the sets just where every range that is not marked empty has an element. -/
theorem range_algebra (t : RangeType α) :
    (∀ a b, Canonical t a → Canonical t b →
      ((∃ c, union t a b true = .ok c ∧ Canonical t c ∧ elems c = elems a ∪ elems b) ∨
          (a.empty = false ∧ b.empty = false ∧ overlaps a b = false ∧ adjacent a b = false ∧
            union t a b true = .error ⟨"result of range union would not be contiguous"⟩)) ∧
        (∃ c, intersect t a b = .ok c ∧ Canonical t c ∧ elems c = elems a ∩ elems b) ∧
        ∃ ps, minusPieces t a b = .ok ps ∧ (∀ p ∈ ps, Canonical t p) ∧ multiElems ps = elems a \ elems b) ∧
      (∀ ma mb, (∀ r ∈ ma, Canonical t r) → (∀ r ∈ mb, Canonical t r) →
        (Sorted t (multirangeUnion ma mb) ∧
            multiElems (multirangeUnion ma mb) = multiElems ma ∪ multiElems mb) ∧
          (∃ m, multirangeIntersect t ma mb = .ok m ∧ Sorted t m ∧
            multiElems m = multiElems ma ∩ multiElems mb) ∧
          ∃ m, multirangeMinus t ma mb = .ok m ∧ Sorted t m ∧ multiElems m = multiElems ma \ multiElems mb) ∧
      (∀ ms, (∀ r ∈ ms, Canonical t r) →
        Sorted t (normaliseMultirange ms) ∧ multiElems (normaliseMultirange ms) = multiElems ms) ∧
      (Full t ↔ (∀ a b, Canonical t a → Canonical t b → Agree a b) ∧
        ∀ ma mb, Operand t ma → Operand t mb → MultiAgree ma mb) := by
  refine ⟨fun a b ha hb => ⟨?_, ?_, ?_⟩, fun ma mb ha hb => ⟨?_, ?_, ?_⟩, fun ms h => ?_,
    fun h => ⟨fun a b ha hb => h.agree ha hb, fun ma mb ha hb => h.multiAgree ha hb⟩,
    fun h => full_of_agree h.1⟩
  · rcases union_spec ha hb with ⟨c, hc, hcanonical, hmem⟩ | h
    · exact Or.inl ⟨c, hc, hcanonical, Set.ext hmem⟩
    · exact Or.inr h
  · obtain ⟨c, hc, hcanonical, hmem⟩ := intersect_spec ha hb
    exact ⟨c, hc, hcanonical, Set.ext hmem⟩
  · obtain ⟨ps, hps, hproper, hmem⟩ := minusPieces_spec ha hb
    exact ⟨ps, hps, fun p hp => Or.inr (hproper p hp), Set.ext fun x => (mem_multiElems ps x).trans (hmem x)⟩
  · obtain ⟨hnormal, hmem⟩ := multirangeUnion_spec ha hb
    exact ⟨hnormal.sorted, Set.ext hmem⟩
  · obtain ⟨m, hm, hnormal, hmem⟩ := multirangeIntersect_spec ha hb
    exact ⟨m, hm, hnormal.sorted, Set.ext hmem⟩
  · obtain ⟨m, hm, hnormal, hmem⟩ := multirangeMinus_spec ha hb
    exact ⟨m, hm, hnormal.sorted, Set.ext hmem⟩
  · exact ⟨(normaliseMultirange_spec h).1.sorted, multiElems_normalise h⟩

/-- Over the integers, as a type without a step, `(0,1)` overlaps itself and has no element. -/
theorem overlaps_without_common_element :
    ¬ ∀ (t : RangeType ℤ) (a b : Range ℤ), Canonical t a → Canonical t b →
      (overlaps a b = true ↔ (elems a ∩ elems b).Nonempty) := by
  intro hall
  have hcanonical : Canonical ⟨none⟩ (⟨false, some 0, some 1, false, false⟩ : Range ℤ) := by
    refine Or.inr ⟨rfl, ?_, fun h => (by cases h), fun h => (by cases h), fun h => (by cases h),
      fun h => (by cases h)⟩
    exact near_le_near.mpr (Or.inl Int.zero_lt_one)
  obtain ⟨x, hx, -⟩ := (hall ⟨none⟩ _ _ hcanonical hcanonical).mp (by decide)
  have hx : near (0 : ℤ) 1 ≤ near x 0 ∧ near x 0 ≤ near (1 : ℤ) (-1) := (containsElem_iff rfl x).mp hx
  rw [near_le_near, near_le_near] at hx
  omega

/-! ## Types whose ranges all have elements -/

theorem full_of_between {t : RangeType α}
    (h : ∀ r, Proper t r → ∃ x, r.low ≤ near x 0 ∧ near x 0 ≤ r.high) : Full t := by
  intro r hr hne
  have hp := hr.resolve_left (by rw [hne]; exact Bool.false_ne_true)
  obtain ⟨x, hx⟩ := h r hp
  exact ⟨x, (hp.mem_elems x).mpr hx⟩

/-- Where something lies between any two elements, and before and after any. -/
theorem full_of_dense [DenselyOrdered α] [NoMinOrder α] [NoMaxOrder α] [Nonempty α] : Full (⟨none⟩ : RangeType α) := by
  refine full_of_between fun r hp => ?_
  have hle := hp.low_le_high
  obtain ⟨e, lo, hi, li, ui⟩ := r
  cases lo with
  | none =>
    cases hi with
    | none =>
      obtain ⟨x⟩ := ‹Nonempty α›
      exact ⟨x, bot_le, le_top⟩
    | some u =>
      obtain ⟨x, hx⟩ := exists_lt u
      exact ⟨x, bot_le, near_le_near.mpr (Or.inl hx)⟩
  | some l =>
    cases hi with
    | none =>
      obtain ⟨x, hx⟩ := exists_gt l
      exact ⟨x, near_le_near.mpr (Or.inl hx), le_top⟩
    | some u =>
      rcases near_le_near.mp hle with hlt | ⟨rfl, hflags⟩
      · obtain ⟨x, hx, hx'⟩ := exists_between hlt
        exact ⟨x, near_le_near.mpr (Or.inl hx), near_le_near.mpr (Or.inl hx')⟩
      · -- one value, which both bounds include
        refine ⟨l, near_le_near.mpr (Or.inr ⟨rfl, ?_⟩), near_le_near.mpr (Or.inr ⟨rfl, ?_⟩)⟩
        · cases li <;> cases ui <;> simp_all [Range.lowerBound, Range.upperBound]
        · cases li <;> cases ui <;> simp_all [Range.lowerBound, Range.upperBound]

/-- Where the type has a step, and something lies before any element. -/
theorem full_of_step [NoMinOrder α] [Nonempty α] (next : α → α) : Full (⟨some next⟩ : RangeType α) := by
  refine full_of_between fun r hp => ?_
  have hle := hp.low_le_high
  obtain ⟨e, lo, hi, li, ui⟩ := r
  cases lo with
  | none =>
    cases hi with
    | none =>
      obtain ⟨x⟩ := ‹Nonempty α›
      exact ⟨x, bot_le, le_top⟩
    | some u =>
      obtain ⟨x, hx⟩ := exists_lt u
      exact ⟨x, bot_le, near_le_near.mpr (Or.inl hx)⟩
  | some l =>
    -- the lower bound is included
    obtain rfl : li = true := hp.allowsLower rfl rfl
    exact ⟨l, le_rfl, hle⟩

end Secantus.Ranges
