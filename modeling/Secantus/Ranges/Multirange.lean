/-
  Multiranges: what `normalise_multirange` returns and keeps, and the set operations on member lists.

  Members are put in the order of their lower places and merged from the left; of what is put out, each member
  ends before the next begins and not in the place just before it (`Apart`).
-/
import Secantus.Ranges.Algebra

namespace Secantus.Ranges

open Secantus.Library Place

variable {α : Type*} [LinearOrder α]

/-! ## How members compare -/

theorem Proper.lowerBefore_iff {t : RangeType α} {a b : Range α} (ha : Proper t a) (hb : Proper t b) :
    lowerBefore a b = true ↔ a.low < b.low := by
  obtain ⟨ea, la, ua, lia, uia⟩ := a
  obtain ⟨eb, lb, ub, lib, uib⟩ := b
  cases la with
  | none =>
    obtain rfl : lia = false := ha.lowerInfinite rfl
    cases lb with
    | none => exact ⟨fun h => (by cases h), fun h => absurd h (lt_irrefl _)⟩
    | some y => exact ⟨fun _ => bot_lt_iff_ne_bot.mpr (near_ne_bot y _), fun _ => rfl⟩
  | some x =>
    cases lb with
    | none => exact ⟨fun h => (by cases h), fun h => absurd h not_lt_bot⟩
    | some y =>
      show _ ↔ near x _ < near y _
      rw [near_lt_near]
      rcases lt_trichotomy x y with h | rfl | h
      · simp [lowerBefore, compare_lt_iff_lt.mpr h, h]
      · cases lia <;> cases lib <;> simp [lowerBefore, Range.lowerBound]
      · simp [lowerBefore, compare_gt_iff_gt.mpr h, h.ne', h.le]

theorem upperBefore_iff (a b : Range α) : upperBefore a b = true ↔ a.high < b.high := by
  obtain ⟨ea, la, ua, lia, uia⟩ := a
  obtain ⟨eb, lb, ub, lib, uib⟩ := b
  cases ua with
  | none => exact ⟨fun h => (by cases ub <;> cases h), fun h => absurd h not_top_lt⟩
  | some x =>
    cases ub with
    | none => exact ⟨fun _ => lt_top_iff_ne_top.mpr (near_ne_top x _), fun _ => rfl⟩
    | some y =>
      show _ ↔ near x _ < near y _
      rw [near_lt_near]
      rcases lt_trichotomy x y with h | rfl | h
      · simp [upperBefore, compare_lt_iff_lt.mpr h, h]
      · cases uia <;> cases uib <;> simp [upperBefore, Range.upperBound]
      · simp [upperBefore, compare_gt_iff_gt.mpr h, h.ne', h.le]

theorem touches_iff (a b : Range α) : touches a b = true ↔ b.low ≤ a.high ∨ EndsAt a b := by
  obtain ⟨ea, la, ua, lia, uia⟩ := a
  obtain ⟨eb, lb, ub, lib, uib⟩ := b
  cases ua with
  | none => exact ⟨fun _ => Or.inl le_top, fun _ => (by cases lb <;> rfl)⟩
  | some x =>
    cases lb with
    | none => exact ⟨fun _ => Or.inl bot_le, fun _ => rfl⟩
    | some y =>
      have hends : EndsAt (⟨ea, la, some x, lia, uia⟩ : Range α) ⟨eb, some y, ub, lib, uib⟩ ↔
          x = y ∧ uia ≠ lib := by
        rw [EndsAt, Range.high, Range.low, ← boundsAdjacent_iff rfl rfl]
        simp [boundsAdjacent, Range.upperBound, Range.lowerBound]
      rw [hends]
      show _ ↔ near y _ ≤ near x _ ∨ _
      rw [near_le_near]
      rcases lt_trichotomy x y with h | rfl | h
      · simp [touches, compare_lt_iff_lt.mpr h, h.ne, h.ne', h.le]
      · cases uia <;> cases lib <;> simp [touches, Range.upperBound, Range.lowerBound]
      · simp [touches, compare_gt_iff_gt.mpr h, h]

/-- One range ends before another begins, with a place between them. -/
def Apart (a b : Range α) : Prop := a.high < b.low ∧ ¬ EndsAt a b

theorem apart_of_not_touches {a b : Range α} (h : touches a b = false) : Apart a b := by
  have hnot : ¬ (b.low ≤ a.high ∨ EndsAt a b) := fun hor => by
    rw [← touches_iff, h] at hor
    cases hor
  exact ⟨not_le.mp fun hle => hnot (Or.inl hle), fun hends => hnot (Or.inr hends)⟩

theorem Apart.mono {a b c : Range α} (h : Apart a b) (hle : b.low ≤ c.low) : Apart a c := by
  refine ⟨h.1.trans_le hle, fun ⟨v, k, hhigh, hlow⟩ => h.2 ⟨v, k, hhigh, le_antisymm ?_ ?_⟩⟩
  · exact hlow ▸ hle
  · rw [near_succ_le_iff, ← hhigh]
    exact h.1

theorem Proper.apart_iff {t : RangeType α} {a b : Range α} (ha : Proper t a) (hb : Proper t b)
    (hle : a.low ≤ b.low) : Apart a b ↔ overlaps a b = false ∧ adjacent a b = false := by
  constructor
  · rintro ⟨hlt, hends⟩
    refine ⟨Bool.eq_false_iff.mpr fun hov => ?_, Bool.eq_false_iff.mpr fun hadj => ?_⟩
    · exact absurd ((ha.overlaps_iff hb).mp hov).2 (not_le.mpr hlt)
    · rcases (ha.adjacent_iff hb).mp hadj with h | h
      · exact hends h
      · exact absurd (hle.trans hb.low_le_high) (not_le.mpr h.lt)
  · rintro ⟨hov, hadj⟩
    refine ⟨not_le.mp fun hle' => ?_, fun hends => ?_⟩
    · rw [(ha.overlaps_iff hb).mpr ⟨hle.trans hb.low_le_high, hle'⟩] at hov
      cases hov
    · rw [(ha.adjacent_iff hb).mpr (Or.inl hends)] at hadj
      cases hadj

/-! ## Normalising -/

theorem insertMember_cons (s : Range α) (sorted : List (Range α)) (m : Range α) :
    insertMember (s :: sorted) m = if lowerBefore s m then s :: insertMember sorted m else m :: s :: sorted := by
  unfold insertMember
  rw [List.takeWhile_cons, List.dropWhile_cons]
  split <;> rfl

theorem mem_insertMember {sorted : List (Range α)} {m r : Range α} :
    r ∈ insertMember sorted m ↔ r = m ∨ r ∈ sorted := by
  unfold insertMember
  rw [List.mem_append, List.mem_cons, or_left_comm, ← List.mem_append, List.takeWhile_append_dropWhile]

theorem sorted_insertMember {t : RangeType α} {m : Range α} (hm : Proper t m) {sorted : List (Range α)}
    (hproper : ∀ r ∈ sorted, Proper t r) (h : sorted.Pairwise fun a b => a.low ≤ b.low) :
    (insertMember sorted m).Pairwise fun a b => a.low ≤ b.low := by
  induction sorted with
  | nil => exact List.pairwise_singleton _ _
  | cons s sorted ih =>
    rw [insertMember_cons]
    obtain ⟨hs, hsorted⟩ := List.pairwise_cons.mp h
    have hbefore := (hproper s List.mem_cons_self).lowerBefore_iff hm
    split
    · rename_i hlt
      refine List.pairwise_cons.mpr ⟨fun r hr => ?_, ih (fun r hr => hproper r (List.mem_cons_of_mem _ hr)) hsorted⟩
      rcases mem_insertMember.mp hr with rfl | hr
      · exact (hbefore.mp hlt).le
      · exact hs r hr
    · rename_i hlt
      have hle : m.low ≤ s.low := not_lt.mp fun h => hlt (hbefore.mpr h)
      refine List.pairwise_cons.mpr ⟨fun r hr => ?_, h⟩
      rcases List.mem_cons.mp hr with rfl | hr
      · exact hle
      · exact hle.trans (hs r hr)

/-- The insertions put the members in order, and keep them. -/
theorem foldl_insertMember {t : RangeType α} (ms : List (Range α)) (hms : ∀ r ∈ ms, Proper t r) :
    ∀ sorted : List (Range α), (∀ r ∈ sorted, Proper t r) → (sorted.Pairwise fun a b => a.low ≤ b.low) →
      ((ms.foldl insertMember sorted).Pairwise fun a b => a.low ≤ b.low) ∧
        ∀ r, r ∈ ms.foldl insertMember sorted ↔ r ∈ ms ∨ r ∈ sorted := by
  induction ms with
  | nil => exact fun sorted _ h => ⟨h, fun r => by simp⟩
  | cons m ms ih =>
    intro sorted hproper h
    have hm := hms m List.mem_cons_self
    obtain ⟨hpairwise, hmem⟩ := ih (fun r hr => hms r (List.mem_cons_of_mem _ hr)) (insertMember sorted m)
      (fun r hr => (mem_insertMember.mp hr).elim (fun h => h ▸ hm) (hproper r)) (sorted_insertMember hm hproper h)
    refine ⟨hpairwise, fun r => ?_⟩
    rw [List.foldl_cons, hmem, mem_insertMember, List.mem_cons]
    tauto

theorem low_extend (prev m : Range α) : (extend prev m).low = prev.low := by
  unfold extend
  split <;> rfl

theorem high_extend (prev m : Range α) : (extend prev m).high = max prev.high m.high := by
  unfold extend
  split
  · rename_i h
    exact (max_eq_right ((upperBefore_iff prev m).mp h).le).symm
  · rename_i h
    exact (max_eq_left (not_lt.mp fun hlt => h ((upperBefore_iff prev m).mpr hlt))).symm

theorem Proper.extend {t : RangeType α} {prev m : Range α} (hprev : Proper t prev) (hm : Proper t m) :
    Proper t (extend prev m) := by
  have hle : (Ranges.extend prev m).low ≤ (Ranges.extend prev m).high := by
    rw [low_extend, high_extend]
    exact hprev.low_le_high.trans (le_max_left _ _)
  unfold Ranges.extend at hle ⊢
  split at hle
  · rename_i h
    rw [if_pos h]
    exact ⟨hprev.notEmpty, hle, hprev.lowerInfinite, hm.upperInfinite, hprev.allowsLower, hm.allowsUpper⟩
  · rename_i h
    rw [if_neg h]
    exact hprev

theorem contains_extend {t : RangeType α} {prev m : Range α} (hprev : Proper t prev) (hm : Proper t m)
    (hle : prev.low ≤ m.low) (htouch : touches prev m = true) (x : α) :
    containsElem (extend prev m) x = true ↔ containsElem prev x = true ∨ containsElem m x = true := by
  rw [(hprev.extend hm).contains, hprev.contains, hm.contains, low_extend, high_extend, le_max_iff]
  have hnext : near x 0 ≤ prev.high ∨ m.low ≤ near x 0 := by
    rcases (touches_iff prev m).mp htouch with h | h
    · rcases le_total (near x 0) prev.high with hx | hx
      · exact Or.inl hx
      · exact Or.inr (h.trans hx)
    · exact h.le_or_le _
  have hback : m.low ≤ near x 0 → prev.low ≤ near x 0 := hle.trans
  tauto

/-- Members of a multirange as it is stored. -/
structure Normal (t : RangeType α) (ms : List (Range α)) : Prop where
  proper : ∀ r ∈ ms, Proper t r
  apart : ms.Pairwise Apart

theorem mergeFrom_spec {t : RangeType α} (ms : List (Range α)) :
    ∀ prev, Proper t prev → (∀ r ∈ ms, Proper t r) → (∀ r ∈ ms, prev.low ≤ r.low) →
      (ms.Pairwise fun a b => a.low ≤ b.low) →
      Normal t (mergeFrom prev ms) ∧ (∀ r ∈ mergeFrom prev ms, prev.low ≤ r.low) ∧
        ∀ x, (∃ r ∈ mergeFrom prev ms, containsElem r x = true) ↔
          containsElem prev x = true ∨ ∃ r ∈ ms, containsElem r x = true := by
  induction ms with
  | nil =>
    intro prev hprev _ _ _
    refine ⟨⟨by simpa [mergeFrom] using hprev, List.pairwise_singleton _ _⟩, ?_, fun x => ?_⟩
    · simp [mergeFrom]
    · simp [mergeFrom]
  | cons m ms ih =>
    intro prev hprev hms hle hsorted
    obtain ⟨hm, hsorted⟩ := List.pairwise_cons.mp hsorted
    have hpm := hms m List.mem_cons_self
    have hlm := hle m List.mem_cons_self
    have hrest : ∀ r ∈ ms, Proper t r := fun r hr => hms r (List.mem_cons_of_mem _ hr)
    rw [mergeFrom]
    cases htouch : touches prev m with
    | true =>
      rw [if_pos rfl]
      obtain ⟨hnormal, hlow, hmem⟩ := ih (extend prev m) (hprev.extend hpm) hrest
        (fun r hr => by rw [low_extend]; exact hle r (List.mem_cons_of_mem _ hr)) hsorted
      refine ⟨hnormal, fun r hr => low_extend prev m ▸ hlow r hr, fun x => ?_⟩
      rw [hmem, contains_extend hprev hpm hlm htouch]
      simp only [List.mem_cons, exists_eq_or_imp, or_assoc]
    | false =>
      rw [if_neg Bool.false_ne_true]
      obtain ⟨hnormal, hlow, hmem⟩ := ih m hpm hrest hm hsorted
      have hgap := apart_of_not_touches htouch
      refine ⟨⟨fun r hr => ?_, List.pairwise_cons.mpr ⟨fun r hr => hgap.mono (hlow r hr), hnormal.apart⟩⟩,
        fun r hr => ?_, fun x => ?_⟩
      · rcases List.mem_cons.mp hr with rfl | hr
        · exact hprev
        · exact hnormal.proper r hr
      · rcases List.mem_cons.mp hr with rfl | hr
        · exact le_rfl
        · exact hlm.trans (hlow r hr)
      · simp only [List.mem_cons, exists_eq_or_imp]
        rw [hmem]

/-- `normalise_multirange` keeps the elements, and leaves members that are not empty, in order and apart. -/
theorem normaliseMultirange_spec {t : RangeType α} {ms : List (Range α)} (h : ∀ r ∈ ms, Canonical t r) :
    Normal t (normaliseMultirange ms) ∧
      ∀ x, multirangeContainsElem (normaliseMultirange ms) x = true ↔ multirangeContainsElem ms x = true := by
  have hproper : ∀ r ∈ ms.filter (!·.empty), Proper t r := by
    intro r hr
    obtain ⟨hr, hne⟩ := List.mem_filter.mp hr
    exact (h r hr).resolve_left (by simpa using hne)
  obtain ⟨hsorted, hmem⟩ := foldl_insertMember _ hproper [] (by simp) List.Pairwise.nil
  have hkept : ∀ x, (∃ r ∈ (ms.filter (!·.empty)).foldl insertMember [], containsElem r x = true) ↔
      multirangeContainsElem ms x = true := by
    intro x
    unfold multirangeContainsElem
    rw [List.any_eq_true]
    constructor
    · rintro ⟨r, hr, hx⟩
      rw [hmem] at hr
      exact ⟨r, List.mem_of_mem_filter (hr.resolve_right List.not_mem_nil), hx⟩
    · rintro ⟨r, hr, hx⟩
      refine ⟨r, (hmem r).mpr (Or.inl (List.mem_filter.mpr ⟨hr, ?_⟩)), hx⟩
      cases he : r.empty with
      | true =>
        rw [containsElem_of_empty he] at hx
        cases hx
      | false => rfl
  unfold normaliseMultirange
  have hproper' : ∀ r ∈ (ms.filter (!·.empty)).foldl insertMember [], Proper t r :=
    fun r hr => hproper r (((hmem r).mp hr).resolve_right List.not_mem_nil)
  generalize (ms.filter (!·.empty)).foldl insertMember [] = sorted at hsorted hkept hproper'
  cases sorted with
  | nil =>
    refine ⟨⟨by simp [mergeMembers], List.Pairwise.nil⟩, fun x => ?_⟩
    rw [← hkept]
    simp [mergeMembers, multirangeContainsElem]
  | cons m sorted =>
    obtain ⟨hm, hsorted⟩ := List.pairwise_cons.mp hsorted
    obtain ⟨hnormal, -, hmem'⟩ := mergeFrom_spec sorted m (hproper' m List.mem_cons_self)
      (fun r hr => hproper' r (List.mem_cons_of_mem _ hr)) hm hsorted
    refine ⟨hnormal, fun x => ?_⟩
    rw [← hkept]
    unfold multirangeContainsElem
    rw [List.any_eq_true]
    show (∃ r ∈ mergeFrom m sorted, _) ↔ _
    rw [hmem']
    simp only [List.mem_cons, exists_eq_or_imp]

/-! ## The set operations -/

theorem multirangeContainsElem_append (ma mb : List (Range α)) (x : α) :
    multirangeContainsElem (ma ++ mb) x = true ↔
      multirangeContainsElem ma x = true ∨ multirangeContainsElem mb x = true := by
  unfold multirangeContainsElem
  rw [List.any_append, Bool.or_eq_true]

theorem multirangeContainsElem_iff (ms : List (Range α)) (x : α) :
    multirangeContainsElem ms x = true ↔ ∃ r ∈ ms, containsElem r x = true := by
  unfold multirangeContainsElem
  rw [List.any_eq_true]

theorem multirangeUnion_spec {t : RangeType α} {ma mb : List (Range α)} (ha : ∀ r ∈ ma, Canonical t r)
    (hb : ∀ r ∈ mb, Canonical t r) :
    Normal t (multirangeUnion ma mb) ∧
      ∀ x, multirangeContainsElem (multirangeUnion ma mb) x = true ↔
        multirangeContainsElem ma x = true ∨ multirangeContainsElem mb x = true := by
  have hall : ∀ r ∈ ma ++ mb, Canonical t r := fun r hr =>
    (List.mem_append.mp hr).elim (ha r) (hb r)
  obtain ⟨hnormal, hmem⟩ := normaliseMultirange_spec hall
  exact ⟨hnormal, fun x => (hmem x).trans (multirangeContainsElem_append ma mb x)⟩

theorem multirangeIntersect_spec {t : RangeType α} {ma mb : List (Range α)} (ha : ∀ r ∈ ma, Canonical t r)
    (hb : ∀ r ∈ mb, Canonical t r) :
    ∃ m, multirangeIntersect t ma mb = .ok m ∧ Normal t m ∧
      ∀ x, multirangeContainsElem m x = true ↔
        multirangeContainsElem ma x = true ∧ multirangeContainsElem mb x = true := by
  have hpair : ∀ p ∈ ma.flatMap fun x => mb.map fun y => (x, y), ∃ r, intersect t p.1 p.2 = .ok r ∧
      (Canonical t r ∧ ∀ x, containsElem r x = true ↔ containsElem p.1 x = true ∧ containsElem p.2 x = true) := by
    intro p hp
    obtain ⟨x, hx, hp⟩ := List.mem_flatMap.mp hp
    obtain ⟨y, hy, rfl⟩ := List.mem_map.mp hp
    exact intersect_spec (ha x hx) (hb y hy)
  obtain ⟨parts, hparts, hspec⟩ := Outcome.mapM_eq_ok hpair
  have hcanonical : ∀ r ∈ parts.filter (!·.empty), Canonical t r := fun r hr =>
    Outcome.forall_mem_of_forall₂ (fun _ _ h => h.1) hspec r (List.mem_of_mem_filter hr)
  obtain ⟨hnormal, hmem⟩ := normaliseMultirange_spec hcanonical
  refine ⟨normaliseMultirange (parts.filter (!·.empty)), ?_, hnormal, fun x => ?_⟩
  · unfold multirangeIntersect
    rw [hparts]
    rfl
  · have hnonempty : (∃ r ∈ parts.filter (!·.empty), containsElem r x = true) ↔
        ∃ r ∈ parts, containsElem r x = true := by
      refine ⟨fun ⟨r, hr, hx⟩ => ⟨r, List.mem_of_mem_filter hr, hx⟩, fun ⟨r, hr, hx⟩ => ⟨r, ?_, hx⟩⟩
      refine List.mem_filter.mpr ⟨hr, ?_⟩
      cases he : r.empty with
      | true =>
        rw [containsElem_of_empty he] at hx
        cases hx
      | false => rfl
    rw [hmem, multirangeContainsElem_iff, hnonempty, multirangeContainsElem_iff, multirangeContainsElem_iff,
      ← Outcome.exists_mem_of_forall₂ (fun p r hp => (hp.2 x).symm) hspec]
    constructor
    · rintro ⟨p, hp, hx, hy⟩
      obtain ⟨r, hr, hp⟩ := List.mem_flatMap.mp hp
      obtain ⟨r', hr', rfl⟩ := List.mem_map.mp hp
      exact ⟨⟨r, hr, hx⟩, r', hr', hy⟩
    · rintro ⟨⟨r, hr, hx⟩, r', hr', hy⟩
      exact ⟨(r, r'), List.mem_flatMap.mpr ⟨r, hr, List.mem_map.mpr ⟨r', hr', rfl⟩⟩, hx, hy⟩

theorem minusMember_spec {t : RangeType α} {cur : List (Range α)} {y : Range α} (hcur : ∀ r ∈ cur, Canonical t r)
    (hy : Canonical t y) :
    ∃ next, minusMember t cur y = .ok next ∧ (∀ r ∈ next, Canonical t r) ∧
      ∀ x, multirangeContainsElem next x = true ↔
        multirangeContainsElem cur x = true ∧ ¬ containsElem y x = true := by
  have hone : ∀ r ∈ cur, ∃ ps, minusPieces t r y = .ok ps ∧ ((∀ p ∈ ps, Proper t p) ∧
      ∀ x, (∃ p ∈ ps, containsElem p x = true) ↔ containsElem r x = true ∧ ¬ containsElem y x = true) :=
    fun r hr => minusPieces_spec (hcur r hr) hy
  obtain ⟨parts, hparts, hspec⟩ := Outcome.mapM_eq_ok hone
  refine ⟨parts.flatten, ?_, ?_, fun x => ?_⟩
  · unfold minusMember
    rw [hparts]
    rfl
  · intro r hr
    obtain ⟨ps, hps, hr⟩ := List.mem_flatten.mp hr
    have hproper : ∀ ps ∈ parts, ∀ p ∈ ps, Proper t p :=
      Outcome.forall_mem_of_forall₂ (fun _ _ h => h.1) hspec
    exact Or.inr (hproper ps hps r hr)
  · have hflat : multirangeContainsElem parts.flatten x = true ↔
        ∃ ps ∈ parts, ∃ p ∈ ps, containsElem p x = true := by
      rw [multirangeContainsElem_iff]
      simp only [List.mem_flatten]
      exact ⟨fun ⟨p, ⟨ps, hps, hp⟩, hx⟩ => ⟨ps, hps, p, hp, hx⟩, fun ⟨ps, hps, p, hp, hx⟩ => ⟨p, ⟨ps, hps, hp⟩, hx⟩⟩
    rw [hflat, ← Outcome.exists_mem_of_forall₂ (fun r ps h => (h.2 x).symm) hspec, multirangeContainsElem_iff]
    exact ⟨fun ⟨r, hr, hx, hn⟩ => ⟨⟨r, hr, hx⟩, hn⟩, fun ⟨⟨r, hr, hx⟩, hn⟩ => ⟨r, hr, hx, hn⟩⟩

theorem multirangeMinus_spec {t : RangeType α} {ma mb : List (Range α)} (ha : ∀ r ∈ ma, Canonical t r)
    (hb : ∀ r ∈ mb, Canonical t r) :
    ∃ m, multirangeMinus t ma mb = .ok m ∧ Normal t m ∧
      ∀ x, multirangeContainsElem m x = true ↔
        multirangeContainsElem ma x = true ∧ ¬ multirangeContainsElem mb x = true := by
  have hfold : ∃ cur, mb.foldlM (minusMember t) ma = .ok cur ∧ (∀ r ∈ cur, Canonical t r) ∧
      ∀ x, multirangeContainsElem cur x = true ↔
        multirangeContainsElem ma x = true ∧ ¬ multirangeContainsElem mb x = true := by
    induction mb generalizing ma with
    | nil => exact ⟨ma, rfl, ha, fun x => by simp [multirangeContainsElem]⟩
    | cons y mb ih =>
      obtain ⟨next, hnext, hcanonical, hmem⟩ := minusMember_spec ha (hb y List.mem_cons_self)
      obtain ⟨cur, hcur, hcanonical', hmem'⟩ := ih hcanonical fun r hr => hb r (List.mem_cons_of_mem _ hr)
      refine ⟨cur, ?_, hcanonical', fun x => ?_⟩
      · rw [List.foldlM_cons, hnext]
        exact hcur
      · rw [hmem', hmem, multirangeContainsElem_iff mb, multirangeContainsElem_iff (y :: mb)]
        simp only [List.mem_cons, exists_eq_or_imp, not_or, and_assoc]
  obtain ⟨cur, hcur, hcanonical, hmem⟩ := hfold
  obtain ⟨hnormal, hkept⟩ := normaliseMultirange_spec hcanonical
  refine ⟨normaliseMultirange cur, ?_, hnormal, fun x => (hkept x).trans (hmem x)⟩
  unfold multirangeMinus
  rw [hcur]
  rfl

end Secantus.Ranges
