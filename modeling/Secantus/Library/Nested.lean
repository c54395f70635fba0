/-
  Ranges of keys any two of which are apart or one inside the other, in lists where the wider come first.

  A list of such ranges in order, each ending before the next begins, is searched at one place: what a range is inside
  can only be the last that is not after it (`inside_of_getElem`, `getElem_partitionPoint`), and where a range comes
  that is not before those already taken, only the last of them can hold it (`head_or_before`).
-/
import Mathlib.Data.List.Pairwise
import Mathlib.Data.Set.Lattice
import Mathlib.Order.CompletePartialOrder
import Mathlib.Order.Interval.Set.Basic

namespace Secantus.Library

/-! ## Where a slice is partitioned -/

section PartitionPoint

variable {α : Type*} {p : α → Bool} {l : List α}

/-- `partition_point`: how many come before the first that fails `p`. -/
def partitionPoint (p : α → Bool) (l : List α) : ℕ := (l.takeWhile p).length

/-- In a partitioned slice those before the point pass, and the others do not. -/
theorem lt_partitionPoint_iff (h : l.Pairwise fun a b => p b = true → p a = true) {i : ℕ} {a : α} (ha : l[i]? = some a) :
    i < partitionPoint p l ↔ p a = true := by
  induction l generalizing i with
  | nil => simp at ha
  | cons b l ih =>
    obtain ⟨hb, hl⟩ := List.pairwise_cons.mp h
    by_cases hpb : p b = true
    · cases i with
      | zero =>
        obtain rfl : b = a := by simpa using ha
        simp [partitionPoint, hpb]
      | succ i =>
        rw [List.getElem?_cons_succ] at ha
        rw [← ih hl ha]
        simp [partitionPoint, hpb]
    · have hpa : p a ≠ true := by
        rcases List.mem_cons.mp (List.mem_of_getElem? ha) with rfl | hmem
        · exact hpb
        · exact fun hp => hpb (hb a hmem hp)
      simp [partitionPoint, hpb, hpa]

end PartitionPoint

/-! ## Nested ranges -/

/-- Ranges of keys, any two apart or one inside the other. -/
structure Nested (α β : Type*) [LinearOrder β] where
  lo : α → β
  hi : α → β
  lo_le_hi : ∀ c, lo c ≤ hi c
  nested : ∀ c d, hi c < lo d ∨ hi d < lo c ∨ (lo d ≤ lo c ∧ hi c ≤ hi d) ∨ (lo c ≤ lo d ∧ hi d ≤ hi c)

namespace Nested

variable {α β : Type*} [LinearOrder β] (N : Nested α β)

/-- The keys of one range. -/
def keys (c : α) : Set β := Set.Icc (N.lo c) (N.hi c)

/-- The keys of them all. -/
def covered (l : List α) : Set β := {k | ∃ c ∈ l, k ∈ N.keys c}

/-- `c` ends before `d` begins. -/
def Before (c d : α) : Prop := N.hi c < N.lo d

def Inside (c d : α) : Prop := N.lo d ≤ N.lo c ∧ N.hi c ≤ N.hi d

/-- The order of the lists: by where they begin, the wider first. -/
def Ahead (c d : α) : Prop := N.lo c < N.lo d ∨ N.lo c = N.lo d ∧ N.hi d ≤ N.hi c

/-- In order, no two with a key in common. -/
def Apart (l : List α) : Prop := l.Pairwise N.Before

variable {N} {c d e : α} {l : List α} {k : β}

theorem lo_mem_keys : N.lo c ∈ N.keys c := ⟨le_rfl, N.lo_le_hi c⟩

theorem inside_iff_keys : N.Inside c d ↔ N.keys c ⊆ N.keys d := (Set.Icc_subset_Icc_iff (N.lo_le_hi c)).symm

theorem Inside.refl (c : α) : N.Inside c c := ⟨le_rfl, le_rfl⟩

theorem Inside.trans (hcd : N.Inside c d) (hde : N.Inside d e) : N.Inside c e :=
  ⟨hde.1.trans hcd.1, hcd.2.trans hde.2⟩

theorem Before.trans (hcd : N.Before c d) (hde : N.Before d e) : N.Before c e :=
  (lt_of_lt_of_le hcd (N.lo_le_hi d)).trans hde

theorem Before.not_inside (h : N.Before c d) : ¬ N.Inside d c := by
  intro hin
  have hlt : N.hi c < N.hi c := lt_of_lt_of_le h ((N.lo_le_hi d).trans hin.2)
  exact lt_irrefl _ hlt

theorem Before.not_inside' (h : N.Before c d) : ¬ N.Inside c d := by
  intro hin
  have hlt : N.hi c < N.hi c := lt_of_lt_of_le h (hin.1.trans (N.lo_le_hi c))
  exact lt_irrefl _ hlt

theorem Before.disjoint (h : N.Before c d) : Disjoint (N.keys c) (N.keys d) := by
  rw [Set.disjoint_left]
  rintro k ⟨-, hk⟩ ⟨hk', -⟩
  exact not_lt_of_ge (hk'.trans hk) h

/-- Ranges that share no key lie one before the other. -/
theorem before_or_before (h : Disjoint (N.keys c) (N.keys d)) : N.Before c d ∨ N.Before d c := by
  rcases N.nested c d with hb | hb | hin | hin
  · exact Or.inl hb
  · exact Or.inr hb
  · exact absurd (inside_iff_keys.mp hin lo_mem_keys) (Set.disjoint_left.mp h lo_mem_keys)
  · exact absurd lo_mem_keys (Set.disjoint_left.mp h (inside_iff_keys.mp hin lo_mem_keys))

theorem Before.ahead (h : N.Before c d) : N.Ahead c d := Or.inl (lt_of_le_of_lt (N.lo_le_hi c) h)

theorem Inside.ahead (h : N.Inside c d) : N.Ahead d c := by
  rcases lt_or_eq_of_le h.1 with hlt | heq
  · exact Or.inl hlt
  · exact Or.inr ⟨heq, h.2⟩

theorem Ahead.lo_le (h : N.Ahead c d) : N.lo c ≤ N.lo d := h.elim le_of_lt fun h => h.1.le

theorem Ahead.trans (hcd : N.Ahead c d) (hde : N.Ahead d e) : N.Ahead c e := by
  rcases hcd with hlt | ⟨heq, hle⟩
  · exact Or.inl (lt_of_lt_of_le hlt hde.lo_le)
  · rcases hde with hlt' | ⟨heq', hle'⟩
    · exact Or.inl (heq ▸ hlt')
    · exact Or.inr ⟨heq.trans heq', hle'.trans hle⟩

/-- What is ahead of a range holds it or ends before it. -/
theorem Ahead.inside_or_before (h : N.Ahead c d) : N.Inside d c ∨ N.Before c d := by
  rcases N.nested c d with hb | hb | hin | hin
  · exact Or.inr hb
  · exact absurd h.lo_le (not_le_of_gt (lt_of_le_of_lt (N.lo_le_hi d) hb))
  · refine Or.inl ⟨h.lo_le, ?_⟩
    rcases h with hlt | ⟨-, hle⟩
    · exact absurd hin.1 (not_le_of_gt hlt)
    · exact hle
  · exact Or.inl hin

/-! ## Lists of ranges in order -/

@[simp] theorem covered_nil : N.covered [] = ∅ := by
  ext k
  simp [covered]

@[simp] theorem covered_cons : N.covered (c :: l) = N.keys c ∪ N.covered l := by
  ext k
  simp [covered]

theorem covered_perm {l' : List α} (h : l.Perm l') : N.covered l = N.covered l' := by
  ext k
  simp [covered, h.mem_iff]

/-- What stands for each range of a list inside it, in the list's order. -/
theorem Apart.flatMap (hl : N.Apart l) {f : α → List α} (hf : ∀ c ∈ l, N.Apart (f c) ∧ ∀ d ∈ f c, N.Inside d c) :
    N.Apart (l.flatMap f) := by
  induction l with
  | nil => exact List.Pairwise.nil
  | cons c l ih =>
    obtain ⟨hc, hl⟩ := List.pairwise_cons.mp hl
    rw [List.flatMap_cons]
    refine List.pairwise_append.mpr ⟨(hf c List.mem_cons_self).1, ih hl fun d hd => hf d (List.mem_cons_of_mem _ hd), ?_⟩
    intro d hd e he
    obtain ⟨c', hc', he⟩ := List.mem_flatMap.mp he
    have hdc := (hf c List.mem_cons_self).2 d hd
    have hec := (hf c' (List.mem_cons_of_mem _ hc')).2 e he
    exact lt_of_le_of_lt hdc.2 (lt_of_lt_of_le (hc c' hc') hec.1)

theorem covered_flatMap {f : α → List α} : N.covered (l.flatMap f) = {k | ∃ c ∈ l, k ∈ N.covered (f c)} := by
  ext k
  simp only [covered, List.mem_flatMap, Set.mem_setOf_eq]
  constructor
  · rintro ⟨d, ⟨c, hc, hd⟩, hk⟩
    exact ⟨c, hc, d, hd, hk⟩
  · rintro ⟨c, hc, d, hd, hk⟩
    exact ⟨d, ⟨c, hc, hd⟩, hk⟩

/-- Over ranges apart, the last first, none of them after `c`: the last holds `c`, or they all end before it. -/
theorem head_or_before (hl : l.Pairwise fun a b => N.Before b a) (hc : ∀ a ∈ l, N.Ahead a c) :
    (∃ last rest, l = last :: rest ∧ N.Inside c last) ∨ ∀ a ∈ l, N.Before a c := by
  cases l with
  | nil => exact Or.inr (by simp)
  | cons last rest =>
    rcases (hc last List.mem_cons_self).inside_or_before with hin | hb
    · exact Or.inl ⟨last, rest, rfl, hin⟩
    · refine Or.inr fun a ha => ?_
      rcases List.mem_cons.mp ha with rfl | ha
      · exact hb
      · exact ((List.pairwise_cons.mp hl).1 a ha).trans hb

/-- Those not after `c`, and those before it, come first in a list of ranges apart. -/
theorem Apart.partitioned (hl : N.Apart l) {p : α → Bool}
    (hp : (∀ a ∈ l, p a = true ↔ N.Ahead a c) ∨ ∀ a ∈ l, p a = true ↔ ¬ N.Ahead c a) :
    l.Pairwise fun a b => p b = true → p a = true := by
  refine hl.imp_of_mem fun ha hb hab hpb => ?_
  rcases hp with hp | hp
  · exact (hp _ ha).mpr (hab.ahead.trans ((hp _ hb).mp hpb))
  · exact (hp _ ha).mpr fun hca => (hp _ hb).mp hpb (hca.trans hab.ahead)

/-- Of ranges apart, the one that holds `c` is the last that passes where none passes that is after `c`. -/
theorem inside_last (hl : N.Apart l) {p : α → Bool} (hpart : l.Pairwise fun a b => p b = true → p a = true)
    (hp : ∀ a ∈ l, p a = true → N.Ahead a c) (hd : d ∈ l) (hpd : p d = true) (hcd : N.Inside c d) :
    0 < partitionPoint p l ∧ l[partitionPoint p l - 1]? = some d := by
  obtain ⟨i, hi⟩ := List.mem_iff_getElem?.mp hd
  have hlt : i < partitionPoint p l := (lt_partitionPoint_iff hpart hi).mpr hpd
  refine ⟨by omega, ?_⟩
  have hlen : partitionPoint p l ≤ l.length := (List.takeWhile_sublist p).length_le
  have hlast : partitionPoint p l - 1 < l.length := by omega
  -- Were there one after `d` and not after `c`, it would begin inside `c`, and so inside `d`.
  rcases Nat.lt_or_ge i (partitionPoint p l - 1) with hi' | hi'
  · have hil : i < l.length := by omega
    have hbefore : N.Before l[i] l[partitionPoint p l - 1] := List.pairwise_iff_getElem.mp hl i _ hil hlast hi'
    have hpass := (lt_partitionPoint_iff hpart (List.getElem?_eq_getElem hlast)).mp (by omega)
    have hle := (hp _ (List.getElem_mem hlast) hpass).lo_le
    rw [List.getElem?_eq_getElem hil] at hi
    obtain rfl := Option.some.inj hi
    exact absurd ((N.lo_le_hi c).trans hcd.2) (not_le_of_gt (lt_of_lt_of_le hbefore hle))
  · rwa [show partitionPoint p l - 1 = i by omega]

/-- Where one of the ranges apart is inside `c`, so is the first that is not before it in the order. -/
theorem first_inside (hl : N.Apart l) {p : α → Bool} (hp : ∀ a ∈ l, p a = true ↔ ¬ N.Ahead c a) (hd : d ∈ l)
    (hdc : N.Inside d c) : ∃ first, l[partitionPoint p l]? = some first ∧ N.Inside first c := by
  have hpart := hl.partitioned (Or.inr hp)
  obtain ⟨i, hi⟩ := List.mem_iff_getElem?.mp hd
  have hge : partitionPoint p l ≤ i := by
    rw [← not_lt, lt_partitionPoint_iff hpart hi, hp d hd, not_not]
    exact hdc.ahead
  have hil : i < l.length := (List.getElem?_eq_some_iff.mp hi).1
  have hfirst : partitionPoint p l < l.length := by omega
  refine ⟨l[partitionPoint p l], List.getElem?_eq_getElem hfirst, ?_⟩
  have hfail := (lt_partitionPoint_iff hpart (List.getElem?_eq_getElem hfirst)).not.mp (lt_irrefl _)
  rw [hp _ (List.getElem_mem hfirst), not_not] at hfail
  rcases hfail.inside_or_before with hin | hb
  · exact hin
  · -- It is `d` or before `d`, and so does not begin after `c`.
    have hle : N.lo l[partitionPoint p l] ≤ N.lo d := by
      rcases Nat.lt_or_ge (partitionPoint p l) i with hlt | hge'
      · have hbefore := List.pairwise_iff_getElem.mp hl _ i hfirst hil hlt
        rw [List.getElem?_eq_getElem hil] at hi
        exact (Option.some.inj hi ▸ hbefore).ahead.lo_le
      · obtain rfl : partitionPoint p l = i := by omega
        rw [List.getElem?_eq_getElem hfirst] at hi
        rw [Option.some.inj hi]
    exact absurd (hle.trans ((N.lo_le_hi d).trans hdc.2)) (not_le_of_gt hb)

end Nested

/-! ## Aligned blocks -/

/-- Blocks that start at multiples of their widths, one width a multiple of the other, are apart or one inside the
    other. -/
theorem aligned_nested {a b v w : ℕ} (hv : 0 < v) (hw : 0 < w) (ha : v ∣ a) (hb : w ∣ b) (hvw : v ∣ w) :
    a + v - 1 < b ∨ b + w - 1 < a ∨ (b ≤ a ∧ a + v - 1 ≤ b + w - 1) := by
  obtain ⟨i, rfl⟩ := ha
  obtain ⟨m, rfl⟩ := hvw
  obtain ⟨j, rfl⟩ := hb
  rcases Nat.lt_or_ge i (m * j) with h | h
  · have hle : v * (i + 1) ≤ v * (m * j) := Nat.mul_le_mul_left v h
    rw [Nat.mul_succ, ← Nat.mul_assoc] at hle
    exact Or.inl (by omega)
  · rcases Nat.lt_or_ge i (m * j + m) with h' | h'
    · have hle : v * (m * j) ≤ v * i := Nat.mul_le_mul_left v h
      have hle' : v * (i + 1) ≤ v * (m * j + m) := Nat.mul_le_mul_left v h'
      rw [Nat.mul_succ, Nat.mul_add, ← Nat.mul_assoc] at hle'
      rw [← Nat.mul_assoc] at hle
      exact Or.inr (Or.inr ⟨hle, by omega⟩)
    · have hle : v * (m * j + m) ≤ v * i := Nat.mul_le_mul_left v h'
      rw [Nat.mul_add, ← Nat.mul_assoc] at hle
      exact Or.inr (Or.inl (by omega))

end Secantus.Library
