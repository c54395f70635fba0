/-
  The `n` smallest of a list of values with distinct keys, in ascending order. They are determined
  (`Smallest.unique`), and are the first `n` of the list sorted (`smallest_take`).

  The least of what came, up to a bound: what is kept and what is left out as one thing after the other comes. What is
  kept, put in order, is at every place the one of the sorted whole, up to ties (`Selects.forall₂_take`).
-/
import Mathlib.Data.List.Sort
import Mathlib.Order.Basic
import Mathlib.Data.List.Forall2

namespace Secantus.Library

variable {α κ : Type*} [LinearOrder κ] {key : α → κ}

/-- `out` is the `n` values of `all` with the smallest keys, in ascending order. -/
structure Smallest (key : α → κ) (all : List α) (n : ℕ) (out : List α) : Prop where
  ascending : out.Pairwise fun a b => key a < key b
  sound : ∀ a ∈ out, a ∈ all
  count : out.length = min n all.length
  smallest : ∀ a ∈ all, a ∉ out → ∀ b ∈ out, key b < key a

/-- The first `n` of the values in ascending order. -/
theorem smallest_take {all sorted : List α} (hperm : sorted.Perm all)
    (hsorted : sorted.Pairwise fun a b => key a < key b) (n : ℕ) : Smallest key all n (sorted.take n) where
  ascending := hsorted.sublist (List.take_sublist n sorted)
  sound a ha := hperm.mem_iff.mp (List.mem_of_mem_take ha)
  count := by rw [List.length_take, hperm.length_eq]
  smallest a ha hna b hb := by
    have hdrop : a ∈ sorted.drop n := by
      have hmem := hperm.mem_iff.mpr ha
      rw [← List.take_append_drop n sorted] at hmem
      exact (List.mem_append.mp hmem).resolve_left hna
    rw [← List.take_append_drop n sorted] at hsorted
    exact (List.pairwise_append.mp hsorted).2.2 b hb a hdrop

variable {α : Type*} {cmp : α → α → Ordering}

/-- `bound` of what came at most, as many as there are up to it, and none after one that is left out. -/
structure Selects (cmp : α → α → Ordering) (bound : ℕ) (kept rows out : List α) : Prop where
  perm : (kept ++ out).Perm rows
  length : kept.length ≤ bound
  full : kept.length < bound → out = []
  least : ∀ x ∈ kept, ∀ y ∈ out, (cmp x y).isLE = true

theorem selects_nil (bound : ℕ) : Selects cmp bound [] [] [] :=
  ⟨.refl _, Nat.zero_le _, fun _ => rfl, fun x hx => absurd hx List.not_mem_nil⟩

/-- With as many come as may be kept, as many are. -/
theorem Selects.length_eq {bound : ℕ} {kept rows out : List α} (hs : Selects cmp bound kept rows out) :
    kept.length = min bound rows.length := by
  have hlen := hs.perm.length_eq
  have hle := hs.length
  rw [List.length_append] at hlen
  by_cases hfull : kept.length < bound
  · rw [hs.full hfull, List.length_nil] at hlen
    omega
  · omega

theorem Selects.of_perm {bound : ℕ} {kept kept' rows out : List α} (hs : Selects cmp bound kept rows out)
    (hperm : kept'.Perm kept) : Selects cmp bound kept' rows out :=
  ⟨(hperm.append_right out).trans hs.perm, hperm.length_eq ▸ hs.length, fun hlt => hs.full (hperm.length_eq ▸ hlt),
    fun x hx => hs.least x (hperm.mem_iff.mp hx)⟩

theorem Selects.insert {bound : ℕ} {kept kept' rows out : List α} {t : α} (hs : Selects cmp bound kept rows out)
    (hlt : kept.length < bound) (hperm : kept'.Perm (kept ++ [t])) : Selects cmp bound kept' (rows ++ [t]) out := by
  have hlen := hperm.length_eq
  rw [List.length_append, List.length_singleton] at hlen
  obtain ⟨hp, -, hfull, -⟩ := hs
  obtain rfl := hfull hlt
  refine ⟨?_, by omega, fun _ => rfl, fun x _ y hy => absurd hy List.not_mem_nil⟩
  rw [List.append_nil] at hp ⊢
  exact hperm.trans (hp.append_right [t])

section Order

variable [Std.TransCmp cmp]

/-- What is not before any of the kept is let go when they are as many as may be. -/
theorem Selects.skip {bound : ℕ} {kept rows out : List α} {t : α} (hs : Selects cmp bound kept rows out)
    (hsize : kept.length = bound) (hlast : ∀ x ∈ kept, (cmp x t).isLE = true) :
    Selects cmp bound kept (rows ++ [t]) (out ++ [t]) := by
  refine ⟨?_, hs.length, fun hlt => absurd hlt (by omega), ?_⟩
  · rw [← List.append_assoc]
    exact hs.perm.append_right [t]
  · intro x hx y hy
    rcases List.mem_append.mp hy with hy | hy
    · exact hs.least x hx y hy
    · rw [List.mem_singleton.mp hy]
      exact hlast x hx

/-- What is before the last of the kept takes its place. -/
theorem Selects.replace {bound : ℕ} {kept kept' rows out : List α} {t root : α}
    (hs : Selects cmp bound kept rows out) (hsize : kept.length = bound) (hmem : root ∈ kept)
    (hmax : ∀ x ∈ kept, (cmp x root).isLE = true) (hlt : cmp t root = .lt)
    (hperm : (kept' ++ [root]).Perm (kept ++ [t])) : Selects cmp bound kept' (rows ++ [t]) (root :: out) := by
  have hlen := hperm.length_eq
  simp only [List.length_append, List.length_singleton] at hlen
  refine ⟨?_, by omega, fun hlt => absurd hlt (by omega), ?_⟩
  · calc kept' ++ root :: out
        = (kept' ++ [root]) ++ out := by rw [List.append_assoc, List.singleton_append]
      _ |>.Perm ((kept ++ [t]) ++ out) := hperm.append_right out
      _ |>.Perm ((kept ++ out) ++ [t]) := by
        rw [List.append_assoc, List.append_assoc]
        exact List.perm_append_comm.append_left kept
      _ |>.Perm (rows ++ [t]) := hs.perm.append_right [t]
  · intro x hx y hy
    have hxroot : (cmp x root).isLE = true := by
      rcases List.mem_append.mp (hperm.mem_iff.mp (List.mem_append_left [root] hx)) with hx' | hx'
      · exact hmax x hx'
      · rw [List.mem_singleton.mp hx', hlt]
        rfl
    rcases List.mem_cons.mp hy with rfl | hy
    · exact hxroot
    · exact Std.TransCmp.isLE_trans hxroot (hs.least root hmem y hy)

/-! ## Sorted permutations -/

/-- What is less than an entry of what is in order stands before it. -/
theorem countP_lt_le {l : List α} (hl : l.Pairwise fun x y => (cmp x y).isLE = true) {k : ℕ} {x : α}
    (hx : l[k]? = some x) : l.countP (fun y => cmp y x == .lt) ≤ k := by
  obtain ⟨hk, hget⟩ := List.getElem?_eq_some_iff.mp hx
  have hdrop : l.drop k = x :: l.drop (k + 1) := by rw [List.drop_eq_getElem_cons hk, hget]
  have hfrom : (x :: l.drop (k + 1)).Pairwise fun x y => (cmp x y).isLE = true :=
    hdrop ▸ hl.sublist (List.drop_sublist k l)
  have hafter : (l.drop k).countP (fun y => cmp y x == .lt) = 0 := by
    rw [List.countP_eq_zero, hdrop]
    intro y hy hlt
    have hle : (cmp x y).isLE = true := by
      rcases List.mem_cons.mp hy with rfl | hy
      · have heq : cmp y y = .eq := Std.ReflCmp.compare_self
        rw [heq]
        rfl
      · exact (List.pairwise_cons.mp hfrom).1 y hy
    rw [Std.OrientedCmp.gt_of_lt (beq_iff_eq.mp hlt)] at hle
    cases hle
  calc l.countP (fun y => cmp y x == .lt)
      = (l.take k).countP (fun y => cmp y x == .lt) + (l.drop k).countP (fun y => cmp y x == .lt) := by
        rw [← List.countP_append, List.take_append_drop]
    _ ≤ (l.take k).length + 0 := Nat.add_le_add List.countP_le_length (Nat.le_of_eq hafter)
    _ ≤ k := by
      rw [List.length_take]
      omega

/-- The entry at a place of what is in order is not greater than the one there of another order of the same. -/
theorem isLE_of_perm {l l' : List α} (hl : l.Pairwise fun x y => (cmp x y).isLE = true)
    (hl' : l'.Pairwise fun x y => (cmp x y).isLE = true) (hperm : l.Perm l') {k : ℕ} {x y : α}
    (hx : l[k]? = some x) (hy : l'[k]? = some y) : (cmp x y).isLE = true := by
  by_contra hle
  have hlt : cmp y x = .lt := by
    rw [← Std.OrientedCmp.gt_iff_lt]
    cases hc : cmp x y <;> simp_all
  obtain ⟨hk, hget⟩ := List.getElem?_eq_some_iff.mp hy
  have hupto : (l'.take (k + 1)).countP (fun z => cmp z x == .lt) = k + 1 := by
    have hall : ∀ z ∈ l'.take (k + 1), (cmp z x == .lt) = true := by
      intro z hz
      obtain ⟨i, hi, hzi⟩ := List.mem_take_iff_getElem.mp hz
      rw [beq_iff_eq]
      rcases Nat.eq_or_lt_of_le (show i ≤ k by omega) with rfl | hik
      · rw [← hzi, hget]
        exact hlt
      · refine Std.TransCmp.lt_of_isLE_of_lt ?_ hlt
        rw [← hzi, ← hget]
        exact List.pairwise_iff_getElem.mp hl' i k (by omega) hk hik
    rw [List.countP_eq_length.mpr hall, List.length_take]
    omega
  have hcount := hperm.countP_eq (fun z => cmp z x == .lt)
  have hbefore := countP_lt_le hl hx
  have hsub := (List.take_sublist (k + 1) l').countP_le (p := fun z => cmp z x == .lt)
  omega

/-- Two orders of the same tie at every place. -/
theorem forall₂_of_perm {l l' : List α} (hl : l.Pairwise fun x y => (cmp x y).isLE = true)
    (hl' : l'.Pairwise fun x y => (cmp x y).isLE = true) (hperm : l.Perm l') :
    List.Forall₂ (fun x y => cmp x y = .eq) l l' := by
  rw [List.forall₂_iff_get]
  refine ⟨hperm.length_eq, fun i hi hi' => ?_⟩
  have hxy := isLE_of_perm hl hl' hperm (List.getElem?_eq_getElem hi) (List.getElem?_eq_getElem hi')
  have hyx := isLE_of_perm hl' hl hperm.symm (List.getElem?_eq_getElem hi') (List.getElem?_eq_getElem hi)
  exact Std.OrientedCmp.isLE_antisymm hxy hyx

/-- What is kept, in order, is at every place what the whole has there in order. -/
theorem Selects.forall₂_take {bound : ℕ} {kept rows out sorted : List α} (hs : Selects cmp bound kept rows out)
    (hkept : kept.Pairwise fun x y => (cmp x y).isLE = true)
    (hsorted : sorted.Pairwise fun x y => (cmp x y).isLE = true) (hperm : sorted.Perm rows) :
    List.Forall₂ (fun x y => cmp x y = .eq) kept (sorted.take bound) := by
  have htrans : ∀ x y z : α, (cmp x y).isLE = true → (cmp y z).isLE = true → (cmp x z).isLE = true :=
    fun _ _ _ => Std.TransCmp.isLE_trans
  have htotal : ∀ x y : α, ((cmp x y).isLE || (cmp y x).isLE) = true := fun x y => by
    have hswap : cmp y x = (cmp x y).swap := Std.OrientedCmp.eq_swap
    rw [hswap]
    cases cmp x y <;> rfl
  have hout := List.mergeSort_perm out fun x y => (cmp x y).isLE
  have hwhole : (kept ++ out.mergeSort fun x y => (cmp x y).isLE).Pairwise fun x y => (cmp x y).isLE = true := by
    refine List.pairwise_append.mpr ⟨hkept, List.pairwise_mergeSort htrans htotal out, ?_⟩
    exact fun x hx y hy => hs.least x hx y (hout.mem_iff.mp hy)
  have hties := forall₂_of_perm hwhole hsorted ((hout.append_left kept).trans (hs.perm.trans hperm.symm))
  have htake := List.forall₂_take bound hties
  by_cases hfull : kept.length < bound
  · obtain rfl := hs.full hfull
    rwa [List.mergeSort_nil, List.append_nil, List.take_of_length_le hs.length] at htake
  · rwa [List.take_left' (by have := hs.length; omega)] at htake

end Order

end Secantus.Library
