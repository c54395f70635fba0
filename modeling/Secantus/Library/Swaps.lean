/-
  Arrays sorted by swapping: the comparison of two places, what a swap does to it, the entries of a range moved
  among themselves, and the insertion of an entry after those in order.
-/
import Mathlib.Data.List.Basic

namespace Secantus.Library

variable {α : Type*} (cmp : α → α → Ordering)

/-- The comparison of two places; a place outside the array ties with every other. -/
def cmpAt (s : Array α) (i j : ℕ) : Ordering :=
  match s[i]?, s[j]? with
  | some x, some y => cmp x y
  | _, _ => .eq

/-- Where what is at `k` after swapping `i` and `j` was before. -/
def swapped (i j k : ℕ) : ℕ := if k = i then j else if k = j then i else k

theorem swapped_lt {i j k n : ℕ} (hi : i < n) (hj : j < n) (hk : k < n) : swapped i j k < n := by
  unfold swapped
  split_ifs <;> assumption

theorem swapped_swapped (i j k : ℕ) : swapped i j (swapped i j k) = k := by
  unfold swapped
  split_ifs <;> simp_all

theorem getElem?_swapIfInBounds {s : Array α} {i j : ℕ} (hi : i < s.size) (hj : j < s.size) (k : ℕ) :
    (s.swapIfInBounds i j)[k]? = s[swapped i j k]? := by
  rw [Array.swapIfInBounds_def, dif_pos hi, dif_pos hj, Array.getElem?_swap]
  unfold swapped
  by_cases hki : k = i
  · subst hki
    rw [if_pos rfl]
    by_cases hkj : j = k
    · subst hkj
      simp [hi]
    · simp [hj, hkj]
  · by_cases hkj : k = j
    · subst hkj
      simp [hi, hki]
    · simp [hki, hkj, Ne.symm hki, Ne.symm hkj]

theorem swapIfInBounds_comm {s : Array α} {i j : ℕ} (hi : i < s.size) (hj : j < s.size) :
    s.swapIfInBounds i j = s.swapIfInBounds j i := by
  refine Array.ext_getElem? fun k => ?_
  rw [getElem?_swapIfInBounds hi hj, getElem?_swapIfInBounds hj hi]
  unfold swapped
  split_ifs with h h' <;> simp_all

theorem getElem?_swap_of_ne {s : Array α} {i j k : ℕ} (hi : i < s.size) (hj : j < s.size) (hki : k ≠ i)
    (hkj : k ≠ j) : (s.swapIfInBounds i j)[k]? = s[k]? := by
  rw [getElem?_swapIfInBounds hi hj, swapped, if_neg hki, if_neg hkj]

theorem cmpAt_swapIfInBounds {s : Array α} {i j : ℕ} (hi : i < s.size) (hj : j < s.size) (k l : ℕ) :
    cmpAt cmp (s.swapIfInBounds i j) k l = cmpAt cmp s (swapped i j k) (swapped i j l) := by
  unfold cmpAt
  rw [getElem?_swapIfInBounds hi hj, getElem?_swapIfInBounds hi hj]

theorem swapIfInBounds_perm (s : Array α) (i j : ℕ) : (s.swapIfInBounds i j).Perm s := by
  rw [Array.swapIfInBounds_def]
  split
  · split
    · exact Array.swap_perm _ _
    · exact .rfl
  · exact .rfl

/-- Moving the entry at `j` to `i` and putting `x` in its place swaps the two in the array that has `x` at `i`. -/
theorem set_set_eq_swap {v : Array α} {i j : ℕ} {x p : α} (hi : i < v.size) (hj : v[j]? = some p) (hij : i ≠ j) :
    (v.setIfInBounds i p).setIfInBounds j x = (v.setIfInBounds i x).swapIfInBounds j i := by
  have hj' : j < v.size := (Array.getElem?_eq_some_iff.mp hj).1
  refine Array.ext_getElem? fun k => ?_
  rw [getElem?_swapIfInBounds (by simpa using hj') (by simpa using hi)]
  unfold swapped
  simp only [Array.getElem?_setIfInBounds, Array.size_setIfInBounds]
  by_cases hkj : k = j
  · subst hkj
    simp [hi, hj', hij]
  · by_cases hki : k = i
    · subst hki
      simp [hi, hj, hkj, Ne.symm hkj]
    · simp [hkj, hki, Ne.symm hkj, Ne.symm hki]

/-! ## Rearranging a range -/

/-- `t` is `s` with the entries from `lo` up to `hi` moved among themselves. -/
structure Shuffled (lo hi : ℕ) (t s : Array α) : Prop where
  perm : t.Perm s
  outside : ∀ k, k < lo ∨ hi ≤ k → t[k]? = s[k]?
  inside : ∀ k, lo ≤ k → k < hi → ∃ k', lo ≤ k' ∧ k' < hi ∧ t[k]? = s[k']?
  back : ∀ k, lo ≤ k → k < hi → ∃ k', lo ≤ k' ∧ k' < hi ∧ s[k]? = t[k']?

theorem Shuffled.rfl {lo hi : ℕ} {s : Array α} : Shuffled lo hi s s :=
  ⟨.rfl, fun _ _ => by rfl, fun k hlo hhi => ⟨k, hlo, hhi, by rfl⟩, fun k hlo hhi => ⟨k, hlo, hhi, by rfl⟩⟩

theorem Shuffled.symm {lo hi : ℕ} {t s : Array α} (h : Shuffled lo hi t s) : Shuffled lo hi s t :=
  ⟨h.perm.symm, fun k hk => (h.outside k hk).symm, h.back, h.inside⟩

theorem Shuffled.inside_trans {lo hi : ℕ} {u t s : Array α} (h : Shuffled lo hi u t) (h' : Shuffled lo hi t s) :
    ∀ k, lo ≤ k → k < hi → ∃ k', lo ≤ k' ∧ k' < hi ∧ u[k]? = s[k']? := by
  intro k hlo hhi
  obtain ⟨k', hlo', hhi', heq⟩ := h.inside k hlo hhi
  obtain ⟨k'', hlo'', hhi'', heq'⟩ := h'.inside k' hlo' hhi'
  exact ⟨k'', hlo'', hhi'', heq.trans heq'⟩

theorem Shuffled.trans {lo hi : ℕ} {u t s : Array α} (h : Shuffled lo hi u t) (h' : Shuffled lo hi t s) :
    Shuffled lo hi u s :=
  ⟨h.perm.trans h'.perm, fun k hk => (h.outside k hk).trans (h'.outside k hk), h.inside_trans h',
    h'.symm.inside_trans h.symm⟩

theorem Shuffled.inside_mono {lo hi lo' hi' : ℕ} {t s : Array α} (h : Shuffled lo hi t s) (hlo : lo' ≤ lo)
    (hhi : hi ≤ hi') : ∀ k, lo' ≤ k → k < hi' → ∃ k', lo' ≤ k' ∧ k' < hi' ∧ t[k]? = s[k']? := by
  intro k hk hk'
  by_cases hin : lo ≤ k ∧ k < hi
  · obtain ⟨j, hj, hj', heq⟩ := h.inside k hin.1 hin.2
    exact ⟨j, by omega, by omega, heq⟩
  · exact ⟨k, hk, hk', h.outside k (by omega)⟩

/-- What is moved within a range is moved within a wider one. -/
theorem Shuffled.mono {lo hi lo' hi' : ℕ} {t s : Array α} (h : Shuffled lo hi t s) (hlo : lo' ≤ lo)
    (hhi : hi ≤ hi') : Shuffled lo' hi' t s :=
  ⟨h.perm, fun k hk => h.outside k (by omega), h.inside_mono hlo hhi, h.symm.inside_mono hlo hhi⟩

theorem shuffled_swap {s : Array α} {lo hi i j : ℕ} (hhi : hi ≤ s.size) (hi' : lo ≤ i ∧ i < hi)
    (hj' : lo ≤ j ∧ j < hi) : Shuffled lo hi (s.swapIfInBounds i j) s := by
  have hget := getElem?_swapIfInBounds (s := s) (i := i) (j := j) (by omega) (by omega)
  have hrange : ∀ k, lo ≤ k → k < hi → lo ≤ swapped i j k ∧ swapped i j k < hi := by
    intro k hk hk'
    unfold swapped
    split_ifs <;> omega
  refine ⟨swapIfInBounds_perm s i j, ?_, ?_, ?_⟩
  · intro k hk
    exact getElem?_swap_of_ne (by omega) (by omega) (by omega) (by omega)
  · exact fun k hk hk' => ⟨swapped i j k, (hrange k hk hk').1, (hrange k hk hk').2, hget k⟩
  · intro k hk hk'
    refine ⟨swapped i j k, (hrange k hk hk').1, (hrange k hk hk').2, ?_⟩
    rw [hget, swapped_swapped]

theorem Shuffled.size_eq {lo hi : ℕ} {t s : Array α} (h : Shuffled lo hi t s) : t.size = s.size := h.perm.size_eq

/-- What holds of the entries of the range still does. -/
theorem Shuffled.forall_mem {lo hi : ℕ} {t s : Array α} (h : Shuffled lo hi t s) {P : α → Prop}
    (hs : ∀ k x, lo ≤ k → k < hi → s[k]? = some x → P x) :
    ∀ k x, lo ≤ k → k < hi → t[k]? = some x → P x := by
  intro k x hlo hhi hx
  obtain ⟨k', hlo', hhi', heq⟩ := h.inside k hlo hhi
  exact hs k' x hlo' hhi' (heq.symm.trans hx)

/-! ## Insertion -/

/-- The inner loop of an insertion sort: the entry at a place goes down past the greater ones. -/
def sink (s : Array α) : ℕ → Array α
  | 0 => s
  | pl + 1 => if cmpAt cmp s pl (pl + 1) = .gt then sink (s.swapIfInBounds (pl + 1) pl) pl else s

/-- The entries before a place are in order. -/
def OrderedTo (s : Array α) (m : ℕ) : Prop := ∀ i j, i < j → j < m → (cmpAt cmp s i j).isLE = true

variable {cmp}

@[simp] theorem size_sink (s : Array α) (pl : ℕ) : (sink cmp s pl).size = s.size := by
  induction pl generalizing s with
  | zero => rfl
  | succ pl ih =>
    rw [sink]
    split
    · rw [ih, Array.size_swapIfInBounds]
    · rfl

theorem sink_perm (s : Array α) (pl : ℕ) : (sink cmp s pl).Perm s := by
  induction pl generalizing s with
  | zero => exact .rfl
  | succ pl ih =>
    rw [sink]
    split
    · exact (ih _).trans (swapIfInBounds_perm s _ _)
    · exact .rfl

theorem sink_shuffled {s : Array α} {pl n : ℕ} (hpl : pl < n) (hn : n ≤ s.size) :
    Shuffled 0 n (sink cmp s pl) s := by
  induction pl generalizing s with
  | zero => exact .rfl
  | succ pl ih =>
    rw [sink]
    split
    · refine (ih (by omega) (by rwa [Array.size_swapIfInBounds])).trans ?_
      exact shuffled_swap hn ⟨Nat.zero_le _, hpl⟩ ⟨Nat.zero_le _, by omega⟩
    · exact .rfl

/-- An entry not less than the first does not go before it. -/
theorem sink_first {s : Array α} {pl : ℕ} (hpl : 0 < pl) (hlt : pl < s.size)
    (hfirst : (cmpAt cmp s 0 pl).isLE = true) : (sink cmp s pl)[0]? = s[0]? := by
  induction pl generalizing s with
  | zero => omega
  | succ pl ih =>
    rw [sink]
    split
    · rename_i hgt
      have hne : pl ≠ 0 := by
        rintro rfl
        rw [hgt] at hfirst
        cases hfirst
      have hget := getElem?_swap_of_ne (s := s) (i := pl + 1) (j := pl) (k := 0) hlt (by omega) (by omega) (by omega)
      rw [ih (by omega) (by rw [Array.size_swapIfInBounds]; omega), hget]
      rw [cmpAt_swapIfInBounds cmp hlt (by omega)]
      unfold swapped
      rwa [if_neg (by omega), if_neg (by omega), if_neg (by omega), if_pos rfl]
    · rfl

theorem pairwise_of_orderedTo {s : Array α} (h : OrderedTo cmp s s.size) :
    s.toList.Pairwise fun x y => (cmp x y).isLE = true := by
  rw [List.pairwise_iff_getElem]
  intro i j hi hj hij
  have hle := h i j hij (by simpa using hj)
  unfold cmpAt at hle
  rw [Array.getElem?_eq_getElem (by simpa using hi), Array.getElem?_eq_getElem (by simpa using hj)] at hle
  exact hle

section Order

variable [Std.TransCmp cmp]

theorem cmpAt_swap_eq (s : Array α) (i j : ℕ) : (cmpAt cmp s i j).swap = cmpAt cmp s j i := by
  unfold cmpAt
  cases s[i]? with
  | none => cases s[j]? <;> rfl
  | some x =>
    cases s[j]? with
    | none => rfl
    | some y => exact Std.OrientedCmp.eq_swap.symm

theorem cmpAt_trans {s : Array α} {i j k : ℕ} (hj : j < s.size) (hij : (cmpAt cmp s i j).isLE = true)
    (hjk : (cmpAt cmp s j k).isLE = true) : (cmpAt cmp s i k).isLE = true := by
  unfold cmpAt at *
  rw [Array.getElem?_eq_getElem hj] at hij hjk
  cases hi : s[i]? with
  | none => rfl
  | some x =>
    cases hk : s[k]? with
    | none => rfl
    | some y =>
      rw [hi] at hij
      rw [hk] at hjk
      exact Std.TransCmp.isLE_trans hij hjk

theorem cmpAt_self_isLE (s : Array α) (i : ℕ) : (cmpAt cmp s i i).isLE = true := by
  unfold cmpAt
  cases s[i]? with
  | none => rfl
  | some x =>
    simp only [Std.ReflCmp.compare_self]
    rfl

theorem cmpAt_isLE_of_gt {s : Array α} {i j : ℕ} (h : cmpAt cmp s i j = .gt) :
    (cmpAt cmp s j i).isLE = true := by
  rw [← cmpAt_swap_eq, h]
  rfl

/-- The entry that goes down is at `pl`: the others up to `pm` are in order, and those above are not less. -/
theorem orderedTo_sink {pm : ℕ} (pl : ℕ) : ∀ {s : Array α}, pl ≤ pm → pm < s.size →
    (∀ i j, i < j → j ≤ pm → i ≠ pl → j ≠ pl → (cmpAt cmp s i j).isLE = true) →
    (∀ j, pl < j → j ≤ pm → (cmpAt cmp s pl j).isLE = true) → OrderedTo cmp (sink cmp s pl) (pm + 1) := by
  induction pl with
  | zero =>
    intro s _ hpm hothers habove i j hij hj
    rcases Nat.eq_zero_or_pos i with rfl | hi
    · exact habove j hij (by omega)
    · exact hothers i j hij (by omega) (by omega) (by omega)
  | succ pl ih =>
    intro s hle hpm hothers habove
    rw [sink]
    split
    · rename_i hgt
      have hdown := cmpAt_isLE_of_gt hgt
      refine ih (by omega) (by rwa [Array.size_swapIfInBounds]) ?_ ?_
      · intro i j hij hj hi hj'
        rw [cmpAt_swapIfInBounds cmp (by omega) (by omega)]
        unfold swapped
        by_cases hipl : i = pl + 1
        · subst hipl
          rw [if_pos rfl, if_neg (by omega), if_neg (by omega)]
          exact hothers pl j (by omega) hj (by omega) (by omega)
        · rw [if_neg hipl, if_neg hi]
          by_cases hjpl : j = pl + 1
          · rw [if_pos hjpl]
            exact hothers i pl (by omega) (by omega) hipl (by omega)
          · rw [if_neg hjpl, if_neg hj']
            exact hothers i j hij hj hipl hjpl
      · intro j hj hjm
        rw [cmpAt_swapIfInBounds cmp (by omega) (by omega)]
        unfold swapped
        rw [if_neg (by omega : ¬ pl = pl + 1), if_pos rfl]
        by_cases hjpl : j = pl + 1
        · rw [if_pos hjpl]
          exact hdown
        · rw [if_neg hjpl, if_neg (by omega)]
          exact habove j (by omega) hjm
    · rename_i hle'
      have hprev : (cmpAt cmp s pl (pl + 1)).isLE = true := Ordering.isLE_iff_ne_gt.mpr hle'
      intro i j hij hj
      by_cases hi : i = pl + 1
      · subst hi
        exact habove j hij (by omega)
      · by_cases hj' : j = pl + 1
        · subst hj'
          by_cases hipl : i = pl
          · rw [hipl]
            exact hprev
          · exact cmpAt_trans (j := pl) (by omega) (hothers i pl (by omega) (by omega) hi (by omega)) hprev
        · exact hothers i j hij (by omega) hi hj'

/-- The entry after those in order goes to its place among them. -/
theorem orderedTo_sink_next {s : Array α} {k : ℕ} (hk : k < s.size) (hord : OrderedTo cmp s k) :
    OrderedTo cmp (sink cmp s k) (k + 1) := by
  refine orderedTo_sink k (Nat.le_refl k) hk ?_ ?_
  · exact fun i j hij hj _ hj' => hord i j hij (by omega)
  · exact fun j hj hj' => absurd hj (by omega)

end Order

end Secantus.Library
