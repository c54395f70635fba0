/-
  Heaps in arrays with the largest entry at the root: an entry sifted up or down until its parent is not less and
  its children are not greater, and the sort that takes the root away until none is left.
-/
import Secantus.Library.Selection
import Secantus.Library.Swaps

namespace Secantus.Library

variable {α : Type*} (cmp : α → α → Ordering)

/-- The entry at `j` goes up past the lesser ones. -/
def siftUp (h : Array α) (j : ℕ) : Array α :=
  if j = 0 then h
  else
    let i := (j - 1) / 2
    if (cmpAt cmp h j i).swap ≠ .lt then h else siftUp (h.swapIfInBounds i j) i
termination_by j
decreasing_by omega

/-- The entry at `j` goes up past the lesser ones, no further than `top`. -/
def rise (h : Array α) (top j : ℕ) : Array α :=
  if j > top then
    let i := (j - 1) / 2
    if cmpAt cmp h i j = .lt then rise (h.swapIfInBounds i j) top i else h
  else h
termination_by j
decreasing_by omega

/-- The larger child of `i` among the first `n` entries, the left one of two that tie. -/
def largerChild (h : Array α) (n i : ℕ) : ℕ :=
  let j := 2 * i + 1
  if j + 1 < n ∧ (cmpAt cmp h j (j + 1)).swap = .gt then j + 1 else j

theorem lt_largerChild (h : Array α) (n i : ℕ) : i < largerChild cmp h n i := by
  unfold largerChild
  simp only
  split <;> omega

/-- The entry at `i` of the first `n` goes down past the greater ones; one that ties stops it. -/
def siftDown (h : Array α) (n i : ℕ) : Array α :=
  if 2 * i + 1 ≥ n then h
  else
    let j := largerChild cmp h n i
    if (cmpAt cmp h i j).swap ≠ .gt then h else siftDown (h.swapIfInBounds i j) n j
termination_by n - i
decreasing_by
  have := lt_largerChild cmp h n i
  omega

/-- The roots of the first `n` entries, taken away one after the other, from the end down. -/
def sortHeap (h : Array α) : ℕ → Array α
  | 0 => h
  | 1 => h
  | n + 2 => sortHeap (siftDown cmp (h.swapIfInBounds 0 (n + 1)) (n + 1) 0) (n + 1)

/-- Of the first `n` entries none is greater than its parent. -/
def IsHeap (h : Array α) (n : ℕ) : Prop := ∀ k, 0 < k → k < n → (cmpAt cmp h k ((k - 1) / 2)).isLE = true

/-- The places under `t`. -/
inductive Under (t : ℕ) : ℕ → Prop
  | self : Under t t
  | child {j : ℕ} : 0 < j → Under t ((j - 1) / 2) → Under t j

/-- Of the first `n` entries none whose parent is at `t` or after it is greater than its parent. -/
def HeapFrom (h : Array α) (n t : ℕ) : Prop :=
  ∀ k, 0 < k → k < n → t ≤ (k - 1) / 2 → (cmpAt cmp h k ((k - 1) / 2)).isLE = true

/-- From `t` on a heap but for the entry at `j`, whose children are not greater than its parent. -/
structure RiseOrder (h : Array α) (n t j : ℕ) : Prop where
  except : ∀ k, 0 < k → k < n → t ≤ (k - 1) / 2 → k ≠ j → (cmpAt cmp h k ((k - 1) / 2)).isLE = true
  grand : 0 < j → t ≤ (j - 1) / 2 → ∀ c, 0 < c → c < n → (c - 1) / 2 = j →
    (cmpAt cmp h c ((j - 1) / 2)).isLE = true

/-- From `t` on a heap but for the entry at `j` and its children, which are not greater than its parent. -/
structure HoleOrder (h : Array α) (n t j : ℕ) : Prop where
  except : ∀ k, 0 < k → k < n → t ≤ (k - 1) / 2 → k ≠ j → (k - 1) / 2 ≠ j →
    (cmpAt cmp h k ((k - 1) / 2)).isLE = true
  grand : 0 < j → t ≤ (j - 1) / 2 → ∀ c, 0 < c → c < n → (c - 1) / 2 = j →
    (cmpAt cmp h c ((j - 1) / 2)).isLE = true

/-- A heap but for the entry at `j`, whose children are not greater than its parent. -/
structure UpOrder (h : Array α) (j : ℕ) : Prop where
  except : ∀ k, 0 < k → k < h.size → k ≠ j → (cmpAt cmp h k ((k - 1) / 2)).isLE = true
  grand : 0 < j → ∀ c, 0 < c → c < h.size → (c - 1) / 2 = j → (cmpAt cmp h c ((j - 1) / 2)).isLE = true

/-- A heap but for the children of the entry at `i`, which are not greater than its parent. -/
structure DownOrder (h : Array α) (n i : ℕ) : Prop where
  except : ∀ k, 0 < k → k < n → (k - 1) / 2 ≠ i → (cmpAt cmp h k ((k - 1) / 2)).isLE = true
  grand : 0 < i → ∀ c, 0 < c → c < n → (c - 1) / 2 = i → (cmpAt cmp h c ((i - 1) / 2)).isLE = true

/-! ## What a sift keeps -/

theorem siftUp_perm (h : Array α) (j : ℕ) : (siftUp cmp h j).Perm h := by
  fun_induction siftUp cmp h j with
  | case1 => exact .rfl
  | case2 => exact .rfl
  | case3 h j hj i hgt ih => exact ih.trans (swapIfInBounds_perm h i j)

theorem Under.le {t j : ℕ} (h : Under t j) : t ≤ j := by
  induction h with
  | self => exact Nat.le_refl t
  | child hj _ ih => omega

/-- What is under a place and is not that place has its parent under it too. -/
theorem Under.parent {t j : ℕ} (h : Under t j) (hne : t < j) : Under t ((j - 1) / 2) := by
  cases h with
  | self => omega
  | child _ h => exact h

theorem rise_shuffled {h : Array α} {top j lo n : ℕ} (hn : n ≤ h.size) (hu : Under top j) (hlo : lo ≤ top)
    (hj : j < n) : Shuffled lo n (rise cmp h top j) h := by
  fun_induction rise cmp h top j with
  | case1 h j hgt i hlt ih =>
    have hup : Under top i := hu.parent hgt
    have htop : top ≤ i := hup.le
    have hi : i = (j - 1) / 2 := rfl
    have hsize : (h.swapIfInBounds i j).size = h.size := Array.size_swapIfInBounds
    refine (ih (by omega) hup (by omega)).trans ?_
    exact shuffled_swap hn ⟨by omega, by omega⟩ ⟨by omega, hj⟩
  | case2 => exact .rfl
  | case3 => exact .rfl

theorem siftDown_perm (h : Array α) (n i : ℕ) : (siftDown cmp h n i).Perm h := by
  fun_induction siftDown cmp h n i with
  | case1 => exact .rfl
  | case2 => exact .rfl
  | case3 h i hi j hlt ih => exact ih.trans (swapIfInBounds_perm h i j)

theorem largerChild_lt {h : Array α} {n i : ℕ} (hi : 2 * i + 1 < n) : largerChild cmp h n i < n := by
  unfold largerChild
  simp only
  split
  · rename_i hj
    exact hj.1
  · exact hi

theorem parent_largerChild (h : Array α) (n i : ℕ) : (largerChild cmp h n i - 1) / 2 = i := by
  unfold largerChild
  simp only
  split <;> omega

/-- A sift down moves the first `n` entries among themselves. -/
theorem siftDown_shuffled {h : Array α} {n i : ℕ} (hn : n ≤ h.size) (hi : i < n) :
    Shuffled 0 n (siftDown cmp h n i) h := by
  fun_induction siftDown cmp h n i with
  | case1 => exact .rfl
  | case2 => exact .rfl
  | case3 h i hchild j hlt ih =>
    have hj : j < n := largerChild_lt cmp (by omega)
    refine (ih (by rwa [Array.size_swapIfInBounds]) hj).trans ?_
    exact shuffled_swap hn ⟨Nat.zero_le i, hi⟩ ⟨Nat.zero_le j, hj⟩

section Holes

variable {cmp}

/-- The hole with the greatest of its children moved up into it. -/
theorem HoleOrder.down {h : Array α} {n t j c : ℕ} (ho : HoleOrder cmp h n t j) (hn : n ≤ h.size) (hc : 0 < c)
    (hcn : c < n) (hcj : (c - 1) / 2 = j) (htj : t ≤ j)
    (hgreatest : ∀ d, 0 < d → d < n → (d - 1) / 2 = j → (cmpAt cmp h d c).isLE = true) :
    HoleOrder cmp (h.swapIfInBounds j c) n t c := by
  have hcmp := cmpAt_swapIfInBounds cmp (s := h) (i := j) (j := c) (by omega) (by omega)
  refine ⟨?_, ?_⟩
  · intro k hk hk' hkt hkc hpc
    rw [hcmp]
    unfold swapped
    rw [if_neg hkc, if_neg hpc]
    by_cases hkj : k = j
    · -- the child, now under the hole's old parent
      rw [if_pos hkj, if_neg (by omega), hkj]
      rw [hkj] at hk hkt
      exact ho.grand hk hkt c hc hcn hcj
    · rw [if_neg hkj]
      by_cases hpj : (k - 1) / 2 = j
      · rw [if_pos hpj]
        exact hgreatest k hk hk' hpj
      · rw [if_neg hpj]
        exact ho.except k hk hk' hkt hkj hpj
  · intro _ _ d hd hd' hpd
    rw [hcmp]
    unfold swapped
    rw [if_neg (by omega : ¬ d = j), if_neg (by omega : ¬ d = c), hcj, if_pos rfl]
    have hle := ho.except d hd hd' (by omega) (by omega) (by omega)
    rwa [hpd] at hle

/-- A hole with no children. -/
theorem HoleOrder.leaf {h : Array α} {n t j : ℕ} (ho : HoleOrder cmp h n t j) (hj : n ≤ 2 * j + 1) :
    RiseOrder cmp h n t j :=
  ⟨fun k hk hk' hkt hkj => ho.except k hk hk' hkt hkj (by omega), ho.grand⟩

/-- Where the entries after `t` are a heap, `t` is the only hole. -/
theorem HeapFrom.hole {h : Array α} {n t : ℕ} (hh : HeapFrom cmp h n (t + 1)) : HoleOrder cmp h n t t :=
  ⟨fun k hk hk' hkt _ hpt => hh k hk hk' (by omega), fun _ _ => by omega⟩

/-- The root taken away and the last entry in its place: a heap but for the children of that place. -/
theorem IsHeap.swap_last {h : Array α} {n : ℕ} (hh : IsHeap cmp h (n + 1)) (hn : n < h.size) :
    HeapFrom cmp (h.swapIfInBounds 0 n) n 1 := by
  intro k hk hk' hpk
  rw [cmpAt_swapIfInBounds cmp (by omega) hn]
  unfold swapped
  rw [if_neg (by omega), if_neg (by omega), if_neg (by omega), if_neg (by omega)]
  exact hh k hk (by omega)

end Holes

section Order

variable {cmp} [Std.TransCmp cmp]

/-- The root is not less than any other entry. -/
theorem IsHeap.root {h : Array α} {n : ℕ} (hh : IsHeap cmp h n) (hn : n ≤ h.size) :
    ∀ k, k < n → (cmpAt cmp h k 0).isLE = true := by
  intro k
  induction k using Nat.strongRecOn with
  | _ k ih =>
    intro hk
    by_cases h0 : k = 0
    · subst h0
      exact cmpAt_self_isLE h 0
    · exact cmpAt_trans (by omega) (hh k (by omega) hk) (ih ((k - 1) / 2) (by omega) (by omega))

/-- An entry that rises leaves a heap from `t` on. -/
theorem rise_heapFrom {h : Array α} {n t j : ℕ} (hn : n ≤ h.size) (hu : Under t j) (hj : j < n)
    (ho : RiseOrder cmp h n t j) : HeapFrom cmp (rise cmp h t j) n t := by
  fun_induction rise cmp h t j with
  | case1 h j hgt i hlt ih =>
    have hup : Under t i := hu.parent hgt
    have hti : t ≤ i := hup.le
    have hij : i < j := by omega
    have hparent : (cmpAt cmp h i j).isLE = true := by
      rw [hlt]
      rfl
    have hcmp := cmpAt_swapIfInBounds cmp (s := h) (i := i) (j := j) (by omega) (by omega)
    refine ih (by rwa [Array.size_swapIfInBounds]) hup (by omega) ⟨?_, ?_⟩
    · intro k hk hk' hkt hki
      rw [hcmp]
      unfold swapped
      rw [if_neg hki]
      by_cases hkj : k = j
      · -- the old parent, now below the entry
        rw [if_pos hkj, if_pos (by omega)]
        exact hparent
      · rw [if_neg hkj]
        by_cases hpi : (k - 1) / 2 = i
        · rw [if_pos hpi]
          refine cmpAt_trans (j := i) (by omega) ?_ hparent
          rw [← hpi]
          exact ho.except k hk hk' hkt hkj
        · rw [if_neg hpi]
          by_cases hpj : (k - 1) / 2 = j
          · rw [if_pos hpj]
            exact ho.grand (by omega) hti k hk hk' hpj
          · rw [if_neg hpj]
            exact ho.except k hk hk' hkt hkj
    · intro hi hti' c hc hc' hpc
      rw [hcmp]
      unfold swapped
      have hgrand : (cmpAt cmp h i ((i - 1) / 2)).isLE = true := ho.except i hi (by omega) hti' (by omega)
      rw [if_neg (by omega : ¬ c = i), if_neg (by omega : ¬ (i - 1) / 2 = i),
        if_neg (by omega : ¬ (i - 1) / 2 = j)]
      by_cases hcj : c = j
      · rw [if_pos hcj]
        exact hgrand
      · rw [if_neg hcj]
        refine cmpAt_trans (j := i) (by omega) ?_ hgrand
        rw [← hpc]
        exact ho.except c hc hc' (by omega) hcj
  | case2 h j hgt i hstop =>
    intro k hk hk' hkt
    by_cases hkj : k = j
    · subst hkj
      have hle : (cmpAt cmp h i k).swap.isLE = true := by
        cases hc : cmpAt cmp h i k <;> simp_all
      rwa [cmpAt_swap_eq] at hle
    · exact ho.except k hk hk' hkt hkj
  | case3 h j hstop =>
    have htj := hu.le
    exact fun k hk hk' hkt => ho.except k hk hk' hkt (by omega)

theorem siftUp_eq_rise (h : Array α) (j : ℕ) : siftUp cmp h j = rise cmp h 0 j := by
  fun_induction siftUp cmp h j with
  | case1 h =>
    rw [rise, if_neg (by omega)]
  | case2 h j hj i hstop =>
    rw [cmpAt_swap_eq] at hstop
    rw [rise, if_pos (by omega), if_neg hstop]
  | case3 h j hj i hlt ih =>
    rw [cmpAt_swap_eq, not_not] at hlt
    rw [rise, if_pos (by omega), if_pos hlt, ih]

theorem under_zero (j : ℕ) : Under 0 j := by
  induction j using Nat.strongRecOn with
  | _ j ih =>
    rcases Nat.eq_zero_or_pos j with rfl | hj
    · exact .self
    · exact .child hj (ih ((j - 1) / 2) (by omega))

theorem siftUp_isHeap {h : Array α} {j : ℕ} (hj : j < h.size) (ho : UpOrder cmp h j) :
    IsHeap cmp (siftUp cmp h j) h.size := by
  have hrise := rise_heapFrom (Nat.le_refl h.size) (under_zero j) hj
    ⟨fun k hk hk' _ hkj => ho.except k hk hk' hkj, fun hj _ => ho.grand hj⟩
  rw [siftUp_eq_rise]
  exact fun k hk hk' => hrise k hk hk' (Nat.zero_le _)

/-- Neither child is greater than the larger one. -/
theorem isLE_largerChild {h : Array α} {n i c : ℕ} (hc : 0 < c) (hcn : c < n) (hpc : (c - 1) / 2 = i) :
    (cmpAt cmp h c (largerChild cmp h n i)).isLE = true := by
  unfold largerChild
  simp only
  split
  · rename_i hj
    rcases (by omega : c = 2 * i + 1 ∨ c = 2 * i + 1 + 1) with rfl | rfl
    · have hlt : cmpAt cmp h (2 * i + 1) (2 * i + 1 + 1) = .lt := by
        rw [← Ordering.swap_eq_gt]
        exact hj.2
      rw [hlt]
      rfl
    · exact cmpAt_self_isLE h _
  · rename_i hj
    rcases (by omega : c = 2 * i + 1 ∨ c = 2 * i + 1 + 1) with rfl | rfl
    · exact cmpAt_self_isLE h _
    · have hne : (cmpAt cmp h (2 * i + 1) (2 * i + 1 + 1)).swap ≠ .gt := fun he => hj ⟨hcn, he⟩
      rw [cmpAt_swap_eq] at hne
      exact Ordering.isLE_iff_ne_gt.mpr hne

theorem siftDown_isHeap {h : Array α} {n i : ℕ} (hn : n ≤ h.size) (hi : i < n) (ho : DownOrder cmp h n i) :
    IsHeap cmp (siftDown cmp h n i) n := by
  fun_induction siftDown cmp h n i with
  | case1 h i hchild => exact fun k hk hk' => ho.except k hk hk' (by omega)
  | case2 h i hchild j hstop =>
    intro k hk hk'
    by_cases hpk : (k - 1) / 2 = i
    · rw [cmpAt_swap_eq] at hstop
      rw [hpk]
      exact cmpAt_trans (Nat.lt_of_lt_of_le (largerChild_lt cmp (by omega)) hn) (isLE_largerChild hk hk' hpk)
        (Ordering.isLE_iff_ne_gt.mpr hstop)
    · exact ho.except k hk hk' hpk
  | case3 h i hchild j hlt ih =>
    have hij : i < j := lt_largerChild cmp h n i
    have hjn : j < n := largerChild_lt cmp (by omega)
    have hparent : (j - 1) / 2 = i := parent_largerChild cmp h n i
    have hup : (cmpAt cmp h i j).isLE = true := by
      rw [not_not, Ordering.swap_eq_gt] at hlt
      rw [hlt]
      rfl
    have hcmp := cmpAt_swapIfInBounds cmp (s := h) (i := i) (j := j) (by omega) (by omega)
    refine ih (by rwa [Array.size_swapIfInBounds]) hjn ⟨?_, ?_⟩
    · intro k hk hk' hpk
      rw [hcmp]
      unfold swapped
      by_cases hki : k = i
      · -- the larger child, now under the entry's old parent
        rw [if_pos hki, if_neg (by omega), if_neg (by omega), hki]
        exact ho.grand (by omega) j (by omega) hjn hparent
      · rw [if_neg hki]
        by_cases hkj : k = j
        · rw [if_pos hkj, hkj, if_pos hparent]
          exact hup
        · rw [if_neg hkj]
          by_cases hpi : (k - 1) / 2 = i
          · rw [if_pos hpi]
            exact isLE_largerChild hk hk' hpi
          · rw [if_neg hpi, if_neg hpk]
            exact ho.except k hk hk' hpi
    · intro _ c hc hc' hpc
      rw [hcmp]
      unfold swapped
      rw [if_neg (by omega : ¬ c = i), if_neg (by omega : ¬ c = j), hparent, if_pos rfl]
      have hchild := ho.except c hc hc' (by omega)
      rwa [hpc] at hchild

/-! ## The sort -/

/-- The entries before a place are a heap, those after it are in order, and none before is greater than one
    after. -/
structure HalfSorted (cmp : α → α → Ordering) (h : Array α) (n : ℕ) : Prop where
  le : n ≤ h.size
  heap : IsHeap cmp h n
  ordered : ∀ i j, n ≤ i → i < j → j < h.size → (cmpAt cmp h i j).isLE = true
  across : ∀ i j, i < n → n ≤ j → j < h.size → (cmpAt cmp h i j).isLE = true

/-- The root taken away goes before the entries in order, once the others are made a heap again. -/
theorem HalfSorted.step {h g : Array α} {n : ℕ} (hs : HalfSorted cmp h (n + 1)) (hn : 0 < n)
    (hg : Shuffled 0 n g (h.swapIfInBounds 0 n)) (hheap : IsHeap cmp g n) : HalfSorted cmp g n := by
  obtain ⟨hle, hold, hordered, hacross⟩ := hs
  have hcmp := cmpAt_swapIfInBounds cmp (s := h) (i := 0) (j := n) (by omega) (by omega)
  have hroot := hold.root hle
  generalize hh' : h.swapIfInBounds 0 n = h' at hcmp hg
  have hsize : h'.size = h.size := by rw [← hh', Array.size_swapIfInBounds]
  have hafter : ∀ i j, n ≤ i → i < j → j < h.size → (cmpAt cmp h' i j).isLE = true := by
    intro i j hi hij hj
    rw [hcmp]
    unfold swapped
    rw [if_neg (by omega), if_neg (by omega : ¬ j = 0), if_neg (by omega : ¬ j = n)]
    by_cases hin : i = n
    · rw [if_pos hin]
      exact hacross 0 j (by omega) (by omega) hj
    · rw [if_neg hin]
      exact hordered i j (by omega) hij hj
  have hbetween : ∀ i j, i < n → n ≤ j → j < h.size → (cmpAt cmp h' i j).isLE = true := by
    intro i j hi hj hj'
    rw [hcmp]
    have hi' : swapped 0 n i < n + 1 := swapped_lt (by omega) (by omega) (by omega)
    unfold swapped at hi' ⊢
    rw [if_neg (by omega : ¬ j = 0)]
    by_cases hjn : j = n
    · rw [if_pos hjn]
      exact hroot _ hi'
    · rw [if_neg hjn]
      exact hacross _ j hi' (by omega) hj'
  have hsame : ∀ i j k, n ≤ j → g[i]? = h'[k]? → cmpAt cmp g i j = cmpAt cmp h' k j := by
    intro i j k hj hik
    unfold cmpAt
    rw [hik, hg.outside j (.inr hj)]
  have hsize' : g.size = h.size := hg.size_eq.trans hsize
  refine ⟨by omega, hheap, ?_, ?_⟩
  · intro i j hi hij hj
    rw [hsame i j i (by omega) (hg.outside i (.inr hi))]
    exact hafter i j hi hij (by omega)
  · intro i j hi hj hj'
    obtain ⟨k, -, hk, heq⟩ := hg.inside i (Nat.zero_le i) hi
    rw [hsame i j k hj heq]
    exact hbetween k j hk hj (by omega)

theorem HalfSorted.siftDown {h : Array α} {n : ℕ} (hs : HalfSorted cmp h (n + 1)) (hn : 0 < n) :
    HalfSorted cmp (siftDown cmp (h.swapIfInBounds 0 n) n 0) n := by
  have hsize : (h.swapIfInBounds 0 n).size = h.size := Array.size_swapIfInBounds
  have hle := hs.le
  have hfrom := hs.heap.swap_last (by omega)
  refine hs.step hn (siftDown_shuffled cmp (by omega) hn) ?_
  refine siftDown_isHeap (by omega) hn ⟨?_, fun h0 => absurd h0 (Nat.lt_irrefl 0)⟩
  exact fun k hk hk' hpk => hfrom k hk hk' (by omega)

theorem sortHeap_spec {h : Array α} {n : ℕ} (hs : HalfSorted cmp h n) :
    (sortHeap cmp h n).Perm h ∧
      ∀ i j, i < j → j < h.size → (cmpAt cmp (sortHeap cmp h n) i j).isLE = true := by
  fun_induction sortHeap cmp h n with
  | case1 h => exact ⟨.rfl, fun i j hij hj => hs.ordered i j (Nat.zero_le i) hij hj⟩
  | case2 h =>
    refine ⟨.rfl, fun i j hij hj => ?_⟩
    by_cases hi : i = 0
    · exact hs.across i j (by omega) (by omega) hj
    · exact hs.ordered i j (by omega) hij hj
  | case3 h n ih =>
    have hperm := (siftDown_perm cmp (h.swapIfInBounds 0 (n + 1)) (n + 1) 0).trans
      (swapIfInBounds_perm h 0 (n + 1))
    obtain ⟨hp, hord⟩ := ih (hs.siftDown (Nat.succ_pos n))
    exact ⟨hp.trans hperm, fun i j hij hj => hord i j hij (by rwa [hperm.size_eq])⟩

/-- A heap's entries sorted. -/
theorem sortHeap_of_isHeap {h : Array α} (hh : IsHeap cmp h h.size) :
    (sortHeap cmp h h.size).Perm h ∧
      ∀ i j, i < j → j < h.size → (cmpAt cmp (sortHeap cmp h h.size) i j).isLE = true :=
  sortHeap_spec ⟨Nat.le_refl _, hh, fun i j hi hij hj => absurd hi (by omega), fun i j hi hj hj' => absurd hj (by omega)⟩

/-! ## The least of what came -/

/-- The entries of a heap are the least of what came. -/
structure Keeps (cmp : α → α → Ordering) (bound : ℕ) (h : Array α) (rows out : List α) : Prop extends
    Selects cmp bound h.toList rows out where
  heap : IsHeap cmp h h.size

omit [Std.TransCmp cmp] in
theorem keeps_empty (bound : ℕ) : Keeps cmp bound #[] [] [] :=
  ⟨selects_nil bound, fun k _ hk => absurd hk (Nat.not_lt_zero k)⟩

omit [Std.TransCmp cmp] in
theorem Keeps.size_eq {bound : ℕ} {h : Array α} {rows out : List α} (hk : Keeps cmp bound h rows out)
    (hrows : bound ≤ rows.length) : h.size = bound := by
  rw [← Array.length_toList, hk.length_eq, Nat.min_eq_left hrows]

omit [Std.TransCmp cmp] in
/-- An entry after a heap's is the only one that may be greater than its parent. -/
theorem IsHeap.push {h : Array α} (hh : IsHeap cmp h h.size) (t : α) : UpOrder cmp (h.push t) h.size := by
  refine ⟨?_, ?_⟩
  · intro k hk hk' hne
    rw [Array.size_push] at hk'
    have hsame : cmpAt cmp (h.push t) k ((k - 1) / 2) = cmpAt cmp h k ((k - 1) / 2) := by
      unfold cmpAt
      rw [Array.getElem?_push, Array.getElem?_push, if_neg hne, if_neg (by omega)]
    rw [hsame]
    exact hh k hk (by omega)
  · intro _ c _ hc hpc
    rw [Array.size_push] at hc
    omega

theorem IsHeap.insert {h : Array α} (hh : IsHeap cmp h h.size) (t : α) :
    IsHeap cmp (siftUp cmp (h.push t) h.size) (siftUp cmp (h.push t) h.size).size := by
  rw [(siftUp_perm cmp (h.push t) h.size).size_eq]
  exact siftUp_isHeap (by rw [Array.size_push]; omega) (hh.push t)

omit [Std.TransCmp cmp] in
theorem siftUp_push_perm (h : Array α) (t : α) :
    (siftUp cmp (h.push t) h.size).toList.Perm (h.toList ++ [t]) := by
  have hperm := (siftUp_perm cmp (h.push t) h.size).toList
  rwa [Array.toList_push] at hperm

theorem Keeps.insert {bound : ℕ} {h : Array α} {rows out : List α} (hk : Keeps cmp bound h rows out)
    (hlt : h.size < bound) (t : α) : Keeps cmp bound (siftUp cmp (h.push t) h.size) (rows ++ [t]) out :=
  ⟨hk.toSelects.insert hlt (siftUp_push_perm h t), hk.heap.insert t⟩

theorem isLE_of_heap_root {h : Array α} (hh : IsHeap cmp h h.size) {root : α} (hroot : h[0]? = some root) :
    ∀ x ∈ h.toList, (cmp x root).isLE = true := by
  intro x hx
  obtain ⟨k, hk⟩ := Array.mem_iff_getElem?.mp (Array.mem_toList_iff.mp hx)
  have hlt : k < h.size := (Array.getElem?_eq_some_iff.mp hk).1
  have hle := hh.root (Nat.le_refl _) k hlt
  unfold cmpAt at hle
  rwa [hk, hroot] at hle

/-- What is not before a full heap's root is let go. -/
theorem Keeps.skip {bound : ℕ} {h : Array α} {rows out : List α} (hk : Keeps cmp bound h rows out)
    (hsize : h.size = bound) {t : α} (hroot : ∀ root, h[0]? = some root → (cmp root t).isLE = true) :
    Keeps cmp bound h (rows ++ [t]) (out ++ [t]) := by
  refine ⟨hk.toSelects.skip hsize fun x hx => ?_, hk.heap⟩
  have hpos : 0 < h.size := List.length_pos_of_mem hx
  have hget := Array.getElem?_eq_getElem hpos
  exact Std.TransCmp.isLE_trans (isLE_of_heap_root hk.heap hget x hx) (hroot _ hget)

/-- What is before a full heap's root takes its place. -/
theorem Keeps.replace {bound : ℕ} {h h' : Array α} {rows out : List α} (hk : Keeps cmp bound h rows out)
    (hsize : h.size = bound) {t root : α} (hroot : h[0]? = some root) (hlt : cmp t root = .lt)
    (hperm : (h'.toList ++ [root]).Perm (h.toList ++ [t])) (hheap : IsHeap cmp h' h'.size) :
    Keeps cmp bound h' (rows ++ [t]) (root :: out) :=
  ⟨hk.toSelects.replace hsize (Array.mem_toList_iff.mpr (Array.mem_of_getElem? hroot))
    (isLE_of_heap_root hk.heap hroot) hlt hperm, hheap⟩

end Order

end Secantus.Library
