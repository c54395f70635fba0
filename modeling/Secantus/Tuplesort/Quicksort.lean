/-
  `pg_qsort`: PostgreSQL's quicksort, with its insertion sort below seven rows, its check of rows already in
  order and its partition that puts the rows equal to the pivot at both ends.

  Where it leaves rows that tie is what the code says it is; that it permutes its rows and leaves them in order
  is proved (`pgQsort_spec`).

  `TupleSort`: rows put one at a time and sorted in memory. A sort that needs only the first `bound` rows keeps
  that many in a heap, largest at the root, once more than twice as many have arrived.

  What it ends with are rows in order, none of them after one it has let go (`TupleSort.finish_spec`).
-/
import Secantus.Library.MaxHeap
import Mathlib.Algebra.Order.Ring.Nat
import Mathlib.Data.List.Range

namespace Secantus.Tuplesort

open Secantus.Library

variable {ρ : Type*} (cmp : ρ → ρ → Ordering)

/-! ## Insertion sort -/

/-- The insertion sort of fewer than seven rows. -/
def insertionSort (s : Array ρ) : Array ρ := (List.range' 1 (s.size - 1)).foldl (sink cmp) s

/-! ## The partition -/

/-- The place of the median of three rows. -/
def med3 (s : Array ρ) (a b c : ℕ) : ℕ :=
  if cmpAt cmp s a b = .lt then
    if cmpAt cmp s b c = .lt then b else if cmpAt cmp s a c = .lt then c else a
  else if cmpAt cmp s b c = .gt then b
  else if cmpAt cmp s a c = .lt then a else c

/-- The place of the pivot. -/
def pivot (s : Array ρ) : ℕ :=
  let n := s.size
  let pm := n / 2
  if n > 7 then
    if n > 40 then
      let d := n / 8
      let pl := med3 cmp s 0 d (2 * d)
      let pn := med3 cmp s (n - 1 - 2 * d) (n - 1 - d) (n - 1)
      med3 cmp s pl (med3 cmp s (pm - d) pm (pm + d)) pn
    else med3 cmp s 0 pm (n - 1)
  else pm

/-- The rows and the four places of the partition's loop. -/
structure Split (ρ : Type*) where
  s : Array ρ
  pa : ℕ
  pb : ℕ
  pc : ℕ
  pd : ℕ

/-- The loop that goes up from the left, past the rows not greater than the pivot. -/
def Split.up (p : Split ρ) : Split ρ :=
  if p.pb < p.pc then
    match cmpAt cmp p.s p.pb 0 with
    | .gt => p
    | .eq => Split.up { p with s := p.s.swapIfInBounds p.pa p.pb, pa := p.pa + 1, pb := p.pb + 1 }
    | .lt => Split.up { p with pb := p.pb + 1 }
  else p
termination_by p.pc - p.pb

/-- The loop that goes down from the right, past the rows not less than the pivot. -/
def Split.down (p : Split ρ) : Split ρ :=
  if p.pb < p.pc then
    match cmpAt cmp p.s (p.pc - 1) 0 with
    | .lt => p
    | .eq =>
      Split.down { p with s := p.s.swapIfInBounds (p.pc - 1) (p.pd - 1), pd := p.pd - 1, pc := p.pc - 1 }
    | .gt => Split.down { p with pc := p.pc - 1 }
  else p
termination_by p.pc - p.pb

theorem Split.up_width (p : Split ρ) : (p.up cmp).pc - (p.up cmp).pb ≤ p.pc - p.pb := by
  fun_induction Split.up cmp p with
  | case1 => exact le_rfl
  | case2 p h he ih => exact ih.trans (by simp only; omega)
  | case3 p h he ih => exact ih.trans (by simp only; omega)
  | case4 => exact le_rfl

theorem Split.down_width (p : Split ρ) : (p.down cmp).pc - (p.down cmp).pb ≤ p.pc - p.pb := by
  fun_induction Split.down cmp p with
  | case1 => exact le_rfl
  | case2 p h he ih => exact ih.trans (by simp only; omega)
  | case3 p h he ih => exact ih.trans (by simp only; omega)
  | case4 => exact le_rfl

/-- The loop of the partition: a row greater than the pivot and one less change places. -/
def Split.loop (p : Split ρ) : Split ρ :=
  let q := (p.up cmp).down cmp
  if q.pb ≥ q.pc then q
  else Split.loop { q with s := q.s.swapIfInBounds q.pb (q.pc - 1), pb := q.pb + 1, pc := q.pc - 1 }
termination_by p.pc - p.pb
decreasing_by
  have hup := Split.up_width cmp p
  have hdown := Split.down_width cmp (p.up cmp)
  have hpb : q.pb = ((p.up cmp).down cmp).pb := rfl
  have hpc : q.pc = ((p.up cmp).down cmp).pc := rfl
  omega

/-- `d` swaps that exchange the block at `i` with the one at `j`. -/
def swapBlocks (s : Array ρ) (i j : ℕ) : ℕ → Array ρ
  | 0 => s
  | d + 1 => (swapBlocks s i j d).swapIfInBounds (i + d) (j + d)

/-- The rows with the pivot in front, split into those less than it, equal to it and greater. -/
def split (s : Array ρ) : Split ρ :=
  Split.loop cmp ⟨s.swapIfInBounds 0 (pivot cmp s), 1, 1, s.size, s.size⟩

/-- The rows equal to the pivot brought from both ends into the middle. -/
def Split.gather (p : Split ρ) : Array ρ :=
  let d1 := min p.pa (p.pb - p.pa)
  let s := swapBlocks p.s 0 (p.pb - d1) d1
  let d2 := min (p.pd - p.pc) (s.size - p.pd)
  swapBlocks s p.pb (s.size - d2) d2

/-- The rows are already in order. -/
def presorted (s : Array ρ) : Bool :=
  (List.range' 1 (s.size - 1)).all fun pm => cmpAt cmp s (pm - 1) pm ≠ .gt

/-- The places of a split lie in the rows. -/
structure Split.Within (p : Split ρ) (n : ℕ) : Prop where
  size : p.s.size = n
  pa : 1 ≤ p.pa
  pb : 1 ≤ p.pb ∧ p.pb ≤ n
  pc : 1 ≤ p.pc ∧ p.pc ≤ n
  pd : p.pd ≤ n

theorem Split.Within.up {p : Split ρ} {n : ℕ} (h : p.Within n) : (p.up cmp).Within n := by
  obtain ⟨hsize, ha, hb, hc, hd⟩ := h
  fun_induction Split.up cmp p with
  | case1 => exact ⟨hsize, ha, hb, hc, hd⟩
  | case2 p h he ih =>
    exact ih (by rwa [Array.size_swapIfInBounds]) (Nat.le_add_left 1 _) ⟨by dsimp only; omega, by dsimp only; omega⟩ hc hd
  | case3 p h he ih => exact ih hsize ha ⟨by dsimp only; omega, by dsimp only; omega⟩ hc hd
  | case4 => exact ⟨hsize, ha, hb, hc, hd⟩

theorem Split.Within.down {p : Split ρ} {n : ℕ} (h : p.Within n) : (p.down cmp).Within n := by
  obtain ⟨hsize, ha, hb, hc, hd⟩ := h
  fun_induction Split.down cmp p with
  | case1 => exact ⟨hsize, ha, hb, hc, hd⟩
  | case2 p h he ih =>
    exact ih (by rwa [Array.size_swapIfInBounds]) ha hb ⟨by dsimp only; omega, by dsimp only; omega⟩ (by dsimp only; omega)
  | case3 p h he ih => exact ih hsize ha hb ⟨by dsimp only; omega, by dsimp only; omega⟩ hd
  | case4 => exact ⟨hsize, ha, hb, hc, hd⟩

theorem Split.Within.loop {p : Split ρ} {n : ℕ} (h : p.Within n) : (p.loop cmp).Within n := by
  fun_induction Split.loop cmp p with
  | case1 p q hq => exact (h.up cmp).down cmp
  | case2 p q hq ih =>
    have hwithin : q.Within n := (h.up cmp).down cmp
    obtain ⟨hsize, ha, hb, hc, hd⟩ := hwithin
    refine ih ⟨by rwa [Array.size_swapIfInBounds], ha, ?_, ?_, hd⟩
    · exact ⟨Nat.le_add_left 1 _, by dsimp only; omega⟩
    · exact ⟨by dsimp only; omega, by dsimp only; omega⟩

theorem within_split {s : Array ρ} (h : 1 ≤ s.size) : (split cmp s).Within s.size :=
  Split.Within.loop cmp ⟨Array.size_swapIfInBounds, le_rfl, ⟨le_rfl, h⟩, ⟨h, le_rfl⟩, le_rfl⟩

@[simp] theorem size_swapBlocks (s : Array ρ) (i j d : ℕ) : (swapBlocks s i j d).size = s.size := by
  induction d with
  | zero => rfl
  | succ d ih => rw [swapBlocks, Array.size_swapIfInBounds, ih]

@[simp] theorem Split.size_gather (p : Split ρ) : p.gather.size = p.s.size := by
  simp [Split.gather]

def pgQsort (s : Array ρ) : Array ρ :=
  if s.size < 7 then insertionSort cmp s
  else if presorted cmp s then s
  else
    let p := split cmp s
    let t := p.gather
    let d1 := p.pb - p.pa
    let d2 := p.pd - p.pc
    let left := t.extract 0 d1
    let right := t.extract (s.size - d2) s.size
    (if d1 > 1 then pgQsort left else left) ++ t.extract d1 (s.size - d2) ++
      (if d2 > 1 then pgQsort right else right)
termination_by s.size
decreasing_by
  · have hw := within_split cmp (s := s) (by omega)
    have ha := hw.pa
    have hb := hw.pb
    have hd1 : d1 = (split cmp s).pb - (split cmp s).pa := rfl
    show (t.extract 0 d1).size < s.size
    rw [Array.size_extract]
    omega
  · have hw := within_split cmp (s := s) (by omega)
    have hc := hw.pc
    have hd := hw.pd
    have hd2 : d2 = (split cmp s).pd - (split cmp s).pc := rfl
    show (t.extract (s.size - d2) s.size).size < s.size
    rw [Array.size_extract]
    omega

/-! ## Insertion sort orders -/

variable {cmp}

section Order

variable [Std.TransCmp cmp]

theorem insertionSort_spec (s : Array ρ) :
    (insertionSort cmp s).Perm s ∧ OrderedTo cmp (insertionSort cmp s) s.size := by
  have hfold : ∀ k, k < s.size → ((List.range' 1 k).foldl (sink cmp) s).size = s.size ∧
      ((List.range' 1 k).foldl (sink cmp) s).Perm s ∧
      OrderedTo cmp ((List.range' 1 k).foldl (sink cmp) s) (k + 1) := by
    intro k
    induction k with
    | zero => exact fun _ => ⟨rfl, .rfl, fun i j hij hj => absurd hj (by omega)⟩
    | succ k ih =>
      intro hk
      obtain ⟨hsize, hperm, hord⟩ := ih (by omega)
      rw [List.range'_1_concat, List.foldl_append, List.foldl_cons, List.foldl_nil]
      refine ⟨by rw [size_sink, hsize], (sink_perm _ _).trans hperm, ?_⟩
      rw [Nat.add_comm 1 k]
      exact orderedTo_sink_next (by omega) hord
  rcases Nat.eq_zero_or_pos s.size with h0 | hpos
  · have hempty : s = #[] := Array.eq_empty_of_size_eq_zero h0
    subst hempty
    exact ⟨.rfl, fun i j _ hj => absurd hj (by simp)⟩
  · obtain ⟨-, hperm, hord⟩ := hfold (s.size - 1) (by omega)
    exact ⟨hperm, by rwa [Nat.sub_add_cancel hpos] at hord⟩

end Order

/-! ## The partition splits -/

/-- The rows of a range of places compare so with `x`. -/
def Compares (cmp : ρ → ρ → Ordering) (s : Array ρ) (x : ρ) (o : Ordering) (lo hi : ℕ) : Prop :=
  ∀ k y, lo ≤ k → k < hi → s[k]? = some y → cmp y x = o

/-- The rows equal to the pivot `x` are at both ends, those less and greater next to them. -/
structure Split.Holds (p : Split ρ) (cmp : ρ → ρ → Ordering) (s : Array ρ) (x : ρ) : Prop where
  perm : p.s.Perm s
  pivot : p.s[0]? = some x
  places : 1 ≤ p.pa ∧ p.pa ≤ p.pb ∧ p.pb ≤ p.pc ∧ p.pc ≤ p.pd ∧ p.pd ≤ p.s.size
  equalLow : Compares cmp p.s x .eq 0 p.pa
  low : Compares cmp p.s x .lt p.pa p.pb
  high : Compares cmp p.s x .gt p.pc p.pd
  equalHigh : Compares cmp p.s x .eq p.pd p.s.size

theorem cmpAt_zero {s : Array ρ} {x : ρ} (hx : s[0]? = some x) {k : ℕ} {y : ρ} (hy : s[k]? = some y) :
    cmpAt cmp s k 0 = cmp y x := by
  unfold cmpAt
  rw [hx, hy]

theorem Split.Holds.up {p : Split ρ} {s : Array ρ} {x : ρ} (h : p.Holds cmp s x) :
    (p.up cmp).Holds cmp s x ∧ (p.up cmp).pc = p.pc ∧
      ((p.up cmp).pb < (p.up cmp).pc → cmpAt cmp (p.up cmp).s (p.up cmp).pb 0 = .gt) := by
  fun_induction Split.up cmp p with
  | case1 p hlt hgt => exact ⟨h, rfl, fun _ => hgt⟩
  | case2 p hlt heq ih =>
    refine ih ?_
    obtain ⟨hperm, hx, ⟨h1, h2, h3, h4, h5⟩, hel, hl, hh, heh⟩ := h
    have hpa : p.pa < p.s.size := by omega
    have hpb : p.pb < p.s.size := by omega
    have hget := getElem?_swapIfInBounds hpa hpb
    refine ⟨(swapIfInBounds_perm _ _ _).trans hperm, ?_, ⟨by dsimp only; omega, by dsimp only; omega,
      by dsimp only; omega, h4, by rwa [Array.size_swapIfInBounds]⟩, ?_, ?_, ?_, ?_⟩
    · rw [getElem?_swap_of_ne hpa hpb (by omega) (by omega), hx]
    · intro k y _ hk hy
      rw [hget] at hy
      dsimp only at hk
      by_cases hka : k = p.pa
      · rw [swapped, if_pos hka] at hy
        exact (cmpAt_zero hx hy).symm.trans heq
      · rw [swapped, if_neg hka] at hy
        rw [if_neg (by omega)] at hy
        exact hel k y (by omega) (by omega) hy
    · intro k y hk hk' hy
      rw [hget] at hy
      dsimp only at hk hk'
      rw [swapped, if_neg (by omega)] at hy
      split at hy
      · exact hl p.pa y le_rfl (by omega) hy
      · exact hl k y (by omega) (by omega) hy
    · intro k y hk hk' hy
      rw [getElem?_swap_of_ne hpa hpb (by dsimp only at hk; omega) (by dsimp only at hk; omega)] at hy
      exact hh k y hk hk' hy
    · intro k y hk hk' hy
      rw [getElem?_swap_of_ne hpa hpb (by dsimp only at hk; omega) (by dsimp only at hk; omega)] at hy
      exact heh k y hk (by rwa [Array.size_swapIfInBounds] at hk') hy
  | case3 p hlt hlow ih =>
    refine ih ?_
    obtain ⟨hperm, hx, ⟨h1, h2, h3, h4, h5⟩, hel, hl, hh, heh⟩ := h
    refine ⟨hperm, hx, ⟨h1, by dsimp only; omega, by dsimp only; omega, h4, h5⟩, hel, ?_, hh, heh⟩
    intro k y hk hk' hy
    dsimp only at hk'
    by_cases hkb : k = p.pb
    · subst hkb
      exact (cmpAt_zero hx hy).symm.trans hlow
    · exact hl k y hk (by omega) hy
  | case4 p hlt => exact ⟨h, rfl, fun h => absurd h hlt⟩

theorem Split.Holds.down {p : Split ρ} {s : Array ρ} {x : ρ} (h : p.Holds cmp s x)
    (hgt : p.pb < p.pc → cmpAt cmp p.s p.pb 0 = .gt) :
    (p.down cmp).Holds cmp s x ∧ ((p.down cmp).pb < (p.down cmp).pc →
      cmpAt cmp (p.down cmp).s (p.down cmp).pb 0 = .gt ∧
        cmpAt cmp (p.down cmp).s ((p.down cmp).pc - 1) 0 = .lt) := by
  fun_induction Split.down cmp p with
  | case1 p hlt hlow => exact ⟨h, fun _ => ⟨hgt hlt, hlow⟩⟩
  | case2 p hlt heq ih =>
    have hne : p.pb ≠ p.pc - 1 := by
      intro he
      rw [← he, hgt hlt] at heq
      cases heq
    obtain ⟨hperm, hx, ⟨h1, h2, h3, h4, h5⟩, hel, hl, hh, heh⟩ := h
    have hpc : p.pc - 1 < p.s.size := by omega
    have hpd : p.pd - 1 < p.s.size := by omega
    have hget := getElem?_swapIfInBounds hpc hpd
    have hzero : (p.s.swapIfInBounds (p.pc - 1) (p.pd - 1))[0]? = some x := by
      rw [getElem?_swap_of_ne hpc hpd (by omega) (by omega), hx]
    have hbelow : ∀ k, k < p.pc - 1 → (p.s.swapIfInBounds (p.pc - 1) (p.pd - 1))[k]? = p.s[k]? := fun k hk =>
      getElem?_swap_of_ne hpc hpd (by omega) (by omega)
    refine ih ?_ ?_
    · refine ⟨(swapIfInBounds_perm _ _ _).trans hperm, hzero, ⟨h1, h2, by dsimp only; omega,
        by dsimp only; omega, by rw [Array.size_swapIfInBounds]; dsimp only; omega⟩, ?_, ?_, ?_, ?_⟩
      · intro k y hk hk' hy
        rw [hbelow k (by dsimp only at hk'; omega)] at hy
        exact hel k y hk hk' hy
      · intro k y hk hk' hy
        rw [hbelow k (by dsimp only at hk'; omega)] at hy
        exact hl k y hk hk' hy
      · intro k y hk hk' hy
        rw [hget] at hy
        dsimp only at hk hk'
        by_cases hkc : k = p.pc - 1
        · rw [swapped, if_pos hkc] at hy
          exact hh (p.pd - 1) y (by omega) (by omega) hy
        · rw [swapped, if_neg hkc, if_neg (by omega)] at hy
          exact hh k y (by omega) (by omega) hy
      · intro k y hk hk' hy
        rw [hget] at hy
        rw [Array.size_swapIfInBounds] at hk'
        dsimp only at hk
        by_cases hkd : k = p.pd - 1
        · have hy' : p.s[p.pc - 1]? = some y := by
            by_cases hkc : k = p.pc - 1
            · rw [swapped, if_pos hkc, ← hkd, hkc] at hy
              exact hy
            · rw [swapped, if_neg hkc, if_pos hkd] at hy
              exact hy
          exact (cmpAt_zero hx hy').symm.trans heq
        · rw [swapped, if_neg (by omega), if_neg hkd] at hy
          exact heh k y (by omega) hk' hy
    · intro _
      have hsame : cmpAt cmp (p.s.swapIfInBounds (p.pc - 1) (p.pd - 1)) p.pb 0 = cmpAt cmp p.s p.pb 0 := by
        unfold cmpAt
        rw [hzero, hx, hbelow p.pb (by omega)]
      exact hsame.trans (hgt hlt)
  | case3 p hlt hhigh ih =>
    obtain ⟨hperm, hx, ⟨h1, h2, h3, h4, h5⟩, hel, hl, hh, heh⟩ := h
    refine ih ?_ fun _ => hgt hlt
    refine ⟨hperm, hx, ⟨h1, h2, by dsimp only; omega, by dsimp only; omega, h5⟩, hel, hl, ?_, heh⟩
    intro k y hk hk' hy
    dsimp only at hk
    by_cases hkc : k = p.pc - 1
    · subst hkc
      exact (cmpAt_zero hx hy).symm.trans hhigh
    · exact hh k y (by omega) hk' hy
  | case4 p hlt => exact ⟨h, fun h => absurd h hlt⟩

theorem Split.Holds.loop {p : Split ρ} {s : Array ρ} {x : ρ} (h : p.Holds cmp s x) :
    (p.loop cmp).Holds cmp s x ∧ (p.loop cmp).pb = (p.loop cmp).pc := by
  fun_induction Split.loop cmp p with
  | case1 p q hq =>
    have hholds : q.Holds cmp s x := (h.up.1.down h.up.2.2).1
    exact ⟨hholds, le_antisymm hholds.places.2.2.1 hq⟩
  | case2 p q hq ih =>
    refine ih ?_
    have hdown : q.Holds cmp s x ∧ (q.pb < q.pc → cmpAt cmp q.s q.pb 0 = .gt ∧
        cmpAt cmp q.s (q.pc - 1) 0 = .lt) := h.up.1.down h.up.2.2
    obtain ⟨⟨hperm, hx, ⟨h1, h2, h3, h4, h5⟩, hel, hl, hh, heh⟩, hends⟩ := hdown
    obtain ⟨hgt, hlt⟩ := hends (by omega)
    have hne : q.pb ≠ q.pc - 1 := by
      intro he
      rw [← he, hgt] at hlt
      cases hlt
    have hpb : q.pb < q.s.size := by omega
    have hpc : q.pc - 1 < q.s.size := by omega
    have hget := getElem?_swapIfInBounds hpb hpc
    have hother : ∀ k, k ≠ q.pb → k ≠ q.pc - 1 →
        (q.s.swapIfInBounds q.pb (q.pc - 1))[k]? = q.s[k]? := fun k => getElem?_swap_of_ne hpb hpc
    refine ⟨(swapIfInBounds_perm _ _ _).trans hperm, ?_, ⟨h1, by dsimp only; omega, by dsimp only; omega,
      by dsimp only; omega, by rwa [Array.size_swapIfInBounds]⟩, ?_, ?_, ?_, ?_⟩
    · rw [hother 0 (by omega) (by omega), hx]
    · intro k y hk hk' hy
      rw [hother k (by dsimp only at hk'; omega) (by dsimp only at hk'; omega)] at hy
      exact hel k y hk hk' hy
    · intro k y hk hk' hy
      dsimp only at hk hk'
      by_cases hkb : k = q.pb
      · rw [hget, swapped, if_pos hkb] at hy
        exact (cmpAt_zero hx hy).symm.trans hlt
      · rw [hother k hkb (by omega)] at hy
        exact hl k y hk (by omega) hy
    · intro k y hk hk' hy
      dsimp only at hk hk'
      by_cases hkc : k = q.pc - 1
      · rw [hget, swapped, if_neg (by omega), if_pos hkc] at hy
        exact (cmpAt_zero hx hy).symm.trans hgt
      · rw [hother k (by omega) hkc] at hy
        exact hh k y (by omega) hk' hy
    · intro k y hk hk' hy
      rw [Array.size_swapIfInBounds] at hk'
      rw [hother k (by dsimp only at hk; omega) (by dsimp only at hk; omega)] at hy
      exact heh k y hk hk' hy

theorem holds_split [Std.ReflCmp cmp] {s : Array ρ} (h : 1 ≤ s.size) :
    ∃ x, (split cmp s).Holds cmp s x ∧ (split cmp s).pb = (split cmp s).pc := by
  have hsize : (s.swapIfInBounds 0 (pivot cmp s)).size = s.size := Array.size_swapIfInBounds
  obtain ⟨x, hx⟩ : ∃ x, (s.swapIfInBounds 0 (pivot cmp s))[0]? = some x :=
    ⟨_, Array.getElem?_eq_getElem (by omega)⟩
  refine ⟨x, Split.Holds.loop ⟨swapIfInBounds_perm _ _ _, hx, ?_, ?_, ?_, ?_, ?_⟩⟩
  · exact ⟨le_rfl, le_rfl, h, le_rfl, hsize.ge⟩
  · intro k y _ hk hy
    dsimp only at hk
    obtain rfl : k = 0 := by omega
    obtain rfl : x = y := Option.some.inj (hx.symm.trans hy)
    exact Std.ReflCmp.compare_self
  · exact fun k y hk hk' => absurd hk (by dsimp only at hk' ⊢; omega)
  · exact fun k y hk hk' => absurd hk (by dsimp only at hk' ⊢; omega)
  · intro k y hk hk'
    dsimp only at hk hk'
    omega

theorem swapBlocks_perm (s : Array ρ) (i j d : ℕ) : (swapBlocks s i j d).Perm s := by
  induction d with
  | zero => exact .rfl
  | succ d ih => exact (swapIfInBounds_perm _ _ _).trans ih

theorem getElem?_swapBlocks {s : Array ρ} {i j d : ℕ} (hij : i + d ≤ j) (hj : j + d ≤ s.size) (k : ℕ) :
    (swapBlocks s i j d)[k]? = if i ≤ k ∧ k < i + d then s[j + (k - i)]?
      else if j ≤ k ∧ k < j + d then s[i + (k - j)]? else s[k]? := by
  induction d generalizing k with
  | zero =>
    rw [swapBlocks, if_neg (by omega), if_neg (by omega)]
  | succ d ih =>
    have hsize := size_swapBlocks s i j d
    rw [swapBlocks, getElem?_swapIfInBounds (by omega) (by omega), swapped]
    by_cases hki : k = i + d
    · rw [if_pos hki, ih (by omega) (by omega), if_neg (by omega), if_neg (by omega), if_pos (by omega)]
      congr 1
      omega
    · rw [if_neg hki]
      by_cases hkj : k = j + d
      · rw [if_pos hkj, ih (by omega) (by omega), if_neg (by omega), if_neg (by omega), if_neg (by omega),
          if_pos (by omega)]
        congr 1
        omega
      · have hi : i ≤ k ∧ k < i + (d + 1) ↔ i ≤ k ∧ k < i + d := by omega
        have hj : j ≤ k ∧ k < j + (d + 1) ↔ j ≤ k ∧ k < j + d := by omega
        rw [if_neg hkj, ih (by omega) (by omega)]
        simp only [hi, hj]

/-- Two ranges side by side that change places keep how they compare. -/
theorem compares_swapBlocks {s : Array ρ} {x : ρ} {a b c : ℕ} {o o' : Ordering} (hab : a ≤ b) (hbc : b ≤ c)
    (hc : c ≤ s.size) (h : Compares cmp s x o a b) (h' : Compares cmp s x o' b c) {d : ℕ}
    (hd : d = min (b - a) (c - b)) :
    Compares cmp (swapBlocks s a (c - d) d) x o' a (a + (c - b)) ∧
      Compares cmp (swapBlocks s a (c - d) d) x o (a + (c - b)) c ∧
      ∀ k, k < a ∨ c ≤ k → (swapBlocks s a (c - d) d)[k]? = s[k]? := by
  have hget := getElem?_swapBlocks (s := s) (i := a) (j := c - d) (d := d) (by omega) (by omega)
  refine ⟨?_, ?_, ?_⟩
  · intro k y hk hk' hy
    rw [hget] at hy
    split_ifs at hy with h1 h2
    · exact h' _ y (by omega) (by omega) hy
    · exact h' _ y (by omega) (by omega) hy
    · exact h' k y (by omega) (by omega) hy
  · intro k y hk hk' hy
    rw [hget] at hy
    split_ifs at hy with h1 h2
    · exact h _ y (by omega) (by omega) hy
    · exact h _ y (by omega) (by omega) hy
    · exact h k y (by omega) (by omega) hy
  · intro k hk
    rw [hget, if_neg (by omega), if_neg (by omega)]

theorem Split.Holds.gather {p : Split ρ} {s : Array ρ} {x : ρ} (h : p.Holds cmp s x) (hmet : p.pb = p.pc) :
    p.gather.Perm s ∧ Compares cmp p.gather x .lt 0 (p.pb - p.pa) ∧
      Compares cmp p.gather x .eq (p.pb - p.pa) (s.size - (p.pd - p.pc)) ∧
      Compares cmp p.gather x .gt (s.size - (p.pd - p.pc)) s.size := by
  obtain ⟨hperm, -, ⟨h1, h2, h3, h4, h5⟩, hel, hl, hh, heh⟩ := h
  have hn : s.size = p.s.size := hperm.size_eq.symm
  obtain ⟨hlow, hmid, hsame⟩ := compares_swapBlocks (Nat.zero_le _) h2 (by omega) hel hl
    (d := min p.pa (p.pb - p.pa)) (by omega)
  generalize ht : swapBlocks p.s 0 (p.pb - min p.pa (p.pb - p.pa)) (min p.pa (p.pb - p.pa)) = t
    at hlow hmid hsame
  have hsize : t.size = p.s.size := by rw [← ht, size_swapBlocks]
  have hhigh : Compares cmp t x .gt p.pc p.pd := fun k y hk hk' hy =>
    hh k y hk hk' ((hsame k (.inr (by omega))).symm.trans hy)
  have hequal : Compares cmp t x .eq p.pd t.size := fun k y hk hk' hy =>
    heh k y hk (by omega) ((hsame k (.inr (by omega))).symm.trans hy)
  have hgather : p.gather = swapBlocks t p.pc (t.size - min (p.pd - p.pc) (t.size - p.pd))
      (min (p.pd - p.pc) (t.size - p.pd)) := by
    unfold Split.gather
    simp only
    rw [ht, hmet]
  obtain ⟨heq, hgt, hbelow⟩ := compares_swapBlocks h4 (by omega) le_rfl hhigh hequal
    (d := min (p.pd - p.pc) (t.size - p.pd)) rfl
  rw [← hgather] at heq hgt hbelow
  refine ⟨?_, ?_, ?_, ?_⟩
  · rw [hgather, ← ht]
    exact (swapBlocks_perm _ _ _ _).trans ((swapBlocks_perm _ _ _ _).trans hperm)
  · intro k y hk hk' hy
    rw [hbelow k (.inl (by omega))] at hy
    exact hlow k y hk (by omega) hy
  · intro k y hk hk' hy
    by_cases hb : k < p.pc
    · rw [hbelow k (.inl hb)] at hy
      exact hmid k y (by omega) (by omega) hy
    · exact heq k y (by omega) (by omega) hy
  · exact fun k y hk hk' hy => hgt k y (by omega) (by omega) hy

/-! ## The sort -/

theorem mem_extract {t : Array ρ} {a b : ℕ} {y : ρ} (h : y ∈ (t.extract a b).toList) :
    ∃ k, a ≤ k ∧ k < b ∧ t[k]? = some y := by
  obtain ⟨i, hi⟩ := Array.mem_iff_getElem?.mp (Array.mem_toList_iff.mp h)
  rw [Array.getElem?_extract] at hi
  split at hi
  · exact ⟨a + i, by omega, by omega, hi⟩
  · cases hi

/-- What a recursive call leaves of a part, or the part itself when it has one row or none. -/
theorem part_spec {part : Array ρ} {d : ℕ} (hd : part.size ≤ d) {sorted : Array ρ}
    (h : d > 1 → sorted.Perm part ∧ sorted.toList.Pairwise fun x y => (cmp x y).isLE = true) :
    (if d > 1 then sorted else part).Perm part ∧
      (if d > 1 then sorted else part).toList.Pairwise fun x y => (cmp x y).isLE = true := by
  split
  · exact h ‹_›
  · refine ⟨.rfl, List.pairwise_iff_getElem.mpr ?_⟩
    intro i j hi hj hij
    rw [Array.length_toList] at hj
    omega

variable [Std.TransCmp cmp]

theorem orderedTo_of_presorted {s : Array ρ} (h : presorted cmp s = true) : OrderedTo cmp s s.size := by
  have hnext : ∀ i, i + 1 < s.size → (cmpAt cmp s i (i + 1)).isLE = true := by
    intro i hi
    have hall := List.all_eq_true.mp h (i + 1) (List.mem_range'_1.mpr ⟨by omega, by omega⟩)
    exact Ordering.isLE_iff_ne_gt.mpr (of_decide_eq_true hall)
  intro i j hij hj
  induction j, hij using Nat.le_induction with
  | base => exact hnext i hj
  | succ j hij ih => exact cmpAt_trans (j := j) (by omega) (ih (by omega)) (hnext j hj)

theorem pgQsort_spec (s : Array ρ) : (pgQsort cmp s).Perm s ∧
    (pgQsort cmp s).toList.Pairwise fun x y => (cmp x y).isLE = true := by
  fun_induction pgQsort cmp s with
  | case1 s hsmall =>
    obtain ⟨hperm, hord⟩ : (insertionSort cmp s).Perm s ∧ OrderedTo cmp (insertionSort cmp s) s.size :=
      insertionSort_spec s
    exact ⟨hperm, pairwise_of_orderedTo (by rwa [hperm.size_eq])⟩
  | case2 s hsmall hsorted => exact ⟨.rfl, pairwise_of_orderedTo (orderedTo_of_presorted hsorted)⟩
  | case3 s hsmall hsorted p t d1 d2 left right ihl ihr =>
    obtain ⟨x, hholds, hmet⟩ : ∃ x, p.Holds cmp s x ∧ p.pb = p.pc := holds_split (by omega)
    have hplaces := hholds.places
    obtain ⟨hperm, hlow, hmid, hhigh⟩ := hholds.gather hmet
    have hpsize : p.s.size = s.size := hholds.perm.size_eq
    have htsize : t.size = s.size := hperm.size_eq
    have hd1 : d1 = p.pb - p.pa := rfl
    have hd2 : d2 = p.pd - p.pc := rfl
    have hsum : d1 ≤ s.size - d2 := by omega
    obtain ⟨hpl, hsl⟩ := part_spec (d := d1) (show left.size ≤ d1 by rw [Array.size_extract]; omega) ihl
    obtain ⟨hpr, hsr⟩ := part_spec (d := d2) (show right.size ≤ d2 by rw [Array.size_extract]; omega) ihr
    generalize (if d1 > 1 then pgQsort cmp left else left) = l at hpl hsl
    generalize (if d2 > 1 then pgQsort cmp right else right) = r at hpr hsr
    have hjoin : left ++ t.extract d1 (s.size - d2) ++ right = t := by
      rw [Array.extract_append_extract, Nat.zero_min, max_eq_right hsum, Array.extract_append_extract,
        Array.extract_eq_self_iff]
      exact .inr ⟨by omega, by omega⟩
    have hl : ∀ y ∈ l.toList, cmp y x = .lt := by
      intro y hy
      obtain ⟨k, hk, hk', hget⟩ := mem_extract (hpl.toList.mem_iff.mp hy)
      exact hlow k y hk hk' hget
    have hm : ∀ y ∈ (t.extract d1 (s.size - d2)).toList, cmp y x = .eq := by
      intro y hy
      obtain ⟨k, hk, hk', hget⟩ := mem_extract hy
      exact hmid k y hk hk' hget
    have hr : ∀ y ∈ r.toList, cmp y x = .gt := by
      intro y hy
      obtain ⟨k, hk, hk', hget⟩ := mem_extract (hpr.toList.mem_iff.mp hy)
      exact hhigh k y hk hk' hget
    -- across the parts every comparison goes through the pivot
    have hacross : ∀ y z, (cmp y x).isLE = true → (cmp z x).isGE = true → (cmp y z).isLE = true := by
      intro y z hy hz
      refine Std.TransCmp.isLE_trans hy ?_
      exact Std.OrientedCmp.isLE_of_isGE hz
    refine ⟨?_, ?_⟩
    · have hparts := (hpl.append (.refl (t.extract d1 (s.size - d2)))).append hpr
      rw [hjoin] at hparts
      exact hparts.trans hperm
    · rw [Array.toList_append, Array.toList_append, List.pairwise_append, List.pairwise_append]
      refine ⟨⟨hsl, ?_, ?_⟩, hsr, ?_⟩
      · exact List.pairwise_of_forall_mem_list fun y hy z hz =>
          hacross y z (by rw [hm y hy]; rfl) (by rw [hm z hz]; rfl)
      · exact fun y hy z hz => hacross y z (by rw [hl y hy]; rfl) (by rw [hm z hz]; rfl)
      · intro y hy z hz
        refine hacross y z ?_ (by rw [hr z hz]; rfl)
        rcases List.mem_append.mp hy with hy | hy
        · rw [hl y hy]
          rfl
        · rw [hm y hy]
          rfl

variable {ρ : Type*} (cmp : ρ → ρ → Ordering)

/-- `usize::MAX`. -/
def usizeMax : ℕ := 2 ^ 64 - 1

/-- `tuplesort_heap_insert`. -/
def heapInsert (h : Array ρ) (t : ρ) : Array ρ := siftUp cmp (h.push t) h.size

/-- `tuplesort_heap_replace_top`. -/
def heapReplaceTop (h : Array ρ) (t : ρ) : Array ρ := siftDown cmp (h.setIfInBounds 0 t) h.size 0

structure TupleSort (ρ : Type*) where
  tuples : Array ρ
  bound : Option ℕ
  bounded : Bool

def TupleSort.new (bound : Option ℕ) : TupleSort ρ := ⟨#[], bound, false⟩

/-- A row at a full heap: it takes the root's place when it is before it. -/
def heapOffer (h : Array ρ) (t : ρ) : Array ρ :=
  match h[0]? with
  | none => h
  | some root => if (cmp t root).swap ≠ .gt then h else heapReplaceTop cmp h t

/-- One row of `make_bounded_heap`. -/
def heapGrow (bound : ℕ) (h : Array ρ) (t : ρ) : Array ρ :=
  if h.size < bound then heapInsert cmp h t else heapOffer cmp h t

def TupleSort.makeBoundedHeap (s : TupleSort ρ) (bound : ℕ) : TupleSort ρ :=
  { s with tuples := s.tuples.toList.foldl (heapGrow cmp bound) #[], bounded := true }

def TupleSort.put (s : TupleSort ρ) (t : ρ) : TupleSort ρ :=
  if s.bounded then { s with tuples := heapOffer cmp s.tuples t }
  else
    let s := { s with tuples := s.tuples.push t }
    match s.bound with
    | none => s
    | some bound => if s.tuples.size > min (bound * 2) usizeMax then s.makeBoundedHeap cmp bound else s

def TupleSort.finish (s : TupleSort ρ) : List ρ :=
  if s.bounded then (sortHeap cmp s.tuples s.tuples.size).toList else (pgQsort cmp s.tuples).toList

/-! ## The least rows -/

variable {cmp}

/-- What a sort has of the rows put: all of them, or the least in a full heap. -/
def TupleSort.Holds (cmp : ρ → ρ → Ordering) (s : TupleSort ρ) (rows : List ρ) : Prop :=
  if s.bounded then
    ∃ bound out, s.bound = some bound ∧ s.tuples.size = bound ∧ Keeps cmp bound s.tuples rows out
  else s.tuples.toList = rows

theorem TupleSort.holds_new (bound : Option ℕ) : (TupleSort.new bound : TupleSort ρ).Holds cmp [] := rfl

@[simp] theorem TupleSort.bound_put (s : TupleSort ρ) (t : ρ) : (s.put cmp t).bound = s.bound := by
  unfold TupleSort.put
  split
  · rfl
  · dsimp only
    split
    · rfl
    · split <;> rfl

variable [Std.TransCmp cmp]

/-- A row offered at a full heap is in it, or is not before any of it. -/
theorem keeps_offer {bound : ℕ} {h : Array ρ} {rows out : List ρ} (hk : Keeps cmp bound h rows out)
    (hsize : h.size = bound) (t : ρ) : ∃ out', Keeps cmp bound (heapOffer cmp h t) (rows ++ [t]) out' := by
  unfold heapOffer
  split
  · rename_i hnone
    refine ⟨out ++ [t], hk.skip hsize fun root hroot => ?_⟩
    rw [hnone] at hroot
    cases hroot
  · rename_i root hroot
    split
    · rename_i hstay
      refine ⟨out ++ [t], hk.skip hsize fun root' hroot' => ?_⟩
      rw [hroot] at hroot'
      obtain rfl := Option.some.inj hroot'
      rw [← Std.OrientedCmp.eq_swap] at hstay
      exact Ordering.isLE_iff_ne_gt.mpr hstay
    · rename_i hgo
      rw [not_not, Ordering.swap_eq_gt] at hgo
      have hpos : 0 < h.size := (Array.getElem?_eq_some_iff.mp hroot).1
      have hsizes : (h.setIfInBounds 0 t).size = h.size := Array.size_setIfInBounds
      have hp : (heapReplaceTop cmp h t).Perm (h.setIfInBounds 0 t) := siftDown_perm cmp _ _ _
      have hrsize : (heapReplaceTop cmp h t).size = h.size := hp.size_eq.trans hsizes
      refine ⟨root :: out, hk.replace hsize hroot hgo ?_ ?_⟩
      · refine (hp.toList.append_right [root]).trans ?_
        rw [← Array.getElem?_toList] at hroot
        cases hl : h.toList with
        | nil =>
          rw [hl] at hroot
          cases hroot
        | cons a rest =>
          rw [hl] at hroot
          obtain rfl := Option.some.inj hroot
          rw [Array.toList_setIfInBounds, hl, List.set_cons_zero]
          refine (List.perm_append_singleton _ _).trans ?_
          exact (List.Perm.swap _ _ _).trans (List.perm_append_singleton t (a :: rest)).symm
      · rw [hrsize]
        refine siftDown_isHeap (by omega) hpos ⟨?_, fun h0 => absurd h0 (lt_irrefl 0)⟩
        intro k hk' hk'' hpk
        have hsame : cmpAt cmp (h.setIfInBounds 0 t) k ((k - 1) / 2) = cmpAt cmp h k ((k - 1) / 2) := by
          unfold cmpAt
          rw [Array.getElem?_setIfInBounds_ne (by omega), Array.getElem?_setIfInBounds_ne (by omega)]
        rw [hsame]
        exact hk.heap k hk' hk''

theorem keeps_grow {bound : ℕ} {h : Array ρ} {rows out : List ρ} (hk : Keeps cmp bound h rows out) (t : ρ) :
    ∃ out', Keeps cmp bound (heapGrow cmp bound h t) (rows ++ [t]) out' := by
  unfold heapGrow
  split
  · rename_i hlt
    exact ⟨out, hk.insert hlt t⟩
  · exact keeps_offer hk (le_antisymm hk.length (by omega)) t

theorem keeps_foldl {bound : ℕ} (ts : List ρ) {h : Array ρ} {rows out : List ρ}
    (hk : Keeps cmp bound h rows out) :
    ∃ out', Keeps cmp bound (ts.foldl (heapGrow cmp bound) h) (rows ++ ts) out' := by
  induction ts generalizing h rows out with
  | nil => exact ⟨out, by rwa [List.append_nil]⟩
  | cons t ts ih =>
    obtain ⟨out', hk'⟩ := keeps_grow hk t
    obtain ⟨out'', hk''⟩ := ih hk'
    rw [List.append_assoc] at hk''
    exact ⟨out'', hk''⟩

/-! ## The rows put -/

/-- `hbound`: twice the bound is a `usize`. -/
theorem TupleSort.Holds.put {s : TupleSort ρ} {rows : List ρ} (h : s.Holds cmp rows)
    (hbound : ∀ bound, s.bound = some bound → bound * 2 ≤ usizeMax) (t : ρ) :
    (s.put cmp t).Holds cmp (rows ++ [t]) := by
  unfold TupleSort.Holds at h
  unfold TupleSort.put
  by_cases hb : s.bounded = true
  · rw [if_pos hb] at h ⊢
    obtain ⟨bound, out, hs, hsize, hk⟩ := h
    obtain ⟨out', hk'⟩ := keeps_offer hk hsize t
    have hrows : bound ≤ rows.length := by
      have hlen := hk.perm.length_eq
      rw [List.length_append, Array.length_toList] at hlen
      omega
    rw [TupleSort.Holds, if_pos hb]
    exact ⟨bound, out', hs, hk'.size_eq (by rw [List.length_append]; omega), hk'⟩
  · rw [if_neg hb] at h ⊢
    have hpush : (s.tuples.push t).toList = rows ++ [t] := by rw [Array.toList_push, h]
    dsimp only
    split
    · rw [TupleSort.Holds, if_neg hb]
      exact hpush
    · rename_i bound hs
      split
      · rename_i hmany
        have hb2 := hbound bound hs
        rw [Nat.min_eq_left hb2] at hmany
        obtain ⟨out, hk⟩ := keeps_foldl (s.tuples.push t).toList (show Keeps cmp bound #[] [] [] from keeps_empty bound)
        rw [List.nil_append] at hk
        rw [TupleSort.Holds, if_pos (show (TupleSort.makeBoundedHeap cmp _ bound).bounded = true from rfl)]
        have hfull := hk.size_eq (by rw [Array.length_toList]; omega)
        rw [← hpush]
        exact ⟨bound, out, hs, hfull, hk⟩
      · rw [TupleSort.Holds, if_neg hb]
        exact hpush

/-- A sort's rows are in order, and with those it has let go, none of them before one of its rows, they are the
    rows put. With no bound, or with fewer rows than it, it has let none go. -/
theorem TupleSort.Holds.finish {s : TupleSort ρ} {rows : List ρ} (h : s.Holds cmp rows) :
    ∃ out, (s.finish cmp ++ out).Perm rows ∧ (s.finish cmp).Pairwise (fun x y => (cmp x y).isLE = true) ∧
      (∀ x ∈ s.finish cmp, ∀ y ∈ out, (cmp x y).isLE = true) ∧
      (out = [] ∨ ∃ bound, s.bound = some bound ∧ (s.finish cmp).length = bound) := by
  unfold TupleSort.Holds at h
  unfold TupleSort.finish
  by_cases hb : s.bounded = true
  · rw [if_pos hb] at h ⊢
    obtain ⟨bound, out, hs, hsize, hk⟩ := h
    obtain ⟨hperm, hord⟩ := sortHeap_of_isHeap hk.heap
    refine ⟨out, (hperm.toList.append_right out).trans hk.perm, ?_, ?_, .inr ⟨bound, hs, ?_⟩⟩
    · exact pairwise_of_orderedTo fun i j hij hj => hord i j hij (by rwa [hperm.size_eq] at hj)
    · exact fun x hx => hk.least x (hperm.toList.mem_iff.mp hx)
    · rw [Array.length_toList, hperm.size_eq, hsize]
  · rw [if_neg hb] at h ⊢
    obtain ⟨hperm, hord⟩ : (pgQsort cmp s.tuples).Perm s.tuples ∧ _ := pgQsort_spec s.tuples
    refine ⟨[], ?_, hord, fun x _ y hy => absurd hy List.not_mem_nil, .inl rfl⟩
    rw [List.append_nil, ← h]
    exact hperm.toList

theorem TupleSort.holds_foldl {bound : Option ℕ} (hbound : ∀ b, bound = some b → b * 2 ≤ usizeMax)
    (rows : List ρ) : (rows.foldl (TupleSort.put cmp) (.new bound)).Holds cmp rows ∧
      (rows.foldl (TupleSort.put cmp) (.new bound)).bound = bound := by
  induction rows using List.reverseRecOn with
  | nil => exact ⟨TupleSort.holds_new bound, rfl⟩
  | append_singleton rows t ih =>
    rw [List.foldl_append, List.foldl_cons, List.foldl_nil]
    refine ⟨ih.1.put ?_ t, (TupleSort.bound_put _ t).trans ih.2⟩
    rw [ih.2]
    exact hbound

end Secantus.Tuplesort
