/-
  `std::sort`, step for step (stl.rs): quicksort on the median of three until a part has at most sixteen entries or
  the depth runs out, when a heap sort ends the part; then one insertion sort over everything.

  The insertion sort goes down without a lower bound. What stops it is that the least entry is among the first sixteen
  (`introsortLoop_spec`), so that it is in front once these are in order. `sort_spec`: no index goes out of range, and
  what comes out is the entries in order. `heap_and_sort_correct` says this and what the heap does for a comparator that
  is a strict weak order.
-/
import Secantus.Stl.Heap
import Mathlib.Order.Defs.Unbundled

namespace Secantus.Stl

open Secantus.Library

variable {α : Type}

section Functions

variable (less : α → α → Bool)

/-- `THRESHOLD`. -/
def threshold : ℕ := 16

/-- `v.swap(i, j)`. -/
def swap (v : Array α) (i j : ℕ) : Option (Array α) :=
  if i < v.size ∧ j < v.size then some (v.swapIfInBounds i j) else none

/-- The pick of `median_to_first`. -/
def pickMedian (v : Array α) (a b c : ℕ) : Option ℕ := do
  let x ← v[a]?
  let y ← v[b]?
  let z ← v[c]?
  some (if less x y then if less y z then b else if less x z then c else a
    else if less x z then a else if less y z then c else b)

def medianToFirst (v : Array α) (result a b c : ℕ) : Option (Array α) := do
  let pick ← pickMedian less v a b c
  swap v result pick

/-- The loop of `partition` that goes up past what is less than the pivot. -/
def scanUp (v : Array α) (pivot first : ℕ) : Option ℕ :=
  if first < v.size then do
    let x ← v[pivot]?
    let y ← v[first]?
    if less y x then scanUp v pivot (first + 1) else some first
  else none
termination_by v.size - first
decreasing_by omega

/-- The loop of `partition` that goes down past what the pivot is less than, `last` one further up. -/
def scanDown (v : Array α) (pivot : ℕ) : (last : ℕ) → Option ℕ
  | 0 => none
  | last + 1 => do
    let x ← v[pivot]?
    let y ← v[last]?
    if less x y then scanDown v pivot last else some last

theorem scanDown_lt {v : Array α} {pivot last l : ℕ} (h : scanDown less v pivot last = some l) : l < last := by
  induction last with
  | zero => cases h
  | succ last ih =>
    simp only [scanDown, Option.bind_eq_bind, Option.bind_eq_some_iff] at h
    obtain ⟨x, -, y, -, h⟩ := h
    split at h
    · exact Nat.lt_succ_of_lt (ih h)
    · cases h
      exact Nat.lt_succ_self _

/-- `partition`: the entries and the cut. -/
def partition (v : Array α) (first last pivot : ℕ) : Option (Array α × ℕ) :=
  match scanUp less v pivot first, _h : scanDown less v pivot last with
  | some f, some l =>
    if f ≥ l then some (v, f) else (swap v f l).bind fun v => partition v (f + 1) l pivot
  | _, _ => none
termination_by last
decreasing_by exact scanDown_lt less _h

/-- A heap sort of `v[first..last]`. -/
def heapSortSlice (v : Array α) (first last : ℕ) : Option (Array α) :=
  if first ≤ last ∧ last ≤ v.size then
    (heapSort less (v.extract first last)).map fun part => v.extract 0 first ++ part ++ v.extract last v.size
  else none

/-- `introsort_loop`. The last turn is the loop's own, with `last` at the cut. -/
def introsortLoop : (depth : ℕ) → (v : Array α) → (first last : ℕ) → Option (Array α)
  | 0, v, first, last =>
    if last < first then none
    else if last - first > threshold then heapSortSlice less v first last
    else some v
  | depth + 1, v, first, last =>
    if last < first then none
    else if last - first > threshold then do
      let mid := first + (last - first) / 2
      let v ← medianToFirst less v first (first + 1) mid (last - 1)
      let (v, cut) ← partition less v (first + 1) last first
      let v ← introsortLoop depth v cut last
      introsortLoop depth v first cut
    else some v

/-- The loop of `linear_insert`, with nothing below it but the entries. -/
def linearFrom (value : α) (v : Array α) : (last : ℕ) → Option (Array α)
  | 0 => none
  | next + 1 => do
    let x ← v[next]?
    if less value x then (put v (next + 1) x).bind fun v => linearFrom value v next else put v (next + 1) value

def linearInsert (v : Array α) (last : ℕ) : Option (Array α) := do
  let value ← v[last]?
  linearFrom less value v last

/-- The value put in front of `d` entries, each moved one up. -/
def shiftFrom (first : ℕ) (value : α) (v : Array α) : (d : ℕ) → Option (Array α)
  | 0 => put v first value
  | d + 1 => do
    let x ← v[first + d]?
    (put v (first + d + 1) x).bind fun v => shiftFrom first value v d

/-- A turn of `insertion_sort`. -/
def insertAt (first : ℕ) (v : Array α) (i : ℕ) : Option (Array α) := do
  let value ← v[i]?
  let head ← v[first]?
  if less value head then shiftFrom first value v (i - first) else linearInsert less v i

def insertionSort (v : Array α) (first last : ℕ) : Option (Array α) :=
  if first = last then some v
  else (List.range' (first + 1) (last - (first + 1))).foldlM (insertAt less first) v

def sort (v : Array α) : Option (Array α) :=
  let n := v.size
  if n < 2 then some v
  else do
    let v ← introsortLoop less (2 * Nat.log2 n) v 0 n
    if n > threshold then do
      let v ← insertionSort less v 0 threshold
      (List.range' threshold (n - threshold)).foldlM (linearInsert less) v
    else insertionSort less v 0 n

end Functions

variable {cmp : α → α → Ordering}

theorem swap_eq {v : Array α} {i j : ℕ} (hi : i < v.size) (hj : j < v.size) :
    swap v i j = some (v.swapIfInBounds i j) := if_pos ⟨hi, hj⟩

variable [Std.TransCmp cmp]

/-! ## The partition -/

variable (cmp) in
/-- The place picked has another of the three at which nothing less stands. -/
theorem pickMedian_spec {v : Array α} {a b c : ℕ} (ha : a < b) (hb : b < c) (hc : c < v.size) :
    ∃ pick s, pickMedian (lessOf cmp) v a b c = some pick ∧ (pick = a ∨ pick = b ∨ pick = c) ∧
      (s = a ∨ s = b ∨ s = c) ∧ s ≠ pick ∧ (cmpAt cmp v pick s).isLE = true := by
  have hx := Array.getElem?_eq_getElem (show a < v.size by omega)
  have hy := Array.getElem?_eq_getElem (show b < v.size by omega)
  have hz := Array.getElem?_eq_getElem hc
  generalize getElem v a (by omega) = x at hx
  generalize getElem v b (by omega) = y at hy
  generalize v[c] = z at hz
  simp only [pickMedian, Option.bind_eq_bind, hx, hy, hz, Option.bind_some]
  split_ifs with hxy hyz hxz hxz hyz
  · exact ⟨b, c, rfl, by simp, by simp, by omega, by rw [cmpAt, hy, hz]; exact isLE_of_less hyz⟩
  · exact ⟨c, b, rfl, by simp, by simp, by omega, by rw [cmpAt, hy, hz]; exact isLE_of_not_less hyz⟩
  · exact ⟨a, b, rfl, by simp, by simp, by omega, by rw [cmpAt, hx, hy]; exact isLE_of_less hxy⟩
  · exact ⟨a, c, rfl, by simp, by simp, by omega, by rw [cmpAt, hx, hz]; exact isLE_of_less hxz⟩
  · exact ⟨c, a, rfl, by simp, by simp, by omega, by rw [cmpAt, hx, hz]; exact isLE_of_not_less hxz⟩
  · exact ⟨b, a, rfl, by simp, by simp, by omega, by rw [cmpAt, hx, hy]; exact isLE_of_not_less hxy⟩

variable (cmp) in
/-- The pivot in front, and after it an entry that is not less. -/
theorem medianToFirst_spec {v : Array α} {first last : ℕ} (hlast : last ≤ v.size)
    (hmany : last - first > threshold) :
    ∃ g x, medianToFirst (lessOf cmp) v first (first + 1) (first + (last - first) / 2) (last - 1) = some g ∧
      Shuffled first last g v ∧ g[first]? = some x ∧
      ∃ k y, first < k ∧ k < last ∧ g[k]? = some y ∧ (cmp x y).isLE = true := by
  unfold threshold at hmany
  obtain ⟨pick, s, hpick, hplace, hs, hne, hle⟩ := pickMedian_spec cmp (v := v) (a := first + 1)
    (b := first + (last - first) / 2) (c := last - 1) (by omega) (by omega) (by omega)
  have hp : first < pick ∧ pick < last := by omega
  have hs' : first < s ∧ s < last := by omega
  have hget := getElem?_swapIfInBounds (s := v) (i := first) (j := pick) (by omega) (by omega)
  have hx := Array.getElem?_eq_getElem (show pick < v.size by omega)
  have hy := Array.getElem?_eq_getElem (show s < v.size by omega)
  refine ⟨v.swapIfInBounds first pick, getElem v pick (by omega), ?_, ?_, ?_, s, getElem v s (by omega), hs'.1, hs'.2, ?_, ?_⟩
  · rw [medianToFirst, hpick, Option.bind_eq_bind, Option.bind_some, swap_eq (by omega) (by omega)]
  · exact shuffled_swap hlast ⟨Nat.le_refl _, by omega⟩ ⟨by omega, hp.2⟩
  · rw [hget, swapped, if_pos rfl, hx]
  · rw [hget, swapped, if_neg (by omega), if_neg hne, hy]
  · rwa [cmpAt, hx, hy] at hle

theorem scanUp_spec {v : Array α} {pivot first k : ℕ} {x y : α} (hx : v[pivot]? = some x) (hk : first ≤ k)
    (hy : v[k]? = some y) (hle : (cmp x y).isLE = true) :
    ∃ f z, scanUp (lessOf cmp) v pivot first = some f ∧ first ≤ f ∧ f ≤ k ∧ v[f]? = some z ∧
      (cmp x z).isLE = true ∧ ∀ j u, first ≤ j → j < f → v[j]? = some u → (cmp u x).isLE = true := by
  have hlt := (Array.getElem?_eq_some_iff.mp hy).1
  induction hn : k - first generalizing first with
  | zero =>
    obtain rfl : first = k := by omega
    refine ⟨first, y, ?_, Nat.le_refl _, hk, hy, hle, fun j u hj hj' => by omega⟩
    rw [scanUp, if_pos hlt, hx, hy, Option.bind_eq_bind, Option.bind_some, Option.bind_some,
      if_neg (not_less_of_isLE hle)]
  | succ n ih =>
    have hget := Array.getElem?_eq_getElem (show first < v.size by omega)
    generalize getElem v first (by omega) = u at hget
    by_cases hless : lessOf cmp u x = true
    · obtain ⟨f, z, hscan, hf, hfk, hz, hxz, hbelow⟩ := ih (show first + 1 ≤ k by omega) (by omega)
      refine ⟨f, z, ?_, by omega, hfk, hz, hxz, ?_⟩
      · rw [scanUp, if_pos (by omega), hx, hget, Option.bind_eq_bind, Option.bind_some, Option.bind_some, if_pos hless, hscan]
      · intro j w hj hj' hw
        rcases Nat.eq_or_lt_of_le hj with rfl | hj
        · rw [Option.some.inj (hw.symm.trans hget)]
          exact isLE_of_less hless
        · exact hbelow j w hj hj' hw
    · refine ⟨first, u, ?_, Nat.le_refl _, hk, hget, isLE_of_not_less hless, fun j w hj hj' => by omega⟩
      rw [scanUp, if_pos (by omega), hx, hget, Option.bind_eq_bind, Option.bind_some, Option.bind_some, if_neg hless]

variable (cmp) in
/-- The pivot stops the way down at the latest. -/
theorem scanDown_spec {v : Array α} {pivot last : ℕ} {x : α} (hx : v[pivot]? = some x) (hpivot : pivot < last)
    (hlast : last ≤ v.size) :
    ∃ l z, scanDown (lessOf cmp) v pivot last = some l ∧ pivot ≤ l ∧ l < last ∧ v[l]? = some z ∧
      (cmp z x).isLE = true ∧ ∀ j u, l < j → j < last → v[j]? = some u → (cmp x u).isLE = true := by
  induction last with
  | zero => omega
  | succ last ih =>
    have hget := Array.getElem?_eq_getElem (show last < v.size by omega)
    generalize getElem v last (by omega) = u at hget
    by_cases hless : lessOf cmp x u = true
    · have hne : pivot ≠ last := by
        rintro rfl
        rw [Option.some.inj (hget.symm.trans hx)] at hless
        exact not_less_of_isLE (isLE_refl x) hless
      obtain ⟨l, z, hscan, hl, hl', hz, hzx, habove⟩ := ih (by omega) (by omega)
      refine ⟨l, z, ?_, hl, by omega, hz, hzx, ?_⟩
      · rw [scanDown, hx, hget, Option.bind_eq_bind, Option.bind_some, Option.bind_some,
          if_pos hless, hscan]
      · intro j w hj hj' hw
        rcases Nat.eq_or_lt_of_le (Nat.le_of_lt_succ hj') with rfl | hj'
        · rw [Option.some.inj (hw.symm.trans hget)]
          exact isLE_of_less hless
        · exact habove j w hj hj' hw
    · refine ⟨last, u, ?_, by omega, by omega, hget, isLE_of_not_less hless, fun j w hj hj' => by omega⟩
      rw [scanDown, hx, hget, Option.bind_eq_bind, Option.bind_some, Option.bind_some,
        if_neg hless]

/-- The places from `lo` up to `hi` split at `cut`: nothing before it is greater than `x`, nothing from it on less. -/
structure SplitAt (cmp : α → α → Ordering) (v : Array α) (x : α) (lo low high hi : ℕ) : Prop where
  low : ∀ k y, lo ≤ k → k < low → v[k]? = some y → (cmp y x).isLE = true
  high : ∀ k y, high ≤ k → k < hi → v[k]? = some y → (cmp x y).isLE = true

/-- An entry at `first` or after it that is not less than the pivot stops the way up. -/
theorem partition_spec {pivot hi : ℕ} {x : α} (last : ℕ) : ∀ {v : Array α} {first : ℕ}, v[pivot]? = some x →
    pivot < first → first ≤ last → last ≤ hi → hi ≤ v.size →
    SplitAt cmp v x (pivot + 1) first last hi →
    (∃ k y, first ≤ k ∧ k < hi ∧ v[k]? = some y ∧ (cmp x y).isLE = true) →
    ∃ g cut, partition (lessOf cmp) v first last pivot = some (g, cut) ∧ Shuffled (pivot + 1) hi g v ∧
      pivot < cut ∧ cut < hi ∧ SplitAt cmp g x (pivot + 1) cut cut hi := by
  induction last using Nat.strongRecOn with
  | _ last ih =>
    intro v first hx hpivot hfl hlast hhi hsplit hstop
    obtain ⟨k, y, hk, hk', hy, hxy⟩ := hstop
    obtain ⟨f, z, hup, hf, hfk, hz, hxz, hbelow⟩ := scanUp_spec hx hk hy hxy
    obtain ⟨l, w, hdown, hl, hl', hw, hwx, habove⟩ := scanDown_spec cmp hx (show pivot < last by omega) (by omega)
    have hlow : ∀ j u, pivot + 1 ≤ j → j < f → v[j]? = some u → (cmp u x).isLE = true := by
      intro j u hj hj' hu
      by_cases hjf : j < first
      · exact hsplit.low j u hj hjf hu
      · exact hbelow j u (by omega) hj' hu
    have hhigh : ∀ j u, l < j → j < hi → v[j]? = some u → (cmp x u).isLE = true := by
      intro j u hj hj' hu
      by_cases hjl : j < last
      · exact habove j u hj hjl hu
      · exact hsplit.high j u (by omega) hj' hu
    have hstep : partition (lessOf cmp) v first last pivot =
        if f ≥ l then some (v, f)
        else (swap v f l).bind fun v => partition (lessOf cmp) v (f + 1) l pivot := by
      rw [partition]
      split
      · rename_i f' l' hf' hl'
        rw [hup] at hf'
        rw [hdown] at hl'
        cases hf'
        cases hl'
        rfl
      · rename_i hnone
        exact (hnone f l hup hdown).elim
    rw [hstep]
    by_cases hmet : f ≥ l
    · rw [if_pos hmet]
      refine ⟨v, f, rfl, .rfl, by omega, by omega, hlow, ?_⟩
      intro j u hj hj' hu
      rcases Nat.eq_or_lt_of_le hj with rfl | hj
      · rw [Option.some.inj (hu.symm.trans hz)]
        exact hxz
      · exact hhigh j u (by omega) hj' hu
    · rw [if_neg hmet, swap_eq (by omega) (by omega), Option.bind_some]
      have hget := getElem?_swapIfInBounds (s := v) (i := f) (j := l) (by omega) (by omega)
      have hsame : ∀ j, j ≠ f → j ≠ l → (v.swapIfInBounds f l)[j]? = v[j]? := fun j =>
        getElem?_swap_of_ne (by omega) (by omega)
      have hatl : (v.swapIfInBounds f l)[l]? = some z := by
        rw [hget, swapped, if_neg (by omega), if_pos rfl, hz]
      have hatf : (v.swapIfInBounds f l)[f]? = some w := by
        rw [hget, swapped, if_pos rfl, hw]
      obtain ⟨g, cut, hg, hsh, hcut, hcut', hs⟩ := ih l hl' (v := v.swapIfInBounds f l)
        (by rw [hsame pivot (by omega) (by omega), hx]) (show pivot < f + 1 by omega) (by omega) (by omega)
        (by rwa [Array.size_swapIfInBounds]) ⟨by
          intro j u hj hj' hu
          by_cases hjf : j = f
          · subst hjf
            rw [Option.some.inj (hu.symm.trans hatf)]
            exact hwx
          · rw [hsame j hjf (by omega)] at hu
            exact hlow j u hj (by omega) hu, by
          intro j u hj hj' hu
          by_cases hjl : j = l
          · subst hjl
            rw [Option.some.inj (hu.symm.trans hatl)]
            exact hxz
          · rw [hsame j (by omega) hjl] at hu
            exact hhigh j u (by omega) hj' hu⟩ ⟨l, z, by omega, by omega, hatl, hxz⟩
      exact ⟨g, cut, hg, hsh.trans (shuffled_swap hhi ⟨by omega, by omega⟩ ⟨by omega, by omega⟩), hcut, hcut', hs⟩

/-! ## The parts -/

/-- A part rearranged and put back. -/
theorem slice_shuffled {v part : Array α} {first last : ℕ} (hle : first ≤ last) (hlast : last ≤ v.size)
    (hperm : part.Perm (v.extract first last)) :
    Shuffled first last (v.extract 0 first ++ part ++ v.extract last v.size) v ∧
      ∀ i, i < last - first → (v.extract 0 first ++ part ++ v.extract last v.size)[first + i]? = part[i]? := by
  have hsize : part.size = last - first := by
    rw [hperm.size_eq, Array.size_extract]
    omega
  have hfront : (v.extract 0 first).size = first := by rw [Array.size_extract]; omega
  have hboth : (v.extract 0 first ++ part).size = last := by rw [Array.size_append, hfront, hsize]; omega
  have hinside : ∀ i, i < last - first →
      (v.extract 0 first ++ part ++ v.extract last v.size)[first + i]? = part[i]? := by
    intro i hi
    rw [Array.getElem?_append_left (by omega), Array.getElem?_append_right (by omega), hfront,
      Nat.add_sub_cancel_left]
  have hold : ∀ i, i < last - first → (v.extract first last)[i]? = v[first + i]? := by
    intro i hi
    rw [Array.getElem?_extract, if_pos (by omega)]
  have hwhole : v.extract 0 first ++ v.extract first last ++ v.extract last v.size = v := by
    rw [Array.extract_append_extract, Nat.zero_min, Nat.max_eq_right hle, Array.extract_append_extract, Nat.zero_min,
      Nat.max_eq_right hlast, Array.extract_size]
  -- what is at a place of one part is at some place of the other
  have hfind : ∀ {p q : Array α}, p.Perm q → q.size = last - first → ∀ i, i < last - first →
      ∃ j, j < last - first ∧ p[i]? = q[j]? := by
    intro p q hpq hq i hi
    have hget := Array.getElem?_eq_getElem (show i < p.size by rw [hpq.size_eq]; omega)
    have hmem := (Array.Perm.mem_iff hpq).mp (Array.mem_of_getElem? hget)
    obtain ⟨j, hj⟩ := Array.mem_iff_getElem?.mp hmem
    have hlt := (Array.getElem?_eq_some_iff.mp hj).1
    exact ⟨j, by omega, hget.trans hj.symm⟩
  refine ⟨⟨?_, ?_, ?_, ?_⟩, hinside⟩
  · conv => rhs; rw [← hwhole]
    exact (Array.Perm.append (Array.Perm.append .rfl hperm) .rfl)
  · rintro k (hk | hk)
    · rw [Array.getElem?_append_left (by omega), Array.getElem?_append_left (by omega), Array.getElem?_extract,
        if_pos (by omega), Nat.zero_add]
    · rw [Array.getElem?_append_right (by omega), hboth, Array.getElem?_extract]
      split
      · rw [Nat.add_sub_cancel' hk]
      · rw [Array.getElem?_eq_none (by omega)]
  · intro k hk hk'
    obtain ⟨j, hj, heq⟩ := hfind hperm (by rw [Array.size_extract]; omega) (k - first) (by omega)
    refine ⟨first + j, by omega, by omega, ?_⟩
    rw [← hold j hj, ← heq, ← hinside (k - first) (by omega), Nat.add_sub_cancel' hk]
  · intro k hk hk'
    obtain ⟨j, hj, heq⟩ := hfind hperm.symm hsize (k - first) (by omega)
    refine ⟨first + j, by omega, by omega, ?_⟩
    rw [hinside j hj, ← heq, hold (k - first) (by omega), Nat.add_sub_cancel' hk]

variable (cmp) in
theorem exists_least {v : Array α} {first last : ℕ} (hlt : first < last) (hlast : last ≤ v.size) :
    ∃ k, first ≤ k ∧ k < last ∧ ∀ j, first ≤ j → j < last → (cmpAt cmp v k j).isLE = true := by
  induction last with
  | zero => omega
  | succ last ih =>
    by_cases hone : first = last
    · refine ⟨first, Nat.le_refl _, hlt, fun j hj hj' => ?_⟩
      obtain rfl : j = first := by omega
      exact cmpAt_self_isLE v j
    · obtain ⟨k, hk, hk', hleast⟩ := ih (by omega) (by omega)
      have hcases : ∀ j, first ≤ j → j < last + 1 → j = last ∨ (first ≤ j ∧ j < last) := by omega
      by_cases hle : (cmpAt cmp v k last).isLE = true
      · refine ⟨k, hk, by omega, fun j hj hj' => ?_⟩
        rcases hcases j hj hj' with rfl | ⟨hj, hj'⟩
        · exact hle
        · exact hleast j hj hj'
      · have hback : (cmpAt cmp v last k).isLE = true := by
          rw [← cmpAt_swap_eq]
          cases hc : cmpAt cmp v k last <;> simp_all
        refine ⟨last, by omega, Nat.lt_succ_self _, fun j hj hj' => ?_⟩
        rcases hcases j hj hj' with rfl | ⟨hj, hj'⟩
        · exact cmpAt_self_isLE v j
        · exact cmpAt_trans (by omega) hback (hleast j hj hj')

variable (cmp) in
theorem heapSortSlice_spec {v : Array α} {first last : ℕ} (hlt : first < last) (hlast : last ≤ v.size) :
    ∃ g, heapSortSlice (lessOf cmp) v first last = some g ∧ Shuffled first last g v ∧
      ∀ j, first ≤ j → j < last → (cmpAt cmp g first j).isLE = true := by
  obtain ⟨part, hpart, hperm, hord⟩ := heapSort_spec cmp (v.extract first last)
  obtain ⟨hsh, hat⟩ := slice_shuffled (by omega) hlast hperm
  have hsize : (v.extract first last).size = last - first := by rw [Array.size_extract]; omega
  refine ⟨_, ?_, hsh, ?_⟩
  · rw [heapSortSlice, if_pos ⟨by omega, hlast⟩, hpart, Option.map_some]
  · intro j hj hj'
    have hle : (cmpAt cmp part 0 (j - first)).isLE = true := by
      rcases Nat.eq_or_lt_of_le hj with rfl | hj
      · rw [Nat.sub_self]
        exact cmpAt_self_isLE part 0
      · exact hord 0 (j - first) (by omega) (by omega)
    unfold cmpAt at hle ⊢
    rwa [← hat 0 (by omega), ← hat (j - first) (by omega), Nat.add_zero, Nat.add_sub_cancel' hj] at hle

variable (cmp) in
/-- Within the range everything stays, and a least entry of it ends among its first sixteen. -/
theorem introsortLoop_spec (depth : ℕ) : ∀ {v : Array α} {first last : ℕ}, first < last → last ≤ v.size →
    ∃ g, introsortLoop (lessOf cmp) depth v first last = some g ∧ Shuffled first last g v ∧
      ∃ k, first ≤ k ∧ k < first + threshold ∧ k < last ∧
        ∀ j, first ≤ j → j < last → (cmpAt cmp g k j).isLE = true := by
  have hsmall : ∀ {v : Array α} {first last : ℕ}, first < last → last ≤ v.size → ¬ last - first > threshold →
      ∃ k, first ≤ k ∧ k < first + threshold ∧ k < last ∧
        ∀ j, first ≤ j → j < last → (cmpAt cmp v k j).isLE = true := by
    intro v first last hlt hlast hfew
    obtain ⟨k, hk, hk', hleast⟩ := exists_least cmp hlt hlast
    exact ⟨k, hk, by omega, hk', hleast⟩
  induction depth with
  | zero =>
    intro v first last hlt hlast
    rw [introsortLoop, if_neg (by omega)]
    split
    · obtain ⟨g, hg, hsh, hleast⟩ := heapSortSlice_spec cmp hlt hlast
      exact ⟨g, hg, hsh, first, Nat.le_refl _, by unfold threshold; omega, hlt, hleast⟩
    · rename_i hfew
      exact ⟨v, rfl, .rfl, hsmall hlt hlast hfew⟩
  | succ depth ih =>
    intro v first last hlt hlast
    rw [introsortLoop, if_neg (by omega)]
    split
    · rename_i hmany
      obtain ⟨u, x, hu, hsh, hx, k, y, hk, hk', hy, hxy⟩ := medianToFirst_spec cmp hlast hmany
      have husize := hsh.size_eq
      obtain ⟨w, cut, hw, hshw, hcut, hcut', hsplit⟩ := partition_spec last hx (Nat.lt_succ_self first) (by omega)
        (Nat.le_refl last) (by omega) ⟨fun j z hj hj' => by omega, fun j z hj hj' => by omega⟩
        ⟨k, y, by omega, hk', hy, hxy⟩
      have hwsize := hshw.size_eq
      obtain ⟨s, hs, hshs, -⟩ := ih (v := w) hcut' (by omega)
      have hssize := hshs.size_eq
      obtain ⟨g, hg, hshg, m, hm, hm', hmcut, hleast⟩ := ih (v := s) (show first < cut from hcut) (by omega)
      have hgsize := hshg.size_eq
      refine ⟨g, ?_, ?_, m, hm, hm', by omega, ?_⟩
      · simp only [Option.bind_eq_bind, hu, Option.bind_some, hw, hs, hg]
      · exact (hshg.mono (Nat.le_refl _) (by omega)).trans ((hshs.mono (by omega) (Nat.le_refl _)).trans
          ((hshw.mono (by omega) (Nat.le_refl _)).trans hsh))
      · -- what is before the cut is not greater than the pivot, what is after it not less
        have hlow : ∀ j z, first ≤ j → j < cut → g[j]? = some z → (cmp z x).isLE = true := by
          refine hshg.forall_mem fun j z hj hj' hz => ?_
          rw [hshs.outside j (.inl hj')] at hz
          rcases Nat.eq_or_lt_of_le hj with rfl | hj
          · rw [hshw.outside first (.inl (Nat.lt_succ_self first)), hx] at hz
            rw [← Option.some.inj hz]
            exact isLE_refl x
          · exact hsplit.low j z hj hj' hz
        have hhigh : ∀ j z, cut ≤ j → j < last → g[j]? = some z → (cmp x z).isLE = true := by
          intro j z hj hj' hz
          rw [hshg.outside j (.inr hj)] at hz
          exact hshs.forall_mem hsplit.high j z hj hj' hz
        intro j hj hj'
        by_cases hjc : j < cut
        · exact hleast j hj hjc
        · have hgm := Array.getElem?_eq_getElem (show m < g.size by omega)
          have hgj := Array.getElem?_eq_getElem (show j < g.size by omega)
          unfold cmpAt
          rw [hgm, hgj]
          exact Std.TransCmp.isLE_trans (hlow m _ hm hmcut hgm) (hhigh j _ (by omega) hj' hgj)
    · rename_i hfew
      exact ⟨v, rfl, .rfl, hsmall hlt hlast hfew⟩

/-! ## The insertion sort -/

theorem linearFrom_eq {value : α} (last : ℕ) : ∀ {v : Array α}, last < v.size →
    (∃ j x, j < last ∧ v[j]? = some x ∧ (cmp x value).isLE = true) →
    linearFrom (lessOf cmp) value v last = some (sink cmp (v.setIfInBounds last value) last) := by
  induction last with
  | zero =>
    rintro v - ⟨j, x, hj, -⟩
    omega
  | succ next ih =>
    rintro v hlast ⟨j, x, hj, hx, hle⟩
    have hget := Array.getElem?_eq_getElem (show next < v.size by omega)
    generalize getElem v next (by omega) = y at hget
    have hcmp : cmpAt cmp (v.setIfInBounds (next + 1) value) next (next + 1) = cmp y value := by
      unfold cmpAt
      rw [Array.getElem?_setIfInBounds_ne (by omega), hget, Array.getElem?_setIfInBounds_self_of_lt hlast]
    have hgt : lessOf cmp value y = true ↔ cmp y value = .gt := by
      rw [lessOf_iff, Std.OrientedCmp.gt_iff_lt]
    rw [linearFrom, sink, hget, Option.bind_eq_bind, Option.bind_some, hcmp]
    by_cases hless : lessOf cmp value y = true
    · have hne : j ≠ next := by
        rintro rfl
        rw [Option.some.inj (hx.symm.trans hget)] at hle
        exact not_less_of_isLE hle hless
      rw [if_pos hless, if_pos (hgt.mp hless), put_eq hlast, Option.bind_some,
        ih (by rw [Array.size_setIfInBounds]; omega) ⟨j, x, by omega, ?_, hle⟩, set_set_eq_swap hlast hget (by omega),
        swapIfInBounds_comm (by rw [Array.size_setIfInBounds]; omega) (by rwa [Array.size_setIfInBounds])]
      rw [Array.getElem?_setIfInBounds_ne (by omega), hx]
    · rw [if_neg hless, if_neg (fun h => hless (hgt.mpr h)), put_eq hlast]

theorem linearInsert_eq {v : Array α} {i : ℕ} (hi : i < v.size) (hpos : 0 < i)
    (hfirst : (cmpAt cmp v 0 i).isLE = true) : linearInsert (lessOf cmp) v i = some (sink cmp v i) := by
  have hvalue := Array.getElem?_eq_getElem hi
  have hhead := Array.getElem?_eq_getElem (show 0 < v.size by omega)
  rw [cmpAt, hhead, hvalue] at hfirst
  rw [linearInsert, hvalue, Option.bind_eq_bind, Option.bind_some, linearFrom_eq i hi ⟨0, _, hpos, hhead, hfirst⟩,
    set_self hvalue]

omit [Std.TransCmp cmp] in
theorem shiftFrom_eq {value : α} (d : ℕ) : ∀ {v : Array α}, d < v.size →
    (∀ j x, j < d → v[j]? = some x → cmp x value = .gt) →
    shiftFrom 0 value v d = some (sink cmp (v.setIfInBounds d value) d) := by
  induction d with
  | zero => exact fun hd _ => put_eq hd value
  | succ d ih =>
    intro v hd hall
    have hget := Array.getElem?_eq_getElem (show d < v.size by omega)
    generalize getElem v d (by omega) = y at hget
    have hcmp : cmpAt cmp (v.setIfInBounds (d + 1) value) d (d + 1) = .gt := by
      unfold cmpAt
      rw [Array.getElem?_setIfInBounds_ne (by omega), hget, Array.getElem?_setIfInBounds_self_of_lt hd]
      exact hall d y (Nat.lt_succ_self d) hget
    rw [shiftFrom, sink, Nat.zero_add, hget, Option.bind_eq_bind, Option.bind_some, put_eq hd, Option.bind_some,
      if_pos hcmp, ih (by rw [Array.size_setIfInBounds]; omega) ?_, set_set_eq_swap hd hget (by omega),
      swapIfInBounds_comm (by rw [Array.size_setIfInBounds]; omega) (by rwa [Array.size_setIfInBounds])]
    intro j x hj hx
    rw [Array.getElem?_setIfInBounds_ne (by omega)] at hx
    exact hall j x (by omega) hx

theorem insertAt_eq {v : Array α} {i : ℕ} (hi : i < v.size) (hpos : 0 < i) (hord : OrderedTo cmp v i) :
    insertAt (lessOf cmp) 0 v i = some (sink cmp v i) := by
  have hvalue := Array.getElem?_eq_getElem hi
  have hhead := Array.getElem?_eq_getElem (show 0 < v.size by omega)
  generalize v[i] = value at hvalue
  generalize getElem v 0 (by omega) = head at hhead
  rw [insertAt, hvalue, hhead, Option.bind_eq_bind, Option.bind_some, Option.bind_some]
  by_cases hless : lessOf cmp value head = true
  · rw [if_pos hless, Nat.sub_zero, shiftFrom_eq i hi ?_, set_self hvalue]
    intro j x hj hx
    have hle : (cmp head x).isLE = true := by
      rcases Nat.eq_zero_or_pos j with rfl | hj'
      · rw [Option.some.inj (hx.symm.trans hhead)]
        exact isLE_refl head
      · have hat := hord 0 j hj' hj
        rwa [cmpAt, hhead, hx] at hat
    rw [Std.OrientedCmp.gt_iff_lt]
    exact Std.TransCmp.lt_of_lt_of_isLE (lessOf_iff.mp hless) hle
  · rw [if_neg hless, linearInsert_eq hi hpos]
    rw [cmpAt, hhead, hvalue]
    exact isLE_of_not_less hless

variable (cmp) in
theorem insertionSort_spec {v : Array α} {m : ℕ} (hm : 0 < m) (hle : m ≤ v.size) :
    ∃ g, insertionSort (lessOf cmp) v 0 m = some g ∧ Shuffled 0 m g v ∧ OrderedTo cmp g m := by
  have hrun : ∀ n i, 0 < i → i + n = m → ∀ u, Shuffled 0 m u v → OrderedTo cmp u i →
      ∃ g, (List.range' i n).foldlM (insertAt (lessOf cmp) 0) u = some g ∧ Shuffled 0 m g v ∧ OrderedTo cmp g m := by
    intro n
    induction n with
    | zero =>
      rintro i - rfl u hsh hord
      exact ⟨u, rfl, hsh, hord⟩
    | succ n ih =>
      intro i hi hin u hsh hord
      have husize := hsh.size_eq
      obtain ⟨g, hg, hspec⟩ := ih (i + 1) (Nat.succ_pos i) (by omega) (sink cmp u i)
        ((sink_shuffled (by omega) (by omega)).trans hsh) (orderedTo_sink_next (by omega) hord)
      refine ⟨g, ?_, hspec⟩
      rw [List.range'_succ, List.foldlM_cons, insertAt_eq (by omega) hi hord, Option.bind_eq_bind, Option.bind_some,
        hg]
  unfold insertionSort
  rw [if_neg (by omega)]
  exact hrun (m - (0 + 1)) (0 + 1) (by omega) (by omega) v .rfl fun i j hij hj => by omega

/-- With nothing less than the first entry, what is left is inserted among those in order. -/
theorem linearInserts_spec {n : ℕ} (m : ℕ) : ∀ {v : Array α} {i : ℕ}, 0 < i → i + m = v.size → v.size = n →
    OrderedTo cmp v i → (∀ k, k < v.size → (cmpAt cmp v 0 k).isLE = true) →
    ∃ g, (List.range' i m).foldlM (linearInsert (lessOf cmp)) v = some g ∧ g.Perm v ∧ OrderedTo cmp g n := by
  induction m with
  | zero =>
    intro v i _ hsize hn hord _
    exact ⟨v, rfl, .rfl, by rwa [← hn, ← hsize, Nat.add_zero]⟩
  | succ m ih =>
    intro v i hi hsize hn hord hfirst
    have hsh : Shuffled 0 (i + 1) (sink cmp v i) v := sink_shuffled (Nat.lt_succ_self i) (by omega)
    have hssize := hsh.size_eq
    have hzero := sink_first hi (by omega) (hfirst i (by omega))
    obtain ⟨g, hg, hperm, hspec⟩ := ih (v := sink cmp v i) (Nat.succ_pos i) (by omega) (by omega)
      (orderedTo_sink_next (by omega) hord) (by
        intro k hk
        obtain ⟨k', -, hk', heq⟩ := hsh.inside_mono (Nat.le_refl 0) (show i + 1 ≤ v.size by omega) k (Nat.zero_le k)
          (by omega)
        have hle := hfirst k' hk'
        unfold cmpAt at hle ⊢
        rwa [hzero, heq])
    refine ⟨g, ?_, hperm.trans hsh.perm, hspec⟩
    rw [List.range'_succ, List.foldlM_cons, linearInsert_eq (by omega) hi (hfirst i (by omega)), Option.bind_eq_bind,
      Option.bind_some, hg]

variable (cmp) in
theorem sort_spec (v : Array α) :
    ∃ g, sort (lessOf cmp) v = some g ∧ g.Perm v ∧ g.toList.Pairwise fun x y => (cmp x y).isLE = true := by
  have hordered : ∃ g, sort (lessOf cmp) v = some g ∧ g.Perm v ∧ OrderedTo cmp g v.size := by
    unfold sort
    dsimp only
    split
    · exact ⟨v, rfl, .rfl, fun i j hij hj => by omega⟩
    · rename_i htwo
      obtain ⟨u, hu, hsh, k, -, hk, hk', hleast⟩ :=
        introsortLoop_spec cmp (2 * Nat.log2 v.size) (v := v) (show 0 < v.size by omega) (Nat.le_refl _)
      have husize := hsh.size_eq
      rw [hu, Option.bind_eq_bind, Option.bind_some]
      split
      · rename_i hmany
        obtain ⟨w, hw, hshw, hord⟩ := insertionSort_spec cmp (v := u) (show 0 < threshold by decide) (by omega)
        have hwsize := hshw.size_eq
        rw [hw, Option.bind_some]
        -- the least entry is among those now in order, so it is in front
        have hfirst : ∀ j, j < w.size → (cmpAt cmp w 0 j).isLE = true := by
          intro j hj
          obtain ⟨m, -, hm, hkm⟩ := hshw.back k (Nat.zero_le k) (by omega)
          obtain ⟨i, -, hi, hij⟩ := hshw.inside_mono (Nat.le_refl 0) (show threshold ≤ w.size by omega) j
            (Nat.zero_le j) hj
          have hle := hleast i (Nat.zero_le i) (by omega)
          have hmj : (cmpAt cmp w m j).isLE = true := by
            unfold cmpAt at hle ⊢
            rwa [← hkm, hij]
          refine cmpAt_trans (j := m) (by omega) ?_ hmj
          rcases Nat.eq_zero_or_pos m with rfl | hpos
          · exact cmpAt_self_isLE w 0
          · exact hord 0 m hpos hm
        obtain ⟨g, hg, hperm, hspec⟩ := linearInserts_spec (n := v.size) (v.size - threshold) (v := w)
          (show 0 < threshold by decide) (by omega) (by omega) hord hfirst
        exact ⟨g, hg, hperm.trans (hshw.perm.trans hsh.perm), hspec⟩
      · obtain ⟨g, hg, hshg, hord⟩ := insertionSort_spec cmp (v := u) (m := v.size) (by omega) (by omega)
        exact ⟨g, hg, hshg.perm.trans hsh.perm, hord⟩
  obtain ⟨g, hg, hperm, hord⟩ := hordered
  exact ⟨g, hg, hperm, pairwise_of_orderedTo (by rwa [hperm.size_eq])⟩

/-! ## Any strict weak order -/

/-- The ordering of a comparator. -/
def orderingOf (less : α → α → Bool) (a b : α) : Ordering :=
  if less a b then .lt else if less b a then .gt else .eq

theorem lessOf_orderingOf (less : α → α → Bool) : lessOf (orderingOf less) = less := by
  funext a b
  unfold lessOf orderingOf
  cases h : less a b
  · cases h' : less b a <;> simp
  · simp

/-- The heap property of the first `n` entries: none is greater than its parent. -/
def HeapBy (less : α → α → Bool) (v : Array α) (n : ℕ) : Prop :=
  ∀ k x p, 0 < k → k < n → v[k]? = some x → v[(k - 1) / 2]? = some p → less p x = false

section StrictWeakOrder

variable (less : α → α → Bool) [IsStrictWeakOrder α fun a b => less a b = true]

theorem less_asymm {a b : α} (h : less a b = true) : less b a = false := by
  rw [← Bool.not_eq_true]
  exact fun h' => irrefl_of (fun a b => less a b = true) a (trans_of (fun a b => less a b = true) h h')

theorem isLE_orderingOf {a b : α} : (orderingOf less a b).isLE = true ↔ less b a = false := by
  unfold orderingOf
  cases h : less a b
  · cases h' : less b a <;> simp [Ordering.isLE]
  · simp [Ordering.isLE, less_asymm less h]

/-- Not being less goes through: where it were not so, one of the three would be less than itself. -/
theorem not_less_trans {a b c : α} (hab : less b a = false) (hbc : less c b = false) : less c a = false := by
  rw [← Bool.not_eq_true]
  intro hca
  have hab' : ¬ less a b = true := fun h => by
    have := trans_of (fun a b => less a b = true) hca h
    simp [hbc] at this
  have hbc' : ¬ less b c = true := fun h => by
    have := trans_of (fun a b => less a b = true) h hca
    simp [hab] at this
  have hincomp := @IsStrictWeakOrder.incomp_trans α (fun a b => less a b = true) _ a b c ⟨hab', by simp [hab]⟩
    ⟨hbc', by simp [hbc]⟩
  exact hincomp.2 hca

instance transCmp_orderingOf : Std.TransCmp (orderingOf less) where
  eq_swap {a b} := by
    unfold orderingOf
    cases h : less a b
    · cases h' : less b a <;> simp [Ordering.swap]
    · simp [less_asymm less h, Ordering.swap]
  isLE_trans {a b c} := by
    rw [isLE_orderingOf, isLE_orderingOf, isLE_orderingOf]
    exact not_less_trans less

theorem heapBy_iff {v : Array α} {n : ℕ} (hn : n ≤ v.size) : HeapBy less v n ↔ IsHeap (orderingOf less) v n := by
  constructor
  · intro h k hk hkn
    have hx := Array.getElem?_eq_getElem (show k < v.size by omega)
    have hp := Array.getElem?_eq_getElem (show (k - 1) / 2 < v.size by omega)
    unfold cmpAt
    rw [hx, hp]
    exact (isLE_orderingOf less).mpr (h k _ _ hk hkn hx hp)
  · intro h k x p hk hkn hx hp
    have hle := h k hk hkn
    unfold cmpAt at hle
    rw [hx, hp] at hle
    exact (isLE_orderingOf less).mp hle

/-- `push_heap` makes a heap of a heap and the entry behind it. -/
theorem pushHeap_keeps {v : Array α} (h : HeapBy less v (v.size - 1)) :
    ∃ g, pushHeap less v = some g ∧ g.Perm v ∧ HeapBy less g g.size := by
  rcases Nat.eq_zero_or_pos v.size with h0 | hpos
  · refine ⟨v, ?_, .rfl, fun k x p hk hkn => by omega⟩
    unfold pushHeap
    rw [h0]
  · obtain ⟨u, t, rfl⟩ := Array.eq_push_of_size_ne_zero (show v.size ≠ 0 by omega)
    rw [heapBy_iff less (by omega), Array.size_push, Nat.add_sub_cancel] at h
    have hheap : IsHeap (orderingOf less) u u.size := by
      intro k hk hkn
      have hle := h k hk hkn
      unfold cmpAt at hle ⊢
      rwa [Array.getElem?_push_lt (by omega), Array.getElem?_push_lt (by omega),
        ← Array.getElem?_eq_getElem (by omega), ← Array.getElem?_eq_getElem (by omega)] at hle
    have heq : pushHeap (lessOf (orderingOf less)) (u.push t) = some (siftUp (orderingOf less) (u.push t) u.size) :=
      pushHeap_eq u t
    rw [lessOf_orderingOf] at heq
    exact ⟨_, heq, siftUp_perm _ _ _, (heapBy_iff less (Nat.le_refl _)).mpr (hheap.insert t)⟩

/-- `pop_heap` puts a greatest entry behind a heap of the others. -/
theorem popHeap_keeps {v : Array α} (h : HeapBy less v v.size) :
    ∃ g, popHeap less v = some g ∧ g.Perm v ∧ HeapBy less g (g.size - 1) ∧
      ∀ x last, x ∈ g → g[g.size - 1]? = some last → less last x = false := by
  rcases Nat.eq_zero_or_pos v.size with h0 | hpos
  · refine ⟨v, if_neg (by omega), .rfl, fun k x p hk hkn => by omega, fun x last hx => ?_⟩
    rw [Array.eq_empty_of_size_eq_zero h0] at hx
    simp at hx
  · obtain ⟨n, hn⟩ : ∃ n, v.size = n + 1 := ⟨v.size - 1, by omega⟩
    rw [heapBy_iff less (Nat.le_refl _)] at h
    obtain ⟨g, hg, hperm, hlast, hheap⟩ := popHeap_spec hn h
    rw [lessOf_orderingOf] at hg
    have hsize : g.size - 1 = n := by rw [hperm.size_eq]; omega
    refine ⟨g, hg, hperm, ?_, fun x last hx hl => ?_⟩
    · rw [hsize]
      exact (heapBy_iff less (by rw [hperm.size_eq]; omega)).mpr hheap
    · rw [hsize, hlast] at hl
      have hle := isLE_of_heap_root h hl x (Array.mem_toList_iff.mpr (hperm.mem_iff.mp hx))
      exact (isLE_orderingOf less).mp hle

/-- The heap functions and `std::sort` for any strict weak order: a push and a pop keep the heap and the entries, a pop
    leaves a greatest entry last, and the sort ends, within bounds, with the entries in order. -/
theorem heap_and_sort_correct :
    (∀ v : Array α, HeapBy less v (v.size - 1) → ∃ g, pushHeap less v = some g ∧ g.Perm v ∧ HeapBy less g g.size) ∧
    (∀ v : Array α, HeapBy less v v.size → ∃ g, popHeap less v = some g ∧ g.Perm v ∧ HeapBy less g (g.size - 1) ∧
      ∀ x last, x ∈ g → g[g.size - 1]? = some last → less last x = false) ∧
    ∀ v : Array α, ∃ g, sort less v = some g ∧ g.Perm v ∧ g.toList.Pairwise fun x y => less y x = false := by
  refine ⟨fun v => pushHeap_keeps less, fun v => popHeap_keeps less, fun v => ?_⟩
  obtain ⟨g, hg, hperm, hord⟩ := sort_spec (orderingOf less) v
  rw [lessOf_orderingOf] at hg
  exact ⟨g, hg, hperm, hord.imp fun h => (isLE_orderingOf less).mp h⟩

end StrictWeakOrder

/-- Numbers by their last digit, where some are neither less nor greater. -/
theorem heap_and_sort_correct_digits : ∃ g, sort (fun a b : ℕ => decide (a % 10 < b % 10)) #[13, 2, 23, 1] = some g ∧
    g.Perm #[13, 2, 23, 1] ∧ g.toList.Pairwise fun x y => decide (y % 10 < x % 10) = false := by
  have hswo : IsStrictWeakOrder ℕ fun a b => decide (a % 10 < b % 10) = true :=
    { irrefl := fun a => by simp
      trans := fun a b c => by simp only [decide_eq_true_eq]; omega
      incomp_trans := fun a b c => by simp only [decide_eq_true_eq]; omega }
  exact (heap_and_sort_correct fun a b : ℕ => decide (a % 10 < b % 10)).2.2 #[13, 2, 23, 1]

end Secantus.Stl
