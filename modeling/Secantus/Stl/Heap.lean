/-
  The heap functions of the C++ standard library, step for step (stl.rs). Entries are moved into a hole and the value
  is put down at the end; read with the value in the hole, each step is a swap of the library's heaps.

  `pushHeap_eq`, `popHeap_spec`, `makeHeap_spec` and `popAll_spec` say what each does to a heap. An index out of range
  would be `none`; none is.
-/
import Secantus.Library.MaxHeap

namespace Secantus.Stl

open Secantus.Library

variable {α : Type}

section Functions

variable (less : α → α → Bool)

/-- `v[i] = x`. -/
def put (v : Array α) (i : ℕ) (x : α) : Option (Array α) := if i < v.size then some (v.setIfInBounds i x) else none

def pushUp (v : Array α) (hole top : ℕ) (value : α) : Option (Array α) :=
  if hole > top then
    let parent := (hole - 1) / 2
    match v[parent]? with
    | none => none
    | some p =>
      if less p value then (put v hole p).bind fun v => pushUp v parent top value else put v hole value
  else put v hole value
termination_by hole
decreasing_by omega

/-- The child that goes up into the hole: the right one unless it is less than the left, and what is there. -/
def upperChild (v : Array α) (hole : ℕ) : Option (ℕ × α) := do
  let second := 2 * (hole + 1)
  let right ← v[second]?
  let left ← v[second - 1]?
  if less right left then some (second - 1, left) else some (second, right)

theorem lt_upperChild {v : Array α} {hole second : ℕ} {x : α} (h : upperChild less v hole = some (second, x)) :
    hole < second := by
  simp only [upperChild, Option.bind_eq_bind, Option.bind_eq_some_iff] at h
  obtain ⟨right, -, left, -, h⟩ := h
  split at h <;> cases h <;> omega

/-- The loop of `adjust`: the hole goes down as long as it has two children. -/
def descend (v : Array α) (len hole : ℕ) : Option (Array α × ℕ) :=
  if 2 ≤ len ∧ hole < (len - 1) / 2 then
    match _h : upperChild less v hole with
    | none => none
    | some (second, x) => (put v hole x).bind fun v => descend v len second
  else some (v, hole)
termination_by len - hole
decreasing_by
  have hlt := lt_upperChild less _h
  omega

def adjust (v : Array α) (hole len : ℕ) (value : α) : Option (Array α) := do
  let (v, second) ← descend less v len hole
  if 2 ≤ len ∧ len % 2 = 0 ∧ second = (len - 2) / 2 then
    let second' := 2 * (second + 1)
    let x ← v[second' - 1]?
    let v ← put v second x
    pushUp less v (second' - 1) hole value
  else pushUp less v second hole value

def pushHeap (v : Array α) : Option (Array α) :=
  match v.size with
  | 0 => some v
  | last + 1 => v[last]?.bind fun value => pushUp less v last 0 value

def popInto (v : Array α) (last result : ℕ) : Option (Array α) := do
  let value ← v[result]?
  let root ← v[0]?
  let v ← put v result root
  adjust less v 0 last value

def popHeap (v : Array α) : Option (Array α) :=
  if v.size > 1 then popInto less v (v.size - 1) (v.size - 1) else some v

/-- The loop of `make_heap`, from a parent down to the root. -/
def makeHeapFrom (len : ℕ) (v : Array α) : (parent : ℕ) → Option (Array α)
  | 0 => v[0]?.bind fun value => adjust less v 0 len value
  | parent + 1 =>
    (v[parent + 1]?.bind fun value => adjust less v (parent + 1) len value).bind fun v => makeHeapFrom len v parent

def makeHeap (v : Array α) : Option (Array α) :=
  if v.size < 2 then some v else makeHeapFrom less v.size v ((v.size - 2) / 2)

/-- The loop of the heap sort: the roots taken away, from the end down. -/
def popAll (v : Array α) : (last : ℕ) → Option (Array α)
  | 0 => some v
  | 1 => some v
  | last + 2 => (popInto less v (last + 1) (last + 1)).bind fun v => popAll v (last + 1)

/-- `std::__partial_sort` of a whole slice. -/
def heapSort (v : Array α) : Option (Array α) := (makeHeap less v).bind fun v => popAll less v v.size

end Functions

/-- The comparator of an ordering. -/
def lessOf (cmp : α → α → Ordering) (a b : α) : Bool := cmp a b == .lt

variable {cmp : α → α → Ordering}

theorem lessOf_iff {a b : α} : lessOf cmp a b = true ↔ cmp a b = .lt := beq_iff_eq

theorem put_eq {v : Array α} {i : ℕ} (hi : i < v.size) (x : α) : put v i x = some (v.setIfInBounds i x) := if_pos hi

theorem set_self {v : Array α} {i : ℕ} {x : α} (hx : v[i]? = some x) : v.setIfInBounds i x = v := by
  refine Array.ext_getElem? fun k => ?_
  rw [Array.getElem?_setIfInBounds]
  split
  · rename_i hk
    subst hk
    rw [if_pos (Array.getElem?_eq_some_iff.mp hx).1, hx]
  · rfl

/-! ## What a step does to the entries with the value in the hole -/

theorem pushUp_eq {v : Array α} {hole top : ℕ} {value : α} (hhole : hole < v.size) :
    pushUp (lessOf cmp) v hole top value = some (rise cmp (v.setIfInBounds hole value) top hole) := by
  induction hole using Nat.strongRecOn generalizing v with
  | _ hole ih =>
    rw [pushUp, rise]
    split
    · rename_i hgt
      have hparent : (hole - 1) / 2 < hole := by omega
      have hget := Array.getElem?_eq_getElem (show (hole - 1) / 2 < v.size by omega)
      generalize hp : getElem v ((hole - 1) / 2) (by omega) = p at hget
      have hcmp : cmpAt cmp (v.setIfInBounds hole value) ((hole - 1) / 2) hole = cmp p value := by
        unfold cmpAt
        rw [Array.getElem?_setIfInBounds_ne (by omega), hget, Array.getElem?_setIfInBounds_self_of_lt hhole]
      simp only [hget, put_eq hhole, Option.bind_some, hcmp]
      by_cases hlt : cmp p value = .lt
      · rw [if_pos (lessOf_iff.mpr hlt), if_pos hlt,
          ih _ hparent (by rw [Array.size_setIfInBounds]; omega), set_set_eq_swap hhole hget (by omega)]
      · rw [if_neg (fun h => hlt (lessOf_iff.mp h)), if_neg hlt]
    · exact put_eq hhole value

/-- A value that goes down with its hole, whatever it is. -/
structure Down (cmp : α → α → Ordering) (top len : ℕ) (w : Array α) (value : α) (v : Array α) (hole : ℕ) : Prop where
  lt : hole < len
  under : Under top hole
  shuffled : Shuffled top len (v.setIfInBounds hole value) w
  order : HoleOrder cmp (v.setIfInBounds hole value) len top hole

/-- The greatest child put into the hole. -/
theorem Down.step {top len hole second : ℕ} {w v : Array α} {value x : α} (hd : Down cmp top len w value v hole)
    (hlen : len ≤ v.size) (hx : v[second]? = some x) (hpos : 0 < second) (hlt : second < len)
    (hparent : (second - 1) / 2 = hole)
    (hgreatest : ∀ d y, 0 < d → d < len → (d - 1) / 2 = hole → v[d]? = some y → (cmp y x).isLE = true) :
    put v hole x = some (v.setIfInBounds hole x) ∧ Down cmp top len w value (v.setIfInBounds hole x) second := by
  obtain ⟨hhole, hunder, hsh, hord⟩ := hd
  have htop := hunder.le
  have hswap := set_set_eq_swap (x := value) (show hole < v.size by omega) hx (by omega)
  have hsize : (v.setIfInBounds hole value).size = v.size := Array.size_setIfInBounds
  refine ⟨put_eq (by omega) x, hlt, .child hpos (hparent ▸ hunder), ?_, ?_⟩
  · rw [hswap]
    exact (shuffled_swap (by omega) ⟨by omega, hlt⟩ ⟨htop, hhole⟩).trans hsh
  · rw [hswap, swapIfInBounds_comm (by omega) (by omega)]
    refine hord.down (by omega) hpos hlt hparent htop ?_
    intro d hd hd' hpd
    unfold cmpAt
    rw [Array.getElem?_setIfInBounds_ne (by omega), Array.getElem?_setIfInBounds_ne (by omega), hx,
      Array.getElem?_eq_getElem (show d < v.size by omega)]
    exact hgreatest d _ hd hd' hpd (Array.getElem?_eq_getElem _)

variable [Std.TransCmp cmp]

theorem isLE_refl (x : α) : (cmp x x).isLE = true := by
  have heq : cmp x x = .eq := Std.ReflCmp.compare_self
  rw [heq]
  rfl

theorem isLE_of_less {a b : α} (h : lessOf cmp a b = true) : (cmp a b).isLE = true := by
  rw [lessOf_iff.mp h]
  rfl

theorem isLE_of_not_less {a b : α} (h : ¬ lessOf cmp a b = true) : (cmp b a).isLE = true := by
  have hswap : cmp b a = (cmp a b).swap := Std.OrientedCmp.eq_swap
  rw [lessOf_iff] at h
  rw [hswap]
  cases hc : cmp a b <;> simp_all

theorem not_less_of_isLE {a b : α} (h : (cmp a b).isLE = true) : ¬ lessOf cmp b a = true := by
  have hswap : cmp b a = (cmp a b).swap := Std.OrientedCmp.eq_swap
  rw [lessOf_iff, hswap]
  cases hc : cmp a b <;> simp_all

variable (cmp) in
theorem upperChild_spec {v : Array α} {len hole : ℕ} (hlen : len ≤ v.size) (htwo : hole < (len - 1) / 2) :
    ∃ second x, upperChild (lessOf cmp) v hole = some (second, x) ∧ v[second]? = some x ∧ 0 < second ∧
      second < len ∧ (second - 1) / 2 = hole ∧
      ∀ d y, 0 < d → d < len → (d - 1) / 2 = hole → v[d]? = some y → (cmp y x).isLE = true := by
  have hr := Array.getElem?_eq_getElem (show 2 * (hole + 1) < v.size by omega)
  have hl := Array.getElem?_eq_getElem (show 2 * (hole + 1) - 1 < v.size by omega)
  generalize getElem v (2 * (hole + 1)) (by omega) = right at hr
  generalize getElem v (2 * (hole + 1) - 1) (by omega) = left at hl
  have hchildren : ∀ d y, 0 < d → (d - 1) / 2 = hole → v[d]? = some y → y = right ∨ y = left := by
    intro d y hd hpd hy
    rcases (by omega : d = 2 * (hole + 1) ∨ d = 2 * (hole + 1) - 1) with rfl | rfl
    · exact .inl (Option.some.inj (hy.symm.trans hr))
    · exact .inr (Option.some.inj (hy.symm.trans hl))
  simp only [upperChild, Option.bind_eq_bind, hr, hl, Option.bind_some]
  by_cases hlt : cmp right left = .lt
  · refine ⟨_, left, if_pos (lessOf_iff.mpr hlt), hl, by omega, by omega, by omega, ?_⟩
    intro d y hd _ hpd hy
    rcases hchildren d y hd hpd hy with rfl | rfl
    · rw [hlt]
      rfl
    · exact isLE_refl y
  · refine ⟨_, right, if_neg (fun h => hlt (lessOf_iff.mp h)), hr, by omega, by omega, by omega, ?_⟩
    intro d y hd _ hpd hy
    rcases hchildren d y hd hpd hy with rfl | rfl
    · exact isLE_refl y
    · exact isLE_of_not_less (fun h => hlt (lessOf_iff.mp h))

theorem descend_spec {top len hole : ℕ} {w v : Array α} {value : α} (hlen : len ≤ v.size)
    (hd : Down cmp top len w value v hole) :
    ∃ v' hole', descend (lessOf cmp) v len hole = some (v', hole') ∧ v'.size = v.size ∧
      Down cmp top len w value v' hole' ∧ ¬ (2 ≤ len ∧ hole' < (len - 1) / 2) := by
  induction hn : len - hole using Nat.strongRecOn generalizing v hole with
  | _ n ih =>
    rw [descend]
    split
    · rename_i hgo
      obtain ⟨second, x, hchild, hx, hpos, hlt, hparent, hgreatest⟩ := upperChild_spec cmp hlen hgo.2
      obtain ⟨hput, hdown⟩ := hd.step hlen hx hpos hlt hparent hgreatest
      have hless := lt_upperChild _ hchild
      obtain ⟨v', hole', heq, hsize, hspec⟩ :=
        ih (len - second) (by omega) (by rwa [Array.size_setIfInBounds]) hdown rfl
      refine ⟨v', hole', ?_, hsize.trans Array.size_setIfInBounds, hspec⟩
      split
      · rename_i hnone
        rw [hnone] at hchild
        cases hchild
      · rename_i second' x' hsome
        rw [hchild] at hsome
        cases hsome
        rw [hput, Option.bind_some, heq]
    · rename_i hstop
      exact ⟨v, hole, rfl, rfl, hd, hstop⟩

/-- The value put down below `top`, where the entries after `top` are a heap: they are one from `top` on. -/
theorem adjust_spec {v : Array α} {top len : ℕ} (value : α) (hlen : len ≤ v.size) (htop : top < len)
    (hh : HeapFrom cmp (v.setIfInBounds top value) len (top + 1)) :
    ∃ g, adjust (lessOf cmp) v top len value = some g ∧ Shuffled top len g (v.setIfInBounds top value) ∧
      HeapFrom cmp g len top := by
  have hstart : Down cmp top len (v.setIfInBounds top value) value v top := ⟨htop, .self, .rfl, hh.hole⟩
  obtain ⟨v', hole, hdescend, hsize, hdown, hstop⟩ := descend_spec hlen hstart
  -- at a leaf the value goes up again
  have hup : ∀ {u : Array α} {j : ℕ}, u.size = v.size → Down cmp top len (v.setIfInBounds top value) value u j →
      len ≤ 2 * j + 1 → ∃ g, pushUp (lessOf cmp) u j top value = some g ∧
        Shuffled top len g (v.setIfInBounds top value) ∧ HeapFrom cmp g len top := by
    intro u j hu hdown hleaf
    have hlt := hdown.lt
    have hn : len ≤ (u.setIfInBounds j value).size := by rw [Array.size_setIfInBounds]; omega
    refine ⟨_, pushUp_eq (by omega), ?_, rise_heapFrom hn hdown.under hlt (hdown.order.leaf hleaf)⟩
    exact (rise_shuffled cmp hn hdown.under (Nat.le_refl top) hlt).trans hdown.shuffled
  unfold adjust
  rw [hdescend, Option.bind_eq_bind, Option.bind_some]
  dsimp only
  split
  · rename_i heven
    have hx := Array.getElem?_eq_getElem (show 2 * (hole + 1) - 1 < v'.size by omega)
    obtain ⟨hput, hdown'⟩ := hdown.step (by omega) hx (by omega) (by omega) (by omega) (by
      intro d y hd hd' hpd hy
      obtain rfl : d = 2 * (hole + 1) - 1 := by omega
      rw [Option.some.inj (hy.symm.trans hx)]
      exact isLE_refl _)
    rw [hx, Option.bind_eq_bind, Option.bind_some, hput]
    exact hup (Array.size_setIfInBounds.trans hsize) hdown' (by omega)
  · exact hup hsize hdown (by have := hdown.lt; omega)

/-! ## The heap's operations -/

theorem pushHeap_eq (h : Array α) (t : α) :
    pushHeap (lessOf cmp) (h.push t) = some (siftUp cmp (h.push t) h.size) := by
  have hget : (h.push t)[h.size]? = some t := Array.getElem?_push_size
  unfold pushHeap
  split
  · rename_i hzero
    rw [Array.size_push] at hzero
    omega
  · rename_i last hsize
    obtain rfl : last = h.size := by rw [Array.size_push] at hsize; omega
    rw [hget, Option.bind_some, pushUp_eq (by omega), set_self hget, siftUp_eq_rise]

theorem popInto_spec {v : Array α} {n : ℕ} (hn : 0 < n) (hlt : n < v.size) (hh : IsHeap cmp v (n + 1)) :
    ∃ g, popInto (lessOf cmp) v n n = some g ∧ Shuffled 0 n g (v.swapIfInBounds 0 n) ∧ IsHeap cmp g n := by
  have hvalue := Array.getElem?_eq_getElem hlt
  have hroot := Array.getElem?_eq_getElem (show 0 < v.size by omega)
  generalize v[n] = value at hvalue
  generalize getElem v 0 (by omega) = root at hroot
  have hswap : (v.setIfInBounds n root).setIfInBounds 0 value = v.swapIfInBounds 0 n := by
    rw [set_set_eq_swap hlt hroot (by omega), set_self hvalue]
  have hfrom := hh.swap_last hlt
  rw [← hswap] at hfrom ⊢
  obtain ⟨g, hg, hsh, hheap⟩ := adjust_spec value (by rw [Array.size_setIfInBounds]; omega) hn hfrom
  refine ⟨g, ?_, hsh, fun k hk hk' => hheap k hk hk' (Nat.zero_le _)⟩
  simp only [popInto, Option.bind_eq_bind, hvalue, hroot, Option.bind_some, put_eq hlt]
  exact hg

theorem makeHeapFrom_spec (parent : ℕ) : ∀ {v : Array α} {len : ℕ}, len ≤ v.size → parent < len →
    HeapFrom cmp v len (parent + 1) →
    ∃ g, makeHeapFrom (lessOf cmp) len v parent = some g ∧ g.Perm v ∧ IsHeap cmp g len := by
  induction parent with
  | zero =>
    intro v len hlen hpos hh
    have hvalue := Array.getElem?_eq_getElem (show 0 < v.size by omega)
    obtain ⟨g, hg, hsh, hheap⟩ := adjust_spec (getElem v 0 (by omega)) hlen hpos (by rwa [set_self hvalue])
    rw [set_self hvalue] at hsh
    refine ⟨g, ?_, hsh.perm, fun k hk hk' => hheap k hk hk' (Nat.zero_le _)⟩
    rw [makeHeapFrom, hvalue, Option.bind_some, hg]
  | succ parent ih =>
    intro v len hlen hlt hh
    have hvalue := Array.getElem?_eq_getElem (show parent + 1 < v.size by omega)
    obtain ⟨u, hu, hsh, hheap⟩ :=
      adjust_spec (getElem v (parent + 1) (by omega)) hlen hlt (by rwa [set_self hvalue])
    rw [set_self hvalue] at hsh
    obtain ⟨g, hg, hperm, hspec⟩ := ih (by rwa [hsh.size_eq]) (by omega) hheap
    refine ⟨g, ?_, hperm.trans hsh.perm, hspec⟩
    rw [makeHeapFrom, hvalue, Option.bind_some, hu, Option.bind_some, hg]

variable (cmp) in
theorem makeHeap_spec (v : Array α) :
    ∃ g, makeHeap (lessOf cmp) v = some g ∧ g.Perm v ∧ IsHeap cmp g v.size := by
  unfold makeHeap
  split
  · exact ⟨v, rfl, .rfl, fun k hk hk' => by omega⟩
  · exact makeHeapFrom_spec _ (Nat.le_refl _) (by omega) fun k hk hk' hpk => by omega

theorem popAll_spec (n : ℕ) : ∀ {v : Array α}, HalfSorted cmp v n →
    ∃ g, popAll (lessOf cmp) v n = some g ∧ g.Perm v ∧ OrderedTo cmp g v.size := by
  induction n with
  | zero => exact fun hs => ⟨_, rfl, .rfl, fun i j hij hj => hs.ordered i j (Nat.zero_le i) hij hj⟩
  | succ n ih =>
    intro v hs
    cases n with
    | zero =>
      refine ⟨v, rfl, .rfl, fun i j hij hj => ?_⟩
      by_cases hi : i = 0
      · exact hs.across i j (by omega) (by omega) hj
      · exact hs.ordered i j (by omega) hij hj
    | succ n =>
      have hle := hs.le
      obtain ⟨u, hu, hsh, hheap⟩ := popInto_spec (Nat.succ_pos n) (by omega) hs.heap
      obtain ⟨g, hg, hperm, hord⟩ := ih (hs.step (Nat.succ_pos n) hsh hheap)
      have hpu := hsh.perm.trans (swapIfInBounds_perm v 0 (n + 1))
      refine ⟨g, ?_, hperm.trans hpu, by rwa [hpu.size_eq] at hord⟩
      rw [popAll, hu, Option.bind_some, hg]

variable (cmp) in
theorem heapSort_spec (v : Array α) :
    ∃ g, heapSort (lessOf cmp) v = some g ∧ g.Perm v ∧ OrderedTo cmp g v.size := by
  obtain ⟨u, hu, hperm, hheap⟩ := makeHeap_spec cmp v
  rw [← hperm.size_eq] at hheap
  have hs : HalfSorted cmp u u.size :=
    ⟨Nat.le_refl _, hheap, fun i j hi hij hj => by omega, fun i j hi hj hj' => by omega⟩
  obtain ⟨g, hg, hp, hord⟩ := popAll_spec u.size hs
  refine ⟨g, ?_, hp.trans hperm, by rwa [hperm.size_eq] at hord⟩
  rw [heapSort, hu, Option.bind_some, hg]

/-- `pop_heap` puts the root at the end, behind a heap of the others. -/
theorem popHeap_spec {v : Array α} {n : ℕ} (hsize : v.size = n + 1) (hh : IsHeap cmp v v.size) :
    ∃ g, popHeap (lessOf cmp) v = some g ∧ g.Perm v ∧ g[n]? = v[0]? ∧ IsHeap cmp g n := by
  unfold popHeap
  rw [hsize] at hh ⊢
  split
  · rename_i hone
    obtain ⟨g, hg, hsh, hheap⟩ := popInto_spec (show 0 < n by omega) (by omega) hh
    refine ⟨g, hg, hsh.perm.trans (swapIfInBounds_perm v 0 n), ?_, hheap⟩
    rw [hsh.outside n (.inr (Nat.le_refl n)), getElem?_swapIfInBounds (by omega) (by omega), swapped,
      if_neg (by omega), if_pos rfl]
  · obtain rfl : n = 0 := by omega
    exact ⟨v, rfl, .rfl, rfl, fun k hk hk' => by omega⟩

end Secantus.Stl
