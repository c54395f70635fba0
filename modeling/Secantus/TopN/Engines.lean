/-
  `$topN`, `$bottomN`, `$maxN` and `$minN` (group.rs) as the two engines keep them: the classic one in a list in order,
  the slot-based one in the heap of the C++ standard library, sorted at the end.

  Each keeps as many as it may and none that is worse than one it lets go (`offer_spec`, `heapOffer_spec`), so that
  what they return ties at every place with the best of the sorted whole, and with each other (`engines_agree`).

  The order of two values and the value an array sorts by are parameters. Each document comes with as many sort keys
  as there are directions, since both are read off one `sortBy`.
-/
import Secantus.ExternalSort.Whole
import Secantus.Stl.Sort

namespace Secantus.TopN

open Secantus.Library Secantus.Stl

variable {κ ω β : Type}

/-! ## The order of two documents -/

/-- A document's sort keys, one for each direction, and its output. -/
structure Keyed (κ ω : Type) (dirs : List Bool) where
  keys : List κ
  output : ω
  length_keys : keys.length = dirs.length

/-- The comparison of one key. -/
def keyCmp (cmp : κ → κ → Ordering) (sortRepr : κ → Bool → κ) (desc : Bool) (a b : Option κ) : Ordering :=
  let ord :=
    match a, b with
    | some x, some y => cmp (sortRepr x desc) (sortRepr y desc)
    | _, _ => .eq
  if desc then ord.swap else ord

/-- The keys from the `i`th on. -/
def patternCmpFrom (cmp : κ → κ → Ordering) (sortRepr : κ → Bool → κ) (a b : List κ) : ℕ → List Bool → Ordering
  | _, [] => .eq
  | i, desc :: dirs => (keyCmp cmp sortRepr desc a[i]? b[i]?).then (patternCmpFrom cmp sortRepr a b (i + 1) dirs)

def patternCmp (cmp : κ → κ → Ordering) (sortRepr : κ → Bool → κ) (dirs : List Bool) (a b : List κ) : Ordering :=
  patternCmpFrom cmp sortRepr a b 0 dirs

/-- `pattern_cmp` on two documents. -/
def docCmp (cmp : κ → κ → Ordering) (sortRepr : κ → Bool → κ) (dirs : List Bool) (a b : Keyed κ ω dirs) : Ordering :=
  patternCmp cmp sortRepr dirs a.keys b.keys

section Preorder

variable {dirs : List Bool} (cmp : κ → κ → Ordering) (sortRepr : κ → Bool → κ) [Std.TransCmp cmp]

theorem transCmp_key (desc : Bool) {i : ℕ} (hi : i < dirs.length) :
    Std.TransCmp fun a b : Keyed κ ω dirs => keyCmp cmp sortRepr desc a.keys[i]? b.keys[i]? := by
  have hget : ∀ a : Keyed κ ω dirs, ∃ x, a.keys[i]? = some x := fun a =>
    ⟨_, List.getElem?_eq_getElem (by rwa [a.length_keys])⟩
  refine { eq_swap := ?_, isLE_trans := ?_ }
  · intro a b
    obtain ⟨x, hx⟩ := hget a
    obtain ⟨y, hy⟩ := hget b
    have hswap : cmp (sortRepr x desc) (sortRepr y desc) = (cmp (sortRepr y desc) (sortRepr x desc)).swap :=
      Std.OrientedCmp.eq_swap
    simp only [keyCmp, hx, hy]
    cases desc
    · exact hswap
    · exact congrArg Ordering.swap hswap
  · intro a b c hab hbc
    obtain ⟨x, hx⟩ := hget a
    obtain ⟨y, hy⟩ := hget b
    obtain ⟨z, hz⟩ := hget c
    simp only [keyCmp, hx, hy, hz] at hab hbc ⊢
    cases desc
    · rw [if_neg Bool.false_ne_true] at hab hbc ⊢
      exact Std.TransCmp.isLE_trans hab hbc
    · rw [if_pos rfl, ← Std.OrientedCmp.eq_swap] at hab hbc ⊢
      exact Std.TransCmp.isLE_trans hbc hab

theorem transCmp_from (ds : List Bool) : ∀ i, i + ds.length ≤ dirs.length →
    Std.TransCmp fun a b : Keyed κ ω dirs => patternCmpFrom cmp sortRepr a.keys b.keys i ds := by
  induction ds with
  | nil => exact fun i _ => { eq_swap := rfl, isLE_trans := fun _ _ => rfl }
  | cons desc ds ih =>
    intro i hi
    rw [List.length_cons] at hi
    have hkey : Std.TransCmp fun a b : Keyed κ ω dirs => keyCmp cmp sortRepr desc a.keys[i]? b.keys[i]? :=
      transCmp_key cmp sortRepr desc (by omega)
    have hrest := ih (i + 1) (by omega)
    exact inferInstanceAs (Std.TransCmp (compareLex
      (fun a b : Keyed κ ω dirs => keyCmp cmp sortRepr desc a.keys[i]? b.keys[i]?)
      fun a b => patternCmpFrom cmp sortRepr a.keys b.keys (i + 1) ds))

instance transCmp_docCmp :
    Std.TransCmp (docCmp cmp sortRepr dirs : Keyed κ ω dirs → Keyed κ ω dirs → Ordering) :=
  transCmp_from cmp sortRepr dirs 0 (by omega)

end Preorder

/-! ## The classic engine -/

/-- `Vec::partition_point` of what is not greater than the item, and the item put there. -/
def insertAfter (cmp : β → β → Ordering) (kept : List β) (item : β) : List β :=
  kept.takeWhile (cmp · item != .gt) ++ item :: kept.dropWhile (cmp · item != .gt)

/-- The worst kept, at the front or at the back. -/
def worstOf (front : Bool) (kept : List β) : Option β := if front then kept.head? else kept.getLast?

/-- A turn of the classic engine. An item that is not better than the worst kept `stays` out. -/
def offer (cmp : β → β → Ordering) (n : ℕ) (front : Bool) (stays : β → β → Bool) (kept : List β) (item : β) :
    Option (List β) :=
  if kept.length ≥ n then do
    let worst ← worstOf front kept
    if stays worst item then some kept
    else some (insertAfter cmp (if front then kept.tail else kept.dropLast) item)
  else some (insertAfter cmp kept item)

def classicTopBottomN (cmp : κ → κ → Ordering) (sortRepr : κ → Bool → κ) (dirs : List Bool)
    (items : List (Keyed κ ω dirs)) (n : ℕ) (top : Bool) : Option (List (Keyed κ ω dirs)) :=
  let patternCmp := docCmp cmp sortRepr dirs
  items.foldlM (offer patternCmp n (!top) fun worst item =>
    if top then patternCmp worst item != .gt else patternCmp item worst != .gt) []

def classicMinMaxN (cmp : κ → κ → Ordering) (vals : List κ) (n : ℕ) (largest : Bool) : Option (List κ) := do
  let kept ← vals.foldlM (offer cmp n largest fun worst v =>
    if largest then cmp v worst != .gt else cmp v worst != .lt) []
  some (if largest then kept.reverse else kept)

/-! ## The slot-based engine -/

/-- A turn of the slot-based engine: `less` is its comparator, the root the worst kept. -/
def heapOffer (less : β → β → Bool) (n : ℕ) (heap : Array β) (item : β) : Option (Array β) :=
  if heap.size < n then pushHeap less (heap.push item)
  else
    match heap[0]? with
    | none => some heap
    | some root =>
      if less item root then do
        let heap ← popHeap less heap
        let heap ← put heap (heap.size - 1) item
        pushHeap less heap
      else some heap

def sbeTopBottomN (cmp : κ → κ → Ordering) (sortRepr : κ → Bool → κ) (dirs : List Bool)
    (items : List (Keyed κ ω dirs)) (n : ℕ) (top : Bool) : Option (List (Keyed κ ω dirs)) := do
  let patternCmp := docCmp cmp sortRepr dirs
  let heapLess := fun a b =>
    let o := patternCmp a b
    if top then o == .lt else o == .gt
  let heap ← items.foldlM (heapOffer heapLess n) #[]
  let heap ← sort (fun a b => patternCmp a b == .lt) heap
  some heap.toList

def sbeMinMaxN (cmp : κ → κ → Ordering) (vals : List κ) (n : ℕ) (largest : Bool) : Option (List κ) := do
  let better := fun a b =>
    let o := cmp a b
    if largest then o == .gt else o == .lt
  let heap ← vals.foldlM (heapOffer better n) #[]
  let heap ← sort better heap
  some heap.toList

/-! ## What is best -/

/-- The order in which the best come first: turned round, the greatest are. -/
def bestFirst (turned : Bool) (cmp : β → β → Ordering) (a b : β) : Ordering := if turned then cmp b a else cmp a b

/-- The best `n` in the order of `cmp`: its last or its first. -/
def best (turned : Bool) (cmp : β → β → Ordering) (n : ℕ) (items : List β) : List β :=
  let sorted := items.mergeSort (ExternalSort.leOf cmp)
  if turned then sorted.drop (sorted.length - n) else sorted.take n

/-- What an engine returns in the order of `order`: some of the items, as many as may be, in order, and at every place
    one that ties with the one of `wanted`. -/
structure Returns (cmp order : β → β → Ordering) (n : ℕ) (items wanted kept : List β) : Prop where
  sub : kept.Subperm items
  length : kept.length = min n items.length
  sorted : kept.Pairwise fun x y => (order x y).isLE = true
  ties : List.Forall₂ (fun x y => cmp x y = .eq) kept wanted

section Order

variable {cmp : β → β → Ordering} [Std.TransCmp cmp]

instance transCmp_bestFirst (turned : Bool) : Std.TransCmp (bestFirst turned cmp) := by
  cases turned with
  | false => exact inferInstanceAs (Std.TransCmp cmp)
  | true =>
    show Std.TransCmp fun a b => cmp b a
    exact Std.TransCmp.opposite

omit [Std.TransCmp cmp] in
/-- What is in order stays so with the item put after those not greater. -/
theorem insertAfter_perm (kept : List β) (item : β) : (insertAfter cmp kept item).Perm (kept ++ [item]) := by
  unfold insertAfter
  conv => rhs; rw [← List.takeWhile_append_dropWhile (p := (cmp · item != .gt)) (l := kept), List.append_assoc]
  exact (List.perm_append_singleton item _).symm.append_left _

theorem insertAfter_sorted {kept : List β} (hkept : kept.Pairwise fun x y => (cmp x y).isLE = true) (item : β) :
    (insertAfter cmp kept item).Pairwise fun x y => (cmp x y).isLE = true := by
  have hwhole := hkept
  rw [← List.takeWhile_append_dropWhile (p := (cmp · item != .gt)) (l := kept), List.pairwise_append] at hwhole
  obtain ⟨hfront, hback, hacross⟩ := hwhole
  have hbefore : ∀ x ∈ kept.takeWhile (cmp · item != .gt), (cmp x item).isLE = true := by
    intro x hx
    have hne := List.all_takeWhile (p := (cmp · item != .gt)) (l := kept)
    rw [List.all_eq_true] at hne
    have := hne x hx
    rw [bne_iff_ne] at this
    exact Ordering.isLE_iff_ne_gt.mpr this
  have hafter : ∀ y ∈ kept.dropWhile (cmp · item != .gt), (cmp item y).isLE = true := by
    -- the first of them is greater than the item, the others are not less than it
    cases hd : kept.dropWhile (cmp · item != .gt) with
    | nil => exact fun y hy => absurd hy List.not_mem_nil
    | cons z rest =>
      have hz : cmp z item = .gt := by
        have hhead := List.head_dropWhile_not (p := (cmp · item != .gt)) (l := kept) (by rw [hd]; exact List.cons_ne_nil z rest)
        simpa [hd] using hhead
      have hzle : (cmp item z).isLE = true := by
        rw [Std.OrientedCmp.lt_of_gt hz]
        rfl
      rw [hd] at hback
      intro y hy
      rcases List.mem_cons.mp hy with rfl | hy
      · exact hzle
      · exact Std.TransCmp.isLE_trans hzle ((List.pairwise_cons.mp hback).1 y hy)
  refine List.pairwise_append.mpr ⟨hfront, List.pairwise_cons.mpr ⟨hafter, hback⟩, ?_⟩
  intro x hx y hy
  rcases List.mem_cons.mp hy with rfl | hy
  · exact hbefore x hx
  · exact hacross x hx y hy

/-- The worst kept, where the kept are in order: the others and it are all of them, and none of them is worse. -/
theorem worst_spec (front : Bool) {kept : List β} (hkept : kept.Pairwise fun x y => (cmp x y).isLE = true)
    (hpos : 0 < kept.length) :
    ∃ worst, worstOf front kept = some worst ∧
      ((if front then kept.tail else kept.dropLast) ++ [worst]).Perm kept ∧
      ((if front then kept.tail else kept.dropLast).Pairwise fun x y => (cmp x y).isLE = true) ∧
      ∀ x ∈ kept, (bestFirst front cmp x worst).isLE = true := by
  have hrefl : ∀ x, (cmp x x).isLE = true := isLE_refl
  cases front with
  | false =>
    obtain ⟨init, worst, rfl⟩ : ∃ init worst, kept = init ++ [worst] :=
      ⟨_, _, (List.dropLast_append_getLast (List.ne_nil_of_length_pos hpos)).symm⟩
    refine ⟨worst, List.getLast?_concat, ?_, ?_, ?_⟩
    · simp
    · simpa using (List.pairwise_append.mp hkept).1
    · intro x hx
      rcases List.mem_append.mp hx with hx | hx
      · exact (List.pairwise_append.mp hkept).2.2 x hx worst (List.mem_singleton_self worst)
      · rw [List.mem_singleton.mp hx]
        exact hrefl worst
  | true =>
    obtain ⟨worst, rest, rfl⟩ : ∃ worst rest, kept = worst :: rest := List.exists_cons_of_length_pos hpos
    refine ⟨worst, rfl, List.perm_append_singleton worst rest, (List.pairwise_cons.mp hkept).2, ?_⟩
    intro x hx
    rcases List.mem_cons.mp hx with rfl | hx
    · exact hrefl x
    · exact (List.pairwise_cons.mp hkept).1 x hx

/-- A turn of the classic engine. `hstays`: what stays out is what is not better than the worst kept. -/
theorem offer_spec {n : ℕ} {front : Bool} {stays : β → β → Bool} (hn : 1 ≤ n)
    (hstays : ∀ worst item, stays worst item = (bestFirst front cmp worst item).isLE) {kept rows out : List β}
    (hkept : kept.Pairwise fun x y => (cmp x y).isLE = true) (hs : Selects (bestFirst front cmp) n kept rows out)
    (item : β) : ∃ kept' out', offer cmp n front stays kept item = some kept' ∧
      (kept'.Pairwise fun x y => (cmp x y).isLE = true) ∧
      Selects (bestFirst front cmp) n kept' (rows ++ [item]) out' := by
  unfold offer
  split
  · rename_i hfull
    have hsize : kept.length = n := by
      have := hs.length
      omega
    obtain ⟨worst, hworst, hperm, hrest, hmax⟩ := worst_spec front hkept (by omega)
    have hmem : worst ∈ kept := hperm.mem_iff.mp (List.mem_append_right _ (List.mem_singleton_self worst))
    rw [hworst, Option.bind_eq_bind, Option.bind_some, hstays]
    split
    · rename_i hle
      exact ⟨kept, out ++ [item], rfl, hkept,
        hs.skip hsize fun x hx => Std.TransCmp.isLE_trans (hmax x hx) hle⟩
    · rename_i hgt
      have hlt : bestFirst front cmp item worst = .lt := by
        rw [← Std.OrientedCmp.gt_iff_lt]
        cases hc : bestFirst front cmp worst item <;> simp_all
      refine ⟨_, worst :: out, rfl, insertAfter_sorted hrest item, hs.replace hsize hmem hmax hlt ?_⟩
      refine ((insertAfter_perm _ item).append_right [worst]).trans ?_
      rw [List.append_assoc]
      refine (List.perm_append_comm.append_left _).trans ?_
      rw [← List.append_assoc]
      exact hperm.append_right [item]
  · rename_i hroom
    exact ⟨_, out, rfl, insertAfter_sorted hkept item, hs.insert (by omega) (insertAfter_perm kept item)⟩

variable (cmp) in
theorem foldlM_offer_spec {n : ℕ} (hn : 1 ≤ n) (front : Bool) (stays : β → β → Bool)
    (hstays : ∀ worst item, stays worst item = (bestFirst front cmp worst item).isLE) (items : List β) :
    ∀ {kept rows out : List β}, (kept.Pairwise fun x y => (cmp x y).isLE = true) →
      Selects (bestFirst front cmp) n kept rows out →
      ∃ kept' out', items.foldlM (offer cmp n front stays) kept = some kept' ∧
        (kept'.Pairwise fun x y => (cmp x y).isLE = true) ∧
        Selects (bestFirst front cmp) n kept' (rows ++ items) out' := by
  induction items with
  | nil =>
    intro kept rows out hkept hs
    exact ⟨kept, out, rfl, hkept, by rwa [List.append_nil]⟩
  | cons item items ih =>
    intro kept rows out hkept hs
    obtain ⟨kept', out', heq, hkept', hs'⟩ := offer_spec hn hstays hkept hs item
    obtain ⟨kept'', out'', heq', hkept'', hs''⟩ := ih hkept' hs'
    rw [List.append_assoc] at hs''
    refine ⟨kept'', out'', ?_, hkept'', hs''⟩
    rw [List.foldlM_cons, heq, Option.bind_eq_bind, Option.bind_some, heq']

theorem heapOffer_spec {n : ℕ} {heap : Array β} {rows out : List β} (hk : Keeps cmp n heap rows out) (item : β) :
    ∃ heap' out', heapOffer (lessOf cmp) n heap item = some heap' ∧ Keeps cmp n heap' (rows ++ [item]) out' := by
  unfold heapOffer
  split
  · rename_i hroom
    exact ⟨_, out, pushHeap_eq heap item, hk.insert hroom item⟩
  · rename_i hfull
    have hsize : heap.size = n := by
      have hle : heap.size ≤ n := hk.length
      omega
    split
    · rename_i hnone
      refine ⟨heap, out ++ [item], rfl, hk.skip hsize fun root hroot => ?_⟩
      rw [hnone] at hroot
      cases hroot
    · rename_i root hroot
      split
      · rename_i hless
        have hpos := (Array.getElem?_eq_some_iff.mp hroot).1
        obtain ⟨m, hm⟩ : ∃ m, heap.size = m + 1 := ⟨heap.size - 1, by omega⟩
        obtain ⟨g, hg, hperm, hlast, hheap⟩ := popHeap_spec hm hk.heap
        have hgsize : g.size = m + 1 := hperm.size_eq.trans hm
        rw [hroot] at hlast
        have hpop : g.pop.size = m := by rw [Array.size_pop]; omega
        -- the item in the root's place at the end
        have hset : g.setIfInBounds (g.size - 1) item = g.pop.push item := by
          refine Array.ext_getElem? fun k => ?_
          rw [Array.getElem?_setIfInBounds, Array.getElem?_push, hpop, hgsize, Array.getElem?_pop]
          grind
        have hpoproot : g.pop.push root = g := by
          refine Array.ext_getElem? fun k => ?_
          rw [Array.getElem?_push, hpop, Array.getElem?_pop]
          grind
        have hroots : g.pop.toList ++ [root] = g.toList := by rw [← Array.toList_push, hpoproot]
        have hpopheap : IsHeap cmp g.pop g.pop.size := by
          rw [hpop]
          intro k hk hk'
          have hle := hheap k hk hk'
          unfold cmpAt at hle ⊢
          rwa [Array.getElem?_pop, Array.getElem?_pop, if_pos (by omega), if_pos (by omega)]
        refine ⟨_, root :: out, ?_, hk.replace hsize hroot (lessOf_iff.mp hless) ?_ (hpopheap.insert item)⟩
        · rw [hg, Option.bind_eq_bind, Option.bind_some, put_eq (by omega), Option.bind_some, hset, pushHeap_eq]
        · calc (siftUp cmp (g.pop.push item) g.pop.size).toList ++ [root]
              |>.Perm ((g.pop.toList ++ [item]) ++ [root]) := (siftUp_push_perm g.pop item).append_right [root]
            _ |>.Perm ((g.pop.toList ++ [root]) ++ [item]) := by
              rw [List.append_assoc, List.append_assoc]
              exact List.perm_append_comm.append_left _
            _ = g.toList ++ [item] := by rw [hroots]
            _ |>.Perm (heap.toList ++ [item]) := hperm.toList.append_right [item]
      · rename_i hnot
        refine ⟨heap, out ++ [item], rfl, hk.skip hsize fun root' hroot' => ?_⟩
        rw [hroot] at hroot'
        obtain rfl := Option.some.inj hroot'
        exact isLE_of_not_less hnot

theorem foldlM_heapOffer_spec {n : ℕ} (items : List β) : ∀ {heap : Array β} {rows out : List β},
    Keeps cmp n heap rows out →
    ∃ heap' out', items.foldlM (heapOffer (lessOf cmp) n) heap = some heap' ∧
      Keeps cmp n heap' (rows ++ items) out' := by
  induction items with
  | nil =>
    intro heap rows out hk
    exact ⟨heap, out, rfl, by rwa [List.append_nil]⟩
  | cons item items ih =>
    intro heap rows out hk
    obtain ⟨heap', out', heq, hk'⟩ := heapOffer_spec hk item
    obtain ⟨heap'', out'', heq', hk''⟩ := ih hk'
    rw [List.append_assoc] at hk''
    refine ⟨heap'', out'', ?_, hk''⟩
    rw [List.foldlM_cons, heq, Option.bind_eq_bind, Option.bind_some, heq']

/-! ## What the engines return -/

theorem best_sorted (cmp : β → β → Ordering) [Std.TransCmp cmp] (items : List β) :
    (items.mergeSort (ExternalSort.leOf cmp)).Pairwise fun x y => (cmp x y).isLE = true :=
  List.pairwise_mergeSort (ExternalSort.leOf_trans cmp) (fun x y => by simpa using ExternalSort.leOf_total cmp x y) items

/-- The best, from the best down. -/
def bestDown (turned : Bool) (cmp : β → β → Ordering) (n : ℕ) (items : List β) : List β :=
  if turned then (best turned cmp n items).reverse else best turned cmp n items

/-- What is selected, the best first. -/
theorem returns_bestFirst {n : ℕ} {turned : Bool} {kept items out : List β}
    (hs : Selects (bestFirst turned cmp) n kept items out)
    (hkept : kept.Pairwise fun x y => (bestFirst turned cmp x y).isLE = true) :
    Returns cmp (bestFirst turned cmp) n items (bestDown turned cmp n items) kept := by
  have hsub : kept.Subperm items :=
    (List.sublist_append_left kept out).subperm.trans hs.perm.subperm
  refine ⟨hsub, hs.length_eq, hkept, ?_⟩
  have hsorted := best_sorted cmp items
  have hperm := List.mergeSort_perm items (ExternalSort.leOf cmp)
  cases turned with
  | false => exact hs.forall₂_take hkept hsorted hperm
  | true =>
    have hties := hs.forall₂_take hkept (List.pairwise_reverse.mpr hsorted) ((List.reverse_perm _).trans hperm)
    rw [List.take_reverse] at hties
    exact hties.imp fun x y hxy => Std.OrientedCmp.eq_symm hxy

/-- What is selected, in the order of `cmp`. -/
theorem returns_inOrder {n : ℕ} {turned : Bool} {kept items out : List β}
    (hs : Selects (bestFirst turned cmp) n kept items out)
    (hkept : kept.Pairwise fun x y => (cmp x y).isLE = true) :
    Returns cmp cmp n items (best turned cmp n items) kept := by
  cases turned with
  | false =>
    obtain ⟨hsub, hlength, -, hties⟩ := returns_bestFirst hs hkept
    exact ⟨hsub, hlength, hkept, hties⟩
  | true =>
    have hreversed : Selects (bestFirst true cmp) n kept.reverse items out := hs.of_perm (List.reverse_perm kept)
    obtain ⟨hsub, hlength, -, hties⟩ := returns_bestFirst hreversed (List.pairwise_reverse.mpr hkept)
    refine ⟨(List.reverse_perm kept).symm.subperm.trans hsub, ?_, hkept, List.forall₂_reverse_iff.mp hties⟩
    rwa [List.length_reverse] at hlength

theorem Returns.agree {order : β → β → Ordering} {n : ℕ} {items wanted kept kept' : List β}
    (h : Returns cmp order n items wanted kept) (h' : Returns cmp order n items wanted kept') :
    List.Forall₂ (fun x y => cmp x y = .eq) kept kept' := by
  obtain ⟨hlen, hties⟩ := List.forall₂_iff_get.mp h.ties
  obtain ⟨hlen', hties'⟩ := List.forall₂_iff_get.mp h'.ties
  refine List.forall₂_iff_get.mpr ⟨hlen.trans hlen'.symm, fun i hi hi' => ?_⟩
  exact Std.TransCmp.eq_trans (hties i hi (by omega)) (Std.OrientedCmp.eq_symm (hties' i hi' (by omega)))

/-! ## The four functions -/

theorem lessOf_bestFirst (turned : Bool) :
    (fun a b => if turned then cmp a b == .gt else cmp a b == .lt) = lessOf (bestFirst turned cmp) := by
  funext a b
  have hgt : (cmp a b = .gt) = (cmp b a = .lt) := propext Std.OrientedCmp.gt_iff_lt
  cases turned
  · rfl
  · simp only [lessOf, bestFirst, if_true, beq_eq_decide, hgt]

end Order

section Engines

theorem bne_gt (o : Ordering) : (o != .gt) = o.isLE := by cases o <;> rfl

variable (cmp : κ → κ → Ordering) (sortRepr : κ → Bool → κ) [Std.TransCmp cmp]

theorem classicTopBottomN_spec {n : ℕ} (hn : 1 ≤ n) (dirs : List Bool) (items : List (Keyed κ ω dirs)) (top : Bool) :
    ∃ kept, classicTopBottomN cmp sortRepr dirs items n top = some kept ∧
      Returns (docCmp cmp sortRepr dirs) (docCmp cmp sortRepr dirs) n items
        (best (!top) (docCmp cmp sortRepr dirs) n items) kept := by
  obtain ⟨kept, out, hfold, hsorted, hs⟩ := foldlM_offer_spec (docCmp cmp sortRepr dirs) hn (!top)
    (fun worst item => if top then docCmp cmp sortRepr dirs worst item != .gt
      else docCmp cmp sortRepr dirs item worst != .gt)
    (fun worst item => by cases top <;> exact bne_gt _) items List.Pairwise.nil (selects_nil n)
  exact ⟨kept, hfold, returns_inOrder hs hsorted⟩

theorem sbeTopBottomN_spec (n : ℕ) (dirs : List Bool) (items : List (Keyed κ ω dirs)) (top : Bool) :
    ∃ kept, sbeTopBottomN cmp sortRepr dirs items n top = some kept ∧
      Returns (docCmp cmp sortRepr dirs) (docCmp cmp sortRepr dirs) n items
        (best (!top) (docCmp cmp sortRepr dirs) n items) kept := by
  have hless : (fun a b : Keyed κ ω dirs => if top then docCmp cmp sortRepr dirs a b == .lt
      else docCmp cmp sortRepr dirs a b == .gt) = lessOf (bestFirst (!top) (docCmp cmp sortRepr dirs)) := by
    rw [← lessOf_bestFirst]
    cases top <;> rfl
  obtain ⟨heap, out, hfold, hk⟩ := foldlM_heapOffer_spec items
    (show Keeps (bestFirst (!top) (docCmp cmp sortRepr dirs)) n #[] [] [] from keeps_empty n)
  obtain ⟨g, hg, hperm, hsorted⟩ := sort_spec (docCmp cmp sortRepr dirs) heap
  refine ⟨g.toList, ?_, returns_inOrder (hk.toSelects.of_perm hperm.toList) hsorted⟩
  simp only [sbeTopBottomN, hless, hfold, Option.bind_eq_bind, Option.bind_some]
  exact congrArg (Option.bind · fun heap => some heap.toList) hg

theorem classicMinMaxN_spec {n : ℕ} (hn : 1 ≤ n) (vals : List κ) (largest : Bool) :
    ∃ kept, classicMinMaxN cmp vals n largest = some kept ∧
      Returns cmp (bestFirst largest cmp) n vals (bestDown largest cmp n vals) kept := by
  obtain ⟨kept, out, hfold, hsorted, hs⟩ := foldlM_offer_spec cmp hn largest
    (fun worst v => if largest then cmp v worst != .gt else cmp v worst != .lt)
    (fun worst v => by
      cases largest with
      | true => exact bne_gt _
      | false =>
        have hswap : cmp v worst = (cmp worst v).swap := Std.OrientedCmp.eq_swap
        simp only [bestFirst, Bool.false_eq_true, if_false, hswap]
        cases cmp worst v <;> rfl) vals List.Pairwise.nil (selects_nil n)
  refine ⟨if largest then kept.reverse else kept, ?_, ?_⟩
  · rw [classicMinMaxN, hfold]
    rfl
  · cases largest with
    | false => exact returns_bestFirst hs hsorted
    | true => exact returns_bestFirst (hs.of_perm (List.reverse_perm kept)) (List.pairwise_reverse.mpr hsorted)

theorem sbeMinMaxN_spec (n : ℕ) (vals : List κ) (largest : Bool) :
    ∃ kept, sbeMinMaxN cmp vals n largest = some kept ∧
      Returns cmp (bestFirst largest cmp) n vals (bestDown largest cmp n vals) kept := by
  obtain ⟨heap, out, hfold, hk⟩ := foldlM_heapOffer_spec vals
    (show Keeps (bestFirst largest cmp) n #[] [] [] from keeps_empty n)
  obtain ⟨g, hg, hperm, hsorted⟩ := sort_spec (bestFirst largest cmp) heap
  refine ⟨g.toList, ?_, returns_bestFirst (hk.toSelects.of_perm hperm.toList) hsorted⟩
  simp only [sbeMinMaxN, lessOf_bestFirst, hfold, hg, Option.bind_eq_bind, Option.bind_some]

/-- Whatever the items, the directions and the values, each engine returns as many as it may of them, in order, tying
    at every place with the best of all of them in order; so the two agree up to ties. -/
theorem engines_agree {n : ℕ} (hn : 1 ≤ n) (dirs : List Bool) (items : List (Keyed κ ω dirs)) (top : Bool)
    (vals : List κ) (largest : Bool) :
    (∃ classic sbe, classicTopBottomN cmp sortRepr dirs items n top = some classic ∧
      sbeTopBottomN cmp sortRepr dirs items n top = some sbe ∧
      Returns (docCmp cmp sortRepr dirs) (docCmp cmp sortRepr dirs) n items
        (best (!top) (docCmp cmp sortRepr dirs) n items) classic ∧
      Returns (docCmp cmp sortRepr dirs) (docCmp cmp sortRepr dirs) n items
        (best (!top) (docCmp cmp sortRepr dirs) n items) sbe ∧
      List.Forall₂ (fun a b => docCmp cmp sortRepr dirs a b = .eq) classic sbe) ∧
    (∃ classic sbe, classicMinMaxN cmp vals n largest = some classic ∧
      sbeMinMaxN cmp vals n largest = some sbe ∧
      Returns cmp (bestFirst largest cmp) n vals (bestDown largest cmp n vals) classic ∧
      Returns cmp (bestFirst largest cmp) n vals (bestDown largest cmp n vals) sbe ∧
      List.Forall₂ (fun a b => cmp a b = .eq) classic sbe) := by
  obtain ⟨classic, hclassic, hc⟩ := classicTopBottomN_spec cmp sortRepr hn dirs items top
  obtain ⟨sbe, hsbe, hs⟩ := sbeTopBottomN_spec cmp sortRepr n dirs items top
  obtain ⟨classic', hclassic', hc'⟩ := classicMinMaxN_spec cmp hn vals largest
  obtain ⟨sbe', hsbe', hs'⟩ := sbeMinMaxN_spec cmp n vals largest
  exact ⟨⟨classic, sbe, hclassic, hsbe, hc, hs, hc.agree hs⟩,
    classic', sbe', hclassic', hsbe', hc', hs', hc'.agree hs'⟩

end Engines

/-- The two greatest of three numbers, and the first two of three documents in descending order of their only key. -/
theorem engines_agree_two :
    let docs : List (Keyed ℕ String [true]) := [⟨[1], "a", rfl⟩, ⟨[3], "b", rfl⟩, ⟨[2], "c", rfl⟩]
    let order : Keyed ℕ String [true] → Keyed ℕ String [true] → Ordering := docCmp compare (fun v _ => v) [true]
    (∃ classic sbe, classicTopBottomN compare (fun v _ => v) [true] docs 2 true = some classic ∧
      sbeTopBottomN compare (fun v _ => v) [true] docs 2 true = some sbe ∧
      Returns order order 2 docs (best false order 2 docs) classic ∧
      Returns order order 2 docs (best false order 2 docs) sbe ∧
      List.Forall₂ (fun a b => order a b = .eq) classic sbe) ∧
    (∃ classic sbe, classicMinMaxN compare [1, 3, 2] 2 true = some classic ∧
      sbeMinMaxN compare [1, 3, 2] 2 true = some sbe ∧
      Returns compare (bestFirst true compare) 2 [1, 3, 2] (bestDown true compare 2 [1, 3, 2]) classic ∧
      Returns compare (bestFirst true compare) 2 [1, 3, 2] (bestDown true compare 2 [1, 3, 2]) sbe ∧
      List.Forall₂ (fun a b : ℕ => compare a b = .eq) classic sbe) :=
  engines_agree (compare : ℕ → ℕ → Ordering) (fun v _ => v) (show 1 ≤ 2 by decide) [true]
    [⟨[1], "a", rfl⟩, ⟨[3], "b", rfl⟩, ⟨[2], "c", rfl⟩] true [1, 3, 2] true

end Secantus.TopN
