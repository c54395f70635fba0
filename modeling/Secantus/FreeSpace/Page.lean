/-
  A page of a relation's free space map: a binary tree of one-byte categories whose leaves are the page's slots, each
  inner node the greatest of its children, and the slot the next search of the page begins at.

  Setting a slot recomputes its ancestors only until one is right already, a search climbs from its slot to the right
  and up until a node has enough and then goes down to a slot that has; a page found inconsistent on the way down is
  rebuilt and searched again. On a page whose inner nodes are right both keep them so, and the search goes wrong never:
  it finds a slot with enough whenever there is one, and the first of them when it begins at the page's first slot.
-/
import Mathlib.Data.Int.Basic
import Mathlib.Order.Nat
import Secantus.Library.MaxTree

namespace Secantus.FreeSpace

open Secantus.Library

/-- The nodes a page of 8192 bytes holds after its headers. -/
def nodesPerPage : ℕ := 8192 - 24 - 4

def nonLeafNodesPerPage : ℕ := 8192 / 2 - 1

def slotsPerPage : ℕ := nodesPerPage - nonLeafNodesPerPage

/-- The bytes a category stands for. -/
def catStep : ℕ := 32

/-- The largest tuple a heap page takes. -/
def maxRequest : ℕ := 8160

def leftchild (x : ℕ) : ℕ := 2 * x + 1

def parentof (x : ℕ) : ℕ := (x - 1) / 2

/-- The node to the right of `x`, and past the last of a level the first of it. -/
def rightneighbor (x : ℕ) : ℕ :=
  let x := x + 1
  if (x + 1) &&& x = 0 then parentof x else x

def availToCat (avail : ℕ) : ℕ := if avail ≥ maxRequest then 255 else min (avail / catStep) 254

def neededToCat (needed : ℕ) : ℕ := if needed = 0 then 1 else min ((needed + catStep - 1) / catStep) 255

/-- A page's node tree, read below `nodesPerPage` only, and the slot its next search begins at. -/
structure FsmPage where
  nodes : ℕ → ℕ
  nextSlot : ℤ

namespace FsmPage

def new : FsmPage where
  nodes := fun _ => 0
  nextSlot := 0

/-- Every inner node is the greatest of its children. -/
def Summed (p : FsmPage) : Prop := IsMaxTree nonLeafNodesPerPage nodesPerPage p.nodes

/-- The inner nodes recomputed from the last to the first, a child past the page's end counting as zero. -/
def rebuild (p : FsmPage) : FsmPage := { p with nodes := recompute nodesPerPage nonLeafNodesPerPage p.nodes }

/-- The loop that recomputes the ancestors of `nodeno`, until one is right already. -/
def recomputeAbove (nodes : ℕ → ℕ) (nodeno : ℕ) : ℕ → ℕ :=
  let up := parentof nodeno
  let l := leftchild up
  let r := l + 1
  let new := if r < nodesPerPage then max (nodes l) (nodes r) else nodes l
  if nodes up = new then nodes
  else if _h : up = 0 then Function.update nodes up new
  else recomputeAbove (Function.update nodes up new) up
termination_by nodeno
decreasing_by
  show (nodeno - 1) / 2 < nodeno
  have : (nodeno - 1) / 2 ≠ 0 := ‹_›
  omega

/-- Sets a slot's category. Its answer, whether the page changed, no caller reads. -/
def setAvail (p : FsmPage) (slot value : ℕ) : FsmPage :=
  let nodeno := nonLeafNodesPerPage + slot
  if p.nodes nodeno = value ∧ value ≤ p.nodes 0 then p
  else
    let p := { p with nodes := recomputeAbove (Function.update p.nodes nodeno value) nodeno }
    if value > p.nodes 0 then p.rebuild else p

def getAvail (p : FsmPage) (slot : ℕ) : ℕ := p.nodes (nonLeafNodesPerPage + slot)

theorem parentof_rightneighbor_lt {x : ℕ} (hx : x ≠ 0) : parentof (rightneighbor x) < x := by
  unfold rightneighbor
  dsimp only
  split <;> simp only [parentof] <;> omega

/-- The climb of a search: from `nodeno` to the parent of its right neighbour until a node has enough, the root last. -/
def climb (nodes : ℕ → ℕ) (minvalue nodeno : ℕ) : ℕ :=
  if _h : nodeno = 0 then 0
  else if nodes nodeno ≥ minvalue then nodeno
  else climb nodes minvalue (parentof (rightneighbor nodeno))
termination_by nodeno
decreasing_by exact parentof_rightneighbor_lt ‹_›

/-- The node a search of the page begins at: that of the next slot, or of the first slot where that is no slot. -/
def target (p : FsmPage) : ℕ :=
  (if p.nextSlot < 0 ∨ p.nextSlot ≥ slotsPerPage then 0 else p.nextSlot.toNat) + nonLeafNodesPerPage

/-- The node the climb of a search for `minvalue` ends at. -/
def climbed (p : FsmPage) (minvalue : ℕ) : ℕ := climb p.nodes minvalue p.target

/-- The walk down of a search for `minvalue`. -/
def descent (p : FsmPage) (minvalue : ℕ) : Option ℕ :=
  walkDown nonLeafNodesPerPage nodesPerPage p.nodes minvalue (p.climbed minvalue)

theorem climb_le (nodes : ℕ → ℕ) (minvalue nodeno : ℕ) : climb nodes minvalue nodeno ≤ nodeno := by
  fun_induction climb nodes minvalue nodeno with
  | case1 => exact Nat.zero_le 0
  | case2 => exact Nat.le_refl _
  | case3 n hn hval ih => exact ih.trans (parentof_rightneighbor_lt hn).le

theorem le_climb {nodes : ℕ → ℕ} {minvalue : ℕ} (hroot : minvalue ≤ nodes 0) (nodeno : ℕ) :
    minvalue ≤ nodes (climb nodes minvalue nodeno) := by
  fun_induction climb nodes minvalue nodeno with
  | case1 => exact hroot
  | case2 n hn hval => exact hval
  | case3 n hn hval ih => exact ih

theorem target_lt (p : FsmPage) : p.target < nodesPerPage := by
  have hslots : slotsPerPage + nonLeafNodesPerPage = nodesPerPage := by decide
  have hpos : 0 < slotsPerPage := by decide
  unfold target
  split
  · omega
  · have : p.nextSlot.toNat < slotsPerPage := by omega
    omega

theorem climbed_lt (p : FsmPage) (minvalue : ℕ) : p.climbed minvalue < nodesPerPage :=
  (climb_le _ _ _).trans_lt p.target_lt

theorem summed_rebuild (p : FsmPage) : p.rebuild.Summed := by
  show IsMaxTree nonLeafNodesPerPage nodesPerPage (recompute nodesPerPage nonLeafNodesPerPage p.nodes)
  exact isMaxTree_recompute p.nodes

/-- On a page whose inner nodes are right the walk down finds a slot. -/
theorem Summed.descent {p : FsmPage} (hp : p.Summed) {minvalue : ℕ} (hroot : minvalue ≤ p.nodes 0) :
    ∃ m, p.descent minvalue = some m ∧ nonLeafNodesPerPage ≤ m ∧ m < nodesPerPage ∧ minvalue ≤ p.nodes m := by
  by_cases hzero : minvalue = 0
  · -- every node has enough, so the search stays at the leaf it begins at
    have hleaf : nonLeafNodesPerPage ≤ p.target := Nat.le_add_left _ _
    have hne : p.target ≠ 0 := by
      have : 0 < nonLeafNodesPerPage := by decide
      omega
    have hclimb : p.climbed minvalue = p.target := by
      rw [climbed, climb, dif_neg hne, if_pos (by omega)]
    refine ⟨p.target, ?_, hleaf, p.target_lt, by omega⟩
    rw [FsmPage.descent, hclimb, walkDown, if_neg (by omega)]
  · exact IsMaxTree.walkDown hp (Nat.pos_of_ne_zero hzero) (p.climbed_lt minvalue) (le_climb hroot _)

/-- A slot found, with the page's next slot moved there, or past it. -/
def found (p : FsmPage) (nodeno : ℕ) (advancenext : Bool) : Option ℕ × FsmPage :=
  let slot := nodeno - nonLeafNodesPerPage
  (some slot, { p with nextSlot := slot + if advancenext then 1 else 0 })

open scoped Classical in
/-- Whether the page has a wrong inner node. -/
noncomputable def faults (p : FsmPage) : ℕ := if p.Summed then 0 else 1

theorem faults_rebuild_lt {p : FsmPage} {minvalue : ℕ} (hroot : ¬p.nodes 0 < minvalue)
    (hdescent : p.descent minvalue = none) : p.rebuild.faults < p.faults := by
  have hp : ¬p.Summed := by
    intro hp
    obtain ⟨m, hm, _⟩ := hp.descent (Nat.le_of_not_lt hroot)
    rw [hdescent] at hm
    exact absurd hm (by simp)
  rw [faults, faults, if_pos p.summed_rebuild, if_neg hp]
  exact Nat.one_pos

/-- A slot with at least `minvalue`; a page whose walk down goes wrong is rebuilt and searched again. -/
def searchAvail (p : FsmPage) (minvalue : ℕ) (advancenext : Bool) : Option ℕ × FsmPage :=
  if _hroot : p.nodes 0 < minvalue then (none, p)
  else if _hcorrupt : p.descent minvalue = none then searchAvail p.rebuild minvalue advancenext
  else p.found ((p.descent minvalue).getD 0) advancenext
termination_by p.faults
decreasing_by exact faults_rebuild_lt ‹_› ‹_›

/-- The nodes with the slots from `nslots` on cleared. -/
def cleared (nodes : ℕ → ℕ) (nslots n : ℕ) : ℕ :=
  if nonLeafNodesPerPage + nslots ≤ n ∧ n < nodesPerPage then 0 else nodes n

/-- The slots from `nslots` on cleared. -/
def truncateAvail (p : FsmPage) (nslots : ℕ) : FsmPage :=
  if (List.range' nslots (slotsPerPage - nslots)).any (fun slot => p.getAvail slot ≠ 0) then
    rebuild { p with nodes := cleared p.nodes nslots }
  else { p with nodes := cleared p.nodes nslots }

/-! ## What each operation leaves -/

theorem sizes : nodesPerPage = 8164 ∧ nonLeafNodesPerPage = 4095 ∧ slotsPerPage = 4069 := ⟨rfl, rfl, rfl⟩

theorem summed_new : new.Summed := fun _ _ => by simp [new, ofChildren, nodeAt]

/-- The ancestors recomputed leave every inner node right, and no leaf changed. -/
theorem recomputeAbove_spec {nodes : ℕ → ℕ} {nodeno : ℕ} (hpos : 0 < nodeno) (hlt : nodeno < nodesPerPage)
    (hbut : MaxTreeBut nonLeafNodesPerPage nodesPerPage (parentof nodeno) nodes) :
    IsMaxTree nonLeafNodesPerPage nodesPerPage (recomputeAbove nodes nodeno) ∧
      ∀ n, nonLeafNodesPerPage ≤ n → recomputeAbove nodes nodeno n = nodes n := by
  obtain ⟨hnodes, hinner, -⟩ := sizes
  -- the left child of the parent is on the page, so its value is read as the source reads it
  have hnew : ∀ (v : ℕ → ℕ) (m : ℕ), 0 < m → m < nodesPerPage →
      (if leftchild (parentof m) + 1 < nodesPerPage then
        max (v (leftchild (parentof m))) (v (leftchild (parentof m) + 1)) else v (leftchild (parentof m))) =
      ofChildren nodesPerPage v (parentof m) := by
    intro v m hm hmlt
    have hl : 2 * parentof m + 1 < nodesPerPage := by
      unfold parentof
      omega
    unfold ofChildren nodeAt leftchild
    rw [if_pos hl]
    split
    · rfl
    · exact (max_bot_right _).symm
  fun_induction recomputeAbove nodes nodeno with
  | case1 nodes nodeno up l r new heq =>
    exact ⟨hbut.isMaxTree (heq.trans (hnew nodes nodeno hpos hlt)), fun _ _ => rfl⟩
  | case2 nodes nodeno up l r new hne hroot =>
    have hval : new = ofChildren nodesPerPage nodes up := hnew nodes nodeno hpos hlt
    have hup : up = 0 := hroot
    rw [hval, hup]
    refine ⟨MaxTreeBut.update_root (hup ▸ hbut), ?_⟩
    intro n hn
    exact Function.update_of_ne (by omega) _ _
  | case3 nodes nodeno up l r new hne hup ih =>
    have hval : new = ofChildren nodesPerPage nodes up := hnew nodes nodeno hpos hlt
    have hupLt : up < nonLeafNodesPerPage := by
      show (nodeno - 1) / 2 < nonLeafNodesPerPage
      omega
    obtain ⟨htree, hleaves⟩ := ih (Nat.pos_of_ne_zero hup) (by omega) (by
      rw [hval]
      exact hbut.update)
    refine ⟨htree, ?_⟩
    intro n hn
    rw [hleaves n hn]
    exact Function.update_of_ne (by omega) _ _

theorem getAvail_le_root {p : FsmPage} (hp : p.Summed) {slot : ℕ} (hslot : slot < slotsPerPage) :
    p.getAvail slot ≤ p.nodes 0 := by
  obtain ⟨hnodes, hinner, hslots⟩ := sizes
  exact IsMaxTree.le_root hp (by omega) (by omega)

/-- Setting a slot keeps the inner nodes right and changes no other slot, nor where a search begins. -/
theorem Summed.setAvail {p : FsmPage} (hp : p.Summed) {slot : ℕ} (hslot : slot < slotsPerPage) (value : ℕ) :
    (p.setAvail slot value).Summed ∧
      (∀ t, (p.setAvail slot value).getAvail t = if t = slot then value else p.getAvail t) ∧
      (p.setAvail slot value).nextSlot = p.nextSlot := by
  obtain ⟨hnodes, hinner, hslots⟩ := sizes
  unfold FsmPage.setAvail
  dsimp only
  split
  · rename_i hsame
    refine ⟨hp, fun t => ?_, rfl⟩
    by_cases ht : t = slot
    · rw [if_pos ht, ht]
      exact hsame.1
    · rw [if_neg ht]
  · obtain ⟨htree, hleaves⟩ := recomputeAbove_spec
      (show 0 < nonLeafNodesPerPage + slot by omega) (by omega)
      (IsMaxTree.update_leaf hp (Nat.le_add_right _ _) value)
    -- the slot is a node of a right tree, so the root has no less than it
    have hroot : value ≤ recomputeAbove (Function.update p.nodes (nonLeafNodesPerPage + slot) value)
        (nonLeafNodesPerPage + slot) 0 := by
      have hle := IsMaxTree.le_root htree (by omega) (m := nonLeafNodesPerPage + slot) (by omega)
      rwa [hleaves _ (Nat.le_add_right _ _), Function.update_self] at hle
    rw [if_neg (Nat.not_lt.mpr hroot)]
    refine ⟨htree, fun t => ?_, rfl⟩
    show recomputeAbove _ _ (nonLeafNodesPerPage + t) = _
    rw [hleaves _ (Nat.le_add_right _ _)]
    by_cases ht : t = slot
    · rw [if_pos ht, ht, Function.update_self]
    · rw [if_neg ht, Function.update_of_ne (by omega)]
      rfl

theorem searchAvail_none {p : FsmPage} {minvalue : ℕ} (hroot : p.nodes 0 < minvalue) (advancenext : Bool) :
    p.searchAvail minvalue advancenext = (none, p) := by
  rw [searchAvail, dif_pos hroot]

/-- A search of a page whose root has enough finds a slot that has, and moves the next slot only. -/
theorem Summed.searchAvail {p : FsmPage} (hp : p.Summed) {minvalue : ℕ} (hroot : minvalue ≤ p.nodes 0)
    (advancenext : Bool) :
    ∃ slot < slotsPerPage, minvalue ≤ p.getAvail slot ∧ p.descent minvalue = some (nonLeafNodesPerPage + slot) ∧
      p.searchAvail minvalue advancenext =
        (some slot, { p with nextSlot := slot + if advancenext then 1 else 0 }) := by
  obtain ⟨hnodes, hinner, hslots⟩ := sizes
  obtain ⟨m, hdescent, hleaf, hlt, hval⟩ := hp.descent hroot
  have hm : nonLeafNodesPerPage + (m - nonLeafNodesPerPage) = m := by omega
  refine ⟨m - nonLeafNodesPerPage, by omega, ?_, by rw [hm, hdescent], ?_⟩
  · rw [getAvail, hm]
    exact hval
  · rw [FsmPage.searchAvail, dif_neg (by omega), dif_neg (by simp [hdescent]), hdescent]
    rfl

/-- From the first leaf of a level the climb goes up the left edge of the tree. -/
theorem spine : ∀ k < 12, parentof (rightneighbor (2 ^ (k + 1) - 1)) = 2 ^ k - 1 := by decide

theorem climb_spine (nodes : ℕ → ℕ) (minvalue : ℕ) {k : ℕ} (hk : k ≤ 12) :
    ∃ j ≤ 12, climb nodes minvalue (2 ^ k - 1) = 2 ^ j - 1 := by
  induction k with
  | zero => exact ⟨0, by omega, by simp [climb]⟩
  | succ k ih =>
    rw [climb]
    split
    · exact ⟨0, by omega, rfl⟩
    · split
      · exact ⟨k + 1, hk, rfl⟩
      · rw [spine k (by omega)]
        exact ih (by omega)

/-- A search that begins at the first slot finds the first slot that has enough. -/
theorem Summed.descent_first {p : FsmPage} (hp : p.Summed) (hnext : p.nextSlot = 0) {minvalue slot : ℕ}
    (hdescent : p.descent minvalue = some (nonLeafNodesPerPage + slot)) {t : ℕ} (ht : t < slot)
    (hslot : slot < slotsPerPage) : p.getAvail t < minvalue := by
  obtain ⟨hnodes, hinner, hslots⟩ := sizes
  have htarget : p.target = 2 ^ 12 - 1 := by
    unfold target
    rw [hnext]
    rfl
  obtain ⟨j, hj, hclimb⟩ := climb_spine p.nodes minvalue (Nat.le_refl 12)
  rw [FsmPage.descent, climbed, htarget, hclimb] at hdescent
  have hpow : 2 ^ j * 2 ^ (12 - j) = 4096 := by
    rw [← Nat.pow_add, Nat.add_sub_cancel' hj]
  have hone : 2 ^ j - 1 + 1 = 2 ^ j := Nat.sub_add_cancel Nat.one_le_two_pow
  have hstep : 2 ^ (12 - j) ≤ 4096 := by
    calc 2 ^ (12 - j) = 1 * 2 ^ (12 - j) := (Nat.one_mul _).symm
      _ ≤ 2 ^ j * 2 ^ (12 - j) := Nat.mul_le_mul_right _ Nat.one_le_two_pow
      _ = 4096 := hpow
  obtain ⟨hm, hfirst⟩ := IsMaxTree.walkDown_first hp (by omega) (h := 12 - j) (n := 2 ^ j - 1)
    (by rw [hone, hpow, hinner])
    (by
      rw [show 2 ^ j - 1 + 2 = 2 ^ j + 1 by omega, Nat.add_mul, hpow, hinner]
      omega) hdescent
  refine hfirst (nonLeafNodesPerPage + t) (by omega) (by omega) ?_
  -- both leaves lie below the same node of the left edge
  have hle : (nonLeafNodesPerPage + t + 1) / 2 ^ (12 - j) ≤ 2 ^ j - 1 + 1 := by
    rw [← hm]
    exact Nat.div_le_div_right (by omega)
  have hge : 2 ^ j ≤ (nonLeafNodesPerPage + t + 1) / 2 ^ (12 - j) := by
    rw [Nat.le_div_iff_mul_le (Nat.two_pow_pos _), hpow]
    omega
  omega

theorem cleared_of_lt {nodes : ℕ → ℕ} {nslots n : ℕ} (hn : n < nonLeafNodesPerPage + nslots) :
    cleared nodes nslots n = nodes n := by
  unfold cleared
  rw [if_neg (by omega)]

theorem Summed.truncateAvail {p : FsmPage} (hp : p.Summed) (nslots : ℕ) :
    (p.truncateAvail nslots).Summed ∧
      ∀ t < slotsPerPage, (p.truncateAvail nslots).getAvail t = if nslots ≤ t then 0 else p.getAvail t := by
  obtain ⟨hnodes, hinner, hslots⟩ := sizes
  have hcleared : ∀ t < slotsPerPage,
      cleared p.nodes nslots (nonLeafNodesPerPage + t) = if nslots ≤ t then 0 else p.getAvail t := by
    intro t ht
    by_cases h : nslots ≤ t
    · rw [if_pos h, cleared, if_pos (by omega)]
    · rw [if_neg h, cleared_of_lt (by omega)]
      rfl
  unfold FsmPage.truncateAvail
  split
  · refine ⟨summed_rebuild _, ?_⟩
    intro t ht
    rw [← hcleared t ht]
    exact recompute_of_le (Nat.le_add_right _ _)
  · rename_i hany
    -- nothing cleared: the page is as it was
    have hsame : cleared p.nodes nslots = p.nodes := by
      funext n
      unfold cleared
      split
      · rename_i hn
        have hzero : p.getAvail (n - nonLeafNodesPerPage) = 0 := by
          by_contra hne
          refine hany (List.any_eq_true.mpr ⟨n - nonLeafNodesPerPage, ?_, by simpa using hne⟩)
          rw [List.mem_range'_1]
          omega
        rw [getAvail, show nonLeafNodesPerPage + (n - nonLeafNodesPerPage) = n by omega] at hzero
        exact hzero.symm
      · rfl
    refine ⟨?_, fun t ht => hcleared t ht⟩
    show IsMaxTree _ _ (cleared p.nodes nslots)
    rw [hsame]
    exact hp

end FsmPage

end Secantus.FreeSpace
