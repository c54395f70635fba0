/-
  Binary trees in arrays whose inner nodes hold the greatest value of their children. The nodes below `inner` are the
  inner ones, those from `inner` up to `size` the leaves; a child past the end counts as the least value.

  A leaf that is set leaves one inner node that may be wrong, its parent, and each inner node recomputed moves the
  fault to the parent of that one. A walk down takes the left child if it is large enough, else the right one, and
  ends at the first leaf below its start that is.
-/
import Mathlib.Order.BoundedOrder.Lattice
import Mathlib.Order.Lattice
import Mathlib.Logic.Function.Basic
import Mathlib.Data.Nat.Basic
import Mathlib.Tactic.Ring
import Mathlib.Tactic.Linarith

namespace Secantus.Library

variable {α : Type*} [LinearOrder α] [OrderBot α] {inner size : ℕ}

/-- The value of a node, the least one past the end. -/
def nodeAt (size : ℕ) (v : ℕ → α) (n : ℕ) : α := if n < size then v n else ⊥

/-- The greatest value of the children of `n`. -/
def ofChildren (size : ℕ) (v : ℕ → α) (n : ℕ) : α := nodeAt size v (2 * n + 1) ⊔ nodeAt size v (2 * n + 2)

/-- Every inner node but perhaps `p` holds the greatest value of its children. -/
def MaxTreeBut (inner size p : ℕ) (v : ℕ → α) : Prop := ∀ n < inner, n ≠ p → v n = ofChildren size v n

/-- Every inner node holds the greatest value of its children. -/
def IsMaxTree (inner size : ℕ) (v : ℕ → α) : Prop := ∀ n < inner, v n = ofChildren size v n

/-- Down from `n`, to the left where the left child has at least `least`, until a leaf; none where neither child has. -/
def walkDown (inner size : ℕ) (v : ℕ → α) (least : α) (n : ℕ) : Option ℕ :=
  if n < inner then
    if 2 * n + 1 < size ∧ least ≤ v (2 * n + 1) then walkDown inner size v least (2 * n + 1)
    else if 2 * n + 2 < size ∧ least ≤ v (2 * n + 2) then walkDown inner size v least (2 * n + 2)
    else none
  else some n
termination_by inner - n

/-- The inner nodes below `n` recomputed, from the last one to the first. -/
def recompute (size : ℕ) : ℕ → (ℕ → α) → ℕ → α
  | 0, v => v
  | n + 1, v => recompute size n (Function.update v n (ofChildren size v n))

/-! ## Setting nodes -/

theorem ofChildren_congr {v w : ℕ → α} {n : ℕ} (hl : w (2 * n + 1) = v (2 * n + 1)) (hr : w (2 * n + 2) = v (2 * n + 2)) :
    ofChildren size w n = ofChildren size v n := by
  unfold ofChildren nodeAt
  rw [hl, hr]

/-- Only the parent reads a node. -/
theorem ofChildren_update {v : ℕ → α} {m n : ℕ} {x : α} (hn : n ≠ (m - 1) / 2 ∨ m = 0) :
    ofChildren size (Function.update v m x) n = ofChildren size v n := by
  refine ofChildren_congr ?_ ?_ <;> exact Function.update_of_ne (by omega) _ _

/-- A leaf set leaves at most its parent wrong. -/
theorem IsMaxTree.update_leaf {v : ℕ → α} (hv : IsMaxTree inner size v) {m : ℕ} (hm : inner ≤ m) (x : α) :
    MaxTreeBut inner size ((m - 1) / 2) (Function.update v m x) := by
  intro n hn hne
  rw [Function.update_of_ne (by omega), ofChildren_update (.inl hne)]
  exact hv n hn

theorem MaxTreeBut.isMaxTree {v : ℕ → α} {p : ℕ} (hv : MaxTreeBut inner size p v) (hp : v p = ofChildren size v p) :
    IsMaxTree inner size v := by
  intro n hn
  by_cases h : n = p
  · rw [h, hp]
  · exact hv n hn h

/-- The wrong node recomputed leaves at most its parent wrong. -/
theorem MaxTreeBut.update {v : ℕ → α} {p : ℕ} (hv : MaxTreeBut inner size p v) :
    MaxTreeBut inner size ((p - 1) / 2) (Function.update v p (ofChildren size v p)) := by
  intro n hn hne
  rw [ofChildren_update (.inl hne)]
  by_cases h : n = p
  · rw [h, Function.update_self]
  · rw [Function.update_of_ne h]
    exact hv n hn h

/-- The root recomputed leaves none wrong. -/
theorem MaxTreeBut.update_root {v : ℕ → α} (hv : MaxTreeBut inner size 0 v) :
    IsMaxTree inner size (Function.update v 0 (ofChildren size v 0)) := by
  intro n hn
  rw [ofChildren_update (.inr rfl)]
  by_cases h : n = 0
  · rw [h, Function.update_self]
  · rw [Function.update_of_ne h]
    exact hv n hn h

theorem recompute_of_le {v : ℕ → α} {k m : ℕ} (hm : k ≤ m) : recompute size k v m = v m := by
  induction k generalizing v with
  | zero => rfl
  | succ k ih =>
    show recompute size k (Function.update v k (ofChildren size v k)) m = v m
    rw [ih (by omega)]
    exact Function.update_of_ne (by omega) _ _

/-- The nodes from `k` on being right, recomputing those below makes all right. -/
theorem isMaxTree_recompute_from {v : ℕ → α} {k : ℕ} (hk : k ≤ inner)
    (hv : ∀ n, k ≤ n → n < inner → v n = ofChildren size v n) : IsMaxTree inner size (recompute size k v) := by
  induction k generalizing v with
  | zero => exact fun n hn => hv n (Nat.zero_le n) hn
  | succ k ih =>
    refine ih (by omega) ?_
    intro n hkn hn
    rw [ofChildren_congr (v := v) (Function.update_of_ne (by omega) _ _) (Function.update_of_ne (by omega) _ _)]
    by_cases h : n = k
    · rw [h, Function.update_self]
    · rw [Function.update_of_ne h]
      exact hv n (by omega) hn

theorem isMaxTree_recompute (v : ℕ → α) : IsMaxTree inner size (recompute size inner v) :=
  isMaxTree_recompute_from le_rfl (fun _ h h' => absurd h' (by omega))

attribute [irreducible] recompute

/-! ## Reading nodes -/

theorem IsMaxTree.left_le {v : ℕ → α} (hv : IsMaxTree inner size v) {n : ℕ} (hn : n < inner) (hl : 2 * n + 1 < size) :
    v (2 * n + 1) ≤ v n := by
  rw [hv n hn, ofChildren, nodeAt, if_pos hl]
  exact le_sup_left

theorem IsMaxTree.right_le {v : ℕ → α} (hv : IsMaxTree inner size v) {n : ℕ} (hn : n < inner) (hr : 2 * n + 2 < size) :
    v (2 * n + 2) ≤ v n := by
  rw [hv n hn, ofChildren, nodeAt, nodeAt, if_pos hr]
  exact le_sup_right

/-- A node has no more than its ancestor `h` levels up. -/
theorem IsMaxTree.le_ancestor {v : ℕ → α} (hv : IsMaxTree inner size v) (hsize : size ≤ 2 * inner + 1) {h m n : ℕ}
    (hm : m < size) (hn : (m + 1) / 2 ^ h = n + 1) : v m ≤ v n := by
  induction h generalizing m with
  | zero =>
    have : m = n := by simpa using hn
    rw [this]
  | succ h ih =>
    have hm0 : m ≠ 0 := by
      rintro rfl
      have := Nat.div_eq_of_lt (show 0 + 1 < 2 ^ (h + 1) from Nat.one_lt_two_pow (by omega))
      omega
    -- one step up, to the parent of `m`
    have hup : v m ≤ v ((m - 1) / 2) := by
      obtain hl | hr : m = 2 * ((m - 1) / 2) + 1 ∨ m = 2 * ((m - 1) / 2) + 2 := by omega
      · have := hv.left_le (n := (m - 1) / 2) (by omega) (by omega)
        rwa [← hl] at this
      · have := hv.right_le (n := (m - 1) / 2) (by omega) (by omega)
        rwa [← hr] at this
    refine hup.trans (ih (by omega) ?_)
    rw [show (m - 1) / 2 + 1 = (m + 1) / 2 by omega, Nat.div_div_eq_div_mul, ← Nat.pow_succ']
    exact hn

/-- No node has more than the root. -/
theorem IsMaxTree.le_root {v : ℕ → α} (hv : IsMaxTree inner size v) (hsize : size ≤ 2 * inner + 1) {m : ℕ}
    (hm : m < size) : v m ≤ v 0 := by
  induction m using Nat.strongRecOn with
  | ind m ih =>
    by_cases h0 : m = 0
    · rw [h0]
    · have hup : v m ≤ v ((m - 1) / 2) :=
        hv.le_ancestor hsize (h := 1) hm (by omega)
      exact hup.trans (ih _ (by omega) (by omega))

/-- A node that has at least `least` has a child that does. -/
theorem IsMaxTree.child {v : ℕ → α} (hv : IsMaxTree inner size v) {least : α} (hleast : ⊥ < least) {n : ℕ}
    (hn : n < inner) (hval : least ≤ v n) :
    (2 * n + 1 < size ∧ least ≤ v (2 * n + 1)) ∨ (2 * n + 2 < size ∧ least ≤ v (2 * n + 2)) := by
  rw [hv n hn, ofChildren, le_sup_iff] at hval
  have hone : ∀ c, least ≤ nodeAt size v c → c < size ∧ least ≤ v c := by
    intro c hc
    unfold nodeAt at hc
    split at hc
    · exact ⟨‹_›, hc⟩
    · exact absurd (lt_of_lt_of_le hleast hc) (lt_irrefl _)
  exact hval.imp (hone _) (hone _)

/-- A walk down from a node that has at least `least` ends at a leaf that does. -/
theorem IsMaxTree.walkDown {v : ℕ → α} (hv : IsMaxTree inner size v) {least : α} (hleast : ⊥ < least) {n : ℕ}
    (hn : n < size) (hval : least ≤ v n) :
    ∃ m, walkDown inner size v least n = some m ∧ inner ≤ m ∧ m < size ∧ least ≤ v m := by
  fun_induction Library.walkDown inner size v least n with
  | case1 n hin hl ih => exact ih hl.1 hl.2
  | case2 n hin hl hr ih => exact ih hr.1 hr.2
  | case3 n hin hl hr => exact absurd (hv.child hleast hin hval) (not_or.mpr ⟨hl, hr⟩)
  | case4 n hin => exact ⟨n, rfl, by omega, hn, hval⟩

/-- Where the leaves are all `h` levels below `n`, a walk down from `n` ends at the first of them that has at least
`least`. -/
theorem IsMaxTree.walkDown_first {v : ℕ → α} (hv : IsMaxTree inner size v) (hsize : size ≤ 2 * inner + 1) {least : α}
    {h n m : ℕ} (hlow : inner + 1 ≤ (n + 1) * 2 ^ h) (hhigh : (n + 2) * 2 ^ h ≤ 2 * (inner + 1))
    (hwalk : Library.walkDown inner size v least n = some m) :
    (m + 1) / 2 ^ h = n + 1 ∧ ∀ t < m, t < size → (t + 1) / 2 ^ h = n + 1 → v t < least := by
  induction h generalizing n with
  | zero =>
    rw [Library.walkDown, if_neg (by omega)] at hwalk
    obtain rfl : n = m := Option.some.inj hwalk
    refine ⟨by simp, ?_⟩
    intro t ht _ heq
    simp only [pow_zero, Nat.div_one] at heq
    omega
  | succ h ih =>
    have hpos : 0 < 2 ^ h := Nat.two_pow_pos h
    rw [pow_succ] at hlow hhigh
    have hin : n < inner := by
      have : (n + 2) * 1 ≤ (n + 2) * 2 ^ h := Nat.mul_le_mul_left _ hpos
      have : (n + 2) * (2 ^ h * 2) = 2 * ((n + 2) * 2 ^ h) := by ring
      omega
    have hhalf : ∀ t, (t + 1) / 2 ^ (h + 1) = (t + 1) / 2 ^ h / 2 := by
      intro t
      rw [pow_succ, Nat.div_div_eq_div_mul]
    rw [Library.walkDown, if_pos hin] at hwalk
    split at hwalk
    · -- to the left: every leaf before the one found is below the left child too
      obtain ⟨hm, hfirst⟩ := ih (n := 2 * n + 1) (by nlinarith) (by nlinarith) hwalk
      refine ⟨by rw [hhalf, hm]; omega, ?_⟩
      intro t ht hts heq
      rw [hhalf] at heq
      have hle : (t + 1) / 2 ^ h ≤ (m + 1) / 2 ^ h := Nat.div_le_div_right (by omega)
      exact hfirst t ht hts (by omega)
    · rename_i hleft
      split at hwalk
      · obtain ⟨hm, hfirst⟩ := ih (n := 2 * n + 2) (by nlinarith) (by nlinarith) hwalk
        refine ⟨by rw [hhalf, hm]; omega, ?_⟩
        intro t ht hts heq
        rw [hhalf] at heq
        by_cases hl : (t + 1) / 2 ^ h = 2 * n + 1 + 1
        · -- below the left child nothing is large enough, for the child is not
          have hle : 2 * n + 1 ≤ t := by
            have := Nat.div_le_self (t + 1) (2 ^ h)
            omega
          exact (hv.le_ancestor hsize hts hl).trans_lt (lt_of_not_ge fun hge => hleft ⟨by omega, hge⟩)
        · exact hfirst t ht hts (by omega)
      · exact absurd hwalk (by simp)

end Secantus.Library
