/-
  `pg_qsort` with every index checked, for any comparator at all: one that is no order, and one that keeps a state and
  answers otherwise when asked again.

  A step that would index out of range, or count below zero, fails. `pg_qsort_correct`: none does, the loops end, and
  what is left is a permutation of the slice; where the answers are those of a total preorder it is the pure sort's
  result, and so in order.
-/
import Secantus.Tuplesort.Quicksort

namespace Secantus.Tuplesort

open Secantus.Library

variable {σ ρ α β : Type}

/-! ## Computations that ask a comparator -/

/-- The computation does not fail, from any state, and what it gives satisfies `P`. -/
def Ends (m : StateT σ Option α) (P : α → Prop) : Prop := ∀ st, ∃ a st', m st = some (a, st') ∧ P a

theorem Ends.pure {P : α → Prop} {a : α} (h : P a) : Ends (pure a : StateT σ Option α) P := fun st => ⟨a, st, rfl, h⟩

theorem Ends.bind {m : StateT σ Option α} {f : α → StateT σ Option β} {P : α → Prop} {Q : β → Prop} (hm : Ends m P)
    (hf : ∀ a, P a → Ends (f a) Q) : Ends (m >>= f) Q := by
  intro st
  obtain ⟨a, st', hma, ha⟩ := hm st
  obtain ⟨b, st'', hfb, hb⟩ := hf a ha st'
  refine ⟨b, st'', ?_, hb⟩
  show (m st).bind _ = _
  rw [hma]
  exact hfb

theorem Ends.mono {m : StateT σ Option α} {P Q : α → Prop} (hm : Ends m P) (h : ∀ a, P a → Q a) : Ends m Q := by
  intro st
  obtain ⟨a, st', hma, ha⟩ := hm st
  exact ⟨a, st', hma, h a ha⟩

/-- `a - b` of a `usize`. -/
def subM (a b : ℕ) : StateT σ Option ℕ := if b ≤ a then pure (a - b) else failure

/-- `s.swap(i, j)`. -/
def swapM (s : Array ρ) (i j : ℕ) : StateT σ Option (Array ρ) :=
  if i < s.size ∧ j < s.size then pure (s.swapIfInBounds i j) else failure

/-- A part of a slice replaced by what `f` makes of it. -/
def sliceM (f : Array ρ → StateT σ Option (Array ρ)) (s : Array ρ) (lo hi : ℕ) : StateT σ Option (Array ρ) :=
  if lo ≤ hi ∧ hi ≤ s.size then do
    let part ← f (s.extract lo hi)
    return s.extract 0 lo ++ part ++ s.extract hi s.size
  else failure

/-- A part of `d` entries: what `f` makes of it, where there is more than one. -/
def partM (f : Array ρ → StateT σ Option (Array ρ)) (s : Array ρ) (lo hi d : ℕ) : StateT σ Option (Array ρ) :=
  if d > 1 then sliceM f s lo hi else pure s

theorem ends_subM {a b : ℕ} (h : b ≤ a) : Ends (subM a b : StateT σ Option ℕ) (· = a - b) := by
  rw [subM, if_pos h]
  exact .pure rfl

theorem ends_swapM {s : Array ρ} {i j : ℕ} (hi : i < s.size) (hj : j < s.size) :
    Ends (swapM s i j : StateT σ Option (Array ρ)) (· = s.swapIfInBounds i j) := by
  rw [swapM, if_pos ⟨hi, hj⟩]
  exact .pure rfl

/-! ## The sort -/

section Functions

variable (cmp : σ → ρ → ρ → Ordering × σ)

/-- `cmp(&s[i], &s[j])`. -/
def cmpM (s : Array ρ) (i j : ℕ) : StateT σ Option Ordering := fun st => do
  let x ← s[i]?
  let y ← s[j]?
  return cmp st x y

/-- The inner loop of the insertion sort. -/
def sinkM (s : Array ρ) : ℕ → StateT σ Option (Array ρ)
  | 0 => return s
  | pl + 1 => do
    if (← cmpM cmp s pl (pl + 1)) = .gt then sinkM (← swapM s (pl + 1) pl) pl else return s

def insertionSortM (s : Array ρ) : StateT σ Option (Array ρ) := (List.range' 1 (s.size - 1)).foldlM (sinkM cmp) s

/-- Whether none of these places holds less than the one before it; the first that does ends the pass. -/
def presortedM (s : Array ρ) : List ℕ → StateT σ Option Bool
  | [] => return true
  | pm :: rest => do
    if (← cmpM cmp s (pm - 1) pm) ≠ .gt then presortedM s rest else return false

def med3M (s : Array ρ) (a b c : ℕ) : StateT σ Option ℕ := do
  if (← cmpM cmp s a b) = .lt then
    if (← cmpM cmp s b c) = .lt then return b
    else if (← cmpM cmp s a c) = .lt then return c
    else return a
  else if (← cmpM cmp s b c) = .gt then return b
  else if (← cmpM cmp s a c) = .lt then return a
  else return c

def pivotM (s : Array ρ) : StateT σ Option ℕ := do
  let n := s.size
  let pm := n / 2
  if n > 7 then
    let pn ← subM n 1
    if n > 40 then
      let d := n / 8
      let pl ← med3M cmp s 0 (0 + d) (0 + 2 * d)
      let pm ← med3M cmp s (← subM pm d) pm (pm + d)
      let pn ← med3M cmp s (← subM pn (2 * d)) (← subM pn d) pn
      med3M cmp s pl pm pn
    else med3M cmp s 0 pm pn
  else return pm

/-- The first inner loop of the partition. -/
def upM (p : Split ρ) : StateT σ Option (Split ρ) :=
  if p.pb < p.pc then do
    match ← cmpM cmp p.s p.pb 0 with
    | .gt => return p
    | .eq =>
      let s ← swapM p.s p.pa p.pb
      upM { p with s := s, pa := p.pa + 1, pb := p.pb + 1 }
    | .lt => upM { p with pb := p.pb + 1 }
  else return p
termination_by p.pc - p.pb

/-- The second; `pc - 1` is not below zero where `pb < pc`. -/
def downM (p : Split ρ) : StateT σ Option (Split ρ) :=
  if p.pb < p.pc then do
    match ← cmpM cmp p.s (p.pc - 1) 0 with
    | .lt => return p
    | .eq =>
      let pd ← subM p.pd 1
      let s ← swapM p.s (p.pc - 1) pd
      downM { p with s := s, pd := pd, pc := p.pc - 1 }
    | .gt => downM { p with pc := p.pc - 1 }
  else return p
termination_by p.pc - p.pb

/-- The loop of the partition, with a bound on its turns. -/
def loopM : ℕ → Split ρ → StateT σ Option (Split ρ)
  | 0, _ => failure
  | fuel + 1, p => do
    let q ← upM cmp p
    let q ← downM cmp q
    if q.pb ≥ q.pc then return q
    else
      let pc ← subM q.pc 1
      let s ← swapM q.s q.pb pc
      loopM fuel { q with s := s, pb := q.pb + 1, pc := pc }

/-- `d` swaps that exchange the block at `i` with the one at `j`. -/
def swapBlocksM (s : Array ρ) (i j : ℕ) : ℕ → StateT σ Option (Array ρ)
  | 0 => return s
  | d + 1 => do
    let t ← swapBlocksM s i j d
    swapM t (i + d) (j + d)

/-- The equal entries brought from both ends into the middle. -/
def gatherM (p : Split ρ) (n : ℕ) : StateT σ Option (Array ρ) := do
  let d1 := min p.pa (← subM p.pb p.pa)
  let s ← swapBlocksM p.s 0 (← subM p.pb d1) d1
  let d1 := min (← subM p.pd p.pc) (← subM n p.pd)
  swapBlocksM s p.pb (← subM n d1) d1

/-- `pg_qsort`, with a bound on its depth. The part the source's loop goes on with is sorted as a slice like the other. -/
def pgQsortM : ℕ → Array ρ → StateT σ Option (Array ρ)
  | 0, _ => failure
  | fuel + 1, s => do
    let n := s.size
    if n < 7 then insertionSortM cmp s
    else if ← presortedM cmp s (List.range' 1 (n - 1)) then return s
    else
      let pm ← pivotM cmp s
      let s ← swapM s 0 pm
      let p ← loopM cmp n ⟨s, 1, 1, n, n⟩
      let t ← gatherM p n
      let d1 ← subM p.pb p.pa
      let d2 ← subM p.pd p.pc
      let start ← subM n d2
      if d1 ≤ d2 then
        let t ← partM (pgQsortM fuel) t 0 d1 d1
        partM (pgQsortM fuel) t start n d2
      else
        let t ← partM (pgQsortM fuel) t start n d2
        partM (pgQsortM fuel) t 0 d1 d1

end Functions

/-- The answers are those of `c`, whatever the state. -/
def Agrees (cmp : σ → ρ → ρ → Ordering × σ) (c : ρ → ρ → Ordering) : Prop := ∀ st x y, (cmp st x y).1 = c x y

variable {cmp : σ → ρ → ρ → Ordering × σ}

theorem ends_cmpM {s : Array ρ} {i j : ℕ} (hi : i < s.size) (hj : j < s.size) :
    Ends (cmpM cmp s i j) fun o => ∀ c, Agrees cmp c → o = cmpAt c s i j := by
  intro st
  have hx := Array.getElem?_eq_getElem hi
  have hy := Array.getElem?_eq_getElem hj
  refine ⟨(cmp st s[i] s[j]).1, (cmp st s[i] s[j]).2, ?_, fun c hc => ?_⟩
  · unfold cmpM
    rw [hx, hy]
    rfl
  · unfold cmpAt
    rw [hx, hy, hc]

theorem ends_sinkM (pl : ℕ) (s : Array ρ) (hpl : pl < s.size) :
    Ends (sinkM cmp s pl) fun t => t.Perm s ∧ ∀ c, Agrees cmp c → t = sink c s pl := by
  induction pl generalizing s with
  | zero => exact .pure ⟨.rfl, fun c _ => rfl⟩
  | succ pl ih =>
    rw [sinkM]
    refine (ends_cmpM (by omega) hpl).bind fun o ho => ?_
    split
    · rename_i hgt
      refine (ends_swapM hpl (by omega)).bind ?_
      rintro t rfl
      refine (ih _ (by rw [Array.size_swapIfInBounds]; omega)).mono ?_
      rintro t ⟨hperm, heq⟩
      refine ⟨hperm.trans (swapIfInBounds_perm s _ _), fun c hc => ?_⟩
      rw [heq c hc, sink, if_pos (by rw [← ho c hc, hgt])]
    · rename_i hgt
      refine .pure ⟨.rfl, fun c hc => ?_⟩
      rw [sink, if_neg (by rw [← ho c hc]; exact hgt)]

theorem ends_insertionSortM (s : Array ρ) :
    Ends (insertionSortM cmp s) fun t => t.Perm s ∧ ∀ c, Agrees cmp c → t = insertionSort c s := by
  have hfold : ∀ (l : List ℕ) (u : Array ρ), (∀ pl ∈ l, pl < u.size) →
      Ends (l.foldlM (sinkM cmp) u) fun t => t.Perm u ∧ ∀ c, Agrees cmp c → t = l.foldl (sink c) u := by
    intro l
    induction l with
    | nil => exact fun u _ => .pure ⟨.rfl, fun c _ => rfl⟩
    | cons pl l ih =>
      intro u hl
      rw [List.foldlM_cons]
      refine (ends_sinkM pl u (hl pl List.mem_cons_self)).bind fun t ht => ?_
      obtain ⟨hperm, heq⟩ := ht
      refine (ih t fun pl' hpl' => ?_).mono fun w hw => ⟨hw.1.trans hperm, fun c hc => ?_⟩
      · rw [hperm.size_eq]
        exact hl pl' (List.mem_cons_of_mem _ hpl')
      · rw [hw.2 c hc, heq c hc, List.foldl_cons]
  exact hfold _ s fun pl hpl => by
    have := List.mem_range'_1.mp hpl
    omega

theorem ends_presortedM {s : Array ρ} (l : List ℕ) (hl : ∀ pm ∈ l, pm < s.size) :
    Ends (presortedM cmp s l) fun b => ∀ c, Agrees cmp c → b = l.all fun pm => cmpAt c s (pm - 1) pm ≠ .gt := by
  induction l with
  | nil => exact .pure fun c _ => rfl
  | cons pm l ih =>
    have hpm := hl pm List.mem_cons_self
    rw [presortedM]
    refine (ends_cmpM (by omega) hpm).bind fun o ho => ?_
    split
    · rename_i hne
      refine (ih fun pm' hpm' => hl pm' (List.mem_cons_of_mem _ hpm')).mono fun b hb c hc => ?_
      rw [hb c hc, List.all_cons, ← ho c hc, decide_eq_true hne, Bool.true_and]
    · rename_i heq
      refine .pure fun c hc => ?_
      rw [List.all_cons, ← ho c hc, decide_eq_false heq, Bool.false_and]

theorem ends_med3M {s : Array ρ} {a b d : ℕ} (ha : a < s.size) (hb : b < s.size) (hd : d < s.size) :
    Ends (med3M cmp s a b d) fun m => m < s.size ∧ ∀ c, Agrees cmp c → m = med3 c s a b d := by
  unfold med3M med3
  refine (ends_cmpM ha hb).bind fun o ho => ?_
  split
  · rename_i hlt
    refine (ends_cmpM hb hd).bind fun o' ho' => ?_
    split
    · rename_i hlt'
      exact .pure ⟨hb, fun c hc => by rw [← ho c hc, ← ho' c hc, if_pos hlt, if_pos hlt']⟩
    · rename_i hlt'
      refine (ends_cmpM ha hd).bind fun o'' ho'' => ?_
      split
      · rename_i hlt''
        exact .pure ⟨hd, fun c hc => by
          rw [← ho c hc, ← ho' c hc, ← ho'' c hc, if_pos hlt, if_neg hlt', if_pos hlt'']⟩
      · rename_i hlt''
        exact .pure ⟨ha, fun c hc => by
          rw [← ho c hc, ← ho' c hc, ← ho'' c hc, if_pos hlt, if_neg hlt', if_neg hlt'']⟩
  · rename_i hlt
    refine (ends_cmpM hb hd).bind fun o' ho' => ?_
    split
    · rename_i hgt
      exact .pure ⟨hb, fun c hc => by rw [← ho c hc, ← ho' c hc, if_neg hlt, if_pos hgt]⟩
    · rename_i hgt
      refine (ends_cmpM ha hd).bind fun o'' ho'' => ?_
      split
      · rename_i hlt''
        exact .pure ⟨ha, fun c hc => by
          rw [← ho c hc, ← ho' c hc, ← ho'' c hc, if_neg hlt, if_neg hgt, if_pos hlt'']⟩
      · rename_i hlt''
        exact .pure ⟨hd, fun c hc => by
          rw [← ho c hc, ← ho' c hc, ← ho'' c hc, if_neg hlt, if_neg hgt, if_neg hlt'']⟩

theorem ends_pivotM {s : Array ρ} (hs : 7 ≤ s.size) :
    Ends (pivotM cmp s) fun m => m < s.size ∧ ∀ c, Agrees cmp c → m = pivot c s := by
  unfold pivotM pivot
  dsimp only
  split
  · refine (ends_subM (by omega)).bind ?_
    rintro pn rfl
    split
    · rename_i hmany
      refine (ends_med3M (by omega) (by omega) (by omega)).bind fun pl hpl => ?_
      refine (ends_subM (by omega)).bind ?_
      rintro lo rfl
      refine (ends_med3M (by omega) (by omega) (by omega)).bind fun pm hpm => ?_
      refine (ends_subM (by omega)).bind ?_
      rintro first rfl
      refine (ends_subM (by omega)).bind ?_
      rintro second rfl
      refine (ends_med3M (by omega) (by omega) (by omega)).bind fun pn hpn => ?_
      refine (ends_med3M hpl.1 hpm.1 hpn.1).mono fun m hm => ⟨hm.1, fun c hc => ?_⟩
      rw [hm.2 c hc, hpl.2 c hc, hpm.2 c hc, hpn.2 c hc, Nat.zero_add, Nat.zero_add]
    · exact ends_med3M (by omega) (by omega) (by omega)
  · exact .pure ⟨by omega, fun c _ => rfl⟩

/-- The places of a split lie in the slice, whatever the comparator answers. -/
structure Split.Bounded (p : Split ρ) (s : Array ρ) : Prop where
  perm : p.s.Perm s
  left : 1 ≤ p.pa ∧ p.pa ≤ p.pb ∧ p.pb ≤ p.pd
  right : 1 ≤ p.pc ∧ p.pc ≤ p.pd ∧ p.pd ≤ s.size

theorem ends_upM {s : Array ρ} (p : Split ρ) (h : p.Bounded s) :
    Ends (upM cmp p) fun q => q.Bounded s ∧ q.pc - q.pb ≤ p.pc - p.pb ∧ ∀ c, Agrees cmp c → q = p.up c := by
  induction hw : p.pc - p.pb using Nat.strongRecOn generalizing p with
  | _ w ih =>
    obtain ⟨hperm, hleft, hright⟩ := h
    have hsize := hperm.size_eq
    rw [upM]
    split
    · rename_i hlt
      refine (ends_cmpM (by omega) (by omega)).bind fun o ho => ?_
      split
      · refine .pure ⟨⟨hperm, hleft, hright⟩, by omega, fun c hc => ?_⟩
        rw [Split.up, if_pos hlt, ← ho c hc]
      · refine (ends_swapM (by omega) (by omega)).bind ?_
        rintro t rfl
        have hb : Split.Bounded { p with s := p.s.swapIfInBounds p.pa p.pb, pa := p.pa + 1, pb := p.pb + 1 } s :=
          ⟨(swapIfInBounds_perm _ _ _).trans hperm, ⟨by dsimp only; omega, by dsimp only; omega, by dsimp only; omega⟩,
            hright⟩
        refine (ih (p.pc - (p.pb + 1)) (by omega) _ hb rfl).mono fun q hq => ⟨hq.1, hq.2.1.trans (by omega), fun c hc => ?_⟩
        rw [hq.2.2 c hc, Split.up.eq_1 c p, if_pos hlt, ← ho c hc]
      · have hb : Split.Bounded { p with pb := p.pb + 1 } s :=
          ⟨hperm, ⟨hleft.1, by dsimp only; omega, by dsimp only; omega⟩, hright⟩
        refine (ih (p.pc - (p.pb + 1)) (by omega) _ hb rfl).mono fun q hq => ⟨hq.1, hq.2.1.trans (by omega), fun c hc => ?_⟩
        rw [hq.2.2 c hc, Split.up.eq_1 c p, if_pos hlt, ← ho c hc]
    · rename_i hge
      refine .pure ⟨⟨hperm, hleft, hright⟩, by omega, fun c _ => ?_⟩
      rw [Split.up, if_neg hge]

theorem ends_downM {s : Array ρ} (p : Split ρ) (h : p.Bounded s) :
    Ends (downM cmp p) fun q => q.Bounded s ∧ q.pc - q.pb ≤ p.pc - p.pb ∧ ∀ c, Agrees cmp c → q = p.down c := by
  induction hw : p.pc - p.pb using Nat.strongRecOn generalizing p with
  | _ w ih =>
    obtain ⟨hperm, hleft, hright⟩ := h
    have hsize := hperm.size_eq
    rw [downM]
    split
    · rename_i hlt
      refine (ends_cmpM (by omega) (by omega)).bind fun o ho => ?_
      split
      · refine .pure ⟨⟨hperm, hleft, hright⟩, by omega, fun c hc => ?_⟩
        rw [Split.down, if_pos hlt, ← ho c hc]
      · refine (ends_subM (by omega)).bind ?_
        rintro pd rfl
        refine (ends_swapM (by omega) (by omega)).bind ?_
        rintro t rfl
        have hb : Split.Bounded
            { p with s := p.s.swapIfInBounds (p.pc - 1) (p.pd - 1), pd := p.pd - 1, pc := p.pc - 1 } s :=
          ⟨(swapIfInBounds_perm _ _ _).trans hperm, ⟨hleft.1, hleft.2.1, by dsimp only; omega⟩,
            ⟨by dsimp only; omega, by dsimp only; omega, by dsimp only; omega⟩⟩
        refine (ih (p.pc - 1 - p.pb) (by omega) _ hb rfl).mono fun q hq => ⟨hq.1, hq.2.1.trans (by omega), fun c hc => ?_⟩
        rw [hq.2.2 c hc, Split.down.eq_1 c p, if_pos hlt, ← ho c hc]
      · have hb : Split.Bounded { p with pc := p.pc - 1 } s :=
          ⟨hperm, hleft, ⟨by dsimp only; omega, by dsimp only; omega, hright.2.2⟩⟩
        refine (ih (p.pc - 1 - p.pb) (by omega) _ hb rfl).mono fun q hq => ⟨hq.1, hq.2.1.trans (by omega), fun c hc => ?_⟩
        rw [hq.2.2 c hc, Split.down.eq_1 c p, if_pos hlt, ← ho c hc]
    · rename_i hge
      refine .pure ⟨⟨hperm, hleft, hright⟩, by omega, fun c _ => ?_⟩
      rw [Split.down, if_neg hge]

/-- The loop of the partition ends within as many turns as there are places between its ends. A comparator that answers
    otherwise the second time may let the ends cross, but no further than by the one pair it swaps. -/
theorem ends_loopM {s : Array ρ} (fuel : ℕ) (p : Split ρ) (h : p.Bounded s) (hfuel : p.pc - p.pb < fuel) :
    Ends (loopM cmp fuel p) fun q => q.Bounded s ∧ ∀ c, Agrees cmp c → q = p.loop c := by
  induction fuel generalizing p with
  | zero => omega
  | succ fuel ih =>
    rw [loopM]
    refine (ends_upM p h).bind fun u hu => (ends_downM u hu.1).bind fun q hq => ?_
    obtain ⟨hbound, hwidth, heq⟩ := hq
    have hsize := hbound.perm.size_eq
    have hleft := hbound.left
    have hright := hbound.right
    have hpure : ∀ c, Agrees cmp c → q = (p.up c).down c := fun c hc => by rw [heq c hc, hu.2.2 c hc]
    split
    · rename_i hmet
      refine .pure ⟨hbound, fun c hc => ?_⟩
      rw [Split.loop, ← hpure c hc, if_pos hmet]
    · rename_i hmet
      refine (ends_subM (by omega)).bind ?_
      rintro pc rfl
      refine (ends_swapM (by omega) (by omega)).bind ?_
      rintro t rfl
      have hb : Split.Bounded { q with s := q.s.swapIfInBounds q.pb (q.pc - 1), pb := q.pb + 1, pc := q.pc - 1 } s :=
        ⟨(swapIfInBounds_perm _ _ _).trans hbound.perm,
          ⟨hleft.1, by dsimp only; omega, by dsimp only; omega⟩, ⟨by dsimp only; omega, by dsimp only; omega, hright.2.2⟩⟩
      have hless : q.pc - 1 - (q.pb + 1) < fuel := by
        have := hu.2.1
        omega
      refine (ih _ hb hless).mono fun r hr => ⟨hr.1, fun c hc => ?_⟩
      rw [hr.2 c hc, Split.loop.eq_1 c p, ← hpure c hc, if_neg hmet]

theorem ends_swapBlocksM (s : Array ρ) {i j : ℕ} (d : ℕ) (hi : i + d ≤ s.size) (hj : j + d ≤ s.size) :
    Ends (swapBlocksM s i j d : StateT σ Option (Array ρ)) (· = swapBlocks s i j d) := by
  induction d with
  | zero => exact .pure rfl
  | succ d ih =>
    refine (ih (by omega) (by omega)).bind ?_
    rintro t rfl
    exact ends_swapM (by rw [size_swapBlocks]; omega) (by rw [size_swapBlocks]; omega)

theorem ends_gatherM {s : Array ρ} {p : Split ρ} (h : p.Bounded s) :
    Ends (gatherM p s.size : StateT σ Option (Array ρ)) (· = p.gather) := by
  have hsize := h.perm.size_eq
  have hleft := h.left
  have hright := h.right
  unfold gatherM Split.gather
  refine (ends_subM (by omega)).bind ?_
  rintro w rfl
  refine (ends_subM (by omega)).bind ?_
  rintro j rfl
  refine (ends_swapBlocksM p.s _ (by omega) (by omega)).bind ?_
  rintro t rfl
  refine (ends_subM (by omega)).bind ?_
  rintro u rfl
  refine (ends_subM (by omega)).bind ?_
  rintro v rfl
  refine (ends_subM (by omega)).bind ?_
  rintro k rfl
  have hpsize : (swapBlocks p.s 0 (p.pb - min p.pa (p.pb - p.pa)) (min p.pa (p.pb - p.pa))).size = s.size := by
    rw [size_swapBlocks, hsize]
  dsimp only
  rw [hpsize]
  exact ends_swapBlocksM _ _ (by omega) (by omega)

theorem gather_perm (p : Split ρ) : p.gather.Perm p.s := (swapBlocks_perm _ _ _ _).trans (swapBlocks_perm _ _ _ _)

/-! ## Parts -/

/-- A part of a slice replaced. -/
def splice (t part : Array ρ) (lo hi : ℕ) : Array ρ := t.extract 0 lo ++ part ++ t.extract hi t.size

theorem splice_perm {t part : Array ρ} {lo hi : ℕ} (hle : lo ≤ hi) (hhi : hi ≤ t.size) (h : part.Perm (t.extract lo hi)) :
    (splice t part lo hi).Perm t := by
  have hjoin : t.extract 0 lo ++ t.extract lo hi ++ t.extract hi t.size = t := by
    rw [Array.extract_append_extract, Nat.zero_min, max_eq_right hle, Array.extract_append_extract,
      Array.extract_eq_self_iff]
    exact .inr ⟨by omega, by omega⟩
  have hparts := ((Array.Perm.refl (t.extract 0 lo)).append h).append (.refl (t.extract hi t.size))
  rwa [hjoin] at hparts

theorem splice_left {a b l : Array ρ} : splice (a ++ b) l 0 a.size = l ++ b := by
  simp [splice]

theorem splice_right {a b r : Array ρ} : splice (a ++ b) r a.size (a ++ b).size = a ++ r := by
  have hrest : (a ++ b).extract (a ++ b).size (a ++ b).size = #[] := Array.extract_empty_of_stop_le_start (Nat.le_refl _)
  rw [splice, hrest, Array.append_empty, Array.extract_append_left, Array.extract_size]

theorem cut (t : Array ρ) {i j : ℕ} (hij : i ≤ j) (hj : j ≤ t.size) :
    ∃ a b c : Array ρ, t = a ++ b ++ c ∧ a.size = i ∧ (a ++ b).size = j := by
  refine ⟨t.extract 0 i, t.extract i j, t.extract j t.size, ?_, ?_, ?_⟩
  · rw [Array.extract_append_extract, Nat.zero_min, max_eq_right hij, Array.extract_append_extract, eq_comm,
      Array.extract_eq_self_iff]
    exact .inr ⟨by omega, by omega⟩
  · rw [Array.size_extract]
    omega
  · rw [Array.size_append, Array.size_extract, Array.size_extract]
    omega

/-- Both ends of a slice replaced, in either order: the second part is what it was, and the middle too. -/
theorem splice_ends {t l r : Array ρ} {i j : ℕ} (hij : i ≤ j) (hj : j ≤ t.size) (hl : l.size = i) :
    ((splice t l 0 i).extract j t.size = t.extract j t.size ∧
      splice (splice t l 0 i) r j t.size = l ++ t.extract i j ++ r) ∧
    ((splice t r j t.size).extract 0 i = t.extract 0 i ∧
      splice (splice t r j t.size) l 0 i = l ++ t.extract i j ++ r) := by
  obtain ⟨a, b, c, rfl, ha, hab⟩ := cut t hij hj
  have hmid : (a ++ b ++ c).extract i j = b := by
    rw [← ha, ← hab, Array.append_assoc, Array.size_append, Array.extract_append_right, Array.extract_append_left,
      Array.extract_size]
  have hlast : ∀ d : Array ρ, d.size = j → (d ++ c).extract j (d ++ c).size = c := by
    intro d hd
    rw [← hd, Array.size_append, Array.extract_append_right, Array.extract_size]
  have hlb : (l ++ b).size = j := by rw [← hab, Array.size_append, Array.size_append, hl, ha]
  have hsize : (a ++ b ++ c).size = (l ++ b ++ c).size := by rw [Array.size_append, hab, Array.size_append, hlb]
  have hleft : splice (a ++ b ++ c) l 0 i = l ++ b ++ c := by
    rw [← ha, Array.append_assoc, splice_left, ← Array.append_assoc]
  have hright : splice (a ++ b ++ c) r j (a ++ b ++ c).size = a ++ b ++ r := by rw [← hab, splice_right]
  refine ⟨⟨?_, ?_⟩, ?_, ?_⟩
  · rw [hleft, hlast _ hab, hsize, hlast _ hlb]
  · rw [hleft, hmid, hsize, ← hlb, splice_right]
  · rw [hright, Array.append_assoc, Array.append_assoc, ← ha, Array.extract_append_left, Array.extract_append_left]
  · rw [hright, hmid, ← ha, Array.append_assoc, splice_left, ← Array.append_assoc]

theorem splice_self {t : Array ρ} {lo hi : ℕ} (hle : lo ≤ hi) (hhi : hi ≤ t.size) : splice t (t.extract lo hi) lo hi = t := by
  rw [splice, Array.extract_append_extract, Nat.zero_min, max_eq_right hle, Array.extract_append_extract,
    Array.extract_eq_self_iff]
  exact .inr ⟨by omega, by omega⟩

/-- What becomes of a part of `d` entries: sorted, unless there is no more than one. -/
theorem ends_part {f : Array ρ → StateT σ Option (Array ρ)} {g : (ρ → ρ → Ordering) → Array ρ → Array ρ} {t : Array ρ}
    {d lo hi : ℕ} (hle : lo ≤ hi) (hhi : hi ≤ t.size)
    (h : Ends (f (t.extract lo hi)) fun u => u.Perm (t.extract lo hi) ∧
      ∀ c, Std.TransCmp c → Agrees cmp c → u = g c (t.extract lo hi)) :
    Ends (partM f t lo hi d) fun u => ∃ part, u = splice t part lo hi ∧
      part.Perm (t.extract lo hi) ∧
      ∀ c, Std.TransCmp c → Agrees cmp c → part = if d > 1 then g c (t.extract lo hi) else t.extract lo hi := by
  unfold partM
  split
  · rename_i hd
    rw [sliceM, if_pos ⟨hle, hhi⟩]
    refine h.bind fun part hpart => .pure ⟨part, rfl, hpart.1, fun c hc hag => hpart.2 c hc hag⟩
  · exact .pure ⟨t.extract lo hi, (splice_self hle hhi).symm, .refl _, fun c _ _ => rfl⟩

theorem ends_pgQsortM (fuel : ℕ) (s : Array ρ) (hfuel : s.size < fuel) :
    Ends (pgQsortM cmp fuel s) fun t => t.Perm s ∧ ∀ c, Std.TransCmp c → Agrees cmp c → t = pgQsort c s := by
  induction fuel generalizing s with
  | zero => omega
  | succ fuel ih =>
    rw [pgQsortM]
    split
    · rename_i hsmall
      refine (ends_insertionSortM s).mono fun t ht => ⟨ht.1, fun c _ hag => ?_⟩
      rw [pgQsort, if_pos hsmall, ht.2 c hag]
    · rename_i hlarge
      refine (ends_presortedM _ fun pm hpm => by have := List.mem_range'_1.mp hpm; omega).bind fun b hb => ?_
      split
      · rename_i hpre
        refine .pure ⟨.refl s, fun c _ hag => ?_⟩
        rw [pgQsort, if_neg hlarge, if_pos (by rw [presorted, ← hb c hag]; exact hpre)]
      · rename_i hpre
        refine (ends_pivotM (by omega)).bind fun pm hpm => ?_
        refine (ends_swapM (by omega) hpm.1).bind ?_
        rintro front rfl
        have hstart : Split.Bounded ⟨s.swapIfInBounds 0 pm, 1, 1, s.size, s.size⟩ s :=
          ⟨swapIfInBounds_perm _ _ _, ⟨by dsimp only; omega, by dsimp only; omega, by dsimp only; omega⟩,
            ⟨by dsimp only; omega, by dsimp only; omega, by dsimp only; omega⟩⟩
        refine (ends_loopM s.size _ hstart (by dsimp only; omega)).bind fun p hp => ?_
        obtain ⟨hbound, hsplit⟩ := hp
        have hleft := hbound.left
        have hright := hbound.right
        refine (ends_gatherM hbound).bind ?_
        rintro t rfl
        refine (ends_subM (by omega)).bind ?_
        rintro d1 rfl
        refine (ends_subM (by omega)).bind ?_
        rintro d2 rfl
        refine (ends_subM (by omega)).bind ?_
        rintro start rfl
        have htsize : p.gather.size = s.size := by rw [Split.size_gather, hbound.perm.size_eq]
        have htperm : p.gather.Perm s := (gather_perm p).trans hbound.perm
        -- What the parts are in the pure sort, where the ends of the partition have met.
        have hpure : ∀ c, Std.TransCmp c → Agrees cmp c → p.pb - p.pa ≤ s.size - (p.pd - p.pc) ∧
            pgQsort c s = (if p.pb - p.pa > 1 then pgQsort c (p.gather.extract 0 (p.pb - p.pa))
                else p.gather.extract 0 (p.pb - p.pa)) ++
              p.gather.extract (p.pb - p.pa) (s.size - (p.pd - p.pc)) ++
              (if p.pd - p.pc > 1 then pgQsort c (p.gather.extract (s.size - (p.pd - p.pc)) s.size)
                else p.gather.extract (s.size - (p.pd - p.pc)) s.size) := by
          intro c hc hag
          have hpeq : p = split c s := by rw [hsplit c hag, split, hpm.2 c hag]
          obtain ⟨x, -, hmet⟩ : ∃ x, p.Holds c s x ∧ p.pb = p.pc := hpeq ▸ holds_split (by omega)
          refine ⟨by omega, ?_⟩
          have hpre' : ¬ presorted c s = true := by rw [presorted, ← hb c hag]; exact hpre
          rw [pgQsort, if_neg hlarge, if_neg hpre', ← hpeq]
        have hl0 : p.pb - p.pa ≤ p.gather.size := by omega
        have hr0 : s.size - (p.pd - p.pc) ≤ p.gather.size := by omega
        have hleft : Ends (pgQsortM cmp fuel (p.gather.extract 0 (p.pb - p.pa))) _ :=
          ih _ (by rw [Array.size_extract]; omega)
        split
        · refine (ends_part (g := fun c => pgQsort c) (Nat.zero_le _) hl0 hleft).bind ?_
          rintro u ⟨l, rfl, hl, hlc⟩
          have hlperm : (splice p.gather l 0 (p.pb - p.pa)).Perm p.gather := splice_perm (Nat.zero_le _) hl0 hl
          have husize := hlperm.size_eq
          refine (ends_part (g := fun c => pgQsort c) (by omega) (by omega)
            (ih _ (by rw [Array.size_extract]; omega))).mono ?_
          rintro w ⟨r, rfl, hr, hrc⟩
          refine ⟨((splice_perm (by omega) (by omega) hr).trans hlperm).trans htperm, fun c hc hag => ?_⟩
          obtain ⟨hd, heq⟩ := hpure c hc hag
          have hlsize : l.size = p.pb - p.pa := by
            rw [hl.size_eq, Array.size_extract]
            omega
          obtain ⟨⟨hsame, hends⟩, -⟩ := splice_ends (r := r) hd hr0 hlsize
          rw [htsize] at hsame hends
          have hrc' := hrc c hc hag
          rw [hsame] at hrc'
          rw [hends, heq, hlc c hc hag, hrc']
        · have hright : Ends (pgQsortM cmp fuel (p.gather.extract (s.size - (p.pd - p.pc)) s.size)) _ :=
            ih _ (by rw [Array.size_extract]; omega)
          refine (ends_part (g := fun c => pgQsort c) (by omega) (by omega) hright).bind ?_
          rintro u ⟨r, rfl, hr, hrc⟩
          have hrperm : (splice p.gather r (s.size - (p.pd - p.pc)) s.size).Perm p.gather :=
            splice_perm (by omega) (by omega) hr
          have husize := hrperm.size_eq
          refine (ends_part (g := fun c => pgQsort c) (Nat.zero_le _) (by omega)
            (ih _ (by rw [Array.size_extract]; omega))).mono ?_
          rintro w ⟨l, rfl, hl, hlc⟩
          refine ⟨((splice_perm (Nat.zero_le _) (by omega) hl).trans hrperm).trans htperm, fun c hc hag => ?_⟩
          obtain ⟨hd, heq⟩ := hpure c hc hag
          have hlsize : l.size = p.pb - p.pa := by
            rw [hl.size_eq, Array.size_extract]
            omega
          obtain ⟨-, hsame, hends⟩ := splice_ends (r := r) hd hr0 hlsize
          rw [htsize] at hsame hends
          have hlc' := hlc c hc hag
          rw [hsame] at hlc'
          rw [hends, heq, hlc', hrc c hc hag]

/-- `pg_qsort` ends within bounds for every slice and every comparator, with a permutation of the slice, and where the
    comparator answers as a total preorder does, in order. -/
theorem pg_qsort_correct (cmp : σ → ρ → ρ → Ordering × σ) (s : Array ρ) (st : σ) :
    ∃ t st', pgQsortM cmp (s.size + 1) s st = some (t, st') ∧ t.Perm s ∧
      ∀ c, Std.TransCmp c → (∀ st x y, (cmp st x y).1 = c x y) → t.toList.Pairwise fun x y => (c x y).isLE = true := by
  obtain ⟨t, st', heq, hperm, hpure⟩ := @ends_pgQsortM σ ρ cmp (s.size + 1) s (Nat.lt_succ_self _) st
  refine ⟨t, st', heq, hperm, fun c hc hag => ?_⟩
  rw [hpure c hc hag]
  exact (pgQsort_spec s).2

end Secantus.Tuplesort
