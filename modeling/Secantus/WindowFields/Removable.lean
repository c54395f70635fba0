/-
  Sliding windows (`removable_window`): one state moves along the partition. The rows past the old upper end
  enter, in order, then as many leave from the front of the queue as the lower end moved.

  A window is a stretch of the partition, so the queue is a range and the state is over a stretch of the
  values (`Inv`). Windows that never move back keep it so (`move_spec`), through empty windows and windows
  that skip ahead, and a window of documents never moves back, not even where its bounds wrap
  (`documents_neverBack`): the positions that wrapped leave no window, or the whole start of one that was
  empty before.
-/
import Secantus.WindowFields.Sums

namespace Secantus.WindowFields

open Secantus

section

variable {σ : Type} (D : DoubleDouble σ) (M : Decimals) (F : Floats)

/-- The state and the rows in it. -/
structure Running (σ : Type) where
  state : Removable σ
  queue : List ℕ

/-- The rows from a position to another. -/
def span (w : ℤ × ℤ) : List ℕ := List.range' w.1.toNat (w.2 + 1 - w.1).toNat

/-- Rows enter, in order. -/
def enter (values : List Bson) : List ℕ → Running σ → Except Stop (Running σ)
  | [], r => .ok r
  | i :: rows, r =>
    match values[i]? with
    | none => .error .panic
    | some v => do
      let state ← refused (r.state.update D M v 1)
      enter values rows ⟨state, r.queue ++ [i]⟩

/-- Rows leave, from the front of the queue. -/
def leave (values : List Bson) : ℕ → Running σ → Except Stop (Running σ)
  | 0, r => .ok r
  | k + 1, r =>
    match r.queue with
    | [] => leave values k r
    | i :: queue =>
      match values[i]? with
      | none => .error .panic
      | some v => do
        let state ← refused (r.state.update D M v (-1))
        leave values k ⟨state, queue⟩

/-- The rows to add and how many to remove. -/
def moves : Option (ℤ × ℤ) → Option (ℤ × ℤ) → Option (ℤ × ℤ) × ℤ
  | none, none => (none, 0)
  | none, some w => (some w, 0)
  | some (ol, ou), none => (none, ou - ol + 1)
  | some (ol, ou), some (l, u) => (if ou < u then some (ou + 1, u) else none, max (l - ol) 0)

/-- A window, none when it is empty. -/
def nonempty (b : ℤ × ℤ) : Option (ℤ × ℤ) := if b.1 ≤ b.2 then some b else none

/-- The state at one window from that at the last. -/
def move (values : List Bson) (last current : Option (ℤ × ℤ)) (r : Running σ) : Except Stop (Running σ) := do
  let r ← enter D M values ((moves last current).1.elim [] span) r
  leave D M values (moves last current).2.toNat r

/-- The loop of `removable_window` from a position on: the state and the answer at each. -/
def moveAlong (values : List Bson) (bounds : ℕ → Except Stop (ℤ × ℤ)) :
    ℕ → ℕ → Option (ℤ × ℤ) → Running σ → Except Stop (List (Running σ × Bson))
  | 0, _, _, _ => .ok []
  | k + 1, pos, last, r => do
    let b ← bounds pos
    let r ← move D M values last (nonempty b) r
    let out ← refused (r.state.value D M F)
    let rest ← moveAlong values bounds k (pos + 1) (nonempty b) r
    return (r, out) :: rest

/-- `removable_window` for `$sum` and `$avg`, with the state after each position. -/
def removableTrace (P : Profile) (op : Op) (windows : Windows) (values : List Bson) :
    Except Stop (List (Running σ × Bson)) :=
  moveAlong D M F values (windows.bounds P · values.length) values.length 0 none ⟨Removable.new D op, []⟩

def removableWindow (P : Profile) (op : Op) (windows : Windows) (values : List Bson) :
    Except Stop (List Bson) :=
  (removableTrace D M F P op windows values).map (List.map Prod.snd)

/-- A state computed afresh over some values. -/
def recompute (op : Op) (vs : List Bson) : Except Fallback (Removable σ) :=
  vs.foldlM (fun r v => r.update D M v 1) (Removable.new D op)

/-- The count behind `$avg`. -/
def Removable.count : Removable σ → ℤ
  | .sum _ => 0
  | .avg _ count => count

end

/-! ## Windows that never move back -/

/-- Neither end is before that of the last window. -/
def NeverBack : Option (ℤ × ℤ) → Option (ℤ × ℤ) → Prop
  | some (ol, ou), some (l, u) => ol ≤ l ∧ ou ≤ u
  | _, _ => True

/-- The rows of a window. -/
def rowsOf (w : Option (ℤ × ℤ)) : List ℕ := w.elim [] span

/-- A window lies in a partition of `n`. -/
def Within (n : ℕ) (w : Option (ℤ × ℤ)) : Prop := ∀ l u, w = some (l, u) → 0 ≤ l ∧ l ≤ u ∧ u < n

section

variable {σ : Type} {D : DoubleDouble σ} {M : Decimals} {F : Floats} {Holds : σ → ℤ → Prop} {nearest : ℤ → F64}

/-- The values of some rows. -/
def pick (values : List Bson) (rows : List ℕ) : List Bson := rows.filterMap (values[·]?)

theorem pick_range' (values : List Bson) (a k : ℕ) :
    pick values (List.range' a k) = (values.drop a).take k := by
  induction k generalizing a with
  | zero => simp [pick]
  | succ k ih =>
    unfold pick at ih ⊢
    rw [List.range'_succ, List.filterMap_cons, ih (a + 1)]
    cases h : values[a]? with
    | none =>
      have hlen := List.getElem?_eq_none_iff.mp h
      simp [List.drop_eq_nil_of_le hlen, List.drop_eq_nil_of_le (hlen.trans (Nat.le_succ a))]
    | some v =>
      obtain ⟨hlt, rfl⟩ := List.getElem?_eq_some_iff.mp h
      rw [List.drop_eq_getElem_cons hlt, List.take_succ_cons]

theorem magnitude_sublist {vs ws : List Bson} (h : vs.Sublist ws) : magnitude vs ≤ magnitude ws := by
  induction h with
  | slnil => exact le_rfl
  | cons v _ ih =>
    rw [magnitude_cons]
    have := abs_nonneg (intOf v)
    omega
  | cons_cons v _ ih =>
    rw [magnitude_cons, magnitude_cons]
    omega

theorem magnitude_range' (values : List Bson) (a k : ℕ) :
    magnitude (pick values (List.range' a k)) ≤ magnitude values := by
  rw [pick_range']
  exact magnitude_sublist ((List.take_sublist k _).trans (List.drop_sublist a values))

/-! ## One move -/

theorem span_append {a b c : ℤ} (ha : 0 ≤ a) (hab : a ≤ b + 1) (hbc : b ≤ c) :
    span (a, b) ++ span (b + 1, c) = span (a, c) := by
  unfold span
  have hstart : (b + 1).toNat = a.toNat + (b + 1 - a).toNat := by omega
  have hlen : (c + 1 - a).toNat = (b + 1 - a).toNat + (c + 1 - (b + 1)).toNat := by omega
  simp only [hstart, hlen]
  exact List.range'_append_1

theorem drop_span {a l c : ℤ} (ha : 0 ≤ a) (hal : a ≤ l) : (span (a, c)).drop (l - a).toNat = span (l, c) := by
  unfold span
  rw [List.drop_range']
  have hstart : a.toNat + (l - a).toNat * 1 = l.toNat := by omega
  have hlen : (c + 1 - a).toNat - (l - a).toNat = (c + 1 - l).toNat := by omega
  simp only [hstart, hlen]

theorem lt_of_mem_span {n : ℕ} {a b : ℤ} (ha : 0 ≤ a) (hb : b < n) {i : ℕ} (hi : i ∈ span (a, b)) : i < n := by
  obtain ⟨hle, hlt⟩ := List.mem_range'_1.mp hi
  simp only at hle hlt
  omega

variable {values : List Bson} {op : Op}

/-- The state is over the values of the queue. -/
def Running.Over (Holds : σ → ℤ → Prop) (op : Op) (values : List Bson) (r : Running σ) : Prop :=
  r.state.Of Holds op (pick values r.queue)

theorem pick_append (values : List Bson) (xs ys : List ℕ) : pick values (xs ++ ys) = pick values xs ++ pick values ys :=
  List.filterMap_append

theorem pick_cons {values : List Bson} {i : ℕ} {v : Bson} (h : values[i]? = some v) (rows : List ℕ) :
    pick values (i :: rows) = v :: pick values rows := by
  unfold pick
  rw [List.filterMap_cons, h]

theorem enter_spec (hD : D.Exact Holds nearest) (hv : ∀ v ∈ values, isIntegral v = true) {rows : List ℕ}
    {r : Running σ} (hr : r.Over Holds op values) (hrows : ∀ i ∈ rows, i < values.length)
    (hm : magnitude (pick values (r.queue ++ rows)) < 2 ^ 106) :
    ∃ r', enter D M values rows r = .ok r' ∧ r'.queue = r.queue ++ rows ∧ r'.Over Holds op values := by
  induction rows generalizing r with
  | nil => exact ⟨r, rfl, (List.append_nil _).symm, hr⟩
  | cons i rows ih =>
    obtain ⟨v, hi⟩ : ∃ v, values[i]? = some v := ⟨_, List.getElem?_eq_getElem (hrows i List.mem_cons_self)⟩
    have happend : pick values (r.queue ++ [i]) = pick values r.queue ++ [v] := by
      rw [pick_append, pick_cons hi]
      rfl
    have hall : r.queue ++ i :: rows = r.queue ++ [i] ++ rows := by simp
    rw [hall] at hm ⊢
    have hm' : magnitude (pick values r.queue ++ [v]) < 2 ^ 106 := by
      rw [← happend]
      refine lt_of_le_of_lt (magnitude_sublist ?_) hm
      rw [pick_append values (r.queue ++ [i]) rows]
      exact List.sublist_append_left _ _
    obtain ⟨state, hstate, hof⟩ := of_enter (M := M) hD hr (hv v (List.mem_of_getElem? hi)) hm'
    obtain ⟨r', hr', hqueue, hover⟩ := ih (r := ⟨state, r.queue ++ [i]⟩) (by
      unfold Running.Over
      rw [happend]
      exact hof) (fun j hj => hrows j (List.mem_cons_of_mem _ hj)) hm
    refine ⟨r', ?_, hqueue, hover⟩
    rw [enter, hi]
    simp only [hstate]
    exact hr'

theorem leave_spec (hD : D.Exact Holds nearest) (hv : ∀ v ∈ values, isIntegral v = true) (k : ℕ)
    {r : Running σ} (hr : r.Over Holds op values) (hqueue : ∀ i ∈ r.queue, i < values.length)
    (hm : magnitude (pick values r.queue) < 2 ^ 106) :
    ∃ r', leave D M values k r = .ok r' ∧ r'.queue = r.queue.drop k ∧ r'.Over Holds op values := by
  induction k generalizing r with
  | zero => exact ⟨r, rfl, rfl, hr⟩
  | succ k ih =>
    rw [leave]
    cases hq : r.queue with
    | nil =>
      obtain ⟨r', hr', hqueue', hover⟩ := ih hr hqueue hm
      exact ⟨r', hr', by rw [hqueue', hq, List.drop_nil, List.drop_nil], hover⟩
    | cons i queue =>
      rw [hq] at hqueue hm
      obtain ⟨v, hi⟩ : ∃ v, values[i]? = some v :=
        ⟨_, List.getElem?_eq_getElem (hqueue i List.mem_cons_self)⟩
      unfold Running.Over at hr
      rw [hq, pick_cons hi] at hr
      rw [pick_cons hi] at hm
      obtain ⟨state, hstate, hof⟩ := of_leave (M := M) hD hr (hv v (List.mem_of_getElem? hi)) hm
      have hm' : magnitude (pick values queue) < 2 ^ 106 :=
        lt_of_le_of_lt (magnitude_sublist (List.sublist_cons_self v _)) hm
      obtain ⟨r', hr', hqueue', hover⟩ := ih (r := ⟨state, queue⟩) hof
        (fun j hj => hqueue j (List.mem_cons_of_mem _ hj)) hm'
      refine ⟨r', ?_, hqueue', hover⟩
      simp only [hi, hstate]
      exact hr'

theorem mem_rowsOf_lt {n : ℕ} {w : Option (ℤ × ℤ)} (hw : Within n w) {i : ℕ} (hi : i ∈ rowsOf w) : i < n := by
  cases w with
  | none => cases hi
  | some w =>
    obtain ⟨h0, -, hn⟩ := hw w.1 w.2 rfl
    exact lt_of_mem_span h0 hn hi

/-- The queue once the new rows are in is a stretch of the partition, and what stays after the old ones leave
    is the window. -/
theorem moves_spec {n : ℕ} {last current : Option (ℤ × ℤ)} (hlast : Within n last) (hcurrent : Within n current)
    (hback : NeverBack last current) :
    (∃ a k, rowsOf last ++ rowsOf (moves last current).1 = List.range' a k) ∧
      (rowsOf last ++ rowsOf (moves last current).1).drop (moves last current).2.toNat = rowsOf current ∧
      Within n (moves last current).1 := by
  cases last with
  | none =>
    cases current with
    | none => exact ⟨⟨0, 0, rfl⟩, rfl, hcurrent⟩
    | some w => exact ⟨⟨_, _, rfl⟩, rfl, hcurrent⟩
  | some o =>
    obtain ⟨ol, ou⟩ := o
    obtain ⟨hol, hou, hn⟩ := hlast ol ou rfl
    cases current with
    | none =>
      refine ⟨⟨_, _, List.append_nil _⟩, ?_, fun _ _ h => nomatch h⟩
      refine List.drop_eq_nil_of_le ?_
      show ((span (ol, ou)) ++ []).length ≤ (ou - ol + 1).toNat
      rw [List.append_nil, span, List.length_range']
      omega
    | some w =>
      obtain ⟨l, u⟩ := w
      obtain ⟨hl, hlu, hun⟩ := hcurrent l u rfl
      obtain ⟨hle, hue⟩ := hback
      have hremove : max (l - ol) 0 = l - ol := max_eq_left (by omega)
      by_cases hadd : ou < u
      · have hmoves : moves (some (ol, ou)) (some (l, u)) = (some (ou + 1, u), l - ol) := by
          show (if ou < u then some (ou + 1, u) else none, max (l - ol) 0) = _
          rw [if_pos hadd, hremove]
        rw [hmoves]
        have happend : rowsOf (some (ol, ou)) ++ rowsOf (some (ou + 1, u)) = span (ol, u) :=
          span_append hol (by omega) hadd.le
        refine ⟨⟨_, _, happend⟩, ?_, fun a b h => ?_⟩
        · rw [happend]
          exact drop_span hol hle
        · cases h
          exact ⟨by omega, by omega, hun⟩
      · obtain rfl : ou = u := by omega
        have hmoves : moves (some (ol, ou)) (some (l, ou)) = (none, l - ol) := by
          show (if ou < ou then some (ou + 1, ou) else none, max (l - ol) 0) = _
          rw [if_neg hadd, hremove]
        rw [hmoves]
        refine ⟨⟨_, _, List.append_nil _⟩, ?_, fun _ _ h => nomatch h⟩
        show (span (ol, ou) ++ []).drop _ = _
        rw [List.append_nil]
        exact drop_span hol hle

/-- A move to a window that is not back leaves its rows in the queue. -/
theorem move_spec (hD : D.Exact Holds nearest) (hv : ∀ v ∈ values, isIntegral v = true)
    (hm : magnitude values < 2 ^ 106) {last current : Option (ℤ × ℤ)} (hlast : Within values.length last)
    (hcurrent : Within values.length current) (hback : NeverBack last current) {r : Running σ}
    (hr : r.Over Holds op values) (hqueue : r.queue = rowsOf last) :
    ∃ r', move D M values last current r = .ok r' ∧ r'.queue = rowsOf current ∧ r'.Over Holds op values := by
  obtain ⟨⟨a, k, hstretch⟩, hdrop, hadd⟩ := moves_spec hlast hcurrent hback
  have hm' : magnitude (pick values (rowsOf last ++ rowsOf (moves last current).1)) < 2 ^ 106 := by
    rw [hstretch]
    exact lt_of_le_of_lt (magnitude_range' values a k) hm
  have hrows : ∀ i ∈ rowsOf (moves last current).1, i < values.length := fun i hi => mem_rowsOf_lt hadd hi
  obtain ⟨r₁, hr₁, hqueue₁, hover₁⟩ := enter_spec (M := M) hD hv hr hrows (by rwa [hqueue])
  rw [hqueue] at hqueue₁
  obtain ⟨r₂, hr₂, hqueue₂, hover₂⟩ := leave_spec (M := M) hD hv (moves last current).2.toNat hover₁
    (fun i hi => by
      rw [hqueue₁, List.mem_append] at hi
      exact hi.elim (mem_rowsOf_lt hlast) (mem_rowsOf_lt hadd)) (by rwa [hqueue₁])
  refine ⟨r₂, ?_, by rw [hqueue₂, hqueue₁, hdrop], hover₂⟩
  unfold move
  show (enter D M values (rowsOf (moves last current).1) r >>= _) = _
  rw [hr₁]
  exact hr₂

/-! ## Windows of documents -/

theorem position_of_resolve {P : Profile} {slot n : ℕ} {isLower : Bool} {b : Bson} {i : Int64}
    (h : resolve P slot n isLower b = .ok i) : ∃ p, position slot n isLower b = some p := by
  cases b with
  | string s =>
    rw [resolve] at h
    rw [position]
    split
    · exact ⟨_, rfl⟩
    · rename_i hs
      rw [if_neg hs] at h
      split
      · exact ⟨_, rfl⟩
      · rename_i hs'
        rw [if_neg hs'] at h
        cases h
  | int32 i => exact ⟨_, rfl⟩
  | int64 i => exact ⟨_, rfl⟩
  | _ => cases h

theorem position_succ {slot n : ℕ} {isLower : Bool} {b : Bson} {p q : ℤ}
    (hp : position slot n isLower b = some p) (hq : position (slot + 1) n isLower b = some q) :
    p ≤ q ∧ q ≤ p + 1 := by
  cases b with
  | string s =>
    rw [position] at hp hq
    split at hp
    · rename_i hs
      rw [if_pos hs] at hq
      obtain rfl := Option.some.inj hp
      obtain rfl := Option.some.inj hq
      omega
    · rename_i hs
      rw [if_neg hs] at hq
      split at hp
      · rename_i hs'
        rw [if_pos hs'] at hq
        obtain rfl := Option.some.inj hp
        obtain rfl := Option.some.inj hq
        omega
      · cases hp
  | int32 i =>
    obtain rfl := Option.some.inj hp
    obtain rfl := Option.some.inj hq
    push_cast
    omega
  | int64 i =>
    obtain rfl := Option.some.inj hp
    obtain rfl := Option.some.inj hq
    push_cast
    omega
  | _ => cases hp

/-- A bound moves on, or goes past 64 bits and then stays before the partition. -/
theorem resolve_succ {P : Profile} {slot n : ℕ} (hslot : slot + 1 < n) (hn : n < 2 ^ 63) {isLower : Bool} {b : Bson}
    {i j : Int64} (hi : resolve P slot n isLower b = .ok i) (hj : resolve P (slot + 1) n isLower b = .ok j) :
    i.toInt ≤ j.toInt ∨ j.toInt < 0 ∧ (i.toInt < 0 ∨ i.toInt = 2 ^ 63 - 1) := by
  obtain ⟨p, hp⟩ := position_of_resolve hi
  obtain ⟨q, hq⟩ := position_of_resolve hj
  have hstep := position_succ hp hq
  have hfits : ∀ {slot : ℕ} {i : Int64} {p : ℤ}, slot < n → resolve P slot n isLower b = .ok i →
      position slot n isLower b = some p → p < 2 ^ 63 → i.toInt = p := by
    intro slot i p hslot hi hp hlt
    obtain ⟨i', hi', hip⟩ := resolve_fits (P := P) hslot hn hp hlt
    rwa [Except.ok.inj (hi.symm.trans hi')]
  have hover : ∀ {slot : ℕ} {i : Int64} {p : ℤ}, slot < n → resolve P slot n isLower b = .ok i →
      position slot n isLower b = some p → 2 ^ 63 ≤ p → i.toInt < 0 := by
    intro slot i p hslot hi hp hle
    rcases resolve_over (P := P) hslot hn hp hle with hi' | ⟨i', hi', hneg⟩
    · rw [hi] at hi'
      cases hi'
    · rwa [Except.ok.inj (hi.symm.trans hi')]
  by_cases hqf : q < 2 ^ 63
  · rw [hfits (by omega) hi hp (by omega), hfits hslot hj hq hqf]
    exact Or.inl hstep.1
  · refine Or.inr ⟨hover hslot hj hq (by omega), ?_⟩
    by_cases hpf : p < 2 ^ 63
    · rw [hfits (by omega) hi hp hpf]
      omega
    · exact Or.inl (hover (by omega) hi hp (by omega))

theorem windowBounds_cases {P : Profile} {slot n : ℕ} {window : Option Document} {b : Int64 × Int64}
    (h : windowBounds P slot n window = .ok b) :
    (window.bind (Document.get · "documents") = none ∧ b = (0, lastSlot n)) ∨
      ∃ lower upper low high, window.bind (Document.get · "documents") = some (.array [lower, upper]) ∧
        resolve P slot n true lower = .ok low ∧ resolve P slot n false upper = .ok high ∧
        b = (max low 0, min high (lastSlot n)) := by
  unfold windowBounds at h
  split at h
  · rename_i hw
    exact Or.inl ⟨hw, (Except.ok.inj h).symm⟩
  · rename_i lower upper hw
    cases hlow : resolve P slot n true lower with
    | error e =>
      rw [hlow] at h
      cases h
    | ok low =>
      rw [hlow] at h
      cases hhigh : resolve P slot n false upper with
      | error e =>
        rw [hhigh] at h
        cases h
      | ok high =>
        rw [hhigh] at h
        exact Or.inr ⟨lower, upper, low, high, hw, hlow, hhigh, (Except.ok.inj h).symm⟩
  · cases h

/-- The window of documents, over the integers. -/
theorem documents_cases {P : Profile} {slot n : ℕ} (hn : n < 2 ^ 63) {window : Option Document} {b : ℤ × ℤ}
    (h : (Windows.documents window).bounds P slot n = .ok b) :
    (window.bind (Document.get · "documents") = none ∧ b = (0, (n : ℤ) - 1)) ∨
      ∃ lower upper low high, window.bind (Document.get · "documents") = some (.array [lower, upper]) ∧
        resolve P slot n true lower = .ok low ∧ resolve P slot n false upper = .ok high ∧
        b = (max low.toInt 0, min high.toInt ((n : ℤ) - 1)) := by
  rw [Windows.bounds] at h
  cases hb : windowBounds P slot n window with
  | error e =>
    rw [hb] at h
    cases h
  | ok b' =>
    rw [hb] at h
    obtain rfl := Except.ok.inj h
    have hzero : (0 : Int64).toInt = 0 := rfl
    rcases windowBounds_cases hb with ⟨hw, rfl⟩ | ⟨lower, upper, low, high, hw, hlow, hhigh, rfl⟩
    · refine Or.inl ⟨hw, ?_⟩
      show ((0 : Int64).toInt, (lastSlot n).toInt) = _
      rw [toInt_lastSlot hn, hzero]
    · refine Or.inr ⟨lower, upper, low, high, hw, hlow, hhigh, ?_⟩
      show ((max low 0).toInt, (min high (lastSlot n)).toInt) = _
      rw [toInt_max, toInt_min, toInt_lastSlot hn, hzero]

theorem nonempty_eq_some {b : ℤ × ℤ} {l u : ℤ} (h : nonempty b = some (l, u)) : b = (l, u) ∧ l ≤ u := by
  unfold nonempty at h
  split at h
  · rename_i hle
    obtain rfl := Option.some.inj h
    exact ⟨rfl, hle⟩
  · cases h

theorem within_nonempty {n : ℕ} {b : ℤ × ℤ} (h0 : 0 ≤ b.1) (hn : b.2 < n) : Within n (nonempty b) := by
  intro l u h
  obtain ⟨rfl, hle⟩ := nonempty_eq_some h
  exact ⟨h0, hle, hn⟩

theorem documents_within {P : Profile} {slot n : ℕ} (hn : n < 2 ^ 63) {window : Option Document} {b : ℤ × ℤ}
    (h : (Windows.documents window).bounds P slot n = .ok b) : Within n (nonempty b) := by
  rcases documents_cases hn h with ⟨-, rfl⟩ | ⟨_, _, low, high, -, -, -, rfl⟩
  · exact within_nonempty le_rfl (by show (n : ℤ) - 1 < n; omega)
  · exact within_nonempty (le_max_right _ _) (lt_of_le_of_lt (min_le_right _ _) (by omega))

/-- A window of documents that is not empty is not before the last one, if that was not empty either. -/
theorem documents_neverBack {P : Profile} {slot n : ℕ} (hslot : slot + 1 < n) (hn : n < 2 ^ 63)
    {window : Option Document} {b c : ℤ × ℤ} (hb : (Windows.documents window).bounds P slot n = .ok b)
    (hc : (Windows.documents window).bounds P (slot + 1) n = .ok c) : NeverBack (nonempty b) (nonempty c) := by
  cases hbn : nonempty b with
  | none => trivial
  | some o =>
    cases hcn : nonempty c with
    | none => trivial
    | some w =>
      obtain ⟨ol, ou⟩ := o
      obtain ⟨l, u⟩ := w
      obtain ⟨hbo, hol⟩ := nonempty_eq_some hbn
      obtain ⟨hcw, hlu⟩ := nonempty_eq_some hcn
      show ol ≤ l ∧ ou ≤ u
      rcases documents_cases hn hb with ⟨hw, rfl⟩ | ⟨lower, upper, low, high, hw, hlow, hhigh, rfl⟩ <;>
        rcases documents_cases hn hc with ⟨hw', rfl⟩ | ⟨lower', upper', low', high', hw', hlow', hhigh', rfl⟩
      · cases hbo
        cases hcw
        exact ⟨le_rfl, le_rfl⟩
      · rw [hw] at hw'
        cases hw'
      · rw [hw] at hw'
        cases hw'
      · rw [hw] at hw'
        cases hw'
        have hmin := resolve_succ hslot hn hlow hlow'
        have hmax := resolve_succ hslot hn hhigh hhigh'
        have hb1 := congrArg Prod.fst hbo
        have hb2 := congrArg Prod.snd hbo
        have hc1 := congrArg Prod.fst hcw
        have hc2 := congrArg Prod.snd hcw
        simp only at hb1 hb2 hc1 hc2
        -- a bound past 64 bits leaves this window or the last one empty, or starts both at the first row
        constructor <;> omega

/-! ## The run -/

/-- A source of windows for a partition of `n`: one sort value a row. -/
def Windows.Fits (n : ℕ) : Windows → Prop
  | .documents _ => True
  | .range vals _ => vals.length = n

def Windows.isRange : Windows → Bool
  | .documents _ => false
  | .range _ _ => true

theorem windows_within {P : Profile} {slot n : ℕ} (hn : n < 2 ^ 63) {windows : Windows} (hfits : windows.Fits n)
    {b : ℤ × ℤ} (h : windows.bounds P slot n = .ok b) : Within n (nonempty b) := by
  cases windows with
  | documents window => exact documents_within hn h
  | range vals edges =>
    rw [Windows.bounds] at h
    cases hedges : edges slot with
    | error e =>
      rw [hedges] at h
      cases h
    | ok e =>
      rw [hedges] at h
      obtain rfl := Except.ok.inj h
      refine within_nonempty (Int.natCast_nonneg _) ?_
      have hlen : vals.length = n := hfits
      show (vals.length : ℤ) - 1 - _ < n
      omega

theorem moveAlong_spec (hD : D.Exact Holds nearest) (hv : ∀ v ∈ values, isIntegral v = true)
    (hm : magnitude values < 2 ^ 106) {bounds : ℕ → Except Stop (ℤ × ℤ)} {b : ℕ → ℤ × ℤ} {n : ℕ}
    (hb : ∀ pos < n, bounds pos = .ok (b pos)) (hwithin : ∀ pos < n, Within values.length (nonempty (b pos)))
    (hback : ∀ pos, pos + 1 < n → NeverBack (nonempty (b pos)) (nonempty (b (pos + 1)))) {k pos : ℕ} (hk : pos + k = n)
    {last : Option (ℤ × ℤ)} (hlast : Within values.length last)
    (hfirst : 0 < k → NeverBack last (nonempty (b pos))) {r : Running σ} (hr : r.Over Holds op values)
    (hqueue : r.queue = rowsOf last) :
    ∃ steps, moveAlong D M F values bounds k pos last r = .ok steps ∧ steps.length = k ∧
      ∀ i r out, steps[i]? = some (r, out) → r.queue = rowsOf (nonempty (b (pos + i))) ∧ r.Over Holds op values ∧
        r.state.value D M F = .ok out := by
  induction k generalizing pos last r with
  | zero => exact ⟨[], rfl, rfl, fun i r out h => by simp at h⟩
  | succ k ih =>
    have hpos : pos < n := by omega
    obtain ⟨r', hr', hqueue', hover'⟩ :=
      move_spec (M := M) hD hv hm hlast (hwithin pos hpos) (hfirst (Nat.succ_pos k)) hr hqueue
    have hmr : magnitude (pick values r'.queue) < 2 ^ 106 := by
      rw [hqueue']
      cases nonempty (b pos) with
      | none => exact lt_of_le_of_lt (magnitude_range' values 0 0) hm
      | some w => exact lt_of_le_of_lt (magnitude_range' values _ _) hm
    obtain ⟨out, hout⟩ := value_ok (M := M) hD F hover' hmr
    have hk' : pos + 1 + k = n := by omega
    obtain ⟨steps, hsteps, hlen, hspec⟩ := ih hk' (hwithin pos hpos)
      (fun hk => hback pos (by omega)) hover' hqueue'
    refine ⟨(r', out) :: steps, ?_, by rw [List.length_cons, hlen], fun i r'' out' h => ?_⟩
    · rw [moveAlong, hb pos hpos]
      show (move D M values last (nonempty (b pos)) r >>= _) = _
      rw [hr']
      show (refused (r'.state.value D M F) >>= _) = _
      rw [hout]
      show (moveAlong D M F values bounds k (pos + 1) (nonempty (b pos)) r' >>= _) = _
      rw [hsteps]
      rfl
    · cases i with
      | zero =>
        obtain ⟨rfl, rfl⟩ := Prod.mk.inj (Option.some.inj h)
        exact ⟨hqueue', hover', hout⟩
      | succ i =>
        rw [List.getElem?_cons_succ] at h
        have hplace : pos + 1 + i = pos + (i + 1) := by omega
        rw [← hplace]
        exact hspec i r'' out' h

theorem recompute_of (hD : D.Exact Holds nearest) {vs ws : List Bson} (hv : ∀ v ∈ vs, isIntegral v = true)
    {r : Removable σ} (hr : r.Of Holds op ws) (hm : magnitude (ws ++ vs) < 2 ^ 106) :
    ∃ r', vs.foldlM (fun r v => r.update D M v 1) r = .ok r' ∧ r'.Of Holds op (ws ++ vs) := by
  induction vs generalizing ws r with
  | nil => exact ⟨r, rfl, by rwa [List.append_nil]⟩
  | cons v vs ih =>
    have hall : ws ++ v :: vs = ws ++ [v] ++ vs := by simp
    rw [hall] at hm ⊢
    have hm' : magnitude (ws ++ [v]) < 2 ^ 106 :=
      lt_of_le_of_lt (magnitude_sublist (List.sublist_append_left _ vs)) hm
    obtain ⟨r₁, hr₁, hof₁⟩ := of_enter (M := M) hD hr (hv v List.mem_cons_self) hm'
    obtain ⟨r₂, hr₂, hof₂⟩ := ih (fun w hw => hv w (List.mem_cons_of_mem v hw)) hof₁ hm
    refine ⟨r₂, ?_, hof₂⟩
    rw [List.foldlM_cons, hr₁]
    exact hr₂

theorem count_congr {vs : List Bson} {r r' : Removable σ} (h : r.Of Holds op vs) (h' : r'.Of Holds op vs) :
    r.count = r'.count := by
  cases r with
  | sum s =>
    cases r' with
    | sum s' => rfl
    | avg s' count' => exact absurd (h.1.symm.trans h'.1) (by decide)
  | avg s count =>
    cases r' with
    | sum s' => exact absurd (h.1.symm.trans h'.1) (by decide)
    | avg s' count' => exact h.2.2.trans h'.2.2.symm

theorem isIntegral_pick (hv : ∀ v ∈ values, isIntegral v = true) (rows : List ℕ) :
    ∀ v ∈ pick values rows, isIntegral v = true := by
  intro v hmem
  obtain ⟨i, -, hi⟩ := List.mem_filterMap.mp hmem
  exact hv v (List.mem_of_getElem? hi)

end

/-! ## The smallest integer in a window of two -/

/-- The compensated sum on integers within 64 bits, where it answers no double. -/
def exactLongs : DoubleDouble ℤ where
  default := 0
  addDouble t _ := t
  addLong t i := t + i.toInt
  addInt t i := t + i.toInt
  getDouble _ := ⟨0⟩
  fitsLong t := -2 ^ 63 ≤ t && t < 2 ^ 63
  getLong t := Int64.ofInt t
  getDecimal _ := none

theorem exactLongs_exact : exactLongs.Exact (fun s t => s = t) fun _ => ⟨0⟩ where
  default := rfl
  addInt i h _ _ := by rw [← h]; rfl
  addLong i h _ _ := by rw [← h]; rfl
  fitsLong h _ := by
    rw [← h]
    simp [exactLongs]
  getLong h _ := by rw [← h]; rfl
  getDouble _ _ := rfl

def noDecimals : Decimals where
  zero := none
  add _ _ := none
  neg d := d
  fromAccumulator _ := none
  fromBson _ := none
  toBson _ := none
  toDouble _ := none
  integralI64 _ := none
  divInt _ _ := none

def noFloats : Floats where
  ofInt _ := ⟨0⟩
  div d _ := d

/-- `{documents: [-1, 0]}`. -/
def pairWindow : Windows := .documents (some [("documents", .array [.int32 (-1), .int32 0])])

def pairValues : List Bson := [.int64 Int64.minValue, .int32 5, .null, .int64 3]

end Secantus.WindowFields
