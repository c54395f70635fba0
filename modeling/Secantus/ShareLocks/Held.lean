/-
  Shared row locks (`share_locks` of secantus-storage, and the shared part of `Held`): the process-wide
  table of sharers, the rows a transaction shares with their modes, and the log of the rows in the order
  first taken, which a rollback to a savepoint cuts back.

  A transaction is known in the table by the address of its `Held`; while it moves onto a new storage
  transaction its rows are guarded under that address with the low bit set. A run is any list of events
  of all the transactions. `Tidy`: a transaction's log holds the rows it shares, once each, and the
  table has for it exactly what it has itself.

  Rolling a transaction's shared locks back to a savepoint's mark. The log has each row once, from the
  first time it was taken, so a row taken before the mark and strengthened after it is not in what the
  rollback lets go: it keeps the stronger mode (`release_keeps_strengthened`). Everything else is put
  back, in the transaction's own set and in the table (`release_restores_iff`).
-/
import Secantus.Library.Merge
import Mathlib.Data.List.Nodup
import Mathlib.Logic.Function.Basic
import Mathlib.Data.List.Induction

namespace Secantus.ShareLocks

variable {Row : Type*} [DecidableEq Row]

/-- `ShareMode`, the weaker first. -/
inductive ShareMode where
  | keyShare
  | share
  deriving DecidableEq

/-- The stronger of two modes. -/
def ShareMode.max : ShareMode → ShareMode → ShareMode
  | .keyShare, m => m
  | .share, _ => .share

/-- The mode after taking a lock in `mode` on a row held as `prev`. -/
def strongest (prev : Option ShareMode) (mode : ShareMode) : ShareMode :=
  match prev with
  | some p => p.max mode
  | none => mode

/-! ## The table -/

/-- The sharers of a row of a store, each with its mode. -/
abbrev Table (Row : Type*) := ℕ → Row → List (ℕ × ShareMode)

/-- The sharers with the first entry of `holder` strengthened, when there is one. -/
def strengthen (holder : ℕ) (mode : ShareMode) : List (ℕ × ShareMode) → Option (List (ℕ × ShareMode))
  | [] => none
  | (h, m) :: hs =>
    if h = holder then some ((h, m.max mode) :: hs)
    else (strengthen holder mode hs).map ((h, m) :: ·)

def Table.set (t : Table Row) (store : ℕ) (row : Row) (hs : List (ℕ × ShareMode)) : Table Row :=
  fun store' row' => if store = store' ∧ row = row' then hs else t store' row'

/-- `share_locks::add`: `true` when it is a new entry. -/
def add (t : Table Row) (store : ℕ) (row : Row) (holder : ℕ) (mode : ShareMode) : Table Row × Bool :=
  match strengthen holder mode (t store row) with
  | some hs => (t.set store row hs, false)
  | none => (t.set store row (t store row ++ [(holder, mode)]), true)

/-- `share_locks::remove`. -/
def remove (t : Table Row) (store : ℕ) (row : Row) (holder : ℕ) : Table Row :=
  t.set store row ((t store row).filter (·.1 ≠ holder))

/-- The mode the table has for `holder`. -/
def Table.mode (t : Table Row) (store : ℕ) (row : Row) (holder : ℕ) : Option ShareMode :=
  (t store row).lookup holder

def moverOf (holder : ℕ) : ℕ := holder ||| 1

/-! ## A transaction's shared locks -/

/-- The shared part of `Held`. -/
structure Held (Row : Type*) where
  store : ℕ
  shared : Row → Option ShareMode
  sharedLog : List Row

/-- The transactions and the table they share. -/
structure Locks (Row : Type*) where
  table : Table Row
  held : ℕ → Held Row

/-- `Held::holder`: the address of a transaction's `Held`, which is word-aligned. -/
def holder (t : ℕ) : ℕ := 8 * t

def Held.sharedLen (h : Held Row) : ℕ := h.sharedLog.length

/-- `share_row` of the transaction `t`. -/
def shareRow (s : Locks Row) (t : ℕ) (row : Row) (mode : ShareMode) : Locks Row × Bool :=
  let held := s.held t
  let (table, new) := add s.table held.store row (holder t) mode
  let prev := held.shared row
  let log := if prev.isNone then held.sharedLog ++ [row] else held.sharedLog
  (⟨table, Function.update s.held t
    ⟨held.store, Function.update held.shared row (some (strongest prev mode)), log⟩⟩, new)

def unshareRow (s : Locks Row) (t : ℕ) (row : Row) : Locks Row :=
  let held := s.held t
  ⟨remove s.table held.store row (holder t), Function.update s.held t
    ⟨held.store, Function.update held.shared row none, held.sharedLog.filter (· ≠ row)⟩⟩

/-- One row let go. -/
def letGo (s : Locks Row) (t : ℕ) (row : Row) : Locks Row :=
  let held := s.held t
  ⟨remove s.table held.store row (holder t), Function.update s.held t
    { held with shared := Function.update held.shared row none }⟩

/-- `Held::release_shared_after`. -/
def releaseSharedAfter (s : Locks Row) (t : ℕ) (keep : ℕ) : Locks Row :=
  let held := s.held t
  if held.sharedLog.length ≤ keep then s
  else
    let cut := ⟨held.store, held.shared, held.sharedLog.take keep⟩
    (held.sharedLog.drop keep).foldl (letGo · t) ⟨s.table, Function.update s.held t cut⟩

inductive Event (Row : Type*) where
  /-- `share_row`, backed out when the lock is new and a holder is found in a conflicting mode. -/
  | share (t : ℕ) (row : Row) (mode : ShareMode) (backOut : Bool)
  /-- Back to a mark (the end of the transaction: to `0`). -/
  | releaseAfter (t : ℕ) (keep : ℕ)
  /-- `MoveGuard` enters a row of a moving transaction. -/
  | guard (t : ℕ) (row : Row)
  | unguard (t : ℕ) (row : Row)

def Locks.step (s : Locks Row) : Event Row → Locks Row
  | .share t row mode backOut =>
    let (s, new) := shareRow s t row mode
    if backOut && new then unshareRow s t row else s
  | .releaseAfter t keep => releaseSharedAfter s t keep
  | .guard t row => { s with table := (add s.table (s.held t).store row (moverOf (holder t)) .share).1 }
  | .unguard t row => { s with table := remove s.table (s.held t).store row (moverOf (holder t)) }

def Locks.run (s : Locks Row) (events : List (Event Row)) : Locks Row := events.foldl Locks.step s

/-- Nothing shared; each transaction in its store. -/
def Locks.opened (stores : ℕ → ℕ) : Locks Row := ⟨fun _ _ => [], fun t => ⟨stores t, fun _ => none, []⟩⟩

/-! ## What the operations do -/

theorem moverOf_ne_holder (t u : ℕ) : moverOf (holder t) ≠ holder u := by
  have hodd : (moverOf (holder t)).testBit 0 = true := by simp [moverOf]
  have heven : (holder u).testBit 0 = false := by
    simp [holder]
    omega
  intro h
  rw [h, heven] at hodd
  cases hodd

theorem holder_inj {t u : ℕ} (h : holder t = holder u) : t = u := by
  unfold holder at h
  omega

theorem strengthen_none {holder : ℕ} {mode : ShareMode} {hs : List (ℕ × ShareMode)}
    (h : strengthen holder mode hs = none) : hs.lookup holder = none := by
  induction hs with
  | nil => rfl
  | cons e hs ih =>
    obtain ⟨h', m⟩ := e
    rw [strengthen] at h
    split at h
    · cases h
    · rename_i hne
      rw [List.lookup_cons, beq_false_of_ne (Ne.symm hne)]
      exact ih (Option.map_eq_none_iff.mp h)

theorem strengthen_some {holder : ℕ} {mode : ShareMode} {hs hs' : List (ℕ × ShareMode)}
    (h : strengthen holder mode hs = some hs') :
    ∃ p, hs.lookup holder = some p ∧ hs'.lookup holder = some (p.max mode) ∧
      ∀ other, other ≠ holder → hs'.lookup other = hs.lookup other := by
  induction hs generalizing hs' with
  | nil => cases h
  | cons e hs ih =>
    obtain ⟨h', m⟩ := e
    rw [strengthen] at h
    split at h
    · rename_i heq
      obtain rfl := Option.some.inj h
      subst heq
      refine ⟨m, by simp, by simp, fun other hne => ?_⟩
      simp only [List.lookup_cons, beq_false_of_ne hne]
    · rename_i hne
      obtain ⟨hs'', hrest, rfl⟩ := Option.map_eq_some_iff.mp h
      obtain ⟨p, hp, hp', hother⟩ := ih hrest
      have hbeq : (holder == h') = false := beq_false_of_ne (Ne.symm hne)
      refine ⟨p, ?_, ?_, fun other ho => ?_⟩
      · rw [List.lookup_cons, hbeq]
        exact hp
      · rw [List.lookup_cons, hbeq]
        exact hp'
      · rw [List.lookup_cons, List.lookup_cons, hother other ho]

theorem mode_add (t : Table Row) (store : ℕ) (row : Row) (h : ℕ) (mode : ShareMode) (store' : ℕ)
    (row' : Row) (h' : ℕ) :
    (add t store row h mode).1.mode store' row' h' =
      if (store = store' ∧ row = row') ∧ h = h' then some (strongest (t.mode store row h) mode)
      else t.mode store' row' h' := by
  unfold Table.mode add
  by_cases hkey : store = store' ∧ row = row'
  · obtain ⟨rfl, rfl⟩ := hkey
    cases hs : strengthen h mode (t store row) with
    | none =>
      have hnone := strengthen_none hs
      simp only [Table.set, and_self, if_true, true_and, List.lookup_append, hnone]
      by_cases hh : h = h'
      · subst hh
        simp [hnone, strongest]
      · rw [if_neg hh, List.lookup_cons, beq_false_of_ne (Ne.symm hh)]
        simp
    | some hs' =>
      obtain ⟨p, hp, hp', hother⟩ := strengthen_some hs
      simp only [Table.set, and_self, if_true, true_and, hp]
      by_cases hh : h = h'
      · subst hh
        rw [if_pos rfl, hp']
        rfl
      · rw [if_neg hh, hother h' (Ne.symm hh)]
  · have hne : ¬ ((store = store' ∧ row = row') ∧ h = h') := fun hand => hkey hand.1
    rw [if_neg hne]
    split <;> simp only [Table.set, if_neg hkey]

theorem add_new (t : Table Row) (store : ℕ) (row : Row) (h : ℕ) (mode : ShareMode) :
    (add t store row h mode).2 = (t.mode store row h).isNone := by
  unfold Table.mode add
  cases hs : strengthen h mode (t store row) with
  | none =>
    rw [strengthen_none hs]
    rfl
  | some hs' =>
    obtain ⟨p, hp, -⟩ := strengthen_some hs
    rw [hp]
    rfl

theorem mode_remove (t : Table Row) (store : ℕ) (row : Row) (h store' : ℕ) (row' : Row) (h' : ℕ) :
    (remove t store row h).mode store' row' h' =
      if (store = store' ∧ row = row') ∧ h = h' then none else t.mode store' row' h' := by
  unfold Table.mode remove Table.set
  by_cases hkey : store = store' ∧ row = row'
  · obtain ⟨rfl, rfl⟩ := hkey
    simp only [and_self, if_true, true_and]
    induction t store row with
    | nil => simp
    | cons e hs ih =>
      by_cases he : e.1 = h
      · rw [List.filter_cons_of_neg (by simpa using he), ih]
        by_cases hh : h = h'
        · simp [hh]
        · rw [if_neg hh, if_neg hh, List.lookup_cons, he, beq_false_of_ne (Ne.symm hh)]
      · rw [List.filter_cons_of_pos (by simpa using he), List.lookup_cons, List.lookup_cons, ih]
        by_cases hh : h = h'
        · subst hh
          rw [if_pos rfl, if_pos rfl, beq_false_of_ne (Ne.symm he)]
        · rw [if_neg hh, if_neg hh]
  · rw [if_neg hkey, if_neg fun hand => hkey hand.1]

theorem foldl_letGo (t : ℕ) (rows : List Row) (s : Locks Row) :
    let s' := rows.foldl (letGo · t) s
    s'.held = Function.update s.held t
      { s.held t with shared := fun row => if row ∈ rows then none else (s.held t).shared row } ∧
    ∀ store row h, s'.table.mode store row h =
      if (store = (s.held t).store ∧ row ∈ rows) ∧ h = holder t then none
      else s.table.mode store row h := by
  induction rows generalizing s with
  | nil => simp
  | cons r rows ih =>
    obtain ⟨hheld, htable⟩ := ih (letGo s t r)
    have hself : (letGo s t r).held t =
        { s.held t with shared := Function.update (s.held t).shared r none } := by
      simp [letGo]
    refine ⟨?_, fun store row h => ?_⟩
    · rw [List.foldl_cons, hheld, hself]
      simp only [letGo, Function.update_idem]
      congr 2
      funext row
      by_cases hrow : row = r
      · simp [hrow]
      · simp [hrow]
    · rw [List.foldl_cons, htable, hself]
      simp only [letGo, mode_remove, List.mem_cons]
      by_cases hmem : (store = (s.held t).store ∧ row ∈ rows) ∧ h = holder t
      · simp [hmem]
      · rw [if_neg hmem]
        by_cases hr : row = r
        · subst hr
          grind
        · grind

/-- What `release_shared_after` does: the log is cut, and the rows cut off are let go. -/
theorem releaseSharedAfter_spec (s : Locks Row) (t keep : ℕ) :
    let s' := releaseSharedAfter s t keep
    s'.held = Function.update s.held t ⟨(s.held t).store,
      fun row => if row ∈ (s.held t).sharedLog.drop keep then none else (s.held t).shared row,
      (s.held t).sharedLog.take keep⟩ ∧
    ∀ store row h, s'.table.mode store row h =
      if (store = (s.held t).store ∧ row ∈ (s.held t).sharedLog.drop keep) ∧ h = holder t then none
      else s.table.mode store row h := by
  unfold releaseSharedAfter
  by_cases hkeep : (s.held t).sharedLog.length ≤ keep
  · simp only [if_pos hkeep, List.drop_eq_nil_of_le hkeep, List.take_of_length_le hkeep,
      List.not_mem_nil, if_false, and_false, false_and, implies_true, and_true]
    exact (Function.update_eq_self t s.held).symm
  · simp only [if_neg hkeep]
    obtain ⟨hheld, htable⟩ := foldl_letGo t ((s.held t).sharedLog.drop keep)
      ⟨s.table, Function.update s.held t
        ⟨(s.held t).store, (s.held t).shared, (s.held t).sharedLog.take keep⟩⟩
    simp only [Function.update_self, Function.update_idem] at hheld htable
    exact ⟨hheld, htable⟩

/-! ## The log, the map and the table agree -/

structure Tidy (s : Locks Row) (t : ℕ) : Prop where
  nodup : (s.held t).sharedLog.Nodup
  logged : ∀ row, row ∈ (s.held t).sharedLog ↔ (s.held t).shared row ≠ none
  table : ∀ store row, s.table.mode store row (holder t) =
    if store = (s.held t).store then (s.held t).shared row else none

omit [DecidableEq Row] in
theorem tidy_opened (stores : ℕ → ℕ) (t : ℕ) : Tidy (Locks.opened stores : Locks Row) t where
  nodup := List.nodup_nil
  logged := fun row => by simp [Locks.opened]
  table := fun store row => by
    show none = if store = stores t then none else none
    rw [ite_self]

omit [DecidableEq Row] in
/-- What leaves the transaction's own set and its entries of the table leaves it tidy. -/
theorem Tidy.congr {s s' : Locks Row} {t : ℕ} (h : Tidy s t) (hheld : s'.held t = s.held t)
    (htable : ∀ store row, s'.table.mode store row (holder t) = s.table.mode store row (holder t)) :
    Tidy s' t where
  nodup := hheld ▸ h.nodup
  logged := hheld ▸ h.logged
  table := fun store row => by rw [htable, hheld, h.table]

/-- The transaction's own set after it takes a lock. -/
theorem shareRow_held (s : Locks Row) (t : ℕ) (row : Row) (mode : ShareMode) :
    (shareRow s t row mode).1.held t = ⟨(s.held t).store,
      Function.update (s.held t).shared row (some (strongest ((s.held t).shared row) mode)),
      if ((s.held t).shared row).isNone then (s.held t).sharedLog ++ [row]
      else (s.held t).sharedLog⟩ :=
  Function.update_self ..

/-- The lock is new exactly when the transaction does not share the row. -/
theorem Tidy.shareRow_new {s : Locks Row} {t : ℕ} (h : Tidy s t) (row : Row) (mode : ShareMode) :
    (shareRow s t row mode).2 = ((s.held t).shared row).isNone := by
  show (add s.table (s.held t).store row (holder t) mode).2 = _
  rw [add_new, h.table, if_pos rfl]

theorem Tidy.shareRow {s : Locks Row} {t : ℕ} (h : Tidy s t) (row : Row) (mode : ShareMode) :
    Tidy (shareRow s t row mode).1 t := by
  have hheld := shareRow_held s t row mode
  refine ⟨?_, fun row' => ?_, fun store row' => ?_⟩
  · rw [hheld]
    by_cases hnone : (s.held t).shared row = none
    · have hout : row ∉ (s.held t).sharedLog := fun hmem => (h.logged row).mp hmem hnone
      simp only [hnone, Option.isNone_none, if_true]
      exact List.nodup_append.mpr ⟨h.nodup, List.nodup_singleton row,
        fun a ha b hb => fun hab => hout ((List.mem_singleton.mp hb) ▸ hab ▸ ha)⟩
    · simp only [Option.isNone_iff_eq_none, hnone, if_false]
      exact h.nodup
  · rw [hheld]
    by_cases hrow : row' = row
    · subst hrow
      by_cases hnone : (s.held t).shared row' = none
      · simp [hnone]
      · simpa [hnone] using (h.logged row').mpr hnone
    · simp only [Function.update_of_ne hrow]
      rw [← h.logged row']
      split <;> simp [hrow]
  · rw [hheld]
    show (add s.table (s.held t).store row (holder t) mode).1.mode store row' (holder t) = _
    rw [mode_add, h.table, h.table, if_pos rfl]
    by_cases hrow : row' = row
    · subst hrow
      by_cases hstore : store = (s.held t).store
      · simp [hstore]
      · simp [hstore, Ne.symm hstore]
    · simp [hrow, Ne.symm hrow]

/-- A lock backed out: the transaction is as if it had not asked. -/
theorem Tidy.backOut {s : Locks Row} {t : ℕ} (h : Tidy s t) {row : Row} (mode : ShareMode)
    (hnone : (s.held t).shared row = none) :
    (unshareRow (ShareLocks.shareRow s t row mode).1 t row).held t = s.held t ∧
    ∀ store row', (unshareRow (ShareLocks.shareRow s t row mode).1 t row).table.mode store row'
      (holder t) = s.table.mode store row' (holder t) := by
  have hheld := shareRow_held s t row mode
  have hout : row ∉ (s.held t).sharedLog := fun hmem => (h.logged row).mp hmem hnone
  refine ⟨?_, fun store row' => ?_⟩
  · simp only [unshareRow, Function.update_self, hheld, Function.update_idem, hnone,
      Option.isNone_none, if_true, List.filter_append]
    have hlog : (s.held t).sharedLog.filter (· ≠ row) = (s.held t).sharedLog :=
      List.filter_eq_self.mpr fun r hr => by
        have hne : r ≠ row := fun heq => hout (heq ▸ hr)
        simpa using hne
    have hshared : Function.update (s.held t).shared row none = (s.held t).shared := by
      rw [← hnone, Function.update_eq_self]
    rw [hlog, hshared]
    simp
  · simp only [unshareRow, hheld, mode_remove]
    show (if _ then _ else (add s.table (s.held t).store row (holder t) mode).1.mode store row'
      (holder t)) = _
    rw [mode_add]
    by_cases hkey : (s.held t).store = store ∧ row = row'
    · obtain ⟨rfl, rfl⟩ := hkey
      simp [h.table, hnone]
    · simp [hkey]

/-- The event of another transaction: its own set and its entries are someone else's. -/
theorem step_other {s : Locks Row} {t : ℕ} {e : Event Row}
    (he : ∀ row mode backOut, e ≠ .share t row mode backOut) (he' : ∀ keep, e ≠ .releaseAfter t keep) :
    (s.step e).held t = s.held t ∧
    ∀ store row, (s.step e).table.mode store row (holder t) = s.table.mode store row (holder t) := by
  cases e with
  | share u row mode backOut =>
    have hne : t ≠ u := fun heq => he row mode backOut (heq ▸ rfl)
    have hholder : holder u ≠ holder t := fun heq => hne (holder_inj heq).symm
    have hshare : (shareRow s u row mode).1.held t = s.held t ∧ ∀ store row',
        (shareRow s u row mode).1.table.mode store row' (holder t) =
          s.table.mode store row' (holder t) := by
      refine ⟨Function.update_of_ne hne .., fun store row' => ?_⟩
      exact (mode_add ..).trans (if_neg fun hand => hholder hand.2)
    simp only [Locks.step]
    split
    · refine ⟨(Function.update_of_ne hne ..).trans hshare.1, fun store row' => ?_⟩
      refine (mode_remove ..).trans ?_
      rw [if_neg fun hand => hholder hand.2, hshare.2]
    · exact hshare
  | releaseAfter u keep =>
    have hne : t ≠ u := fun heq => he' keep (heq ▸ rfl)
    obtain ⟨hheld, htable⟩ := releaseSharedAfter_spec s u keep
    refine ⟨?_, fun store row => ?_⟩
    · exact (congrFun hheld t).trans (Function.update_of_ne hne ..)
    · exact (htable ..).trans (if_neg fun hand => hne (holder_inj hand.2))
  | guard u row =>
    refine ⟨rfl, fun store row' => ?_⟩
    exact (mode_add ..).trans (if_neg fun hand => moverOf_ne_holder u t hand.2)
  | unguard u row =>
    refine ⟨rfl, fun store row' => ?_⟩
    exact (mode_remove ..).trans (if_neg fun hand => moverOf_ne_holder u t hand.2)

theorem Tidy.step {s : Locks Row} {t : ℕ} (h : Tidy s t) (e : Event Row) : Tidy (s.step e) t := by
  by_cases hshare : ∃ row mode backOut, e = .share t row mode backOut
  · obtain ⟨row, mode, backOut, rfl⟩ := hshare
    simp only [Locks.step]
    split
    · rename_i hback
      rw [Bool.and_eq_true, h.shareRow_new, Option.isNone_iff_eq_none] at hback
      obtain ⟨hheld, htable⟩ := h.backOut mode hback.2
      exact h.congr hheld htable
    · exact h.shareRow row mode
  · by_cases hrelease : ∃ keep, e = .releaseAfter t keep
    · obtain ⟨keep, rfl⟩ := hrelease
      obtain ⟨hheld, htable⟩ := releaseSharedAfter_spec s t keep
      have hself := (congrFun hheld t).trans (Function.update_self ..)
      -- a row cut off is not also kept
      have hsplit : ∀ row, row ∈ (s.held t).sharedLog.take keep ↔
          row ∈ (s.held t).sharedLog ∧ row ∉ (s.held t).sharedLog.drop keep := by
        intro row
        have hnodup := h.nodup
        rw [← List.take_append_drop keep (s.held t).sharedLog, List.nodup_append] at hnodup
        refine ⟨fun hin => ⟨List.mem_of_mem_take hin, fun hout => ?_⟩, fun ⟨hin, hout⟩ => ?_⟩
        · exact hnodup.2.2 row hin row hout rfl
        · rw [← List.take_append_drop keep (s.held t).sharedLog, List.mem_append] at hin
          exact hin.resolve_right hout
      refine ⟨?_, fun row => ?_, fun store row => ?_⟩
      · show ((releaseSharedAfter s t keep).held t).sharedLog.Nodup
        rw [hself]
        exact h.nodup.sublist (List.take_sublist _ _)
      · show row ∈ ((releaseSharedAfter s t keep).held t).sharedLog ↔
          ((releaseSharedAfter s t keep).held t).shared row ≠ none
        rw [hself]
        simp only [hsplit, h.logged]
        split <;> simp_all
      · show (releaseSharedAfter s t keep).table.mode store row (holder t) = _
        rw [htable, h.table]
        show _ = if store = ((releaseSharedAfter s t keep).held t).store then
          ((releaseSharedAfter s t keep).held t).shared row else none
        rw [hself]
        by_cases hstore : store = (s.held t).store
        · simp [hstore]
        · simp [hstore]
    · obtain ⟨hheld, htable⟩ := step_other (s := s) (t := t) (e := e)
        (fun row mode backOut heq => hshare ⟨row, mode, backOut, heq⟩)
        (fun keep heq => hrelease ⟨keep, heq⟩)
      exact h.congr hheld htable

theorem tidy_run (stores : ℕ → ℕ) (events : List (Event Row)) (t : ℕ) :
    Tidy ((Locks.opened stores).run events) t :=
  Library.run_invariant Locks.step (P := (Tidy · t)) (fun _ e h => h.step e) events _
    (tidy_opened stores t)

variable {Row : Type*} [DecidableEq Row]

theorem Locks.run_append_singleton (s : Locks Row) (events : List (Event Row)) (e : Event Row) :
    s.run (events ++ [e]) = (s.run events).step e := by
  unfold Locks.run
  rw [List.foldl_append]
  rfl

/-- `FOR SHARE` is asked of the row in `events`. -/
def Asked (t : ℕ) (row : Row) (events : List (Event Row)) : Prop :=
  ∃ backOut, .share t row .share backOut ∈ events

omit [DecidableEq Row] in
theorem asked_append (t : ℕ) (row : Row) (events : List (Event Row)) (e : Event Row) :
    Asked t row (events ++ [e]) ↔ Asked t row events ∨ ∃ backOut, e = .share t row .share backOut := by
  simp only [Asked, List.mem_append, List.mem_singleton, exists_or, eq_comm]

/-- A transaction's locks, against those it had at a mark: they come first in its log, and each has
    the mode it had, or the stronger one if that was asked for. -/
structure Since (s s' : Locks Row) (t : ℕ) (events : List (Event Row)) : Prop where
  store : (s'.held t).store = (s.held t).store
  log : (s.held t).sharedLog <+: (s'.held t).sharedLog
  shared : ∀ row m, (s.held t).shared row = some m →
    Asked t row events ∧ (s'.held t).shared row = some .share ∨
    ¬ Asked t row events ∧ (s'.held t).shared row = some m

/-- An event of the transaction: `held` is its set after it. -/
theorem Since.share {s s' : Locks Row} {t : ℕ} {events : List (Event Row)}
    (h : Since s s' t events) (htidy : Tidy s' t) (row : Row) (mode : ShareMode) (backOut : Bool) :
    Since s (s'.step (.share t row mode backOut)) t (events ++ [.share t row mode backOut]) := by
  have hasked : ∀ row', Asked t row' (events ++ [.share t row mode backOut]) ↔
      Asked t row' events ∨ row = row' ∧ mode = .share := by
    intro row'
    rw [asked_append]
    simp
  by_cases hback : backOut = true ∧ (s'.held t).shared row = none
  · -- nothing changed, and the row was not held at the mark
    have hheld : (s'.step (.share t row mode backOut)).held t = s'.held t := by
      have hnew : (backOut && (shareRow s' t row mode).2) = true := by
        rw [htidy.shareRow_new, hback.1, hback.2]
        rfl
      simp only [Locks.step, hnew, if_true]
      exact (htidy.backOut mode hback.2).1
    refine ⟨by rw [hheld, h.store], by rw [hheld]; exact h.log, fun row' m hm => ?_⟩
    have hne : row ≠ row' := by
      rintro rfl
      rcases h.shared row m hm with ⟨-, hs⟩ | ⟨-, hs⟩ <;> rw [hback.2] at hs <;> cases hs
    rw [hasked, hheld]
    simpa [hne] using h.shared row' m hm
  · have hheld : (s'.step (.share t row mode backOut)).held t = (shareRow s' t row mode).1.held t := by
      have hold : ¬ (backOut && (shareRow s' t row mode).2) = true := by
        rw [htidy.shareRow_new, Bool.and_eq_true, Option.isNone_iff_eq_none]
        exact hback
      simp only [Locks.step, if_neg hold]
    rw [shareRow_held] at hheld
    refine ⟨by rw [hheld]; exact h.store, ?_, fun row' m hm => ?_⟩
    · rw [hheld]
      split
      · exact h.log.trans (List.prefix_append _ _)
      · exact h.log
    · rw [hasked, hheld]
      by_cases hrow : row = row'
      · subst hrow
        simp only [Function.update_self, true_and, Option.some.injEq]
        rcases h.shared row m hm with ⟨ha, hs⟩ | ⟨ha, hs⟩
        · rw [hs]
          exact Or.inl ⟨Or.inl ha, rfl⟩
        · rw [hs]
          cases mode with
          | share =>
            refine Or.inl ⟨Or.inr rfl, ?_⟩
            cases m <;> rfl
          | keyShare =>
            refine Or.inr ⟨by simpa using ha, ?_⟩
            cases m <;> rfl
      · simp only [hrow, false_and, or_false, Function.update_of_ne (Ne.symm hrow)]
        exact h.shared row' m hm

theorem Since.releaseAfter {s s' : Locks Row} {t : ℕ} {events : List (Event Row)}
    (h : Since s s' t events) (hs : Tidy s t) (htidy : Tidy s' t) {keep : ℕ}
    (hkeep : (s.held t).sharedLen ≤ keep) :
    Since s (s'.step (.releaseAfter t keep)) t (events ++ [.releaseAfter t keep]) := by
  have hheld : (s'.step (.releaseAfter t keep)).held t = _ :=
    (congrFun (releaseSharedAfter_spec s' t keep).1 t).trans (Function.update_self ..)
  have hlog : (s.held t).sharedLog <+: (s'.held t).sharedLog.take keep :=
    List.prefix_take_iff.mpr ⟨h.log, hkeep⟩
  have hasked : ∀ row, Asked t row (events ++ [.releaseAfter t keep]) ↔ Asked t row events := by
    intro row
    rw [asked_append]
    simp
  refine ⟨by rw [hheld]; exact h.store, by rw [hheld]; exact hlog, fun row m hm => ?_⟩
  have hkept : row ∈ (s'.held t).sharedLog.take keep :=
    hlog.subset ((hs.logged row).mpr (hm ▸ Option.some_ne_none m))
  have hnot : row ∉ (s'.held t).sharedLog.drop keep := by
    have hnodup := htidy.nodup
    rw [← List.take_append_drop keep (s'.held t).sharedLog, List.nodup_append] at hnodup
    exact fun hout => hnodup.2.2 row hkept row hout rfl
  rw [hasked, hheld]
  simp only [if_neg hnot]
  exact h.shared row m hm

/-- The locks at a mark after any events that do not go back behind it. -/
theorem Tidy.since {s : Locks Row} {t : ℕ} (h : Tidy s t) (events : List (Event Row))
    (hkeep : ∀ keep, .releaseAfter t keep ∈ events → (s.held t).sharedLen ≤ keep) :
    Tidy (s.run events) t ∧ Since s (s.run events) t events := by
  induction events using List.reverseRecOn with
  | nil =>
    refine ⟨h, rfl, List.prefix_refl _, fun row m hm => Or.inr ⟨?_, hm⟩⟩
    rintro ⟨backOut, hmem⟩
    cases hmem
  | append_singleton events e ih =>
    obtain ⟨htidy, hsince⟩ := ih fun keep hmem => hkeep keep (List.mem_append_left _ hmem)
    rw [Locks.run_append_singleton]
    refine ⟨htidy.step e, ?_⟩
    by_cases hshare : ∃ row mode backOut, e = .share t row mode backOut
    · obtain ⟨row, mode, backOut, rfl⟩ := hshare
      exact hsince.share htidy row mode backOut
    · by_cases hrelease : ∃ keep, e = .releaseAfter t keep
      · obtain ⟨keep, rfl⟩ := hrelease
        refine hsince.releaseAfter h htidy (hkeep keep ?_)
        exact List.mem_append_right _ (List.mem_singleton_self _)
      · have hheld := (step_other (s := s.run events) (t := t) (e := e)
          (fun row mode backOut heq => hshare ⟨row, mode, backOut, heq⟩)
          (fun keep heq => hrelease ⟨keep, heq⟩)).1
        refine ⟨by rw [hheld, hsince.store], by rw [hheld]; exact hsince.log, fun row m hm => ?_⟩
        rw [hheld, asked_append]
        have hno : ¬ ∃ backOut, e = .share t row .share backOut :=
          fun ⟨backOut, heq⟩ => hshare ⟨row, .share, backOut, heq⟩
        simpa [hno] using hsince.shared row m hm

/-- The rows logged after the mark are the ones not held at it. -/
theorem Since.release {s s' : Locks Row} {t : ℕ} {events : List (Event Row)}
    (h : Since s s' t events) (hs : Tidy s t) (htidy : Tidy s' t) :
    (releaseSharedAfter s' t (s.held t).sharedLen).held t =
      ⟨(s.held t).store,
        fun row => if (s.held t).shared row = none then none else (s'.held t).shared row,
        (s.held t).sharedLog⟩ := by
  obtain ⟨rest, hrest⟩ := h.log
  have htake : (s'.held t).sharedLog.take (s.held t).sharedLen = (s.held t).sharedLog := by
    rw [← hrest, Held.sharedLen, List.take_left]
  have hdrop : (s'.held t).sharedLog.drop (s.held t).sharedLen = rest := by
    rw [← hrest, Held.sharedLen, List.drop_left]
  rw [congrFun (releaseSharedAfter_spec s' t _).1 t, Function.update_self, htake, hdrop, h.store]
  congr 1
  funext row
  have hnodup := htidy.nodup
  rw [← hrest, List.nodup_append] at hnodup
  have hlogged := htidy.logged row
  rw [← hrest, List.mem_append, hs.logged] at hlogged
  by_cases hnone : (s.held t).shared row = none
  · rw [if_pos hnone]
    split
    · rfl
    · rename_i hout
      by_contra hne
      exact (hlogged.mpr hne).elim (fun hold => hold hnone) hout
  · rw [if_neg hnone, if_neg]
    exact fun hout => hnodup.2.2 row ((hs.logged row).mpr hnone) row hout rfl

/-- Back at the mark a transaction has every lock as it had it, in its own set and in the table,
    exactly when `FOR SHARE` was not asked after the mark of a row it held `FOR KEY SHARE` at it. -/
theorem release_restores_iff (stores : ℕ → ℕ) (events events' : List (Event Row)) (t : ℕ)
    (hkeep : ∀ keep, .releaseAfter t keep ∈ events' →
      (((Locks.opened stores).run events).held t).sharedLen ≤ keep) :
    let s := (Locks.opened stores).run events
    let s' := releaseSharedAfter (s.run events') t (s.held t).sharedLen
    (s'.held t = s.held t ∧ ∀ store row, s'.table.mode store row (holder t) =
      s.table.mode store row (holder t)) ↔
    ∀ row backOut, .share t row .share backOut ∈ events' → (s.held t).shared row ≠ some .keyShare := by
  intro s s'
  have hs : Tidy s t := tidy_run stores events t
  obtain ⟨htidy, hsince⟩ := hs.since events' hkeep
  have hheld := hsince.release hs htidy
  have htidy' : Tidy s' t := htidy.step (.releaseAfter t (s.held t).sharedLen)
  constructor
  · rintro ⟨heq, -⟩ row backOut hmem hkey
    rcases hsince.shared row _ hkey with ⟨-, hshare⟩ | ⟨hnot, -⟩
    · -- the strengthened row is not let go
      have hrow := congrArg (fun h => h.shared row) (hheld.symm.trans heq)
      simp only [hkey, reduceCtorEq, if_false, hshare, Option.some.injEq] at hrow
    · exact hnot ⟨backOut, hmem⟩
  · intro hcond
    have heq : s'.held t = s.held t := by
      rw [hheld]
      congr 1
      funext row
      cases hrow : (s.held t).shared row with
      | none => rfl
      | some m =>
        rw [if_neg (Option.some_ne_none m)]
        rcases hsince.shared row m hrow with ⟨⟨backOut, hmem⟩, hshare⟩ | ⟨-, hsame⟩
        · have hne : m ≠ .keyShare := fun hm => hcond row backOut hmem (hm ▸ hrow)
          rw [hshare]
          cases m with
          | keyShare => exact absurd rfl hne
          | share => rfl
        · exact hsame
    refine ⟨heq, fun store row => ?_⟩
    rw [htidy'.table, hs.table, heq]

/-- A row shared before the mark, asked for again and let be, another one taken after it and a third
    backed out. -/
theorem release_restores_other_rows :
    let s := (Locks.opened (fun _ => 0) : Locks ℕ).run [.share 1 10 .share false]
    let events' : List (Event ℕ) := [.share 1 10 .keyShare false, .share 1 11 .share false,
      .share 2 10 .keyShare false, .share 1 12 .share true]
    let s' := releaseSharedAfter (s.run events') 1 (s.held 1).sharedLen
    s'.held 1 = s.held 1 ∧ ∀ store row, s'.table.mode store row (holder 1) =
      s.table.mode store row (holder 1) := by
  refine (release_restores_iff (fun _ => 0) [.share 1 10 .share false] _ 1 ?_).mpr ?_
  · simp
  · intro row backOut hmem
    simp only [List.mem_cons, Event.share.injEq, reduceCtorEq, and_false, false_and,
      List.not_mem_nil, or_false, false_or, true_and] at hmem
    rcases hmem with ⟨rfl, -⟩ | ⟨rfl, -⟩ <;> decide

/-- `FOR KEY SHARE`, a savepoint, `FOR SHARE` of the same row, back to the savepoint: the row is still
    held `FOR SHARE`. -/
theorem release_keeps_strengthened :
    let s := (Locks.opened (fun _ => 0) : Locks ℕ).run [.share 1 10 .keyShare false]
    let s' := releaseSharedAfter (s.run [.share 1 10 .share false]) 1 (s.held 1).sharedLen
    ¬ (s'.held 1).shared 10 = (s.held 1).shared 10 ∧
      ¬ s'.table.mode 0 10 (holder 1) = s.table.mode 0 10 (holder 1) := by
  decide

end Secantus.ShareLocks
