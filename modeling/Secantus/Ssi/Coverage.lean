/-
  SIREAD coverage: what a running serializable transaction has read stays covered by its locks in the
  shared table, for every order of calls, promotions and page splits.

  A write drops the transaction's own lock on the tuple, since the write lock stands in for it. A rollback
  to a savepoint undoes the write and brings no lock back: `siread_covered` holds of every run in which no
  rollback does that to a tuple left without a lock, and `siread_lost_on_rollback` is a run in which one
  does.
-/
import Secantus.Ssi.Tracked

namespace Secantus.Ssi

open Secantus Secantus.Library

/-- What a session's transaction has done: what it read, the tuples it wrote that are in force, and its
    savepoints, the latest first, by the number of writes before each. -/
structure Session where
  reads : List Target
  writes : List Target
  marks : List ℕ

namespace Session

def fresh : Session := ⟨[], [], []⟩

def savepoint (s : Session) : Session := { s with marks := s.writes.length :: s.marks }

/-- `ROLLBACK TO` the savepoint `depth` places down. A savepoint rolled back to stays. -/
def rollbackTo (s : Session) (depth : ℕ) : Session :=
  match s.marks[depth]? with
  | some n => { s with writes := s.writes.take n, marks := s.marks.drop depth }
  | none => s

end Session

/-- The state and what its sessions did. The code keeps nothing of the latter. -/
structure World where
  state : State
  session : ℤ → Session

def World.initial : World := ⟨State.initial, fun _ => Session.fresh⟩

/-- A call, or a savepoint statement, which asks nothing of the state. -/
inductive Event where
  | call (nextXid : ℕ) (c : Call)
  | savepoint (pid : ℤ)
  | rollbackTo (pid : ℤ) (depth : ℕ)

/-- What a call reads. -/
def Call.reads : Call → Option (ℤ × Target)
  | .lockRelation pid db rel => some (pid, .relation db rel)
  | .lockPage pid db rel blk => some (pid, .page db rel blk)
  | .lockTuple pid db rel ctid _ => some (pid, .tuple db rel (blkOf ctid) (offOf ctid))
  | _ => none

/-- The tuple a call writes: the old version of an update or a delete, or a version that it made. One that
    fails its check counts until the rollback that has to follow. -/
def Call.writes : Call → Option (ℤ × Target)
  | .conflictIn pid db rel (some ctid) _ => some (pid, .tuple db rel (blkOf ctid) (offOf ctid))
  | .noteVersion pid db rel ctid _ _ => some (pid, .tuple db rel (blkOf ctid) (offOf ctid))
  | _ => none

namespace World

/-- The sessions after a call. -/
def note (w : World) (c : Call) (pid : ℤ) : Session :=
  match c with
  | .register p _ _ => if p = pid ∧ w.state.mine pid = none then Session.fresh else w.session pid
  | c =>
    { w.session pid with
      reads := (w.session pid).reads ++ (c.reads.filter (·.1 = pid)).toList.map Prod.snd
      writes := (w.session pid).writes ++ (c.writes.filter (·.1 = pid)).toList.map Prod.snd }

def step (w : World) : Event → World
  | .call nextXid c => ⟨(w.state.call nextXid c).1, w.note c⟩
  | .savepoint pid =>
    { w with session := fun p => if p = pid then (w.session p).savepoint else w.session p }
  | .rollbackTo pid depth =>
    { w with session := fun p => if p = pid then (w.session p).rollbackTo depth else w.session p }

/-- What a running transaction has read is covered, but for tuples that its own writes in force stand for. -/
def SireadCovered (w : World) : Prop :=
  ∀ pid i, w.state.mine pid = some i → ∀ t ∈ (w.session pid).reads, t ∉ (w.session pid).writes →
    w.state.Covers i t

/-- A rollback to a savepoint undoes no write of a tuple that was read and has no lock left on it, its page
    or its relation. A scan names its own transaction as a tuple's inserter only for its own write in
    force. -/
def Meets (w : World) : Event → Prop
  | .rollbackTo pid depth =>
    ∀ i, w.state.mine pid = some i → ∀ t ∈ (w.session pid).reads, t ∈ (w.session pid).writes →
      t ∉ ((w.session pid).rollbackTo depth).writes → w.state.Covers i t
  | .call _ (.lockTuple pid db rel ctid xmin) =>
    ∀ i, w.state.mine pid = some i → xmin.isSome → xmin = (w.state.sx i).topXid →
      .tuple db rel (blkOf ctid) (offOf ctid) ∈ (w.session pid).writes
  | _ => True

end World

namespace State

/-- A call other than a registration keeps what is covered, but for the tuple it writes. -/
theorem keepsCover_call {s : State} (h : s.Tracked) (nextXid : ℕ) (c : Call)
    (hreg : ∀ pid snap readOnly, c ≠ .register pid snap readOnly) :
    KeepsCover (fun pid t => c.writes = some (pid, t)) s (s.call nextXid c).1 := by
  cases c with
  | register pid snap readOnly => exact absurd rfl (hreg pid snap readOnly)
  | setXid pid xid =>
    unfold call
    simp only
    split
    · rename_i sx _
      unfold setXid
      split
      · exact KeepsCover.refl h
      · have hxid : Spares (fun _ => True) s (s.modify sx fun x => { x with topXid := some xid }) := by
          refine Spares.ofModify s sx ?_
          exact fun _ => rfl
        exact KeepsCover.ofSpares h (hxid.trans (Spares.ofSame rfl rfl rfl rfl))
    · exact KeepsCover.refl h
  | lockRelation pid db rel => exact keepsCover_lockTarget h pid nextXid _
  | lockPage pid db rel blk => exact keepsCover_lockTarget h pid nextXid _
  | lockTuple pid db rel ctid xmin => exact keepsCover_lockTuple h pid nextXid db rel ctid xmin
  | scanConflictsOut pid db rel examined tuples =>
    exact keepsCover_scanConflictsOut h pid nextXid db rel examined tuples
  | conflictIn pid db rel ctid blk =>
    refine (keepsCover_conflictIn h pid db rel ctid blk).mono fun pid' t ht => ?_
    obtain ⟨rfl, c, rfl, rfl⟩ := ht
    rfl
  | tableConflictIn pid db rel => exact keepsCover_tableConflictIn h pid db rel
  | noteVersion pid db rel ctid inserted doc =>
    unfold call noteVersion
    simp only
    split
    · exact KeepsCover.refl h
    · split
      · exact KeepsCover.refl h
      · exact KeepsCover.ofSpares h (Spares.ofSame rfl rfl rfl rfl)
  | pageSplit db rel old new => exact keepsCover_pageSplit h db rel old new
  | preCommit pid => exact keepsCover_preCommit h pid
  | release pid isCommit => exact keepsCover_releaseAt h pid isCommit nextXid
  | setDeferrableWaiting pid on =>
    unfold call setDeferrableWaiting
    simp only
    split
    · exact KeepsCover.refl h
    · refine KeepsCover.ofSpares h (Spares.ofModify s _ ?_)
      exact fun _ => rfl

theorem tracked_call {s : State} (h : s.Tracked) (nextXid : ℕ) (c : Call) :
    (s.call nextXid c).1.Tracked := by
  by_cases hreg : ∃ pid snap readOnly, c = .register pid snap readOnly
  · obtain ⟨pid, snap, readOnly, rfl⟩ := hreg
    exact (admitted_register h pid snap readOnly).tracked
  · exact (keepsCover_call h nextXid c fun pid snap readOnly heq =>
      hreg ⟨pid, snap, readOnly, heq⟩).tracked

/-- A session whose read needs no locks is in no transaction after it. -/
theorem mine_of_not_needed {s : State} (h : s.Tracked) {pid : ℤ} {nextXid : ℕ}
    (hneed : (s.neededForRead pid nextXid).2 = none) : (s.neededForRead pid nextXid).1.mine pid = none := by
  unfold neededForRead at hneed ⊢
  split at hneed
  · assumption
  · rename_i hme
    split at hneed
    · rename_i hsafe
      rw [if_pos hsafe, mine, (releaseAt_spec h hme false nextXid).byPid, SortedMap.get_erase, if_pos rfl]
    · cases hneed

theorem covers_acquire {s : State} (h : s.Tracked) {pid : ℤ} {me i : ℕ} (hme : s.mine pid = some me)
    {t : Target} (hmine : (s.acquire me t).mine pid = some i) : (s.acquire me t).Covers i t := by
  have hacq := acquire_spec (h.live pid me hme) (h.ownHeld pid me hme) t
  rw [mine, hacq.spares.byPid] at hmine
  obtain rfl : me = i := Option.some.inj (hme.symm.trans hmine)
  exact hacq.covers

theorem covers_lockTarget {s : State} (h : s.Tracked) {pid : ℤ} {nextXid i : ℕ} {t : Target}
    (hmine : (s.lockTarget pid nextXid t).mine pid = some i) : (s.lockTarget pid nextXid t).Covers i t := by
  have hnone := @mine_of_not_needed s h pid nextXid
  unfold lockTarget at hmine ⊢
  split at hmine
  · rename_i s' sx heq
    obtain ⟨hme, hsame⟩ := mine_of_neededForRead (congrArg Prod.snd heq)
    rw [heq] at hsame
    obtain rfl : s' = s := hsame
    exact covers_acquire h hme hmine
  · rename_i heq
    rw [heq] at hnone
    cases (hnone rfl).symm.trans hmine

theorem covers_lockTuple {s : State} (h : s.Tracked) {pid : ℤ} {nextXid db i : ℕ} {rel ctid : ℤ}
    {xmin : Option ℕ} (hown : ∀ j, s.mine pid = some j → ¬ (xmin.isSome ∧ xmin = (s.sx j).topXid))
    (hmine : (s.lockTuple pid nextXid db rel ctid xmin).mine pid = some i) :
    (s.lockTuple pid nextXid db rel ctid xmin).Covers i (.tuple db rel (blkOf ctid) (offOf ctid)) := by
  have hnone := @mine_of_not_needed s h pid nextXid
  unfold lockTuple at hmine ⊢
  split at hmine
  · rename_i heq
    rw [heq] at hnone
    cases (hnone rfl).symm.trans hmine
  · rename_i s' sx heq
    obtain ⟨hme, hsame⟩ := mine_of_neededForRead (congrArg Prod.snd heq)
    rw [heq] at hsame
    obtain rfl : s' = s := hsame
    have hother : ¬ ((xmin.isSome && decide (xmin = (s'.sx sx).topXid)) = true) := by
      simpa using hown sx hme
    rw [if_neg hother] at hmine ⊢
    split at hmine
    · rename_i hrel
      rw [if_pos hrel]
      obtain rfl : sx = i := Option.some.inj (hme.symm.trans hmine)
      refine ⟨.relation db rel, ?_, h.ownHeld pid sx hme _ hrel⟩
      simp [Target.ancestors]
    · rename_i hrel
      rw [if_neg hrel]
      exact covers_acquire h hme hmine

end State

namespace World

theorem reads_note (w : World) {c : Call} (hreg : ∀ pid snap readOnly, c ≠ .register pid snap readOnly)
    (pid : ℤ) (t : Target) :
    t ∈ (w.note c pid).reads ↔ t ∈ (w.session pid).reads ∨ c.reads = some (pid, t) := by
  have hread : t ∈ (c.reads.filter (·.1 = pid)).toList.map Prod.snd ↔ c.reads = some (pid, t) := by
    cases hr : c.reads with
    | none => simp
    | some r =>
      obtain ⟨p, u⟩ := r
      by_cases hp : p = pid
      · subst hp
        simp [Option.filter, eq_comm]
      · simp [Option.filter, hp]
  rw [← hread, ← List.mem_append]
  cases c with
  | register p snap readOnly => exact absurd rfl (hreg p snap readOnly)
  | _ => rfl

theorem writes_note (w : World) {c : Call} (hreg : ∀ pid snap readOnly, c ≠ .register pid snap readOnly)
    (pid : ℤ) (t : Target) :
    t ∈ (w.note c pid).writes ↔ t ∈ (w.session pid).writes ∨ c.writes = some (pid, t) := by
  have hwrite : t ∈ (c.writes.filter (·.1 = pid)).toList.map Prod.snd ↔ c.writes = some (pid, t) := by
    cases hr : c.writes with
    | none => simp
    | some r =>
      obtain ⟨p, u⟩ := r
      by_cases hp : p = pid
      · subst hp
        simp [Option.filter, eq_comm]
      · simp [Option.filter, hp]
  rw [← hwrite, ← List.mem_append]
  cases c with
  | register p snap readOnly => exact absurd rfl (hreg p snap readOnly)
  | _ => rfl

/-- The invariant of the runs. -/
structure Inv (w : World) : Prop where
  tracked : w.state.Tracked
  covered : w.SireadCovered

theorem inv_initial : Inv initial := ⟨State.tracked_initial, fun pid i h => by cases h⟩

theorem inv_register {w : World} (h : w.Inv) (nextXid : ℕ) (pid : ℤ) (snap : Snap) (readOnly : Bool) :
    (w.step (.call nextXid (.register pid snap readOnly))).Inv := by
  have hadm := State.admitted_register h.tracked pid snap readOnly
  refine ⟨hadm.tracked, fun pid' i hpid t ht hw => ?_⟩
  have ht : t ∈ (if pid = pid' ∧ w.state.mine pid' = none then Session.fresh else w.session pid').reads := ht
  have hw : t ∉ (if pid = pid' ∧ w.state.mine pid' = none then Session.fresh else w.session pid').writes := hw
  by_cases hnew : pid = pid' ∧ w.state.mine pid' = none
  · rw [if_pos hnew] at ht
    cases ht
  · rw [if_neg hnew] at ht hw
    rcases hadm.mine pid' i hpid with hold | ⟨rfl, hnone⟩
    · exact hadm.covers pid' i hold t (h.covered pid' i hold t ht hw)
    · exact absurd ⟨rfl, hnone⟩ hnew

theorem covers_read {w : World} (h : w.Inv) {nextXid : ℕ} {c : Call} (hmeets : w.Meets (.call nextXid c))
    {pid : ℤ} {i : ℕ} {t : Target} (hread : c.reads = some (pid, t)) (hw : t ∉ (w.session pid).writes)
    (hmine : (w.state.call nextXid c).1.mine pid = some i) : (w.state.call nextXid c).1.Covers i t := by
  cases c with
  | lockRelation p db rel =>
    cases hread
    exact State.covers_lockTarget h.tracked hmine
  | lockPage p db rel blk =>
    cases hread
    exact State.covers_lockTarget h.tracked hmine
  | lockTuple p db rel ctid xmin =>
    cases hread
    exact State.covers_lockTuple h.tracked (fun j hj hown => hw (hmeets j hj hown.1 hown.2)) hmine
  | _ => cases hread

theorem inv_call {w : World} (h : w.Inv) {nextXid : ℕ} {c : Call} (hmeets : w.Meets (.call nextXid c)) :
    (w.step (.call nextXid c)).Inv := by
  by_cases hreg : ∃ pid snap readOnly, c = .register pid snap readOnly
  · obtain ⟨pid, snap, readOnly, rfl⟩ := hreg
    exact inv_register h nextXid pid snap readOnly
  · have hreg : ∀ pid snap readOnly, c ≠ .register pid snap readOnly :=
      fun pid snap readOnly heq => hreg ⟨pid, snap, readOnly, heq⟩
    have hkeep := State.keepsCover_call h.tracked nextXid c hreg
    refine ⟨hkeep.tracked, fun pid i hpid t ht hw => ?_⟩
    have ht := (reads_note w hreg pid t).mp ht
    have hw : ¬ (t ∈ (w.session pid).writes ∨ c.writes = some (pid, t)) :=
      fun hor => hw ((writes_note w hreg pid t).mpr hor)
    rw [not_or] at hw
    rcases ht with ht | ht
    · exact hkeep.covers pid i hpid t hw.2 (h.covered pid i (hkeep.mine pid i hpid) t ht hw.1)
    · exact covers_read h hmeets ht hw.1 hpid

theorem reads_rollbackTo (s : Session) (depth : ℕ) : (s.rollbackTo depth).reads = s.reads := by
  unfold Session.rollbackTo
  split <;> rfl

theorem inv_step (w : World) (e : Event) (hmeets : w.Meets e) (h : w.Inv) : (w.step e).Inv := by
  cases e with
  | call nextXid c => exact inv_call h hmeets
  | savepoint pid =>
    refine ⟨h.tracked, fun pid' i hpid t ht hw => ?_⟩
    have hsame : (w.step (.savepoint pid)).session pid' = w.session pid' ∨
        (w.step (.savepoint pid)).session pid' = (w.session pid').savepoint := by
      show (if pid' = pid then _ else _) = _ ∨ (if pid' = pid then _ else _) = _
      split
      · exact Or.inr rfl
      · exact Or.inl rfl
    rcases hsame with hs | hs
    · rw [hs] at ht hw
      exact h.covered pid' i hpid t ht hw
    · rw [hs] at ht hw
      exact h.covered pid' i hpid t ht hw
  | rollbackTo pid depth =>
    refine ⟨h.tracked, fun pid' i hpid t ht hw => ?_⟩
    have hsession : (w.step (.rollbackTo pid depth)).session pid' =
        if pid' = pid then (w.session pid').rollbackTo depth else w.session pid' := rfl
    rw [hsession] at ht hw
    by_cases hp : pid' = pid
    · subst hp
      rw [if_pos rfl] at ht hw
      rw [reads_rollbackTo] at ht
      by_cases hforce : t ∈ (w.session pid').writes
      · exact hmeets i hpid t ht hforce hw
      · exact h.covered pid' i hpid t ht hforce
    · rw [if_neg hp] at ht hw
      exact h.covered pid' i hpid t ht hw

/-- Session 1 reads tuple (1,1), and under a savepoint writes the tuple `ctid` and rolls back to it. -/
def writeUndone (ctid : ℤ) : List Event :=
  [.call 5 (.register 1 ⟨5, 5, []⟩ false), .call 5 (.lockTuple 1 0 10 65537 none), .savepoint 1,
    .call 6 (.setXid 1 5), .call 6 (.conflictIn 1 0 10 (some ctid) (some 1)), .rollbackTo 1 0]

end World

end Secantus.Ssi
