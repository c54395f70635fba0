/-
  The transactions of the sessions (transactions.rs, `TransactionRegistry`).

  A transaction is reached through its session, or by a command that was resolved to it earlier. Each has a
  mutex of its own, which a statement holds while it runs. What ends one takes the storage session out of its
  handle and releases the locks of its owner, and does nothing where it has ended before.

  The threads that use the transactions (session.rs, `statement`; lib.rs, `finish_txn_statement`).

  Every step is one critical section: of the registry, of a transaction's mutex, or of the lock manager. What
  a handler, the storage and the lock waits answer is a choice of the step. That a session is checked out to
  one command at a time is not used: kills and the reaper need no session.
-/
import Secantus.LockManager.Chains
import Mathlib.Algebra.Order.Ring.Rat

namespace Secantus.Transactions

open LockManager (Owner)

abbrev Lsid := List UInt8

inductive TxnState where
  | inProgress
  | committed
  | aborted
  deriving DecidableEq

/-- The storage handle of a transaction, open while it holds a storage session. -/
inductive Handle where
  | unopened
  | opened
  | closed
  deriving DecidableEq

/-- What a commit or a rollback leaves of a handle. -/
def Handle.taken : Handle → Handle
  | .opened => .closed
  | handle => handle

structure Transaction where
  state : TxnState
  handle : Handle
  lastUse : ℚ
  lockOwner : Option Owner
  /-- Who holds its mutex over more than a step: the thread of a statement that runs. -/
  holder : Option ℕ
  /-- A thread panicked with the mutex. -/
  poisoned : Bool
  /-- The calls of `commit`, by whether they succeeded. -/
  commits : List Bool
  /-- How often `rollback` was called. -/
  rollbacks : ℕ

namespace Transaction

def new (now : ℚ) (lockOwner : Option Owner) : Transaction :=
  ⟨.inProgress, .unopened, now, lockOwner, none, false, [], 0⟩

/-- `rollback`, and the state that follows it. -/
def rolledBack (t : Transaction) : Transaction :=
  { t with handle := t.handle.taken, rollbacks := t.rollbacks + 1, state := .aborted }

/-- `commit`, and the state that follows its answer. -/
def committing (t : Transaction) (ok : Bool) : Transaction :=
  { t with
    handle := t.handle.taken
    commits := t.commits ++ [ok]
    state := if ok then .committed else .aborted }

end Transaction

inductive Kind where
  | txn (x : ℕ)
  | retryable

/-- A session: its active transaction number and what that number is. -/
structure Session where
  active : ℤ
  kind : Kind
  lastUse : ℚ

def Session.txn (s : Session) : Option ℕ :=
  match s.kind with
  | .txn x => some x
  | .retryable => none

structure Registry where
  /-- The transactions, by the order they were started in. -/
  txns : ℕ → Transaction
  count : ℕ
  sessions : List (Lsid × Session)
  locks : LockManager.System
  /-- A lock manager is wired in. -/
  wired : Bool
  nextOwner : ℕ
  lastSweep : ℚ
  lifetime : ℚ

/-- `SESSION_LIFETIME_SECONDS`. -/
def sessionLifetime : ℚ := 30 * 60

namespace Registry

def opened (wired : Bool) (lifetime : ℚ) : Registry :=
  ⟨fun _ => .new 0 none, 0, [], .opened, wired, 1, 0, lifetime⟩

def set (r : Registry) (x : ℕ) (t : Transaction) : Registry := { r with txns := Function.update r.txns x t }

def session (r : Registry) (lsid : Lsid) : Option Session := r.sessions.lookup lsid

def insertSession (r : Registry) (lsid : Lsid) (s : Session) : Registry :=
  { r with sessions := (lsid, s) :: r.sessions.filter fun e => e.1 ≠ lsid }

def removeSession (r : Registry) (lsid : Lsid) : Registry :=
  { r with sessions := r.sessions.filter fun e => e.1 ≠ lsid }

/-- The transaction's mutex can be taken. -/
def free (r : Registry) (x : ℕ) : Bool := (r.txns x).holder.isNone

/-- `try_lock` gets the transaction's mutex. -/
def tryLock (r : Registry) (x : ℕ) : Bool := r.free x && !(r.txns x).poisoned

def releaseLocks (r : Registry) (x : ℕ) : Registry :=
  match (r.txns x).lockOwner with
  | some owner => { r with locks := r.locks.step (.release owner) }
  | none => r

/-- `abort_locked`, with the transaction's mutex. -/
def abortLocked (r : Registry) (x : ℕ) : Registry :=
  if (r.txns x).state = .inProgress then (r.set x (r.txns x).rolledBack).releaseLocks x else r

/-- `commit`, with the transaction's mutex; `ok` is what the storage answers. -/
def commitLocked (r : Registry) (x : ℕ) (now : ℚ) (ok : Bool) : Registry :=
  if (r.txns x).state = .inProgress then
    (r.set x { (r.txns x).committing ok with lastUse := now }).releaseLocks x
  else r

/-- `abort`, with the transaction's mutex. -/
def abortUsed (r : Registry) (x : ℕ) (now : ℚ) : Registry :=
  if (r.txns x).state = .inProgress then
    (r.set x { (r.txns x).rolledBack with lastUse := now }).releaseLocks x
  else r

/-- One session's turn in `prune_locked`. -/
def pruneOne (now : ℚ) (r : Registry) (e : Lsid × Session) : Registry :=
  match e.2.kind with
  | .txn x => if r.tryLock x && (r.txns x).lastUse < now - r.lifetime then r.abortLocked x else r
  | .retryable => r

/-- A session that the sweep keeps. -/
def swept (r : Registry) (now : ℚ) (e : Lsid × Session) : Bool :=
  now - sessionLifetime ≤ e.2.lastUse ||
    match e.2.kind with
    | .txn x => !r.tryLock x || (r.txns x).state = .inProgress
    | .retryable => false

/-- `prune_locked`. -/
def prune (r : Registry) (now : ℚ) : Registry :=
  let r := r.sessions.foldl (pruneOne now) r
  if 60 ≤ now - r.lastSweep then { r with lastSweep := now, sessions := r.sessions.filter (r.swept now) }
  else r

/-- A new transaction, which becomes its session's. -/
def start (r : Registry) (now : ℚ) (lsid : Lsid) (number : ℤ) : Registry :=
  let owner : Option Owner := if r.wired then some (.transaction r.nextOwner) else none
  { (r.set r.count (.new now owner)).insertSession lsid ⟨number, .txn r.count, now⟩ with
    count := r.count + 1
    nextOwner := r.nextOwner + 1 }

/-- What `for_statement` has found when it lets the registry go. -/
inductive Resolution where
  | refused
  | started (x : ℕ) (replaced : Option ℕ)
  | found (x : ℕ)

/-- `for_statement`, up to where it locks a transaction. -/
def forStatement (r : Registry) (now : ℚ) (lsid : Lsid) (number : ℤ) (start : Bool) :
    Registry × Resolution :=
  let r := r.prune now
  let active := ((r.session lsid).map Session.active).getD (-1)
  if number < active then (r, .refused)
  else if start then
    if number = active then (r, .refused)
    else (r.start now lsid number, .started r.count ((r.session lsid).bind Session.txn))
  else
    match r.session lsid with
    | none => (r, .refused)
    | some s =>
      if s.active = number then
        match s.kind with
        | .txn x => (r.insertSession lsid { s with lastUse := now }, .found x)
        | .retryable => (r.insertSession lsid { s with lastUse := now }, .refused)
      else (r, .refused)

/-- `begin_retryable`: the transaction it replaces. -/
def beginRetryable (r : Registry) (now : ℚ) (lsid : Lsid) (number : ℤ) : Registry × Option ℕ :=
  let r := r.prune now
  match r.session lsid with
  | none => (r.insertSession lsid ⟨number, .retryable, now⟩, none)
  | some s =>
    if number < s.active then (r, none)
    else if number = s.active then (r.insertSession lsid { s with lastUse := now }, none)
    else (r.insertSession lsid ⟨number, .retryable, now⟩, s.txn)

def ending (r : Registry) (now : ℚ) (lsid : Lsid) (number : ℤ) : Registry × Option ℕ :=
  let r := r.prune now
  match r.session lsid with
  | none => (r, none)
  | some s =>
    (r.insertSession lsid { s with lastUse := now }, if number = s.active then s.txn else none)

/-- The transactions of the sessions that a kill picks: `abort_for_session`, `abort_matching`, `abort_all`. -/
def openTransactions (r : Registry) (pick : Lsid → Bool) : List ℕ :=
  r.sessions.filterMap fun e => if pick e.1 then e.2.txn else none

def forgetSession (r : Registry) (lsid : Lsid) : Registry :=
  match (r.session lsid).bind Session.txn with
  | some x => if !r.tryLock x || (r.txns x).state = .inProgress then r else r.removeSession lsid
  | none => r.removeSession lsid

/-- The end of `forget_started`. -/
def removeOurs (r : Registry) (lsid : Lsid) (x : ℕ) : Registry :=
  if (r.session lsid).bind Session.txn = some x then r.removeSession lsid else r

/-! ## What every registry keeps -/

/-- No two transactions share an owner, each was committed or rolled back at most once, when it ended, and
    the sessions name transactions that were started. -/
structure Sound (r : Registry) : Prop where
  owned : ∀ x owner, (r.txns x).lockOwner = some owner → ∃ n, n < r.nextOwner ∧ owner = .transaction n
  apart : ∀ x y owner, (r.txns x).lockOwner = some owner → (r.txns y).lockOwner = some owner → x = y
  before : ∀ x, (r.txns x).state = .inProgress → (r.txns x).commits = [] ∧ (r.txns x).rollbacks = 0
  once : ∀ x, (r.txns x).state ≠ .inProgress → (r.txns x).commits.length + (r.txns x).rollbacks = 1
  sessions : ∀ e ∈ r.sessions, ∀ x, e.2.txn = some x → x < r.count

/-- A transaction holds no open handle and no lock. -/
structure HoldsNothing (r : Registry) (x : ℕ) : Prop where
  handle : (r.txns x).handle ≠ .opened
  locks : ∀ owner, (r.txns x).lockOwner = some owner → ∀ resource mode, r.locks.held owner resource mode = 0

/-- Every transaction that has ended holds nothing. -/
def Clean (r : Registry) : Prop := ∀ x, (r.txns x).state ≠ .inProgress → r.HoldsNothing x

/-- What a step of a thread keeps: the owners, and the transactions whose mutex another thread holds. -/
structure Frame (tid : ℕ) (r r' : Registry) : Prop where
  count : r.count ≤ r'.count
  owner : ∀ x, x < r.count → (r'.txns x).lockOwner = (r.txns x).lockOwner
  others : ∀ x, x < r.count → ∀ tid', tid' ≠ tid → (r.txns x).holder = some tid' →
    (r'.txns x).holder = some tid' ∧ (r'.txns x).state = (r.txns x).state
  sound : r.Sound → r'.Sound

/-- A step that keeps clean registries clean besides. -/
structure Quiet (tid : ℕ) (r r' : Registry) : Prop extends Frame tid r r' where
  clean : r.Clean → r'.Clean

theorem Frame.trans {tid : ℕ} {r r' r'' : Registry} (h : Frame tid r r') (h' : Frame tid r' r'') :
    Frame tid r r'' where
  count := Nat.le_trans h.count h'.count
  owner x hx := (h'.owner x (Nat.lt_of_lt_of_le hx h.count)).trans (h.owner x hx)
  others x hx tid' hne hholder := by
    obtain ⟨hholder', hstate⟩ := h.others x hx tid' hne hholder
    obtain ⟨hholder'', hstate'⟩ := h'.others x (Nat.lt_of_lt_of_le hx h.count) tid' hne hholder'
    exact ⟨hholder'', hstate'.trans hstate⟩
  sound hsound := h'.sound (h.sound hsound)

theorem Quiet.refl (tid : ℕ) (r : Registry) : Quiet tid r r where
  count := Nat.le_refl _
  owner _ _ := rfl
  others _ _ _ _ h := ⟨h, rfl⟩
  sound h := h
  clean h := h

theorem Quiet.trans {tid : ℕ} {r r' r'' : Registry} (h : Quiet tid r r') (h' : Quiet tid r' r'') :
    Quiet tid r r'' :=
  ⟨h.toFrame.trans h'.toFrame, fun hclean => h'.clean (h.clean hclean)⟩

/-! ## The sessions -/

theorem quiet_sessions (tid : ℕ) (r : Registry) (sessions : List (Lsid × Session)) (lastSweep : ℚ)
    (h : r.Sound → ∀ e ∈ sessions, ∀ x, e.2.txn = some x → x < r.count) :
    Quiet tid r { r with sessions := sessions, lastSweep := lastSweep } where
  count := Nat.le_refl _
  owner _ _ := rfl
  others _ _ _ _ h := ⟨h, rfl⟩
  sound hsound := ⟨hsound.owned, hsound.apart, hsound.before, hsound.once, h hsound⟩
  clean hclean x hx := ⟨(hclean x hx).handle, (hclean x hx).locks⟩

theorem quiet_filter (tid : ℕ) (r : Registry) (keep : Lsid × Session → Bool) (lastSweep : ℚ) :
    Quiet tid r { r with sessions := r.sessions.filter keep, lastSweep := lastSweep } :=
  quiet_sessions tid r _ _ fun hsound e he => hsound.sessions e (List.mem_of_mem_filter he)

theorem quiet_insertSession (tid : ℕ) (r : Registry) (lsid : Lsid) (s : Session)
    (h : r.Sound → ∀ x, s.txn = some x → x < r.count) : Quiet tid r (r.insertSession lsid s) := by
  refine quiet_sessions tid r _ r.lastSweep fun hsound e he => ?_
  rcases List.mem_cons.mp he with rfl | he
  · exact h hsound
  · exact hsound.sessions e (List.mem_of_mem_filter he)

theorem quiet_removeSession (tid : ℕ) (r : Registry) (lsid : Lsid) : Quiet tid r (r.removeSession lsid) :=
  quiet_filter tid r _ r.lastSweep

theorem mem_of_session {r : Registry} {lsid : Lsid} {s : Session} (h : r.session lsid = some s) :
    (lsid, s) ∈ r.sessions := by
  obtain ⟨before, after, hsessions, -⟩ := List.lookup_eq_some_iff.mp h
  rw [hsessions]
  exact List.mem_append_right _ List.mem_cons_self

theorem Sound.session_lt {r : Registry} (h : r.Sound) {lsid : Lsid} {s : Session}
    (hs : r.session lsid = some s) : ∀ x, s.txn = some x → x < r.count := h.sessions _ (mem_of_session hs)

theorem quiet_touch (tid : ℕ) {r : Registry} {lsid : Lsid} {s : Session} (hs : r.session lsid = some s)
    (now : ℚ) : Quiet tid r (r.insertSession lsid { s with lastUse := now }) :=
  quiet_insertSession tid r lsid _ fun hsound x hx => hsound.session_lt hs x hx

/-! ## The end of a transaction -/

theorem txns_set (r : Registry) (x y : ℕ) (t : Transaction) :
    (r.set x t).txns y = if y = x then t else r.txns y := Function.update_apply _ _ _ _

@[simp] theorem txns_releaseLocks (r : Registry) (x : ℕ) : (r.releaseLocks x).txns = r.txns := by
  unfold releaseLocks
  split <;> rfl

@[simp] theorem count_releaseLocks (r : Registry) (x : ℕ) : (r.releaseLocks x).count = r.count := by
  unfold releaseLocks
  split <;> rfl

@[simp] theorem sessions_releaseLocks (r : Registry) (x : ℕ) : (r.releaseLocks x).sessions = r.sessions := by
  unfold releaseLocks
  split <;> rfl

@[simp] theorem nextOwner_releaseLocks (r : Registry) (x : ℕ) :
    (r.releaseLocks x).nextOwner = r.nextOwner := by
  unfold releaseLocks
  split <;> rfl

theorem held_releaseLocks (r : Registry) (x : ℕ) (owner : Owner) (resource : LockManager.Resource)
    (mode : LockManager.Mode) : (r.releaseLocks x).locks.held owner resource mode =
      if (r.txns x).lockOwner = some owner then 0 else r.locks.held owner resource mode := by
  unfold releaseLocks
  split
  · rename_i owner' howner
    show (r.locks.step (.release owner')).held owner resource mode = _
    rw [LockManager.System.held_release, howner]
    simp only [Option.some.injEq, eq_comm]
  · rename_i hnone
    rw [hnone]
    rfl

/-- What a step changes of one transaction whose mutex no other thread holds. -/
theorem frame_set (tid : ℕ) {r : Registry} {x : ℕ} {t : Transaction}
    (hfree : ∀ tid', tid' ≠ tid → (r.txns x).holder ≠ some tid')
    (howner : t.lockOwner = (r.txns x).lockOwner)
    (hbefore : r.Sound → t.state = .inProgress → t.commits = [] ∧ t.rollbacks = 0)
    (honce : r.Sound → t.state ≠ .inProgress → t.commits.length + t.rollbacks = 1) :
    Frame tid r (r.set x t) where
  count := Nat.le_refl _
  owner y _ := by
    rw [txns_set]
    split
    · rename_i h
      rw [h, howner]
    · rfl
  others y _ tid' hne hholder := by
    have hy : y ≠ x := fun h => hfree tid' hne ((congrArg (fun z => (r.txns z).holder) h).symm.trans hholder)
    rw [txns_set, if_neg hy]
    exact ⟨hholder, rfl⟩
  sound hsound := by
    have hsame : ∀ y, ((r.set x t).txns y).lockOwner = (r.txns y).lockOwner := by
      intro y
      rw [txns_set]
      split
      · rename_i h
        rw [h, howner]
      · rfl
    refine ⟨fun y owner h => hsound.owned y owner ((hsame y).symm.trans h),
      fun y z owner hy hz => hsound.apart y z owner ((hsame y).symm.trans hy) ((hsame z).symm.trans hz),
      fun y h => ?_, fun y h => ?_, hsound.sessions⟩
    · rw [txns_set] at h ⊢
      split
      · rename_i hy
        rw [if_pos hy] at h
        exact hbefore hsound h
      · rename_i hy
        rw [if_neg hy] at h
        exact hsound.before y h
    · rw [txns_set] at h ⊢
      split
      · rename_i hy
        rw [if_pos hy] at h
        exact honce hsound h
      · rename_i hy
        rw [if_neg hy] at h
        exact hsound.once y h

theorem frame_releaseLocks (tid : ℕ) (r : Registry) (x : ℕ) : Frame tid r (r.releaseLocks x) where
  count := by rw [count_releaseLocks]
  owner y _ := by rw [txns_releaseLocks]
  others y _ tid' _ hholder := by
    rw [txns_releaseLocks]
    exact ⟨hholder, rfl⟩
  sound hsound := by
    refine ⟨?_, ?_, ?_, ?_, ?_⟩ <;>
      simp only [txns_releaseLocks, count_releaseLocks, sessions_releaseLocks, nextOwner_releaseLocks]
    · exact hsound.owned
    · exact hsound.apart
    · exact hsound.before
    · exact hsound.once
    · exact hsound.sessions

theorem HoldsNothing.releaseLocks {r : Registry} {y : ℕ} (h : r.HoldsNothing y) (x : ℕ) :
    (r.releaseLocks x).HoldsNothing y where
  handle := by
    rw [txns_releaseLocks]
    exact h.handle
  locks owner howner resource mode := by
    rw [txns_releaseLocks] at howner
    rw [held_releaseLocks]
    split
    · rfl
    · exact h.locks owner howner resource mode

theorem quiet_releaseLocks (tid : ℕ) (r : Registry) (x : ℕ) : Quiet tid r (r.releaseLocks x) where
  toFrame := frame_releaseLocks tid r x
  clean hclean y hy := by
    rw [txns_releaseLocks] at hy
    exact (hclean y hy).releaseLocks x

/-- A transaction with its handle taken and its locks released holds nothing. -/
theorem quiet_end (tid : ℕ) {r : Registry} {x : ℕ} {t : Transaction}
    (hfree : ∀ tid', tid' ≠ tid → (r.txns x).holder ≠ some tid')
    (howner : t.lockOwner = (r.txns x).lockOwner) (hstate : t.state ≠ .inProgress)
    (honce : r.Sound → t.commits.length + t.rollbacks = 1) (hhandle : t.handle ≠ .opened) :
    Quiet tid r ((r.set x t).releaseLocks x) where
  toFrame := (frame_set tid hfree howner (fun _ h => absurd h hstate) (fun hsound _ => honce hsound)).trans
    (frame_releaseLocks tid _ x)
  clean hclean y hy := by
    rw [txns_releaseLocks] at hy
    by_cases hyx : y = x
    · subst hyx
      refine ⟨?_, fun owner h resource mode => ?_⟩
      · rw [txns_releaseLocks, txns_set, if_pos rfl]
        exact hhandle
      · rw [txns_releaseLocks] at h
        rw [held_releaseLocks, if_pos h]
    · rw [txns_set, if_neg hyx] at hy
      have hnothing : (r.set x t).HoldsNothing y := by
        refine ⟨?_, fun owner h resource mode => ?_⟩
        · rw [txns_set, if_neg hyx]
          exact (hclean y hy).handle
        · rw [txns_set, if_neg hyx] at h
          exact (hclean y hy).locks owner h resource mode
      exact hnothing.releaseLocks x

theorem taken_ne_opened (handle : Handle) : handle.taken ≠ .opened := by
  cases handle <;> exact fun h => nomatch h

theorem not_held_of_free {r : Registry} {x : ℕ} (h : r.free x = true) (tid tid' : ℕ) (_ : tid' ≠ tid) :
    (r.txns x).holder ≠ some tid' := by
  intro hholder
  rw [free, hholder] at h
  cases h

theorem quiet_abortLocked (tid : ℕ) {r : Registry} {x : ℕ} (hfree : r.free x = true) :
    Quiet tid r (r.abortLocked x) := by
  unfold abortLocked
  split
  · rename_i hstate
    refine quiet_end tid (not_held_of_free hfree tid) rfl (fun h => nomatch h) (fun hsound => ?_)
      (taken_ne_opened _)
    obtain ⟨hcommits, hrollbacks⟩ := hsound.before x hstate
    show (r.txns x).commits.length + ((r.txns x).rollbacks + 1) = 1
    rw [hcommits, hrollbacks]
    rfl
  · exact Quiet.refl tid r

theorem quiet_abortUsed (tid : ℕ) {r : Registry} {x : ℕ} (hfree : r.free x = true) (now : ℚ) :
    Quiet tid r (r.abortUsed x now) := by
  unfold abortUsed
  split
  · rename_i hstate
    refine quiet_end tid (not_held_of_free hfree tid) rfl (fun h => nomatch h) (fun hsound => ?_)
      (taken_ne_opened _)
    obtain ⟨hcommits, hrollbacks⟩ := hsound.before x hstate
    show (r.txns x).commits.length + ((r.txns x).rollbacks + 1) = 1
    rw [hcommits, hrollbacks]
    rfl
  · exact Quiet.refl tid r

theorem quiet_commitLocked (tid : ℕ) {r : Registry} {x : ℕ} (hfree : r.free x = true) (now : ℚ) (ok : Bool) :
    Quiet tid r (r.commitLocked x now ok) := by
  unfold commitLocked
  split
  · rename_i hstate
    refine quiet_end tid (not_held_of_free hfree tid) rfl ?_ (fun hsound => ?_) (taken_ne_opened _)
    · show (if ok then TxnState.committed else .aborted) ≠ .inProgress
      split <;> exact fun h => nomatch h
    · obtain ⟨hcommits, hrollbacks⟩ := hsound.before x hstate
      show ((r.txns x).commits ++ [ok]).length + (r.txns x).rollbacks = 1
      rw [hcommits, hrollbacks]
      rfl
  · exact Quiet.refl tid r

theorem quiet_prune (tid : ℕ) (r : Registry) (now : ℚ) : Quiet tid r (r.prune now) := by
  have hone : ∀ (r : Registry) e, Quiet tid r (pruneOne now r e) := by
    intro r e
    unfold pruneOne
    split
    · split
      · rename_i x _ hidle
        rw [tryLock, Bool.and_eq_true, Bool.and_eq_true] at hidle
        exact quiet_abortLocked tid hidle.1.1
      · exact Quiet.refl tid r
    · exact Quiet.refl tid r
  have hfold : ∀ (sessions : List (Lsid × Session)) (r : Registry),
      Quiet tid r (sessions.foldl (pruneOne now) r) := by
    intro sessions
    induction sessions with
    | nil => exact Quiet.refl tid
    | cons e sessions ih => exact fun r => (hone r e).trans (ih _)
  unfold prune
  simp only
  split
  · exact (hfold r.sessions r).trans (quiet_filter tid _ _ now)
  · exact hfold r.sessions r

/-! ## The commands' part of the registry -/

theorem quiet_start (tid : ℕ) (r : Registry) (now : ℚ) (lsid : Lsid) (number : ℤ) :
    Quiet tid r (r.start now lsid number) := by
  have hold : ∀ x, x < r.count → (r.start now lsid number).txns x = r.txns x := fun x hx =>
    (txns_set r r.count x _).trans (if_neg (Nat.ne_of_lt hx))
  have hnew : ∀ x, ∃ owner : Option Owner, (owner = none ∨ owner = some (.transaction r.nextOwner)) ∧
      (r.start now lsid number).txns x = if x = r.count then .new now owner else r.txns x := by
    intro x
    refine ⟨if r.wired then some (.transaction r.nextOwner) else none, ?_, txns_set r r.count x _⟩
    split
    · exact Or.inr rfl
    · exact Or.inl rfl
  have howner : ∀ x owner, ((r.start now lsid number).txns x).lockOwner = some owner →
      (x = r.count ∧ owner = .transaction r.nextOwner) ∨ (x ≠ r.count ∧ (r.txns x).lockOwner = some owner) := by
    intro x owner h
    obtain ⟨owner', howner', heq⟩ := hnew x
    rw [heq] at h
    split at h
    · rename_i hx
      have h : owner' = some owner := h
      rcases howner' with rfl | rfl
      · cases h
      · exact Or.inl ⟨hx, (Option.some.inj h).symm⟩
    · rename_i hx
      exact Or.inr ⟨hx, h⟩
  refine ⟨⟨Nat.le_succ _, fun x hx => by rw [hold x hx], fun x hx tid' _ hholder => ?_, fun hsound => ?_⟩, ?_⟩
  · rw [hold x hx]
    exact ⟨hholder, rfl⟩
  · have hnot : ∀ x n, (r.txns x).lockOwner = some (.transaction n) → n ≠ r.nextOwner := by
      intro x n h heq
      obtain ⟨n', hn', heq'⟩ := hsound.owned x _ h
      cases heq'
      omega
    refine ⟨fun x owner h => ?_, fun x y owner hx hy => ?_, fun x h => ?_, fun x h => ?_, ?_⟩
    · rcases howner x owner h with ⟨-, rfl⟩ | ⟨-, h⟩
      · exact ⟨r.nextOwner, Nat.lt_succ_self _, rfl⟩
      · obtain ⟨n, hn, rfl⟩ := hsound.owned x owner h
        exact ⟨n, Nat.lt_succ_of_lt hn, rfl⟩
    · rcases howner x owner hx with ⟨rfl, rfl⟩ | ⟨-, hx⟩
      · rcases howner y _ hy with ⟨rfl, -⟩ | ⟨-, hy⟩
        · rfl
        · exact absurd rfl (hnot y _ hy)
      · rcases howner y owner hy with ⟨-, rfl⟩ | ⟨-, hy⟩
        · exact absurd rfl (hnot x _ hx)
        · exact hsound.apart x y owner hx hy
    · obtain ⟨owner, -, heq⟩ := hnew x
      rw [heq] at h ⊢
      split
      · exact ⟨rfl, rfl⟩
      · rename_i hx
        rw [if_neg hx] at h
        exact hsound.before x h
    · obtain ⟨owner, -, heq⟩ := hnew x
      rw [heq] at h ⊢
      split
      · rename_i hx
        rw [if_pos hx] at h
        exact absurd rfl h
      · rename_i hx
        rw [if_neg hx] at h
        exact hsound.once x h
    · intro e he x hx
      rcases List.mem_cons.mp he with rfl | he
      · obtain rfl := Option.some.inj hx
        exact Nat.lt_succ_self _
      · exact Nat.lt_succ_of_lt (hsound.sessions e (List.mem_of_mem_filter he) x hx)
  · intro hclean x hx
    obtain ⟨owner, -, heq⟩ := hnew x
    by_cases hxc : x = r.count
    · rw [heq, if_pos hxc] at hx
      exact absurd rfl hx
    · have hsame : (r.start now lsid number).txns x = r.txns x := heq.trans (if_neg hxc)
      rw [hsame] at hx
      refine ⟨?_, fun owner h => ?_⟩
      · rw [hsame]
        exact (hclean x hx).handle
      · rw [hsame] at h
        exact (hclean x hx).locks owner h

theorem quiet_beginRetryable (tid : ℕ) (r : Registry) (now : ℚ) (lsid : Lsid) (number : ℤ) :
    Quiet tid r (r.beginRetryable now lsid number).1 := by
  refine (quiet_prune tid r now).trans ?_
  unfold beginRetryable
  generalize r.prune now = r
  have hnew : Quiet tid r (r.insertSession lsid ⟨number, .retryable, now⟩) :=
    quiet_insertSession tid r lsid _ fun _ x hx => by cases hx
  simp only
  split
  · exact hnew
  · rename_i s hs
    split
    · exact Quiet.refl tid r
    · split
      · exact quiet_touch tid hs now
      · exact hnew

theorem beginRetryable_lt {r : Registry} {now : ℚ} {lsid : Lsid} {number : ℤ} {x : ℕ} (hsound : r.Sound)
    (h : (r.beginRetryable now lsid number).2 = some x) : x < (r.beginRetryable now lsid number).1.count := by
  have hsound := (quiet_prune 0 r now).sound hsound
  unfold beginRetryable at *
  generalize r.prune now = r at *
  simp only at *
  split at h
  · cases h
  · rename_i s hs
    split at h
    · cases h
    · rename_i hlt
      split at h
      · cases h
      · rename_i hne
        rw [if_neg hlt, if_neg hne]
        exact hsound.session_lt hs x h

theorem quiet_ending (tid : ℕ) (r : Registry) (now : ℚ) (lsid : Lsid) (number : ℤ) :
    Quiet tid r (r.ending now lsid number).1 := by
  refine (quiet_prune tid r now).trans ?_
  unfold ending
  generalize r.prune now = r
  simp only
  split
  · exact Quiet.refl tid r
  · rename_i s hs
    exact quiet_touch tid hs now

theorem ending_lt {r : Registry} {now : ℚ} {lsid : Lsid} {number : ℤ} {x : ℕ} (hsound : r.Sound)
    (h : (r.ending now lsid number).2 = some x) : x < (r.ending now lsid number).1.count := by
  have hsound := (quiet_prune 0 r now).sound hsound
  unfold ending at *
  generalize r.prune now = r at *
  simp only at *
  split at h
  · cases h
  · rename_i s hs
    split at h
    · exact hsound.session_lt hs x h
    · cases h

end Registry

open LockManager (Owner Resource Mode Wait Move)

/-- A statement: its session, its number, `startTransaction`, and the locks it needs. -/
structure Stmt where
  lsid : Lsid
  number : ℤ
  start : Bool
  chain : List (Resource × Mode)

/-- What came of a statement that ran. -/
inductive Outcome where
  | panicked
  | unparsed
  | replied (failed : Bool)

/-- What a thread does next. -/
inductive Task where
  | idle
  /-- The transaction that a newer number replaces is to be aborted. -/
  | replacing (old : ℕ) (next : Option (Stmt × ℕ))
  /-- `for_statement` has found the transaction, and is to look at its state. -/
  | found (s : Stmt) (x : ℕ) (now : ℚ)
  /-- `for_statement` returned the transaction. -/
  | resolved (s : Stmt) (x : ℕ)
  /-- The handle is open; these locks are to be taken. -/
  | locking (s : Stmt) (x : ℕ) (rest : List (Resource × Mode))
  | waiting (s : Stmt) (x : ℕ) (wt : Wait) (rest : List (Resource × Mode))
  /-- A lock request failed. -/
  | unlocking (x : ℕ)
  | failing (x : ℕ)
  | running (s : Stmt) (x : ℕ)
  /-- `finish_txn_statement`, of a reply that failed or not. -/
  | finishing (x : ℕ) (failed : Bool)
  /-- `forget_started`, and its end. -/
  | forgetting (s : Stmt) (x : ℕ)
  | removing (s : Stmt) (x : ℕ)
  /-- `commit` or `abort` has found the transaction. -/
  | ending (x : ℕ) (commit : Bool)
  /-- Transactions that a kill picked. -/
  | killing (xs : List ℕ)

inductive Act where
  | statement (now : ℚ) (s : Stmt)
  | ending (now : ℚ) (lsid : Lsid) (number : ℤ) (commit : Bool)
  | retryable (now : ℚ) (lsid : Lsid) (number : ℤ)
  | kill (pick : Lsid → Bool)
  /-- The statement cannot run in the transaction (`running_refusal`, `capped_write_in_txn`). -/
  | refuse
  /-- A view answers the statement. -/
  | view (failed : Bool)
  | wake (expired : Bool)
  | reply (outcome : Outcome)
  /-- The next step; `ok` is what the storage answers where it is asked. -/
  | proceed (ok : Bool) (now : ℚ)

namespace Registry

/-- `last_use = now`. -/
def use (r : Registry) (x : ℕ) (now : ℚ) : Registry := r.set x { r.txns x with lastUse := now }

def openHandle (r : Registry) (x : ℕ) : Registry := r.set x { r.txns x with handle := .opened }

/-- A thread takes the transaction's mutex to run a statement. -/
def hold (r : Registry) (x tid : ℕ) : Registry := r.set x { r.txns x with holder := some tid }

def unhold (r : Registry) (x : ℕ) (panicked : Bool) : Registry :=
  r.set x { r.txns x with holder := none, poisoned := (r.txns x).poisoned || panicked }

def poison (r : Registry) (x : ℕ) : Registry := r.set x { r.txns x with poisoned := true }

def lock (r : Registry) (mv : Move) : Registry := { r with locks := r.locks.step mv }

end Registry

open Registry

/-- A statement once its lock requests are over: it runs if the storage session of its handle is there. -/
def begins (tid : ℕ) (r : Registry) (s : Stmt) (x : ℕ) (ok : Bool) : Registry × Task :=
  match (r.txns x).handle with
  | .opened => if ok then (r.hold x tid, .running s x) else (r, .finishing x true)
  | .closed => (r, .finishing x true)
  | .unopened => (r.poison x, .idle)

/-- One step of a thread. One that waits for a mutex stays where it is. -/
def act (tid : ℕ) (r : Registry) : Task → Act → Registry × Task
  | .idle, .statement now s =>
    match r.forStatement now s.lsid s.number s.start with
    | (r, .refused) => (r, .idle)
    | (r, .started x none) => (r, .resolved s x)
    | (r, .started x (some old)) => (r, .replacing old (some (s, x)))
    | (r, .found x) => (r, .found s x now)
  | .idle, .ending now lsid number commit =>
    match r.ending now lsid number with
    | (r, none) => (r, .idle)
    | (r, some x) => (r, .ending x commit)
  | .idle, .retryable now lsid number =>
    match r.beginRetryable now lsid number with
    | (r, none) => (r, .idle)
    | (r, some old) => (r, .replacing old none)
  | .idle, .kill pick => (r, .killing (r.openTransactions pick))
  | .replacing old next, .proceed _ _ =>
    if r.free old then (r.abortLocked old, (next.map fun n => Task.resolved n.1 n.2).getD .idle)
    else (r, .replacing old next)
  | .found s x now, .proceed _ _ =>
    if r.free x then
      if (r.txns x).state = .inProgress then (r.use x now, .resolved s x) else (r, .idle)
    else (r, .found s x now)
  | .resolved s x, .refuse => if r.free x then (r.abortLocked x, .idle) else (r, .resolved s x)
  | .resolved _ x, .view failed => (r, .finishing x failed)
  | .resolved s x, .proceed ok _ =>
    if r.free x then
      if (r.txns x).handle = .unopened then
        if ok then (r.openHandle x, .locking s x s.chain) else (r, .idle)
      else (r, .locking s x s.chain)
    else (r, .resolved s x)
  | .locking s x (link :: rest), .proceed _ _ =>
    match (r.txns x).lockOwner with
    | none => (r, .locking s x [])
    | some owner =>
      match (r.locks.state.ask owner link.1 link.2).2 with
      | none => (r.lock (.acquire owner link.1 link.2), .locking s x rest)
      | some wt => (r.lock (.acquire owner link.1 link.2), .waiting s x wt rest)
  | .waiting s x wt rest, .wake expired =>
    if (r.locks.grants (.wake wt expired)).isSome then (r.lock (.wake wt expired), .locking s x rest)
    else if (r.locks.refuses (.wake wt expired)).isSome then (r.lock (.wake wt expired), .unlocking x)
    else (r, .waiting s x wt rest)
  | .unlocking x, .proceed _ _ => (r.releaseLocks x, .failing x)
  | .failing x, .proceed _ _ =>
    if r.free x then (r.abortLocked x, .finishing x true) else (r, .failing x)
  | .locking s x [], .proceed ok _ => if r.free x then begins tid r s x ok else (r, .locking s x [])
  | .running s x, .reply outcome =>
    match outcome with
    | .panicked => (r.unhold x true, .idle)
    | .unparsed => (r.unhold x false, if s.start then .forgetting s x else .idle)
    | .replied failed => (r.unhold x false, .finishing x failed)
  | .finishing x failed, .proceed _ _ =>
    if failed then if r.free x then (r.abortLocked x, .idle) else (r, .finishing x failed)
    else (r, .idle)
  | .forgetting s x, .proceed _ _ =>
    if r.free x then (r.abortLocked x, .removing s x) else (r, .forgetting s x)
  | .removing s x, .proceed _ _ => (r.removeOurs s.lsid x, .idle)
  | .ending x commit, .proceed ok now =>
    if r.free x then (if commit then r.commitLocked x now ok else r.abortUsed x now, .idle)
    else (r, .ending x commit)
  | .killing (x :: xs), .proceed _ _ =>
    if r.free x then (r.abortLocked x, .killing xs) else (r, .killing (x :: xs))
  | .killing [], .proceed _ _ => (r, .idle)
  | task, _ => (r, task)

/-! ## The system -/

structure System where
  registry : Registry
  tasks : ℕ → Task

inductive Step where
  /-- A step of a thread. -/
  | act (tid : ℕ) (a : Act)
  /-- `reap`, which every other use of the registry does as well. -/
  | reap (now : ℚ)
  | forgetSession (lsid : Lsid)
  /-- A step of a lock request, or a release, of a statement outside of transactions. -/
  | others (mv : Move)

namespace System

def opened (wired : Bool) (lifetime : ℚ) : System := ⟨.opened wired lifetime, fun _ => .idle⟩

def step (w : System) : Step → System
  | .act tid a =>
    let (r, task) := act tid w.registry (w.tasks tid) a
    ⟨r, Function.update w.tasks tid task⟩
  | .reap now => { w with registry := w.registry.prune now }
  | .forgetSession lsid => { w with registry := w.registry.forgetSession lsid }
  | .others mv =>
    match mv.owner with
    | .statement _ => { w with registry := w.registry.lock mv }
    | .transaction _ => w

abbrev run (w : System) (steps : List Step) : System := steps.foldl step w

end System

/-! ## The steps that take something for a transaction -/

/-- The transaction whose handle a thread's step opens, that it takes a lock for, or that it begins to run a
    statement of. -/
def Task.takes (r : Registry) : Task → Act → Option ℕ
  | .resolved _ x, .proceed ok _ =>
    if r.free x && ok && (r.txns x).handle = .unopened then some x else none
  | .locking _ x (link :: _), .proceed _ _ =>
    (r.txns x).lockOwner.bind fun owner => (r.locks.grants (.acquire owner link.1 link.2)).map fun _ => x
  | .waiting _ x wt _, .wake expired => (r.locks.grants (.wake wt expired)).map fun _ => x
  | .locking _ x [], .proceed ok _ =>
    if r.free x && ok && (r.txns x).handle = .opened then some x else none
  | _, _ => none

def System.takes (w : System) : Step → Option ℕ
  | .act tid a => (w.tasks tid).takes w.registry a
  | _ => none

/-- What a step takes, it takes for a transaction that is still in progress. -/
def System.Meets (w : System) (e : Step) : Prop :=
  ∀ x, w.takes e = some x → (w.registry.txns x).state = .inProgress

end Secantus.Transactions
