/-
  A `startTransaction` whose command does not parse (`forget_started`), with what the sessions' retryable writes have
  applied and the counts that the server reports.

  `forget_started` takes the session's entry away, whatever it was before. So the session is as it was just where it
  had none; and the counts are, where no idle transaction was due when the statement came (`forgotten_iff`).

  Each call runs alone here: a session is checked out to one command at a time.
-/
import Secantus.Retry.Applied
import Secantus.Transactions.Registry

namespace Secantus.Transactions

open Retry (Applied StmtRecord)

/-- The registry with the histories of its retryable writes, and its counts. -/
structure Ledger where
  registry : Registry
  /-- What the session's retryable write has applied, where it has one. -/
  applied : Lsid → Applied
  started : ℤ
  committed : ℤ
  aborted : ℤ

/-- What a session's number is, with all that is kept of it. -/
inductive EntryKind where
  | txn (x : ℕ) (state : TxnState)
  | retryable (done : Applied)

structure Entry where
  active : ℤ
  kind : EntryKind

namespace Ledger

def opened (wired : Bool) (lifetime : ℚ) : Ledger := ⟨.opened wired lifetime, fun _ => .empty, 0, 0, 0⟩

/-- The session's entry. -/
def entry (b : Ledger) (lsid : Lsid) : Option Entry :=
  (b.registry.session lsid).map fun s =>
    ⟨s.active, match s.kind with
      | .txn x => .txn x (b.registry.txns x).state
      | .retryable => .retryable (b.applied lsid)⟩

/-- `abort_locked`, and `ended`. -/
def abortLocked (b : Ledger) (x : ℕ) : Ledger :=
  if (b.registry.txns x).state = .inProgress then
    { b with registry := b.registry.abortLocked x, aborted := b.aborted + 1 }
  else b

/-- A session whose transaction is due: idle for longer than it may be. -/
def due (r : Registry) (now : ℚ) (e : Lsid × Session) : Bool :=
  match e.2.kind with
  | .txn x => r.tryLock x && (r.txns x).lastUse < now - r.lifetime
  | .retryable => false

/-- One session's turn in `prune_locked`. -/
def pruneOne (now : ℚ) (b : Ledger) (e : Lsid × Session) : Ledger :=
  match e.2.kind with
  | .txn x => if due b.registry now e then b.abortLocked x else b
  | .retryable => b

/-- `prune_locked`. -/
def prune (b : Ledger) (now : ℚ) : Ledger :=
  let b := b.registry.sessions.foldl (pruneOne now) b
  let r := b.registry
  if 60 ≤ now - r.lastSweep then
    { b with registry := { r with lastSweep := now, sessions := r.sessions.filter (r.swept now) } }
  else b

/-- `for_statement`: the transaction to run in, if there is one. -/
def forStatement (b : Ledger) (now : ℚ) (lsid : Lsid) (number : ℤ) (start : Bool) : Ledger × Option ℕ :=
  let (registry, resolution) := b.registry.forStatement now lsid number start
  let b := { b.prune now with registry := registry }
  match resolution with
  | .refused => (b, none)
  | .started x replaced =>
    let b := { b with started := b.started + 1 }
    ((replaced.map b.abortLocked).getD b, some x)
  | .found x =>
    if (b.registry.txns x).state = .inProgress then
      ({ b with registry := b.registry.set x { b.registry.txns x with lastUse := now } }, some x)
    else (b, none)

def forgetStarted (b : Ledger) (lsid : Lsid) (x : ℕ) : Ledger :=
  let b :=
    if (b.registry.txns x).state = .inProgress then
      { b with registry := b.registry.abortLocked x, started := b.started - 1 }
    else b
  { b with registry := b.registry.removeOurs lsid x }

/-- `begin_retryable`: what the write has applied, unless the number is refused. -/
def beginRetryable (b : Ledger) (now : ℚ) (lsid : Lsid) (number : ℤ) : Ledger × Option Applied :=
  let s := (b.registry.prune now).session lsid
  let (registry, replaced) := b.registry.beginRetryable now lsid number
  let b := { b.prune now with registry := registry }
  match s with
  | some s =>
    if number < s.active then (b, none)
    else if number = s.active then
      (b, match s.kind with
        | .txn _ => none
        | .retryable => some (b.applied lsid))
    else
      let b := { b with applied := Function.update b.applied lsid .empty }
      ((replaced.map b.abortLocked).getD b, some .empty)
  | none => ({ b with applied := Function.update b.applied lsid .empty }, some .empty)

def recordStatements (b : Ledger) (lsid : Lsid) (number : ℤ) (records : List (ℤ × StmtRecord)) : Ledger :=
  match b.registry.session lsid with
  | some ⟨active, .retryable, _⟩ =>
    if records ≠ [] ∧ active = number then
      { b with applied := Function.update b.applied lsid ((b.applied lsid).add records) }
    else b
  | _ => b

/-- `commit`: `ok` is what the storage answers. -/
def commit (b : Ledger) (now : ℚ) (lsid : Lsid) (number : ℤ) (ok : Bool) : Ledger :=
  let (registry, found) := b.registry.ending now lsid number
  let b := { b.prune now with registry := registry }
  match found with
  | none => b
  | some x =>
    if (b.registry.txns x).state = .inProgress then
      { b with
        registry := b.registry.commitLocked x now ok
        committed := if ok then b.committed + 1 else b.committed
        aborted := if ok then b.aborted else b.aborted + 1 }
    else b

def abort (b : Ledger) (now : ℚ) (lsid : Lsid) (number : ℤ) : Ledger :=
  let (registry, found) := b.registry.ending now lsid number
  let b := { b.prune now with registry := registry }
  match found with
  | none => b
  | some x =>
    if (b.registry.txns x).state = .inProgress then
      { b with registry := b.registry.abortUsed x now, aborted := b.aborted + 1 }
    else b

/-- The states that the registry's calls lead to. -/
inductive Reachable : Ledger → Prop
  | opened (wired : Bool) (lifetime : ℚ) : Reachable (.opened wired lifetime)
  | forStatement {b : Ledger} (now : ℚ) (lsid : Lsid) (number : ℤ) (start : Bool) :
    Reachable b → Reachable (b.forStatement now lsid number start).1
  | forgetStarted {b : Ledger} (lsid : Lsid) (x : ℕ) : Reachable b → Reachable (b.forgetStarted lsid x)
  | abortInProgress {b : Ledger} (x : ℕ) : Reachable b → Reachable (b.abortLocked x)
  | beginRetryable {b : Ledger} (now : ℚ) (lsid : Lsid) (number : ℤ) :
    Reachable b → Reachable (b.beginRetryable now lsid number).1
  | recordStatements {b : Ledger} (lsid : Lsid) (number : ℤ) (records : List (ℤ × StmtRecord)) :
    Reachable b → Reachable (b.recordStatements lsid number records)
  | commit {b : Ledger} (now : ℚ) (lsid : Lsid) (number : ℤ) (ok : Bool) :
    Reachable b → Reachable (b.commit now lsid number ok)
  | abort {b : Ledger} (now : ℚ) (lsid : Lsid) (number : ℤ) : Reachable b → Reachable (b.abort now lsid number)

/-- What a statement that does not parse must leave as it was. -/
structure AsBefore (b b' : Ledger) (lsid : Lsid) : Prop where
  entry : b'.entry lsid = b.entry lsid
  started : b'.started = b.started
  committed : b'.committed = b.committed
  aborted : b'.aborted = b.aborted

/-- A `startTransaction` that does not parse: it starts its transaction, and that is forgotten. -/
def unparsed (b : Ledger) (now : ℚ) (lsid : Lsid) (number : ℤ) : Ledger :=
  match b.forStatement now lsid number true with
  | (b', some x) => b'.forgetStarted lsid x
  | (b', none) => b'

/-- The sweep aborts the session's transaction: it is due, and has not ended. -/
def reaped (r : Registry) (now : ℚ) (e : Lsid × Session) : Bool :=
  due r now e &&
    match e.2.kind with
    | .txn x => (r.txns x).state = .inProgress
    | .retryable => false

/-! ## The sweep -/

theorem abortLocked_registry (b : Ledger) (x : ℕ) : (b.abortLocked x).registry = b.registry.abortLocked x := by
  unfold abortLocked
  split
  · rfl
  · rename_i hended
    rw [Registry.abortLocked, if_neg hended]

/-- A session's turn aborts its transaction and counts it, or changes nothing. -/
theorem pruneOne_cases (now : ℚ) (b : Ledger) (e : Lsid × Session) :
    (reaped b.registry now e = true ∧ (pruneOne now b e).aborted = b.aborted + 1 ∧
      (pruneOne now b e).started = b.started ∧ (pruneOne now b e).committed = b.committed) ∨
    (reaped b.registry now e = false ∧ pruneOne now b e = b) := by
  unfold pruneOne reaped
  split
  · rename_i x hkind
    by_cases hdue : due b.registry now e = true
    · rw [if_pos hdue, hdue, Bool.true_and, abortLocked]
      by_cases hstate : (b.registry.txns x).state = .inProgress
      · rw [if_pos hstate]
        exact .inl ⟨decide_eq_true hstate, rfl, rfl, rfl⟩
      · rw [if_neg hstate]
        exact .inr ⟨decide_eq_false hstate, rfl⟩
    · rw [if_neg hdue]
      exact .inr ⟨by rw [Bool.not_eq_true _ |>.mp hdue, Bool.false_and], rfl⟩
  · exact .inr ⟨Bool.and_false _, rfl⟩

theorem foldl_pruneOne_spec (now : ℚ) (es : List (Lsid × Session)) (b : Ledger) :
    (es.foldl (pruneOne now) b).started = b.started ∧ (es.foldl (pruneOne now) b).committed = b.committed ∧
      b.aborted ≤ (es.foldl (pruneOne now) b).aborted ∧
      ((es.foldl (pruneOne now) b).aborted = b.aborted ↔ ∀ e ∈ es, reaped b.registry now e = false) := by
  induction es generalizing b with
  | nil => exact ⟨rfl, rfl, le_rfl, fun _ e he => absurd he List.not_mem_nil, fun _ => rfl⟩
  | cons e es ih =>
    obtain ⟨hstarted, hcommitted, hle, hiff⟩ := ih (pruneOne now b e)
    rw [List.foldl_cons]
    rcases pruneOne_cases now b e with ⟨hreaped, haborted, hs, hc⟩ | ⟨hkept, hsame⟩
    · refine ⟨hstarted.trans hs, hcommitted.trans hc, by omega, fun h => by omega, fun h => ?_⟩
      rw [h e List.mem_cons_self] at hreaped
      cases hreaped
    · rw [hsame] at hstarted hcommitted hle hiff ⊢
      refine ⟨hstarted, hcommitted, hle, hiff.trans ?_⟩
      rw [List.forall_mem_cons]
      exact ⟨fun h => ⟨hkept, h⟩, And.right⟩

/-- The sweep leaves the counts as they were where no transaction is reaped. -/
theorem prune_spec (b : Ledger) (now : ℚ) :
    (b.prune now).started = b.started ∧ (b.prune now).committed = b.committed ∧
      ((b.prune now).aborted = b.aborted ↔ ∀ e ∈ b.registry.sessions, reaped b.registry now e = false) := by
  obtain ⟨hstarted, hcommitted, -, hiff⟩ := foldl_pruneOne_spec now b.registry.sessions b
  unfold prune
  simp only
  split
  · exact ⟨hstarted, hcommitted, hiff⟩
  · exact ⟨hstarted, hcommitted, hiff⟩

/-! ## The sessions -/

theorem session_insertSession (r : Registry) (lsid : Lsid) (s : Session) :
    (r.insertSession lsid s).session lsid = some s := List.lookup_cons_self

theorem session_removeSession (r : Registry) (lsid : Lsid) : (r.removeSession lsid).session lsid = none := by
  unfold Registry.session Registry.removeSession
  rw [List.lookup_eq_none_iff]
  intro e he
  have hne := of_decide_eq_true (List.mem_filter.mp he).2
  exact bne_iff_ne.mpr (Ne.symm hne)

@[simp] theorem sessions_abortLocked (r : Registry) (x : ℕ) : (r.abortLocked x).sessions = r.sessions := by
  unfold Registry.abortLocked
  split
  · exact Registry.sessions_releaseLocks _ x
  · rfl

theorem sessions_commitLocked (r : Registry) (x : ℕ) (now : ℚ) (ok : Bool) :
    (r.commitLocked x now ok).sessions = r.sessions := by
  unfold Registry.commitLocked
  split
  · exact Registry.sessions_releaseLocks _ x
  · rfl

theorem sessions_abortUsed (r : Registry) (x : ℕ) (now : ℚ) : (r.abortUsed x now).sessions = r.sessions := by
  unfold Registry.abortUsed
  split
  · exact Registry.sessions_releaseLocks _ x
  · rfl

theorem session_abortLocked (r : Registry) (x : ℕ) (lsid : Lsid) :
    (r.abortLocked x).session lsid = r.session lsid := by
  unfold Registry.session
  rw [sessions_abortLocked]

theorem sessions_foldl_pruneOne (now : ℚ) (es : List (Lsid × Session)) (r : Registry) :
    (es.foldl (Registry.pruneOne now) r).sessions = r.sessions := by
  induction es generalizing r with
  | nil => rfl
  | cons e es ih =>
    rw [List.foldl_cons, ih, Registry.pruneOne]
    split
    · split
      · exact sessions_abortLocked r _
      · rfl
    · rfl

theorem sessions_prune (r : Registry) (now : ℚ) : (r.prune now).sessions.Sublist r.sessions := by
  have hsame : (r.sessions.foldl (Registry.pruneOne now) r).sessions.Sublist r.sessions := by
    rw [sessions_foldl_pruneOne]
  unfold Registry.prune
  simp only
  split
  · exact List.filter_sublist.trans hsame
  · exact hsame

/-- Each session has one entry. -/
def OneEach (r : Registry) : Prop := (r.sessions.map Prod.fst).Nodup

theorem OneEach.sublist {r r' : Registry} (h : OneEach r) (hsub : r'.sessions.Sublist r.sessions) : OneEach r' :=
  List.Nodup.sublist (hsub.map Prod.fst) h

theorem OneEach.insertSession {r : Registry} (h : OneEach r) (lsid : Lsid) (s : Session) :
    OneEach (r.insertSession lsid s) := by
  refine List.nodup_cons.mpr ⟨fun hmem => ?_, List.Nodup.sublist (List.filter_sublist.map Prod.fst) h⟩
  obtain ⟨e, he, hkey⟩ := List.mem_map.mp hmem
  exact of_decide_eq_true (List.mem_filter.mp he).2 hkey

theorem OneEach.session_mem {r : Registry} (h : OneEach r) {lsid : Lsid} {s : Session} (hmem : (lsid, s) ∈ r.sessions) :
    r.session lsid = some s := by
  unfold Registry.session
  obtain ⟨before, after, hsplit⟩ := List.append_of_mem hmem
  refine List.lookup_eq_some_iff.mpr ⟨before, after, hsplit, fun e he => ?_⟩
  rw [OneEach, hsplit, List.map_append, List.map_cons] at h
  have hdisjoint := (List.nodup_append.mp h).2.2 e.1 (List.mem_map_of_mem he) lsid List.mem_cons_self
  exact bne_iff_ne.mpr (Ne.symm hdisjoint)

theorem OneEach.session_prune {r : Registry} (h : OneEach r) {now : ℚ} {lsid : Lsid} {s : Session}
    (hs : (r.prune now).session lsid = some s) : r.session lsid = some s :=
  h.session_mem ((sessions_prune r now).subset (Registry.mem_of_session hs))

theorem oneEach_forStatement {r : Registry} (h : OneEach r) (now : ℚ) (lsid : Lsid) (number : ℤ) (start : Bool) :
    OneEach (r.forStatement now lsid number start).1 := by
  have hprune := h.sublist (sessions_prune r now)
  unfold Registry.forStatement
  simp only
  split
  · exact hprune
  · split
    · split
      · exact hprune
      · exact hprune.insertSession lsid _
    · split
      · exact hprune
      · split
        · split <;> exact hprune.insertSession lsid _
        · exact hprune

theorem oneEach_beginRetryable {r : Registry} (h : OneEach r) (now : ℚ) (lsid : Lsid) (number : ℤ) :
    OneEach (r.beginRetryable now lsid number).1 := by
  have hprune := h.sublist (sessions_prune r now)
  unfold Registry.beginRetryable
  simp only
  split
  · exact hprune.insertSession lsid _
  · split
    · exact hprune
    · split <;> exact hprune.insertSession lsid _

theorem oneEach_ending {r : Registry} (h : OneEach r) (now : ℚ) (lsid : Lsid) (number : ℤ) :
    OneEach (r.ending now lsid number).1 := by
  have hprune := h.sublist (sessions_prune r now)
  unfold Registry.ending
  simp only
  split
  · exact hprune
  · exact hprune.insertSession lsid _

theorem OneEach.of_sessions {r r' : Registry} (h : OneEach r) (hsame : r'.sessions = r.sessions) : OneEach r' := by
  rwa [OneEach, hsame]

theorem oneEach_abortLocked {b : Ledger} (h : OneEach b.registry) (x : ℕ) : OneEach (b.abortLocked x).registry := by
  rw [abortLocked_registry]
  exact h.of_sessions (sessions_abortLocked _ x)

theorem oneEach_getD {b : Ledger} (h : OneEach b.registry) (replaced : Option ℕ) :
    OneEach ((replaced.map b.abortLocked).getD b).registry := by
  cases replaced with
  | none => exact h
  | some old => exact oneEach_abortLocked h old

theorem Reachable.oneEach {b : Ledger} (h : Reachable b) : OneEach b.registry := by
  induction h with
  | opened => exact List.nodup_nil
  | @forStatement b now lsid number start _ ih =>
    have hfor := oneEach_forStatement ih now lsid number start
    unfold Ledger.forStatement
    split
    rename_i registry resolution heq
    rw [heq] at hfor
    simp only
    split
    · exact hfor
    · exact oneEach_getD (b := { b.prune now with registry := registry, started := _ }) hfor _
    · split <;> exact hfor
  | @forgetStarted b lsid x _ ih =>
    have hstep : ∀ r : Registry, OneEach r → OneEach (r.removeOurs lsid x) := by
      intro r hr
      unfold Registry.removeOurs
      split
      · exact hr.sublist List.filter_sublist
      · exact hr
    unfold Ledger.forgetStarted
    simp only
    split
    · exact hstep _ (ih.of_sessions (sessions_abortLocked _ x))
    · exact hstep _ ih
  | abortInProgress x _ ih => exact oneEach_abortLocked ih x
  | @beginRetryable b now lsid number _ ih =>
    have hbegin := oneEach_beginRetryable ih now lsid number
    unfold Ledger.beginRetryable
    split
    rename_i registry replaced heq
    rw [heq] at hbegin
    simp only
    split
    · split
      · exact hbegin
      · split
        · exact hbegin
        · exact oneEach_getD (b := { b.prune now with registry := registry, applied := _ }) hbegin _
    · exact hbegin
  | @recordStatements b lsid number records _ ih =>
    unfold Ledger.recordStatements
    split
    · split <;> exact ih
    · exact ih
  | @commit b now lsid number ok _ ih =>
    have hending := oneEach_ending ih now lsid number
    unfold Ledger.commit
    split
    rename_i registry found heq
    rw [heq] at hending
    simp only
    split
    · exact hending
    · split
      · exact hending.of_sessions (sessions_commitLocked _ _ now ok)
      · exact hending
  | @abort b now lsid number _ ih =>
    have hending := oneEach_ending ih now lsid number
    unfold Ledger.abort
    split
    rename_i registry found heq
    rw [heq] at hending
    simp only
    split
    · exact hending
    · split
      · exact hending.of_sessions (sessions_abortUsed _ _ now)
      · exact hending

/-! ## What is forgotten -/

/-- A number above the session's starts a transaction, which is the session's then. -/
theorem forStatement_starts {b : Ledger} {now : ℚ} {lsid : Lsid} {number : ℤ} (hpos : 0 ≤ number)
    (habove : ∀ s, (b.registry.prune now).session lsid = some s → s.active < number) :
    ∃ b', b.forStatement now lsid number true = (b', some (b.registry.prune now).count) ∧
      b'.registry.session lsid = some ⟨number, .txn (b.registry.prune now).count, now⟩ ∧
      ((b.registry.prune now).session lsid = none →
        (b'.registry.txns (b.registry.prune now).count).state = .inProgress ∧
        b'.started = (b.prune now).started + 1 ∧ b'.committed = (b.prune now).committed ∧
        b'.aborted = (b.prune now).aborted) := by
  have hactive : (((b.registry.prune now).session lsid).map Session.active).getD (-1) < number := by
    cases hs : (b.registry.prune now).session lsid with
    | none => exact Int.lt_of_lt_of_le (by decide) hpos
    | some s => exact habove s hs
  have hstart : b.registry.forStatement now lsid number true =
      ((b.registry.prune now).start now lsid number,
        .started (b.registry.prune now).count (((b.registry.prune now).session lsid).bind Session.txn)) := by
    unfold Registry.forStatement
    simp only
    rw [if_neg (by omega), if_pos trivial, if_neg (by omega)]
  have hentry : ((b.registry.prune now).start now lsid number).session lsid =
      some ⟨number, .txn (b.registry.prune now).count, now⟩ := session_insertSession _ lsid _
  unfold forStatement
  rw [hstart]
  simp only
  cases hold : ((b.registry.prune now).session lsid).bind Session.txn with
  | none =>
    refine ⟨_, rfl, hentry, fun _ => ⟨?_, rfl, rfl, rfl⟩⟩
    show ((Function.update (b.registry.prune now).txns _ _) (b.registry.prune now).count).state = .inProgress
    rw [Function.update_self]
    rfl
  | some old =>
    refine ⟨_, rfl, ?_, fun hnone => ?_⟩
    · show (abortLocked _ old).registry.session lsid = _
      rw [abortLocked_registry, session_abortLocked]
      exact hentry
    · rw [hnone] at hold
      cases hold

/-- The session's entry is gone, and the transaction started is counted out. -/
theorem forgetStarted_spec {b : Ledger} {lsid : Lsid} {x : ℕ} {number : ℤ} {now : ℚ}
    (hentry : b.registry.session lsid = some ⟨number, .txn x, now⟩) :
    (b.forgetStarted lsid x).registry.session lsid = none ∧
      (b.forgetStarted lsid x).committed = b.committed ∧ (b.forgetStarted lsid x).aborted = b.aborted ∧
      ((b.registry.txns x).state = .inProgress → (b.forgetStarted lsid x).started = b.started - 1) := by
  have hours : ∀ r : Registry, r.session lsid = some ⟨number, .txn x, now⟩ →
      (r.removeOurs lsid x).session lsid = none := by
    intro r hr
    unfold Registry.removeOurs
    rw [hr, if_pos (show (some (⟨number, .txn x, now⟩ : Session)).bind Session.txn = some x from rfl)]
    exact session_removeSession r lsid
  unfold forgetStarted
  simp only
  split
  · refine ⟨hours _ ?_, rfl, rfl, fun _ => rfl⟩
    rw [session_abortLocked]
    exact hentry
  · rename_i hended
    exact ⟨hours _ hentry, rfl, rfl, fun hstate => absurd hstate hended⟩

/-- Whatever the session's entry was, it has none after the statement. -/
theorem session_unparsed {b : Ledger} {now : ℚ} {lsid : Lsid} {number : ℤ} (hpos : 0 ≤ number)
    (habove : ∀ s, (b.registry.prune now).session lsid = some s → s.active < number) :
    (b.unparsed now lsid number).registry.session lsid = none := by
  obtain ⟨b', hb', hentry, -⟩ := forStatement_starts hpos habove
  unfold unparsed
  rw [hb']
  exact (forgetStarted_spec hentry).1

theorem entry_eq_none {b : Ledger} {lsid : Lsid} : b.entry lsid = none ↔ b.registry.session lsid = none :=
  Option.map_eq_none_iff

/-- A `startTransaction` that does not parse leaves all as it was just where the session had no entry and no
    transaction was due to be reaped. -/
theorem forgotten_iff {b : Ledger} (hb : Reachable b) (now : ℚ) (lsid : Lsid) {number : ℤ} (hpos : 0 ≤ number)
    (habove : ∀ s, b.registry.session lsid = some s → s.active < number) :
    AsBefore b (b.unparsed now lsid number) lsid ↔
      b.registry.session lsid = none ∧ ∀ e ∈ b.registry.sessions, reaped b.registry now e = false := by
  have habove' : ∀ s, (b.registry.prune now).session lsid = some s → s.active < number :=
    fun s hs => habove s (hb.oneEach.session_prune hs)
  obtain ⟨hps, hpc, hpa⟩ := prune_spec b now
  -- an entry is not put back
  have hgone := session_unparsed hpos habove'
  obtain ⟨b', hb', hentry, hcounts⟩ := forStatement_starts hpos habove'
  have hunparsed : b.unparsed now lsid number = b'.forgetStarted lsid (b.registry.prune now).count := by
    unfold unparsed
    rw [hb']
  obtain ⟨-, hc, ha, hs⟩ := forgetStarted_spec hentry
  have hnone : b.registry.session lsid = none → (b.registry.prune now).session lsid = none := by
    intro h
    cases hp : (b.registry.prune now).session lsid with
    | none => rfl
    | some s =>
      rw [hb.oneEach.session_prune hp] at h
      cases h
  constructor
  · rintro ⟨hsame, -, -, haborted⟩
    have hold : b.registry.session lsid = none := by
      rw [← entry_eq_none, ← hsame]
      exact entry_eq_none.mpr hgone
    refine ⟨hold, hpa.mp ?_⟩
    rw [hunparsed, ha, (hcounts (hnone hold)).2.2.2] at haborted
    exact haborted
  · rintro ⟨hold, hreaped⟩
    obtain ⟨hstate, hstarted, hcommitted, haborted⟩ := hcounts (hnone hold)
    refine ⟨(entry_eq_none.mpr hgone).trans (entry_eq_none.mpr hold).symm, ?_, ?_, ?_⟩
    · rw [hunparsed, hs hstate, hstarted, hps, Int.add_sub_cancel]
    · rw [hunparsed, hc, hcommitted, hpc]
    · rw [hunparsed, ha, haborted, hpa.mpr hreaped]

/-- On the first number of a session, nothing is left of the statement. -/
theorem forgotten_iff_opened :
    AsBefore (.opened true 60) ((Ledger.opened true 60).unparsed 1 [7] 0) [7] ↔
      (Ledger.opened true 60).registry.session [7] = none ∧
        ∀ e ∈ (Ledger.opened true 60).registry.sessions, reaped (Ledger.opened true 60).registry 1 e = false :=
  forgotten_iff (.opened true 60) 1 [7] le_rfl (fun _ hs => nomatch hs)

/-- A session whose retryable write 5 has applied its statement 0. -/
def written : Ledger :=
  (((Ledger.opened true 60).beginRetryable 1 [7] 5).1).recordStatements [7] 5 [(0, .delete)]

/-- A `startTransaction` with number 6 that does not parse takes the write's history away: sent again, it would run a
    second time. -/
theorem forgets_applied :
    Reachable written ∧ ¬ AsBefore written (written.unparsed 2 [7] 6) [7] ∧
      (written.beginRetryable 2 [7] 5).2.map (·.contains 0) = some true ∧
      ((written.unparsed 2 [7] 6).beginRetryable 3 [7] 5).2.map (·.contains 0) = some false := by
  have hreachable : Reachable written := .recordStatements _ _ _ (.beginRetryable _ _ _ (.opened true 60))
  have hactive : (written.registry.session [7]).map Session.active = some 5 := by decide +kernel
  refine ⟨hreachable, fun h => ?_, ?_, ?_⟩
  · have hgone : (written.unparsed 2 [7] 6).registry.session [7] = none := by
      refine session_unparsed (by decide) fun s hs => ?_
      rw [hreachable.oneEach.session_prune hs] at hactive
      rw [Option.some.inj hactive]
      decide
    have hentry := h.entry
    rw [entry_eq_none.mpr hgone, eq_comm, entry_eq_none] at hentry
    rw [hentry] at hactive
    cases hactive
  · decide +kernel
  · decide +kernel

end Ledger

end Secantus.Transactions
