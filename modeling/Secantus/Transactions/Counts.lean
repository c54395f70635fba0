/-
  The counts that serverStatus reports (`TransactionRegistry::counts`): the transactions open are those started less
  those ended.

  After any calls these are just the transactions in progress, and each is the transaction of one session
  (`counts_in_progress`): none is counted twice, and none is out of reach of the sweep and the kills.
-/
import Secantus.Transactions.Forgotten
import Mathlib.Data.Finset.Card

namespace Secantus.Transactions.Ledger

open Registry

structure TxnCounts where
  currentActive : ℤ
  currentInactive : ℤ
  totalAborted : ℤ
  totalCommitted : ℤ
  totalStarted : ℤ

/-- `counts`: a transaction that runs a statement holds its lock. -/
def counts (b : Ledger) : TxnCounts :=
  let running := (b.registry.openTransactions fun _ => true).filter fun x => !b.registry.tryLock x
  let opened := max (b.started - b.committed - b.aborted) 0
  let active := min (running.length : ℤ) opened
  ⟨active, opened - active, b.aborted, b.committed, b.started⟩

def inProgressCount (b : Ledger) : ℕ :=
  ((b.registry.openTransactions fun _ => true).filter fun x => (b.registry.txns x).state = .inProgress).length

/-- The registry's calls, with the transactions it has handed out. -/
inductive Called : Ledger → Prop
  | opened (wired : Bool) (lifetime : ℚ) : Called (.opened wired lifetime)
  | forStatement {b : Ledger} (now : ℚ) (lsid : Lsid) (number : ℤ) (start : Bool) :
    Called b → Called (b.forStatement now lsid number start).1
  | forgetStarted {b : Ledger} (lsid : Lsid) {x : ℕ} : x < b.registry.count → Called b → Called (b.forgetStarted lsid x)
  /-- `abort_in_progress`, and each turn of the kills. -/
  | abortLocked {b : Ledger} {x : ℕ} : x < b.registry.count → Called b → Called (b.abortLocked x)
  | beginRetryable {b : Ledger} (now : ℚ) (lsid : Lsid) (number : ℤ) :
    Called b → Called (b.beginRetryable now lsid number).1
  | recordStatements {b : Ledger} (lsid : Lsid) (number : ℤ) (records : List (ℤ × Retry.StmtRecord)) :
    Called b → Called (b.recordStatements lsid number records)
  | commit {b : Ledger} (now : ℚ) (lsid : Lsid) (number : ℤ) (ok : Bool) : Called b → Called (b.commit now lsid number ok)
  | abort {b : Ledger} (now : ℚ) (lsid : Lsid) (number : ℤ) : Called b → Called (b.abort now lsid number)
  | reap {b : Ledger} (now : ℚ) : Called b → Called (b.prune now)
  | forgetSession {b : Ledger} (lsid : Lsid) :
    Called b → Called { b with registry := b.registry.forgetSession lsid }

/-! ## What every call keeps -/

/-- The transactions in progress. -/
def live (r : Registry) : Finset ℕ := (Finset.range r.count).filter fun x => (r.txns x).state = .inProgress

/-- The transactions in progress are counted, and each is a session's own, but for those that are `pending`: replaced,
    and about to be aborted. -/
structure Tallied (b : Ledger) (pending : ℕ → Prop) : Prop where
  one : OneEach b.registry
  apart : b.registry.sessions.Pairwise fun e e' => ∀ x, e.2.txn = some x → e'.2.txn ≠ some x
  below : ∀ e ∈ b.registry.sessions, ∀ x, e.2.txn = some x → x < b.registry.count
  reached : ∀ x ∈ live b.registry, (∃ e ∈ b.registry.sessions, e.2.txn = some x) ∨ pending x
  total : b.started - b.committed - b.aborted = (live b.registry).card

variable {b b' : Ledger} {pending pending' : ℕ → Prop}

theorem mem_live {r : Registry} {x : ℕ} : x ∈ live r ↔ x < r.count ∧ (r.txns x).state = .inProgress := by
  rw [live, Finset.mem_filter, Finset.mem_range]

theorem Tallied.mono (h : Tallied b pending) (hle : ∀ x, pending x → pending' x) : Tallied b pending' :=
  { h with reached := fun x hx => (h.reached x hx).imp_right (hle x) }

/-- The sessions change, and none that is kept loses its transaction. -/
theorem Tallied.withSessions (h : Tallied b pending) {r : Registry} (hlive : live r = live b.registry)
    (hone : OneEach r)
    (happart : r.sessions.Pairwise fun e e' => ∀ x, e.2.txn = some x → e'.2.txn ≠ some x)
    (hbelow : ∀ e ∈ r.sessions, ∀ x, e.2.txn = some x → x < r.count)
    (hkept : ∀ x ∈ live r, (∃ e ∈ b.registry.sessions, e.2.txn = some x) ∨ pending x →
      (∃ e ∈ r.sessions, e.2.txn = some x) ∨ pending' x) : Tallied { b with registry := r } pending' where
  one := hone
  apart := happart
  below := hbelow
  reached x hx := hkept x hx (h.reached x (hlive ▸ hx))
  total := by
    show b.started - b.committed - b.aborted = (live r).card
    rw [hlive]
    exact h.total

/-- Sessions are taken away, none of them with a transaction in progress. -/
theorem Tallied.filter (h : Tallied b pending) {keep : Lsid × Session → Bool} {lastSweep : ℚ}
    (hkeep : ∀ e ∈ b.registry.sessions, ∀ x ∈ live b.registry, e.2.txn = some x → keep e = true) :
    Tallied { b with registry :=
      { b.registry with lastSweep := lastSweep, sessions := b.registry.sessions.filter keep } } pending := by
  refine h.withSessions rfl (h.one.sublist List.filter_sublist) (h.apart.sublist List.filter_sublist)
    (fun e he => h.below e (List.mem_of_mem_filter he)) fun x hx hreached => ?_
  refine hreached.imp_left fun ⟨e, he, hex⟩ => ⟨e, List.mem_filter.mpr ⟨he, hkeep e he x hx hex⟩, hex⟩

/-- A session's entry is written, and its transaction was replaced where it is not the entry's. -/
theorem Tallied.insert (h : Tallied b pending) (lsid : Lsid) (s : Session)
    (hs : ∀ x, s.txn = some x → x < b.registry.count ∧
      ∀ e ∈ b.registry.sessions, e.1 ≠ lsid → e.2.txn ≠ some x)
    (hold : ∀ x, (b.registry.session lsid).bind Session.txn = some x ∨ pending x → s.txn = some x ∨ pending' x) :
    Tallied { b with registry := b.registry.insertSession lsid s } pending' := by
  have hothers : ∀ e ∈ b.registry.sessions.filter (fun e => e.1 ≠ lsid), e ∈ b.registry.sessions ∧ e.1 ≠ lsid :=
    fun e he => (List.mem_filter.mp he).imp_right of_decide_eq_true
  refine h.withSessions rfl (h.one.insertSession lsid s) ?_ (fun e he => ?_) fun x _ hreached => ?_
  · refine List.pairwise_cons.mpr ⟨fun e he x hx => ?_, h.apart.sublist List.filter_sublist⟩
    exact (hs x hx).2 e (hothers e he).1 (hothers e he).2
  · rcases List.mem_cons.mp he with rfl | he
    · exact fun x hx => (hs x hx).1
    · exact h.below e (hothers e he).1
  · have hnew : s.txn = some x ∨ pending' x →
        (∃ e ∈ (b.registry.insertSession lsid s).sessions, e.2.txn = some x) ∨ pending' x :=
      fun hx => hx.imp_left fun hx => ⟨(lsid, s), List.mem_cons_self, hx⟩
    rcases hreached with ⟨e, he, hex⟩ | hpending
    · by_cases hkey : e.1 = lsid
      · subst hkey
        refine hnew (hold x (Or.inl ?_))
        rw [h.one.session_mem he]
        exact hex
      · exact Or.inl ⟨e, List.mem_cons_of_mem _ (List.mem_filter.mpr ⟨he, decide_eq_true hkey⟩), hex⟩
    · exact hnew (hold x (Or.inr hpending))

/-- A transaction in progress ends, and is counted. -/
theorem Tallied.ended (h : Tallied b pending) {x : ℕ} (hx : x < b.registry.count)
    (hstate : (b.registry.txns x).state = .inProgress) {t : Transaction}
    (hb' : b'.registry = (b.registry.set x t).releaseLocks x) (ht : t.state ≠ .inProgress)
    (htotal : b'.started - b'.committed - b'.aborted = b.started - b.committed - b.aborted - 1) :
    Tallied b' fun y => pending y ∧ y ≠ x := by
  have hcount : b'.registry.count = b.registry.count := hb' ▸ count_releaseLocks _ x
  have hsessions : b'.registry.sessions = b.registry.sessions := hb' ▸ sessions_releaseLocks _ x
  have hlive : live b'.registry = (live b.registry).erase x := by
    ext y
    rw [Finset.mem_erase, mem_live, mem_live, hcount, hb', txns_releaseLocks, txns_set]
    by_cases hy : y = x
    · rw [if_pos hy]
      exact iff_of_false (fun h => ht h.2) fun h => h.1 hy
    · rw [if_neg hy]
      exact ⟨fun h => ⟨hy, h⟩, And.right⟩
  refine ⟨h.one.of_sessions hsessions, hsessions ▸ h.apart, ?_, fun y hy => ?_, ?_⟩
  · rw [hsessions, hcount]
    exact h.below
  · rw [hlive, Finset.mem_erase] at hy
    rw [hsessions]
    exact (h.reached y hy.2).imp_right fun hp => ⟨hp, hy.1⟩
  · have hmem : x ∈ live b.registry := mem_live.mpr ⟨hx, hstate⟩
    rw [htotal, h.total, hlive, Finset.card_erase_of_mem hmem]
    have hpos := Finset.card_pos.mpr ⟨x, hmem⟩
    omega

/-- A transaction is touched, and its state stays. -/
theorem Tallied.touch (h : Tallied b pending) (x : ℕ) (now : ℚ) :
    Tallied { b with registry := b.registry.set x { b.registry.txns x with lastUse := now } } pending := by
  have hstate : ∀ y, ((b.registry.set x { b.registry.txns x with lastUse := now }).txns y).state =
      (b.registry.txns y).state := by
    intro y
    rw [txns_set]
    split
    · rename_i hy
      rw [hy]
    · rfl
  have hlive : live (b.registry.set x { b.registry.txns x with lastUse := now }) = live b.registry := by
    ext y
    rw [mem_live, mem_live, hstate]
    rfl
  exact h.withSessions hlive h.one h.apart h.below fun _ _ => id

/-! ## The calls -/

theorem Tallied.abortLocked (h : Tallied b pending) {x : ℕ} (hx : x < b.registry.count) :
    Tallied (b.abortLocked x) (fun y => pending y ∧ y ≠ x) ∧ (b.abortLocked x).registry.count = b.registry.count := by
  unfold Ledger.abortLocked
  split
  · rename_i hstate
    rw [Registry.abortLocked, if_pos hstate]
    exact ⟨h.ended hx hstate rfl (fun heq => by cases heq) (by dsimp only; omega), count_releaseLocks _ x⟩
  · rename_i hstate
    refine ⟨{ h with reached := fun y hy => (h.reached y hy).imp_right fun hp => ⟨hp, ?_⟩ }, rfl⟩
    rintro rfl
    exact hstate (mem_live.mp hy).2

theorem Tallied.foldl_pruneOne (now : ℚ) (es : List (Lsid × Session)) (h : Tallied b pending)
    (hes : ∀ e ∈ es, ∀ x, e.2.txn = some x → x < b.registry.count) :
    Tallied (es.foldl (pruneOne now) b) pending := by
  induction es generalizing b with
  | nil => exact h
  | cons e es ih =>
    have hrest := fun e' he' => hes e' (List.mem_cons_of_mem e he')
    rw [List.foldl_cons, pruneOne]
    split
    · rename_i x hkind
      split
      · have hx : x < b.registry.count := hes e List.mem_cons_self x (by rw [Session.txn, hkind])
        obtain ⟨haborted, hcount⟩ := h.abortLocked hx
        exact ih (haborted.mono fun _ hy => hy.1) (hcount ▸ hrest)
      · exact ih h hrest
    · exact ih h hrest

theorem Tallied.prune (h : Tallied b pending) (now : ℚ) : Tallied (b.prune now) pending := by
  have hfold := h.foldl_pruneOne now b.registry.sessions h.below
  unfold Ledger.prune
  simp only
  split
  · refine hfold.filter fun e _ x hx hex => ?_
    unfold Registry.swept
    rw [Session.txn] at hex
    split at hex
    · cases hex
      rw [Bool.or_eq_true, Bool.or_eq_true]
      exact Or.inr (Or.inr (decide_eq_true (mem_live.mp hx).2))
    · cases hex
  · exact hfold

theorem prune_registry (b : Ledger) (now : ℚ) : (b.prune now).registry = b.registry.prune now := by
  have hfold : ∀ (es : List (Lsid × Session)) (b : Ledger),
      (es.foldl (pruneOne now) b).registry = es.foldl (Registry.pruneOne now) b.registry := by
    intro es
    induction es with
    | nil => exact fun _ => rfl
    | cons e es ih =>
      intro b
      rw [List.foldl_cons, List.foldl_cons, ih, pruneOne, Registry.pruneOne]
      congr 1
      split
      · rename_i x hkind
        simp only [due, hkind]
        split
        · exact abortLocked_registry b x
        · rfl
      · rename_i hkind
        simp only [hkind]
  unfold Ledger.prune Registry.prune
  rw [← hfold]
  simp only
  split <;> rfl

theorem Tallied.replaced (h : Tallied b pending) {old : Option ℕ} (hold : ∀ x, old = some x → x < b.registry.count)
    (hpending : ∀ x, pending x → old = some x) :
    Tallied ((old.map b.abortLocked).getD b) fun _ => False := by
  cases old with
  | none => exact h.mono fun x hx => nomatch hpending x hx
  | some old =>
    refine (h.abortLocked (hold old rfl)).1.mono fun x hx => hx.2 ?_
    exact (Option.some.inj (hpending x hx.1)).symm

theorem Tallied.held (h : Tallied b pending) {lsid : Lsid} {s : Session} (hs : b.registry.session lsid = some s) {x : ℕ}
    (hx : s.txn = some x) :
    x < b.registry.count ∧ ∀ e ∈ b.registry.sessions, e.1 ≠ lsid → e.2.txn ≠ some x := by
  have hmem := mem_of_session hs
  have : Std.Symm fun e e' : Lsid × Session => ∀ x, e.2.txn = some x → e'.2.txn ≠ some x :=
    ⟨fun _ _ hr x hx hx' => hr x hx' hx⟩
  exact ⟨h.below _ hmem x hx, fun e he hne => h.apart.forall hmem he (fun heq => hne (heq ▸ rfl)) x hx⟩

theorem Tallied.touchSession (h : Tallied b pending) {lsid : Lsid} {s : Session}
    (hs : b.registry.session lsid = some s) (now : ℚ) :
    Tallied { b with registry := b.registry.insertSession lsid { s with lastUse := now } } pending := by
  refine h.insert lsid _ (fun x hx => h.held hs hx) fun x hx => hx.imp_left fun hx => ?_
  rw [hs] at hx
  exact hx

/-- A transaction starts, and the session's old one is to be aborted. -/
theorem Tallied.start (h : Tallied b fun _ => False) (now : ℚ) (lsid : Lsid) (number : ℤ) :
    Tallied { b with registry := b.registry.start now lsid number, started := b.started + 1 }
      fun x => (b.registry.session lsid).bind Session.txn = some x := by
  let t : Transaction := .new now (if b.registry.wired then some (.transaction b.registry.nextOwner) else none)
  let added : Ledger := { b with
    registry := { b.registry.set b.registry.count t with
      count := b.registry.count + 1
      nextOwner := b.registry.nextOwner + 1 }
    started := b.started + 1 }
  have hlive : live added.registry = Insert.insert b.registry.count (live b.registry) := by
    ext x
    rw [Finset.mem_insert, mem_live, mem_live]
    show x < b.registry.count + 1 ∧ ((b.registry.set b.registry.count t).txns x).state = _ ↔ _
    rw [txns_set]
    by_cases hx : x = b.registry.count
    · rw [if_pos hx]
      exact iff_of_true ⟨by omega, rfl⟩ (Or.inl hx)
    · rw [if_neg hx, or_iff_right hx]
      exact and_congr_left fun _ => by omega
  have hadded : Tallied added fun x => x = b.registry.count := by
    refine ⟨h.one, h.apart, fun e he x hx => Nat.lt_succ_of_lt (h.below e he x hx), fun x hx => ?_, ?_⟩
    · rw [hlive, Finset.mem_insert] at hx
      exact hx.symm.imp_left fun hx => (h.reached x hx).resolve_right id
    · have hnew : b.registry.count ∉ live b.registry := fun hx => Nat.lt_irrefl _ (mem_live.mp hx).1
      have htotal := h.total
      rw [hlive, Finset.card_insert_of_notMem hnew]
      dsimp only [added]
      omega
  refine hadded.insert lsid ⟨number, .txn b.registry.count, now⟩ (fun x hx => ?_) fun x hx => hx.symm.imp ?_ id
  · cases hx
    exact ⟨Nat.lt_succ_self _, fun e he _ hex => Nat.lt_irrefl _ (h.below e he _ hex)⟩
  · rintro rfl
    rfl

theorem Tallied.forStatement (h : Tallied b fun _ => False) (now : ℚ) (lsid : Lsid) (number : ℤ) (start : Bool) :
    Tallied (b.forStatement now lsid number start).1 fun _ => False := by
  have hprune := h.prune now
  unfold Ledger.forStatement
  cases hfor : b.registry.forStatement now lsid number start with
  | mk registry resolution =>
  unfold Registry.forStatement at hfor
  rw [← prune_registry] at hfor
  generalize b.prune now = b at hprune hfor
  simp only at hfor ⊢
  split at hfor
  · cases hfor
    exact hprune
  split at hfor
  · split at hfor
    · cases hfor
      exact hprune
    · cases hfor
      refine (hprune.start now lsid number).replaced (fun x hx => ?_) fun _ => id
      obtain ⟨s, hs, hx⟩ := Option.bind_eq_some_iff.mp hx
      exact Nat.lt_succ_of_lt (hprune.held hs hx).1
  · split at hfor
    · cases hfor
      exact hprune
    · rename_i s hs
      have htouch := hprune.touchSession hs now
      split at hfor
      · split at hfor
        · cases hfor
          dsimp only
          split
          · exact htouch.touch _ now
          · exact htouch
        · cases hfor
          exact htouch
      · cases hfor
        exact hprune

theorem Tallied.beginRetryable (h : Tallied b fun _ => False) (now : ℚ) (lsid : Lsid) (number : ℤ) :
    Tallied (b.beginRetryable now lsid number).1 fun _ => False := by
  have hprune := h.prune now
  unfold Ledger.beginRetryable Registry.beginRetryable
  rw [← prune_registry]
  generalize b.prune now = b at hprune
  have hinsert : Tallied { b with registry := b.registry.insertSession lsid ⟨number, .retryable, now⟩ }
      fun x => (b.registry.session lsid).bind Session.txn = some x :=
    hprune.insert lsid _ nofun fun x hx => Or.inr (hx.resolve_right id)
  simp only
  cases hs : b.registry.session lsid with
  | none =>
    rw [hs] at hinsert
    exact { hinsert with reached := fun x hx => (hinsert.reached x hx).imp_right nofun }
  | some s =>
    rw [hs] at hinsert
    dsimp only
    by_cases hlt : number < s.active
    · rw [if_pos hlt, if_pos hlt]
      exact hprune
    by_cases heq : number = s.active
    · rw [if_neg hlt, if_pos heq, if_neg hlt, if_pos heq]
      exact hprune.touchSession hs now
    · rw [if_neg hlt, if_neg heq, if_neg hlt, if_neg heq]
      exact Tallied.replaced (b := { b with
          registry := b.registry.insertSession lsid ⟨number, .retryable, now⟩
          applied := Function.update b.applied lsid .empty })
        ⟨hinsert.one, hinsert.apart, hinsert.below, hinsert.reached, hinsert.total⟩
        (fun x hx => (hprune.held hs hx).1) fun _ => id

/-- `ending` finds a transaction that was started. -/
theorem Tallied.ending (h : Tallied b fun _ => False) (now : ℚ) (lsid : Lsid) (number : ℤ) :
    Tallied { b.prune now with registry := (b.registry.ending now lsid number).1 } (fun _ => False) ∧
      ∀ x, (b.registry.ending now lsid number).2 = some x → x < (b.registry.ending now lsid number).1.count := by
  have hprune := h.prune now
  unfold Registry.ending
  rw [← prune_registry]
  generalize b.prune now = b at hprune
  simp only
  cases hs : b.registry.session lsid with
  | none => exact ⟨hprune, nofun⟩
  | some s =>
    refine ⟨hprune.touchSession hs now, fun x hx => ?_⟩
    dsimp only at hx
    split at hx
    · exact (hprune.held hs hx).1
    · cases hx

theorem Tallied.commit (h : Tallied b fun _ => False) (now : ℚ) (lsid : Lsid) (number : ℤ) (ok : Bool) :
    Tallied (b.commit now lsid number ok) fun _ => False := by
  obtain ⟨hending, hfound⟩ := h.ending now lsid number
  unfold Ledger.commit
  simp only
  split
  · exact hending
  · rename_i x hx
    split
    · rename_i hstate
      rw [Registry.commitLocked, if_pos hstate]
      refine Tallied.mono (hending.ended (hfound x hx) hstate rfl ?_ ?_) fun _ => And.left
      · cases ok <;> exact fun heq => by cases heq
      · cases ok
        · simp only [Bool.false_eq_true, if_false]
          omega
        · simp only [if_true]
          omega
    · exact hending

theorem Tallied.abort (h : Tallied b fun _ => False) (now : ℚ) (lsid : Lsid) (number : ℤ) :
    Tallied (b.abort now lsid number) fun _ => False := by
  obtain ⟨hending, hfound⟩ := h.ending now lsid number
  unfold Ledger.abort
  simp only
  split
  · exact hending
  · rename_i x hx
    split
    · rename_i hstate
      rw [Registry.abortUsed, if_pos hstate]
      exact Tallied.mono (hending.ended (hfound x hx) hstate rfl (fun heq => by cases heq) (by dsimp only; omega)) fun _ => And.left
    · exact hending

/-- A session is taken away that has no transaction in progress. -/
theorem Tallied.removeSession (h : Tallied b fun _ => False) {lsid : Lsid}
    (hnone : ∀ x ∈ live b.registry, (b.registry.session lsid).bind Session.txn ≠ some x) :
    Tallied { b with registry := b.registry.removeSession lsid } fun _ => False := by
  unfold Registry.removeSession
  refine h.filter fun e he x hx hex => decide_eq_true ?_
  rintro rfl
  refine hnone x hx ?_
  rw [h.one.session_mem he]
  exact hex

theorem Tallied.forgetStarted (h : Tallied b fun _ => False) (lsid : Lsid) {x : ℕ} (hx : x < b.registry.count) :
    Tallied (b.forgetStarted lsid x) fun _ => False := by
  have hours : ∀ {b : Ledger}, Tallied b (fun _ => False) → x ∉ live b.registry →
      Tallied { b with registry := b.registry.removeOurs lsid x } fun _ => False := by
    intro b h hx
    unfold Registry.removeOurs
    split
    · rename_i hsession
      refine h.removeSession fun y hy heq => hx ?_
      rw [hsession] at heq
      cases heq
      exact hy
    · exact h
  unfold Ledger.forgetStarted
  simp only
  split
  · rename_i hstate
    rw [Registry.abortLocked, if_pos hstate]
    refine hours (Tallied.mono (h.ended hx hstate rfl (fun heq => by cases heq) (by dsimp only; omega)) fun _ => And.left) fun hlive => ?_
    have hended := (mem_live.mp hlive).2
    rw [txns_releaseLocks, txns_set, if_pos rfl] at hended
    cases hended
  · rename_i hstate
    exact hours h fun hlive => hstate (mem_live.mp hlive).2

theorem Tallied.forgetSession (h : Tallied b fun _ => False) (lsid : Lsid) :
    Tallied { b with registry := b.registry.forgetSession lsid } fun _ => False := by
  unfold Registry.forgetSession
  split
  · rename_i x hsession
    split
    · exact h
    · rename_i hended
      refine h.removeSession fun y hy heq => hended ?_
      rw [hsession] at heq
      cases heq
      rw [Bool.or_eq_true]
      exact Or.inr (decide_eq_true (mem_live.mp hy).2)
  · rename_i hsession
    refine h.removeSession fun y _ heq => ?_
    rw [hsession] at heq
    cases heq

theorem Called.tallied (h : Called b) : Tallied b fun _ => False := by
  induction h with
  | opened wired lifetime =>
    exact ⟨List.nodup_nil, List.Pairwise.nil, fun _ he => absurd he List.not_mem_nil,
      fun x hx => absurd (mem_live.mp hx).1 (Nat.not_lt_zero x), rfl⟩
  | forStatement now lsid number start _ ih => exact ih.forStatement now lsid number start
  | forgetStarted lsid hx _ ih => exact ih.forgetStarted lsid hx
  | abortLocked hx _ ih => exact (ih.abortLocked hx).1.mono fun _ => And.left
  | beginRetryable now lsid number _ ih => exact ih.beginRetryable now lsid number
  | recordStatements lsid number records _ ih =>
    unfold Ledger.recordStatements
    split
    · split <;> exact ⟨ih.one, ih.apart, ih.below, ih.reached, ih.total⟩
    · exact ih
  | commit now lsid number ok _ ih => exact ih.commit now lsid number ok
  | abort now lsid number _ ih => exact ih.abort now lsid number
  | reap now _ ih => exact ih.prune now
  | forgetSession lsid _ ih => exact ih.forgetSession lsid

/-- After any calls the transactions that `counts` reports as open are those in progress; each is the transaction of
    one session, and that of no other. -/
theorem counts_in_progress (h : Called b) :
    b.counts.currentActive + b.counts.currentInactive = b.inProgressCount ∧
      b.counts.totalStarted = b.counts.totalCommitted + b.counts.totalAborted + b.inProgressCount ∧
      ∀ x, x < b.registry.count → (b.registry.txns x).state = .inProgress →
        ∃! e, e ∈ b.registry.sessions ∧ e.2.txn = some x := by
  have ht := h.tallied
  have hmem : ∀ x, x ∈ b.registry.openTransactions (fun _ => true) ↔ ∃ e ∈ b.registry.sessions, e.2.txn = some x := by
    intro x
    simp only [Registry.openTransactions, if_true, List.mem_filterMap]
  have hnodup : (b.registry.openTransactions fun _ => true).Nodup := by
    simp only [Registry.openTransactions, if_true]
    refine List.pairwise_filterMap.mpr (ht.apart.imp fun {e e'} hr x hx y hy => ?_)
    rintro rfl
    exact hr x hx hy
  have hcount : b.inProgressCount = (live b.registry).card := by
    unfold inProgressCount
    rw [← List.toFinset_card_of_nodup (hnodup.filter _)]
    congr 1
    ext x
    rw [List.mem_toFinset, List.mem_filter, hmem, mem_live, decide_eq_true_eq]
    refine and_congr_left fun hstate => ⟨fun ⟨e, he, hex⟩ => ht.below e he x hex, fun hx => ?_⟩
    exact (ht.reached x (mem_live.mpr ⟨hx, hstate⟩)).resolve_right id
  have htotal := ht.total
  rw [← hcount] at htotal
  refine ⟨?_, ?_, fun x hx hstate => ?_⟩
  · show min _ _ + (max (b.started - b.committed - b.aborted) 0 - min _ _) = _
    rw [htotal]
    omega
  · show b.started = b.committed + b.aborted + _
    omega
  · obtain ⟨e, he, hex⟩ := (ht.reached x (mem_live.mpr ⟨hx, hstate⟩)).resolve_right id
    refine ⟨e, ⟨he, hex⟩, fun e' ⟨he', hex'⟩ => ?_⟩
    have : Std.Symm fun e e' : Lsid × Session => ∀ x, e.2.txn = some x → e'.2.txn ≠ some x :=
      ⟨fun _ _ hr x hx hx' => hr x hx' hx⟩
    by_contra hne
    exact ht.apart.forall he' he hne x hex' hex

/-- A session whose second transaction replaced its first. -/
theorem counts_in_progress_replaced :
    let b := (((opened true 60).forStatement 1 [7] 0 true).1.forStatement 2 [7] 1 true).1
    b.counts.currentActive + b.counts.currentInactive = b.inProgressCount ∧
      b.counts.totalStarted = b.counts.totalCommitted + b.counts.totalAborted + b.inProgressCount ∧
      ∀ x, x < b.registry.count → (b.registry.txns x).state = .inProgress →
        ∃! e, e ∈ b.registry.sessions ∧ e.2.txn = some x :=
  counts_in_progress (.forStatement 2 [7] 1 true (.forStatement 1 [7] 0 true (.opened true 60)))

end Secantus.Transactions.Ledger
