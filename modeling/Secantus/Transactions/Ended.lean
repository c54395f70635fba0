/-
  What an ended transaction holds.

  `act_keeps` says once what a step of a thread can do: it keeps the owners and the transactions that other
  threads run statements of, and it keeps ended transactions clean where it takes nothing for one of them.
  `ended_holds_nothing_iff` reads the runs from it.
-/
import Secantus.Transactions.Registry

namespace Secantus.Transactions

open LockManager (Owner Resource Mode Wait Move)

open Registry

/-! ## The steps that are not quiet -/

namespace Registry

theorem quiet_set (tid : ℕ) {r : Registry} {x : ℕ} {t : Transaction}
    (hfree : ∀ tid', tid' ≠ tid → (r.txns x).holder ≠ some tid')
    (howner : t.lockOwner = (r.txns x).lockOwner) (hstate : t.state = (r.txns x).state)
    (hhandle : t.handle = (r.txns x).handle) (hcommits : t.commits = (r.txns x).commits)
    (hrollbacks : t.rollbacks = (r.txns x).rollbacks) : Quiet tid r (r.set x t) where
  toFrame := by
    refine frame_set tid hfree howner (fun hsound h => ?_) fun hsound h => ?_
    · rw [hcommits, hrollbacks]
      exact hsound.before x (hstate.symm.trans h)
    · rw [hcommits, hrollbacks]
      exact hsound.once x fun h' => h (hstate.trans h')
  clean hclean y hy := by
    have hsame : ((r.set x t).txns y).state = (r.txns y).state ∧
        ((r.set x t).txns y).handle = (r.txns y).handle ∧
        ((r.set x t).txns y).lockOwner = (r.txns y).lockOwner := by
      rw [txns_set]
      split
      · rename_i h
        rw [h]
        exact ⟨hstate, hhandle, howner⟩
      · exact ⟨rfl, rfl, rfl⟩
    obtain ⟨hstate', hhandle', howner'⟩ := hsame
    rw [hstate'] at hy
    refine ⟨?_, fun owner h => ?_⟩
    · rw [hhandle']
      exact (hclean y hy).handle
    · exact (hclean y hy).locks owner (howner'.symm.trans h)

theorem frame_openHandle (tid : ℕ) {r : Registry} {x : ℕ} (hfree : r.free x = true) :
    Frame tid r (r.openHandle x) :=
  frame_set tid (not_held_of_free hfree tid) rfl (fun hsound h => hsound.before x h)
    fun hsound h => hsound.once x h

theorem clean_openHandle {r : Registry} {x : ℕ} (hclean : r.Clean) (hx : (r.txns x).state = .inProgress) :
    (r.openHandle x).Clean := by
  intro y hy
  by_cases hyx : y = x
  · subst hyx
    have hstate : ((r.openHandle y).txns y).state = (r.txns y).state := by
      unfold openHandle
      rw [txns_set, if_pos rfl]
    exact absurd (hstate.trans hx) hy
  · have hsame : (r.openHandle x).txns y = r.txns y := (txns_set r x y _).trans (if_neg hyx)
    rw [hsame] at hy
    refine ⟨?_, fun owner h => ?_⟩
    · rw [hsame]
      exact (hclean y hy).handle
    · rw [hsame] at h
      exact (hclean y hy).locks owner h

theorem frame_lock (tid : ℕ) (r : Registry) (mv : Move) : Frame tid r (r.lock mv) where
  count := Nat.le_refl _
  owner _ _ := rfl
  others _ _ _ _ h := ⟨h, rfl⟩
  sound h := ⟨h.owned, h.apart, h.before, h.once, h.sessions⟩

theorem clean_lock_of_not_grants {r : Registry} {mv : Move} (hmv : mv.acquires = true)
    (hgrants : r.locks.grants mv = none) (hclean : r.Clean) : (r.lock mv).Clean := by
  intro y hy
  refine ⟨(hclean y hy).handle, fun owner h resource mode => ?_⟩
  show (r.locks.step mv).held owner resource mode = 0
  rw [LockManager.System.held_acquires _ hmv, hgrants]
  exact (hclean y hy).locks owner h resource mode

/-- A move of the owner of a transaction in progress gives ended ones nothing. -/
theorem clean_lock_of_inProgress {r : Registry} {mv : Move} {x : ℕ} (hsound : r.Sound)
    (howner : (r.txns x).lockOwner = some mv.owner) (hx : (r.txns x).state = .inProgress)
    (hclean : r.Clean) : (r.lock mv).Clean := by
  intro y hy
  refine ⟨(hclean y hy).handle, fun owner h resource mode => ?_⟩
  show (r.locks.step mv).held owner resource mode = 0
  have hne : mv.owner ≠ owner := by
    rintro rfl
    have hyx : y = x := hsound.apart y x mv.owner h howner
    subst hyx
    exact hy hx
  rw [LockManager.System.held_step_of_ne _ hne]
  exact (hclean y hy).locks owner h resource mode

theorem held_of_grants {r : Registry} {mv : Move} {x : ℕ} (howner : (r.txns x).lockOwner = some mv.owner)
    (hgrants : (r.locks.grants mv).isSome = true) : ¬(r.lock mv).HoldsNothing x := by
  intro h
  obtain ⟨req, hreq⟩ := Option.isSome_iff_exists.mp hgrants
  have hmv : mv.acquires = true := by
    cases mv with
    | acquire owner resource mode => rfl
    | wake wt expired => rfl
    | release owner => cases hreq
    | releaseHolds owner chain => cases hreq
  have hzero := h.locks mv.owner howner req.resource req.mode
  have hheld : (r.locks.step mv).held mv.owner req.resource req.mode = 0 := hzero
  rw [LockManager.System.held_acquires _ hmv, hreq] at hheld
  simp only [LockManager.System.owner_of_grants hreq, and_self, if_true] at hheld
  omega

theorem quiet_forStatement (tid : ℕ) (r : Registry) (now : ℚ) (lsid : Lsid) (number : ℤ) (start : Bool) :
    Quiet tid r (r.forStatement now lsid number start).1 := by
  refine (quiet_prune tid r now).trans ?_
  unfold forStatement
  generalize r.prune now = r
  simp only
  split
  · exact Quiet.refl tid r
  · split
    · split
      · exact Quiet.refl tid r
      · exact quiet_start tid r now lsid number
    · split
      · exact Quiet.refl tid r
      · rename_i s hs
        split
        · split <;> exact quiet_touch tid hs now
        · exact Quiet.refl tid r

/-- The transactions that a resolution names. -/
def Resolution.Fits (r : Registry) : Resolution → Prop
  | .refused => True
  | .started x replaced => x < r.count ∧ ∀ old, replaced = some old → old < r.count
  | .found x => x < r.count

theorem fits_forStatement {r : Registry} (hsound : r.Sound) (now : ℚ) (lsid : Lsid) (number : ℤ)
    (start : Bool) :
    (r.forStatement now lsid number start).2.Fits (r.forStatement now lsid number start).1 := by
  have hsound := (quiet_prune 0 r now).sound hsound
  unfold forStatement
  generalize r.prune now = r at *
  simp only
  split
  · trivial
  · split
    · split
      · trivial
      · refine ⟨Nat.lt_succ_self _, fun old hold => ?_⟩
        obtain ⟨s, hs, hold⟩ := Option.bind_eq_some_iff.mp hold
        exact Nat.lt_succ_of_lt (hsound.session_lt hs old hold)
    · split
      · trivial
      · rename_i s hs
        split
        · split
          · rename_i x hkind
            exact hsound.session_lt hs x (by rw [Session.txn, hkind])
          · trivial
        · trivial

theorem openTransactions_lt {r : Registry} (hsound : r.Sound) (pick : Lsid → Bool) :
    ∀ x ∈ r.openTransactions pick, x < r.count := by
  intro x hx
  obtain ⟨e, he, hpick⟩ := List.mem_filterMap.mp hx
  split at hpick
  · exact hsound.sessions e he x hpick
  · cases hpick

theorem quiet_forgetSession (tid : ℕ) (r : Registry) (lsid : Lsid) : Quiet tid r (r.forgetSession lsid) := by
  unfold forgetSession
  split
  · split
    · exact Quiet.refl tid r
    · exact quiet_removeSession tid r lsid
  · exact quiet_removeSession tid r lsid

theorem quiet_removeOurs (tid : ℕ) (r : Registry) (lsid : Lsid) (x : ℕ) :
    Quiet tid r (r.removeOurs lsid x) := by
  unfold removeOurs
  split
  · exact quiet_removeSession tid r lsid
  · exact Quiet.refl tid r

end Registry

/-! ## One step of a thread -/

namespace Task

/-- A thread names transactions that were started; it waits for a lock of its transaction's owner, and holds
    the mutex of the transaction that it runs a statement of. -/
def Fits (tid : ℕ) (r : Registry) : Task → Prop
  | .idle => True
  | .replacing old next => old < r.count ∧ ∀ n, next = some n → n.2 < r.count
  | .found _ x _ | .resolved _ x | .locking _ x _ | .unlocking x | .failing x | .finishing x _
  | .forgetting _ x | .removing _ x | .ending x _ => x < r.count
  | .waiting _ x wt _ => x < r.count ∧ (r.txns x).lockOwner = some wt.owner
  | .running _ x => x < r.count ∧ (r.txns x).holder = some tid
  | .killing xs => ∀ x ∈ xs, x < r.count

/-- A statement runs for a transaction in progress. -/
def Live (r : Registry) : Task → Prop
  | .running _ x => (r.txns x).state = .inProgress
  | _ => True

variable {tid tid' : ℕ} {r r' : Registry}

theorem Fits.frame {task : Task} (h : task.Fits tid' r) (hframe : Frame tid r r') (hne : tid' ≠ tid) :
    task.Fits tid' r' := by
  have hlt : ∀ {x}, x < r.count → x < r'.count := fun hx => Nat.lt_of_lt_of_le hx hframe.count
  cases task with
  | idle => trivial
  | replacing old next => exact ⟨hlt h.1, fun n hn => hlt (h.2 n hn)⟩
  | waiting s x wt rest => exact ⟨hlt h.1, (hframe.owner x h.1).trans h.2⟩
  | running s x => exact ⟨hlt h.1, (hframe.others x h.1 tid' hne h.2).1⟩
  | killing xs => exact fun x hx => hlt (h x hx)
  | found s x now => exact hlt h
  | resolved s x => exact hlt h
  | locking s x rest => exact hlt h
  | unlocking x => exact hlt h
  | failing x => exact hlt h
  | finishing x failed => exact hlt h
  | forgetting s x => exact hlt h
  | removing s x => exact hlt h
  | ending x commit => exact hlt h

theorem Live.frame {task : Task} (h : task.Live r) (hfits : task.Fits tid' r) (hframe : Frame tid r r')
    (hne : tid' ≠ tid) : task.Live r' := by
  cases task with
  | running s x => exact (hframe.others x hfits.1 tid' hne hfits.2).2.trans h
  | _ => trivial

end Task

/-- What a step of a thread can do. -/
structure Keeps (tid : ℕ) (r : Registry) (task : Task) (a : Act) (r' : Registry) (task' : Task) : Prop where
  frame : Frame tid r r'
  fits : task'.Fits tid r'
  clean : (∀ x, task.takes r a = some x → (r.txns x).state = .inProgress) → r.Clean → task.Live r →
    r'.Clean ∧ task'.Live r'

theorem Keeps.of_quiet {tid : ℕ} {r r' : Registry} {task task' : Task} {a : Act} (h : Quiet tid r r')
    (hfits : task'.Fits tid r') (hlive : task'.Live r') : Keeps tid r task a r' task' :=
  ⟨h.toFrame, hfits, fun _ hclean _ => ⟨h.clean hclean, hlive⟩⟩

theorem Keeps.stays {tid : ℕ} {r : Registry} {task : Task} (a : Act) (hfits : task.Fits tid r) :
    Keeps tid r task a r task :=
  ⟨(Quiet.refl tid r).toFrame, hfits, fun _ hclean hlive => ⟨hclean, hlive⟩⟩

theorem keeps_begins {tid : ℕ} {r : Registry} {s : Stmt} {x : ℕ} (hx : x < r.count) (hfree : r.free x = true)
    (ok : Bool) (now : ℚ) : Keeps tid r (.locking s x []) (.proceed ok now) (begins tid r s x ok).1
      (begins tid r s x ok).2 := by
  unfold begins
  cases hhandle : (r.txns x).handle with
  | opened =>
    cases ok with
    | true =>
      have hq : Quiet tid r (r.hold x tid) := quiet_set tid (not_held_of_free hfree tid) rfl rfl rfl rfl rfl
      refine ⟨hq.toFrame, ⟨hx, ?_⟩, fun hmeets hclean _ => ⟨hq.clean hclean, ?_⟩⟩
      · show ((r.hold x tid).txns x).holder = some tid
        unfold hold
        rw [txns_set, if_pos rfl]
      · show ((r.hold x tid).txns x).state = .inProgress
        unfold hold
        rw [txns_set, if_pos rfl]
        refine hmeets x ?_
        simp only [Task.takes, hfree, hhandle, Bool.and_self, decide_true, if_true]
    | false => exact Keeps.of_quiet (Quiet.refl tid r) hx trivial
  | closed => exact Keeps.of_quiet (Quiet.refl tid r) hx trivial
  | unopened =>
    exact Keeps.of_quiet (quiet_set tid (not_held_of_free hfree tid) rfl rfl rfl rfl rfl) trivial trivial

theorem keeps_openHandle {tid : ℕ} {r : Registry} {s : Stmt} {x : ℕ} (hx : x < r.count)
    (hfree : r.free x = true) (hhandle : (r.txns x).handle = .unopened) (now : ℚ) :
    Keeps tid r (.resolved s x) (.proceed true now) (r.openHandle x) (.locking s x s.chain) := by
  refine ⟨frame_openHandle tid hfree, hx, fun hmeets hclean _ => ⟨?_, trivial⟩⟩
  refine clean_openHandle hclean (hmeets x ?_)
  simp only [Task.takes, hfree, hhandle, Bool.and_self, decide_true, if_true]

/-- A step of the lock request of a transaction. -/
theorem keeps_lock {tid : ℕ} {r : Registry} {task task' : Task} {a : Act} {mv : Move} {x : ℕ}
    (hsound : r.Sound) (hmv : mv.acquires = true) (howner : (r.txns x).lockOwner = some mv.owner)
    (htakes : task.takes r a = (r.locks.grants mv).map fun _ => x) (hfits : task'.Fits tid (r.lock mv))
    (hlive : task'.Live (r.lock mv)) : Keeps tid r task a (r.lock mv) task' := by
  refine ⟨frame_lock tid r mv, hfits, fun hmeets hclean _ => ⟨?_, hlive⟩⟩
  cases hgrants : r.locks.grants mv with
  | none => exact clean_lock_of_not_grants hmv hgrants hclean
  | some req =>
    refine clean_lock_of_inProgress hsound howner (hmeets x ?_) hclean
    rw [htakes, hgrants, Option.map_some]

/-- What the lock manager takes and what it asks to wait for is for the owner that asks. -/
theorem owner_of_ask {locks : LockManager.System} {owner : Owner} {resource : Resource} {mode : Mode}
    {wt : Wait} (h : (locks.state.ask owner resource mode).2 = some wt) : wt.owner = owner := by
  unfold LockManager.State.ask at h
  simp only at h
  split at h
  · cases h
  · rw [← Option.some.inj h]

theorem act_keeps {tid : ℕ} {r : Registry} {task : Task} (a : Act) (hsound : r.Sound)
    (hfits : task.Fits tid r) : Keeps tid r task a (act tid r task a).1 (act tid r task a).2 := by
  unfold act
  split
  · -- `for_statement`
    rename_i now s
    have hq := quiet_forStatement tid r now s.lsid s.number s.start
    have hnew := fits_forStatement hsound now s.lsid s.number s.start
    split <;> rename_i heq <;> rw [heq] at hq hnew
    · exact Keeps.of_quiet hq trivial trivial
    · exact Keeps.of_quiet hq hnew.1 trivial
    · rename_i x old
      refine Keeps.of_quiet hq ⟨hnew.2 old rfl, fun n hn => ?_⟩ trivial
      rw [← Option.some.inj hn]
      exact hnew.1
    · exact Keeps.of_quiet hq hnew trivial
  · -- `commit` or `abort`
    rename_i now lsid number commit
    have hq := quiet_ending tid r now lsid number
    have hnew := fun x => @ending_lt r now lsid number x hsound
    split <;> rename_i heq <;> rw [heq] at hq hnew
    · exact Keeps.of_quiet hq trivial trivial
    · exact Keeps.of_quiet hq (hnew _ rfl) trivial
  · -- `begin_retryable`
    rename_i now lsid number
    have hq := quiet_beginRetryable tid r now lsid number
    have hnew := fun x => @beginRetryable_lt r now lsid number x hsound
    split <;> rename_i heq <;> rw [heq] at hq hnew
    · exact Keeps.of_quiet hq trivial trivial
    · exact Keeps.of_quiet hq ⟨hnew _ rfl, fun n hn => by cases hn⟩ trivial
  · exact Keeps.of_quiet (Quiet.refl tid r) (openTransactions_lt hsound _) trivial
  · -- the replaced transaction
    rename_i old next _ _
    split
    · rename_i hfree
      have hq := quiet_abortLocked tid hfree
      cases next with
      | none => exact Keeps.of_quiet hq trivial trivial
      | some n => exact Keeps.of_quiet hq (Nat.lt_of_lt_of_le (hfits.2 n rfl) hq.count) trivial
    · exact Keeps.stays _ hfits
  · -- a later statement looks at the state
    split
    · rename_i hfree
      split
      · exact Keeps.of_quiet (quiet_set tid (not_held_of_free hfree tid) rfl rfl rfl rfl rfl) hfits trivial
      · exact Keeps.of_quiet (Quiet.refl tid r) trivial trivial
    · exact Keeps.stays _ hfits
  · split
    · rename_i hfree
      exact Keeps.of_quiet (quiet_abortLocked tid hfree) trivial trivial
    · exact Keeps.stays _ hfits
  · exact Keeps.of_quiet (Quiet.refl tid r) hfits trivial
  · -- the handle
    rename_i s x ok now
    split
    · rename_i hfree
      split
      · rename_i hhandle
        cases ok with
        | true => exact keeps_openHandle hfits hfree hhandle now
        | false => exact Keeps.of_quiet (Quiet.refl tid r) trivial trivial
      · exact Keeps.of_quiet (Quiet.refl tid r) hfits trivial
    · exact Keeps.stays _ hfits
  · -- a lock is asked for
    rename_i s x link rest ok now
    split
    · exact Keeps.of_quiet (Quiet.refl tid r) hfits trivial
    · rename_i owner howner
      have htakes : (Task.locking s x (link :: rest)).takes r (.proceed ok now) =
          (r.locks.grants (.acquire owner link.1 link.2)).map fun _ => x := by
        simp only [Task.takes, howner, Option.bind_some]
      split
      · exact keeps_lock hsound rfl howner htakes hfits trivial
      · rename_i wt hask
        refine keeps_lock hsound rfl howner htakes ⟨hfits, ?_⟩ trivial
        rw [owner_of_ask hask]
        exact howner
  · -- a lock request wakes
    split
    · exact keeps_lock hsound rfl hfits.2 rfl hfits.1 trivial
    · split
      · exact keeps_lock hsound rfl hfits.2 rfl hfits.1 trivial
      · exact Keeps.stays _ hfits
  · rename_i x _ _
    refine Keeps.of_quiet (quiet_releaseLocks tid r x) ?_ trivial
    show x < (r.releaseLocks x).count
    rw [count_releaseLocks]
    exact hfits
  · split
    · rename_i hfree
      have hq := quiet_abortLocked tid hfree
      exact Keeps.of_quiet hq (Nat.lt_of_lt_of_le hfits hq.count) trivial
    · exact Keeps.stays _ hfits
  · split
    · rename_i hfree
      exact keeps_begins hfits hfree _ _
    · exact Keeps.stays _ hfits
  · -- the end of a run: no other thread holds the mutex
    rename_i s x outcome
    have hholder : ∀ tid', tid' ≠ tid → (r.txns x).holder ≠ some tid' := by
      intro tid' hne h
      exact hne (Option.some.inj (h.symm.trans hfits.2))
    have hq := fun panicked => @quiet_set tid r x
      { r.txns x with holder := none, poisoned := (r.txns x).poisoned || panicked } hholder rfl rfl rfl rfl rfl
    cases outcome with
    | panicked => exact Keeps.of_quiet (hq true) trivial trivial
    | unparsed =>
      simp only
      split
      · exact Keeps.of_quiet (hq false) hfits.1 trivial
      · exact Keeps.of_quiet (hq false) trivial trivial
    | replied failed => exact Keeps.of_quiet (hq false) hfits.1 trivial
  · split
    · split
      · rename_i hfree
        exact Keeps.of_quiet (quiet_abortLocked tid hfree) trivial trivial
      · exact Keeps.stays _ hfits
    · exact Keeps.of_quiet (Quiet.refl tid r) trivial trivial
  · split
    · rename_i hfree
      have hq := quiet_abortLocked tid hfree
      exact Keeps.of_quiet hq (Nat.lt_of_lt_of_le hfits hq.count) trivial
    · exact Keeps.stays _ hfits
  · exact Keeps.of_quiet (quiet_removeOurs tid r _ _) trivial trivial
  · split
    · rename_i hfree
      split
      · exact Keeps.of_quiet (quiet_commitLocked tid hfree _ _) trivial trivial
      · exact Keeps.of_quiet (quiet_abortUsed tid hfree _) trivial trivial
    · exact Keeps.stays _ hfits
  · split
    · rename_i x xs _ _ hfree
      have hq := quiet_abortLocked tid hfree
      exact Keeps.of_quiet hq
        (fun y hy => Nat.lt_of_lt_of_le (hfits y (List.mem_cons_of_mem _ hy)) hq.count) trivial
    · exact Keeps.stays _ hfits
  · exact Keeps.of_quiet (Quiet.refl tid r) trivial trivial
  · exact Keeps.stays _ hfits

/-! ## Runs -/

namespace System

/-- An ended transaction that no statement runs for holds nothing, each transaction is committed or rolled
    back at most once, and statements run for transactions in progress. -/
structure Holds (w : System) : Prop where
  nothing : ∀ x, (w.registry.txns x).state ≠ .inProgress → (∀ tid s, w.tasks tid ≠ .running s x) →
    w.registry.HoldsNothing x
  once : ∀ x, (w.registry.txns x).commits.length ≤ 1 ∧ (w.registry.txns x).rollbacks ≤ 1 ∧
    ¬(true ∈ (w.registry.txns x).commits ∧ 0 < (w.registry.txns x).rollbacks)
  runs : ∀ tid s x, w.tasks tid = .running s x → (w.registry.txns x).state = .inProgress

/-- What every state that is reached keeps. -/
structure Sound (w : System) : Prop where
  registry : w.registry.Sound
  fits : ∀ tid, (w.tasks tid).Fits tid w.registry

/-- What the steps keep that take nothing for an ended transaction. -/
structure Clean (w : System) : Prop where
  registry : w.registry.Clean
  live : ∀ tid, (w.tasks tid).Live w.registry

theorem sound_opened (wired : Bool) (lifetime : ℚ) : (opened wired lifetime).Sound where
  registry :=
    ⟨(fun _ _ h => by cases h), (fun _ _ _ h => by cases h), (fun _ _ => ⟨rfl, rfl⟩), (fun _ h => absurd rfl h),
      (fun _ h => by cases h)⟩
  fits _ := trivial

theorem clean_opened (wired : Bool) (lifetime : ℚ) : (opened wired lifetime).Clean where
  registry _ h := absurd rfl h
  live _ := trivial

variable {w : System}

theorem sound_of_frame (h : w.Sound) {r : Registry} (hframe : ∀ tid, Frame tid w.registry r) :
    Sound { w with registry := r } where
  registry := (hframe 0).sound h.registry
  fits tid := (h.fits tid).frame (hframe (tid + 1)) (Nat.ne_of_lt (Nat.lt_succ_self tid))

theorem clean_of_frame (hsound : w.Sound) (h : w.Clean) {r : Registry}
    (hframe : ∀ tid, Frame tid w.registry r) (hclean : r.Clean) : Clean { w with registry := r } where
  registry := hclean
  live tid := (h.live tid).frame (hsound.fits tid) (hframe (tid + 1)) (Nat.ne_of_lt (Nat.lt_succ_self tid))

theorem clean_lock_others {r : Registry} (hsound : r.Sound) (hclean : r.Clean) {mv : Move} {n : ℕ}
    (howner : mv.owner = .statement n) : (r.lock mv).Clean := by
  intro y hy
  refine ⟨(hclean y hy).handle, fun owner h resource mode => ?_⟩
  show (r.locks.step mv).held owner resource mode = 0
  have hne : mv.owner ≠ owner := by
    obtain ⟨m, -, rfl⟩ := hsound.owned y owner h
    rw [howner]
    exact fun heq => nomatch heq
  rw [LockManager.System.held_step_of_ne _ hne]
  exact (hclean y hy).locks owner h resource mode

theorem Sound.step (h : w.Sound) (e : Step) : (w.step e).Sound := by
  cases e with
  | act tid a =>
    have hkeeps := act_keeps a h.registry (h.fits tid)
    refine ⟨hkeeps.frame.sound h.registry, fun tid' => ?_⟩
    show (Function.update w.tasks tid _ tid').Fits tid' _
    by_cases hne : tid' = tid
    · subst hne
      rw [Function.update_self]
      exact hkeeps.fits
    · rw [Function.update_of_ne hne]
      exact (h.fits tid').frame hkeeps.frame hne
  | reap now => exact sound_of_frame h fun tid => (quiet_prune tid _ now).toFrame
  | forgetSession lsid => exact sound_of_frame h fun tid => (quiet_forgetSession tid _ lsid).toFrame
  | others mv =>
    unfold System.step
    simp only
    split
    · exact sound_of_frame h fun tid => frame_lock tid _ mv
    · exact h

theorem Clean.step (h : w.Clean) (hsound : w.Sound) {e : Step} (hmeets : w.Meets e) : (w.step e).Clean := by
  cases e with
  | act tid a =>
    have hkeeps := act_keeps a hsound.registry (hsound.fits tid)
    obtain ⟨hclean, hlive⟩ := hkeeps.clean hmeets h.registry (h.live tid)
    refine ⟨hclean, fun tid' => ?_⟩
    show (Function.update w.tasks tid _ tid').Live _
    by_cases hne : tid' = tid
    · subst hne
      rw [Function.update_self]
      exact hlive
    · rw [Function.update_of_ne hne]
      exact (h.live tid').frame (hsound.fits tid') hkeeps.frame hne
  | reap now =>
    exact clean_of_frame hsound h (fun tid => (quiet_prune tid _ now).toFrame)
      ((quiet_prune 0 _ now).clean h.registry)
  | forgetSession lsid =>
    exact clean_of_frame hsound h (fun tid => (quiet_forgetSession tid _ lsid).toFrame)
      ((quiet_forgetSession 0 _ lsid).clean h.registry)
  | others mv =>
    unfold System.step
    simp only
    split
    · rename_i n howner
      exact clean_of_frame hsound h (fun tid => frame_lock tid _ mv)
        (clean_lock_others hsound.registry h.registry howner)
    · exact h

theorem holds_of_clean (hsound : w.Sound) (h : w.Clean) : w.Holds where
  nothing x hx _ := h.registry x hx
  once x := by
    by_cases hx : (w.registry.txns x).state = .inProgress
    · obtain ⟨hcommits, hrollbacks⟩ := hsound.registry.before x hx
      rw [hcommits, hrollbacks]
      exact ⟨Nat.zero_le _, Nat.zero_le _, fun h => Nat.lt_irrefl _ h.2⟩
    · have honce := hsound.registry.once x hx
      refine ⟨by omega, by omega, fun ⟨hmem, hpos⟩ => ?_⟩
      have hlen := List.length_pos_of_mem hmem
      omega
  runs tid s x htask := by
    have hlive := h.live tid
    rw [htask] at hlive
    exact hlive

/-- What a thread takes for a transaction leaves it holding something, or running a statement. -/
theorem act_takes {tid : ℕ} {r : Registry} {task : Task} {a : Act} {x : ℕ} (hfits : task.Fits tid r)
    (h : task.takes r a = some x) :
    ((act tid r task a).1.txns x).state = (r.txns x).state ∧
      (¬(act tid r task a).1.HoldsNothing x ∨ ∃ s, (act tid r task a).2 = .running s x) := by
  unfold Task.takes at h
  split at h
  · split at h
    · rename_i s x' ok now hopen
      obtain rfl := Option.some.inj h
      simp only [Bool.and_eq_true, decide_eq_true_eq] at hopen
      obtain ⟨⟨hfree, rfl⟩, hhandle⟩ := hopen
      have hact : act tid r (.resolved s x') (.proceed true now) =
          (r.openHandle x', .locking s x' s.chain) := by
        simp only [act, hfree, hhandle, if_true]
      have hopened : (r.openHandle x').txns x' = { r.txns x' with handle := .opened } :=
        (txns_set r x' x' _).trans (if_pos rfl)
      rw [hact, hopened]
      refine ⟨rfl, Or.inl fun hnothing => hnothing.handle ?_⟩
      rw [hopened]
    · cases h
  · rename_i s x' link rest ok now
    obtain ⟨owner, howner, hgrants⟩ := Option.bind_eq_some_iff.mp h
    obtain ⟨req, hreq, rfl⟩ := Option.map_eq_some_iff.mp hgrants
    have hact : (act tid r (.locking s x' (link :: rest)) (.proceed ok now)).1 =
        r.lock (.acquire owner link.1 link.2) := by
      unfold act
      simp only [howner]
      split <;> rfl
    rw [hact]
    refine ⟨rfl, Or.inl (held_of_grants howner ?_)⟩
    rw [hreq]
    rfl
  · rename_i s x' wt rest expired
    obtain ⟨req, hreq, rfl⟩ := Option.map_eq_some_iff.mp h
    have hact : (act tid r (.waiting s x' wt rest) (.wake expired)).1 = r.lock (.wake wt expired) := by
      simp only [act, hreq, Option.isSome_some, if_true]
    rw [hact]
    refine ⟨rfl, Or.inl (held_of_grants hfits.2 ?_)⟩
    rw [hreq]
    rfl
  · split at h
    · rename_i s x' ok now hruns
      obtain rfl := Option.some.inj h
      simp only [Bool.and_eq_true, decide_eq_true_eq] at hruns
      obtain ⟨⟨hfree, rfl⟩, hhandle⟩ := hruns
      have hact : act tid r (.locking s x' []) (.proceed true now) = (r.hold x' tid, .running s x') := by
        simp only [act, begins, hfree, hhandle, if_true]
      have hheld : (r.hold x' tid).txns x' = { r.txns x' with holder := some tid } :=
        (txns_set r x' x' _).trans (if_pos rfl)
      rw [hact, hheld]
      exact ⟨rfl, Or.inr ⟨s, rfl⟩⟩
    · cases h
  · cases h

/-- A step that takes something for an ended transaction leaves a state that does not hold. -/
theorem meets_of_holds (hsound : w.Sound) {e : Step} (h : (w.step e).Holds) : w.Meets e := by
  intro x htakes
  by_contra hx
  cases e with
  | act tid a =>
    obtain ⟨hstate, hdirty⟩ := act_takes (hsound.fits tid) htakes
    have hended : ((w.step (.act tid a)).registry.txns x).state ≠ .inProgress := fun h =>
      hx (hstate.symm.trans h)
    rcases hdirty with hdirty | ⟨s, hruns⟩
    · exact hdirty (h.nothing x hended fun tid' s hruns => hended (h.runs tid' s x hruns))
    · exact hended (h.runs tid s x ((Function.update_self tid _ w.tasks).trans hruns))
  | reap now => cases htakes
  | forgetSession lsid => cases htakes
  | others mv => cases htakes

theorem holds_iff_meets (steps : List Step) (hsound : w.Sound) (hclean : w.Clean) :
    (∀ k, (w.run (steps.take k)).Holds) ↔ Library.StepsMeet System.step System.Meets w steps := by
  induction steps generalizing w with
  | nil =>
    simp only [List.take_nil, Library.StepsMeet, iff_true]
    exact fun _ => holds_of_clean hsound hclean
  | cons e steps ih =>
    have hsound' := hsound.step e
    constructor
    · intro h
      have hmeets : w.Meets e := meets_of_holds hsound (h 1)
      refine ⟨hmeets, (ih hsound' (hclean.step hsound hmeets)).mp fun k => h (k + 1)⟩
    · rintro ⟨hmeets, hrest⟩ k
      cases k with
      | zero => exact holds_of_clean hsound hclean
      | succ k => exact (ih hsound' (hclean.step hsound hmeets)).mpr hrest k

end System

/-- Over every run, ended transactions hold nothing in every state that is reached if and only if no thread
    opens a handle, is granted a lock or begins a statement for a transaction that has ended by then. -/
theorem ended_holds_nothing_iff (wired : Bool) (lifetime : ℚ) (steps : List Step) :
    (∀ k, ((System.opened wired lifetime).run (steps.take k)).Holds) ↔
      Library.StepsMeet System.step System.Meets (System.opened wired lifetime) steps :=
  System.holds_iff_meets steps (System.sound_opened wired lifetime) (System.clean_opened wired lifetime)

/-! ## A kill between two steps of a statement -/

def firstStatement : Stmt := ⟨[1], 1, true, [(.global, .ix)]⟩

/-- A `killSessions` comes between the start of a transaction and the opening of its handle. -/
def killedEarly : List Step :=
  [.act 0 (.statement 0 firstStatement), .act 1 (.kill fun _ => true), .act 1 (.proceed true 0),
    .act 1 (.proceed true 0), .act 0 (.proceed true 0), .act 0 (.proceed true 0), .act 0 (.proceed true 0),
    .act 0 (.reply (.replied false)), .act 0 (.proceed true 0)]

theorem killed_statement_opens_handle :
    ¬∀ k, ((System.opened true 60).run (killedEarly.take k)).Holds := by
  intro h
  have hholds := h 9
  have hended : (((System.opened true 60).run killedEarly).registry.txns 0).state = .aborted := by
    decide +kernel
  have hopened : (((System.opened true 60).run killedEarly).registry.txns 0).handle = .opened := by
    decide +kernel
  refine (hholds.nothing 0 ?_ ?_).handle hopened
  · intro hstate
    have hstate := hended.symm.trans hstate
    cases hstate
  · intro tid s hruns
    have hplace := hholds.runs tid s 0 hruns
    have hplace := hended.symm.trans hplace
    cases hplace

end Secantus.Transactions
