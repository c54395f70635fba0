/-
  How long the SSI state holds a committed transaction, over every order of the sessions' steps.

  A snapshot's xmin is at most each xid that another session holds or takes later, so a transaction that
  commits with an xid ends after it (`Inv.commitXmin`). The horizon is the least xmin of those registered,
  so the state holds the transaction until they are done, unless it wrote nothing (`outlivesRegistered`).
-/
import Secantus.Ssi.Coverage
import Secantus.Ssi.Ledger

namespace Secantus.Ssi

open Secantus Secantus.Library

namespace Node

/-- The session's snapshot is `snap`, registered or not. -/
def Uses (w : Node) (pid : ℤ) (snap : Snap) : Prop :=
  (w.backend pid).taken = some snap ∨ ∃ i, w.state.mine pid = some i ∧ (w.state.sx i).mark.snap = snap

/-- The move makes the state forget the transaction that committed as `c`. -/
def Forgets (w : Node) (m : Move) (c : Commit) : Prop :=
  c ∈ (w.step m).commits ∧ (c ∈ w.commits → w.state.Holds c) ∧ ¬ (w.step m).state.Holds c

/-- Nothing is forgotten that committed after the snapshot of a transaction that runs or is still to
    register. -/
def OutlivesSnapshots (w : Node) (m : Move) : Prop :=
  ∀ c, w.Forgets m c → ∀ pid snap, (w.step m).Uses pid snap → c.time ≤ ((w.step m).backend pid).takenAt

/-- Nothing is forgotten that committed with an xid after the snapshot of a registered transaction, or with
    a next xid past its xmin, unless it wrote nothing: that can go when only read-only transactions are left
    of those that were registered when it committed. -/
def OutlivesRegistered (w : Node) (m : Move) : Prop :=
  ∀ c, w.Forgets m c → ∀ pid i, (w.step m).state.mine pid = some i →
    (((w.step m).backend pid).takenAt < c.time ∧ c.xid.isSome = true) ∨
      ((w.step m).state.sx i).snap.xmin < c.finishedBefore →
    c.wrote = false ∧ (((w.step m).state.sx i).flags.readOnly = true ∨
      c.time ≤ ((w.step m).backend pid).registeredAt)

/-- The xids, the snapshots and the commits of a run. -/
structure Inv (w : Node) : Prop where
  ledger : w.state.Ledger w.commits fun pid => (w.backend pid).registeredAt
  completedLt : w.cluster.latestCompleted < w.cluster.next
  runningLt : ∀ pid x, w.cluster.running.get pid = some x → x < w.cluster.next
  ownXid : ∀ pid i x, w.state.mine pid = some i → (w.state.sx i).mark.topXid = some x →
    w.cluster.running.get pid = some x
  readGt : ∀ pid n x, (w.backend pid).nextRead = some n → w.cluster.running.get pid = some x → x < n
  xminLe : ∀ pid snap, w.Uses pid snap → snap.xmin ≤ w.cluster.next
  xminLeRunning : ∀ pid snap, w.Uses pid snap → ∀ pid' x, pid' ≠ pid →
    w.cluster.running.get pid' = some x → snap.xmin ≤ x
  timeLt : ∀ c ∈ w.commits, c.time < w.clock
  commitXmin : ∀ c ∈ w.commits, c.xid.isSome = true → ∀ pid snap, w.Uses pid snap →
    (w.backend pid).takenAt < c.time → snap.xmin < c.finishedBefore

theorem inv_start (reserved : ℕ) : (start reserved).Inv where
  ledger := State.ledger_initial _
  completedLt := by
    show max reserved (frozenXid + 1) - 1 < max reserved (frozenXid + 1)
    have : frozenXid + 1 ≤ max reserved (frozenXid + 1) := le_max_right _ _
    omega
  runningLt pid x h := by cases h
  ownXid pid i x h := by cases h
  readGt pid n x h := by cases h
  xminLe pid snap h := by
    rcases h with h | ⟨i, h, -⟩
    · cases h
    · cases h
  xminLeRunning pid snap _ pid' x _ h := by cases h
  timeLt c h := by cases h
  commitXmin c h := by cases h

/-! ## Steps off the SSI state -/

theorem Inv.tick {w : Node} (h : w.Inv) : Inv { w with clock := w.clock + 1 } :=
  { h with timeLt := fun c hc => Nat.lt_succ_of_lt (h.timeLt c hc) }

theorem inv_assignXid {w : Node} (h : w.Inv) (pid : ℤ) : (w.step (.assignXid pid)).Inv := by
  unfold step act
  simp only
  split
  · rename_i hidle
    unfold Cluster.assign
    split
    · exact h.tick
    · rename_i hnone
      have hnone : w.cluster.running.get pid = none := by simpa using hnone
      have hread : (w.backend pid).nextRead = none := by
        unfold idle at hidle
        simp only [Bool.and_eq_true, Option.isNone_iff_eq_none] at hidle
        exact hidle.2
      have hget : ∀ pid' x, (w.cluster.running.insert pid w.cluster.next).get pid' = some x →
          (pid' = pid ∧ x = w.cluster.next) ∨ w.cluster.running.get pid' = some x := by
        intro pid' x hx
        rw [SortedMap.get_insert] at hx
        split at hx
        · rename_i heq
          exact Or.inl ⟨heq.symm, (Option.some.inj hx).symm⟩
        · exact Or.inr hx
      refine ⟨h.ledger, ?_, fun pid' x hx => ?_, fun pid' i x hi hx => ?_, fun pid' n x hn hx => ?_,
        fun pid' snap hu => ?_, fun pid' snap hu pid'' x hne hx => ?_, h.tick.timeLt, h.commitXmin⟩
      · exact Nat.lt_succ_of_lt h.completedLt
      · rcases hget pid' x hx with ⟨-, rfl⟩ | hx
        · exact Nat.lt_succ_self _
        · exact Nat.lt_succ_of_lt (h.runningLt pid' x hx)
      · have hown := h.ownXid pid' i x hi hx
        show (w.cluster.running.insert pid w.cluster.next).get pid' = some x
        rw [SortedMap.get_insert, if_neg]
        · exact hown
        · rintro rfl
          cases hnone.symm.trans hown
      · rcases hget pid' x hx with ⟨rfl, -⟩ | hx
        · cases hread.symm.trans hn
        · exact h.readGt pid' n x hn hx
      · exact Nat.le_succ_of_le (h.xminLe pid' snap hu)
      · rcases hget pid'' x hx with ⟨-, rfl⟩ | hx
        · exact h.xminLe pid' snap hu
        · exact h.xminLeRunning pid' snap hu pid'' x hne hx
  · exact h.tick

theorem inv_endXid {w : Node} (h : w.Inv) (pid : ℤ) : (w.step (.endXid pid)).Inv := by
  unfold step act
  simp only
  split
  · rename_i hidle
    rw [Bool.and_eq_true, Option.isNone_iff_eq_none] at hidle
    unfold Cluster.complete
    split
    · exact h.tick
    · rename_i xid hxid
      have hget : ∀ pid' x, (w.cluster.running.erase pid).get pid' = some x →
          w.cluster.running.get pid' = some x := by
        intro pid' x hx
        rw [SortedMap.get_erase] at hx
        split at hx
        · cases hx
        · exact hx
      refine ⟨h.ledger, ?_, fun pid' x hx => h.runningLt pid' x (hget pid' x hx), fun pid' i x hi hx => ?_,
        fun pid' n x hn hx => h.readGt pid' n x hn (hget pid' x hx), h.xminLe,
        fun pid' snap hu pid'' x hne hx => h.xminLeRunning pid' snap hu pid'' x hne (hget pid'' x hx),
        h.tick.timeLt, h.commitXmin⟩
      · exact max_lt h.completedLt (h.runningLt pid xid hxid)
      · have hown := h.ownXid pid' i x hi hx
        show (w.cluster.running.erase pid).get pid' = some x
        rw [SortedMap.get_erase, if_neg]
        · exact hown
        · rintro rfl
          cases hidle.2.symm.trans hi
  · exact h.tick

theorem backend_setBackend (w : Node) (pid : ℤ) (b : Backend) (pid' : ℤ) :
    (w.setBackend pid b).backend pid' = if pid' = pid then b else w.backend pid' := rfl

theorem ledger_setBackend {w : Node} (h : w.Inv) (pid : ℤ) {b : Backend}
    (hb : b.registeredAt = (w.backend pid).registeredAt) :
    w.state.Ledger w.commits fun pid' => ((w.setBackend pid b).backend pid').registeredAt := by
  have hsame : (fun pid' => ((w.setBackend pid b).backend pid').registeredAt) =
      fun pid' => (w.backend pid').registeredAt := by
    funext pid'
    rw [backend_setBackend]
    split
    · rename_i heq
      rw [hb, heq]
    · rfl
  rw [hsame]
  exact h.ledger

theorem inv_takeSnapshot {w : Node} (h : w.Inv) (pid : ℤ) : (w.step (.takeSnapshot pid)).Inv := by
  unfold step act
  simp only
  split
  · rename_i hidle
    rw [Bool.and_eq_true, Option.isNone_iff_eq_none] at hidle
    let b : Backend := { w.backend pid with taken := some (w.cluster.snapshotOf pid), takenAt := w.clock }
    -- the new snapshot, or another session's
    have huses : ∀ pid' snap, (w.setBackend pid b).Uses pid' snap →
        (pid' = pid ∧ snap = w.cluster.snapshotOf pid) ∨ (pid' ≠ pid ∧ w.Uses pid' snap) := by
      intro pid' snap hu
      unfold Uses at hu
      rw [backend_setBackend] at hu
      by_cases heq : pid' = pid
      · rw [if_pos heq] at hu
        rcases hu with hu | ⟨i, hi, -⟩
        · exact Or.inl ⟨heq, (Option.some.inj hu).symm⟩
        · rw [heq] at hi
          cases hidle.2.symm.trans hi
      · rw [if_neg heq] at hu
        exact Or.inr ⟨heq, hu⟩
    refine ⟨ledger_setBackend h pid rfl, h.completedLt, h.runningLt, h.ownXid, fun pid' n x hn hx => ?_,
      fun pid' snap hu => ?_, fun pid' snap hu pid'' x hne hx => ?_, h.tick.timeLt,
      fun c hc hxid pid' snap hu hlt => ?_⟩
    · have hn : ((w.setBackend pid b).backend pid').nextRead = some n := hn
      rw [backend_setBackend] at hn
      split at hn
      · rename_i heq
        exact h.readGt pid' n x (heq ▸ hn) hx
      · exact h.readGt pid' n x hn hx
    · rcases huses pid' snap hu with ⟨-, rfl⟩ | ⟨-, hu⟩
      · exact (w.cluster.xmin_snapshotOf_le pid).trans h.completedLt
      · exact h.xminLe pid' snap hu
    · rcases huses pid' snap hu with ⟨rfl, rfl⟩ | ⟨-, hu⟩
      · exact w.cluster.xmin_snapshotOf_le_running hne hx
      · exact h.xminLeRunning pid' snap hu pid'' x hne hx
    · have hlt : ((w.setBackend pid b).backend pid').takenAt < c.time := hlt
      rw [backend_setBackend] at hlt
      rcases huses pid' snap hu with ⟨rfl, -⟩ | ⟨hne, hu⟩
      · rw [if_pos rfl] at hlt
        exact absurd (h.timeLt c hc) (not_lt.mpr hlt.le)
      · rw [if_neg hne] at hlt
        exact h.commitXmin c hc hxid pid' snap hu hlt
  · exact h.tick

theorem inv_readNext {w : Node} (h : w.Inv) (pid : ℤ) : (w.step (.readNext pid)).Inv := by
  unfold step act
  simp only
  let b : Backend := { w.backend pid with nextRead := some w.cluster.next }
  have hsame : ∀ pid', ((w.setBackend pid b).backend pid').taken = (w.backend pid').taken ∧
      ((w.setBackend pid b).backend pid').takenAt = (w.backend pid').takenAt := by
    intro pid'
    rw [backend_setBackend]
    split
    · rename_i heq
      rw [heq]
      exact ⟨rfl, rfl⟩
    · exact ⟨rfl, rfl⟩
  have huses : ∀ pid' snap, (w.setBackend pid b).Uses pid' snap → w.Uses pid' snap := by
    intro pid' snap hu
    unfold Uses at hu
    rw [(hsame pid').1] at hu
    exact hu
  refine ⟨ledger_setBackend h pid rfl, h.completedLt, h.runningLt, h.ownXid, fun pid' n x hn hx => ?_,
    fun pid' snap hu => h.xminLe pid' snap (huses pid' snap hu),
    fun pid' snap hu => h.xminLeRunning pid' snap (huses pid' snap hu), h.tick.timeLt,
    fun c hc hxid pid' snap hu hlt => ?_⟩
  · have hn : ((w.setBackend pid b).backend pid').nextRead = some n := hn
    rw [backend_setBackend] at hn
    split at hn
    · obtain rfl : w.cluster.next = n := Option.some.inj hn
      exact h.runningLt pid' x hx
    · exact h.readGt pid' n x hn hx
  · have hlt : ((w.setBackend pid b).backend pid').takenAt < c.time := hlt
    rw [(hsame pid').2] at hlt
    exact h.commitXmin c hc hxid pid' snap (huses pid' snap hu) hlt

/-! ## Calls -/

theorem backendAfter_takenAt (w : Node) (c : Call) (pid : ℤ) :
    (w.backendAfter c pid).takenAt = (w.backend pid).takenAt := by
  unfold backendAfter
  split
  · split
    · rfl
    · rfl
  · rfl

theorem backendAfter_taken (w : Node) (c : Call) (pid : ℤ) {snap : Snap}
    (h : (w.backendAfter c pid).taken = some snap) : (w.backend pid).taken = some snap := by
  unfold backendAfter at h
  split at h
  · split at h
    · cases h
    · exact h
  · exact h

theorem backendAfter_nextRead (w : Node) (c : Call) (pid : ℤ) {n : ℕ}
    (h : (w.backendAfter c pid).nextRead = some n) : (w.backend pid).nextRead = some n := by
  unfold backendAfter at h
  split at h
  · split at h
    · cases h
    · cases h
  · exact h

theorem backendAfter_registeredAt (w : Node) {c : Call}
    (hreg : ∀ pid snap readOnly, c ≠ .register pid snap readOnly) (pid : ℤ) :
    (w.backendAfter c pid).registeredAt = (w.backend pid).registeredAt := by
  unfold backendAfter
  split
  · split
    · exact absurd rfl (hreg _ _ _)
    · rfl
  · rfl

/-- The commits of a call: at most the one that its session makes, with the next xid that it read. -/
theorem mem_commitsOf {w : Node} {nextXid : ℕ} {c : Call} {k : Commit} (h : k ∈ w.commitsOf nextXid c) :
    ∃ pid i, c = .release pid true ∧ w.state.mine pid = some i ∧ k = w.state.commitOf i nextXid w.clock := by
  unfold commitsOf at h
  split at h
  · rename_i pid
    obtain ⟨i, hi, rfl⟩ := List.mem_map.mp h
    exact ⟨pid, i, rfl, Option.mem_toList.mp hi, rfl⟩
  · cases h

theorem step_call {w : Node} {c : Call} {nextXid : ℕ} (hmade : w.made c = some nextXid) :
    w.step (.call c) =
      { cluster := w.cluster
        state := (w.state.call nextXid c).1
        backend := w.backendAfter c
        clock := w.clock + 1
        commits := w.commits ++ w.commitsOf nextXid c } := by
  unfold step act
  simp only [hmade]

/-- A session that ends its transaction is past its registration, and read the next xid for it. -/
theorem made_release {w : Node} {pid : ℤ} {isCommit : Bool} {nextXid : ℕ}
    (hmade : w.made (.release pid isCommit) = some nextXid) :
    (w.backend pid).taken = none ∧ (w.backend pid).nextRead = some nextXid := by
  have hmade : (if (w.backend pid).taken = none then (w.backend pid).nextRead else none) = some nextXid :=
    hmade
  split at hmade
  · rename_i htaken
    exact ⟨htaken, hmade⟩
  · cases hmade

/-- A call keeps the invariant, when the ledger stands and every transaction after it has the snapshot and
    the xid of its session. -/
theorem Inv.call {w : Node} (h : w.Inv) {c : Call} {nextXid : ℕ} (hmade : w.made c = some nextXid)
    (hledger : (w.state.call nextXid c).1.Ledger (w.commits ++ w.commitsOf nextXid c)
      fun pid => (w.backendAfter c pid).registeredAt)
    (hsnap : ∀ pid i, (w.state.call nextXid c).1.mine pid = some i →
      w.Uses pid ((w.state.call nextXid c).1.sx i).mark.snap)
    (hxid : ∀ pid i x, (w.state.call nextXid c).1.mine pid = some i →
      ((w.state.call nextXid c).1.sx i).mark.topXid = some x → w.cluster.running.get pid = some x) :
    (w.step (.call c)).Inv := by
  have huses : ∀ pid snap, (w.step (.call c)).Uses pid snap → w.Uses pid snap := by
    intro pid snap hu
    rw [step_call hmade] at hu
    rcases hu with hu | ⟨i, hi, rfl⟩
    · exact Or.inl (backendAfter_taken w c pid hu)
    · exact hsnap pid i hi
  rw [step_call hmade] at huses ⊢
  refine ⟨hledger, h.completedLt, h.runningLt, hxid,
    fun pid n x hn hx => h.readGt pid n x (backendAfter_nextRead w c pid hn) hx,
    fun pid snap hu => h.xminLe pid snap (huses pid snap hu),
    fun pid snap hu => h.xminLeRunning pid snap (huses pid snap hu), fun k hk => ?_,
    fun k hk hsome pid snap hu hlt => ?_⟩
  · rcases List.mem_append.mp hk with hk | hk
    · exact Nat.lt_succ_of_lt (h.timeLt k hk)
    · obtain ⟨-, i, -, -, rfl⟩ := mem_commitsOf hk
      exact Nat.lt_succ_self _
  · rcases List.mem_append.mp hk with hk | hk
    · rw [backendAfter_takenAt] at hlt
      exact h.commitXmin k hk hsome pid snap (huses pid snap hu) hlt
    · -- what commits now: its xid is held until after this call, and the next xid was read before it
      obtain ⟨owner, me, rfl, hme, rfl⟩ := mem_commitsOf hk
      obtain ⟨x, hx⟩ := Option.isSome_iff_exists.mp hsome
      have hrunning := h.ownXid owner me x hme hx
      obtain ⟨htaken, hread⟩ := made_release hmade
      have hne : owner ≠ pid := by
        rintro rfl
        rcases hu with hu | ⟨i, hi, -⟩
        · cases htaken.symm.trans (backendAfter_taken w _ owner hu)
        · have hi : (w.state.releaseAt owner true nextXid).byPid.get owner = some i := hi
          rw [(State.releaseAt_spec h.ledger.tracked hme true nextXid).byPid, SortedMap.get_erase,
            if_pos rfl] at hi
          cases hi
      have hle := h.xminLeRunning pid snap (huses pid snap hu) owner x hne hrunning
      exact lt_of_le_of_lt hle (h.readGt owner nextXid x hread hrunning)

/-- The sessions that are in a transaction after `s'` were in it before, with the same mark. -/
def Keeps (s s' : State) : Prop :=
  ∀ pid i, s'.mine pid = some i → s.mine pid = some i ∧ (s'.sx i).mark = (s.sx i).mark

theorem Inv.callKeeps {w : Node} (h : w.Inv) {c : Call} {nextXid : ℕ} (hmade : w.made c = some nextXid)
    (hledger : (w.state.call nextXid c).1.Ledger (w.commits ++ w.commitsOf nextXid c)
      fun pid => (w.backendAfter c pid).registeredAt)
    (hkeeps : Keeps w.state (w.state.call nextXid c).1) : (w.step (.call c)).Inv := by
  refine h.call hmade hledger (fun pid i hi => ?_) fun pid i x hi hx => ?_
  · obtain ⟨hi, hmark⟩ := hkeeps pid i hi
    exact Or.inr ⟨i, hi, by rw [hmark]⟩
  · obtain ⟨hi, hmark⟩ := hkeeps pid i hi
    rw [hmark] at hx
    exact h.ownXid pid i x hi hx

theorem keeps_endOf {s s' : State} {pid : ℤ} {me : ℕ} {isCommit : Bool} {nextXid : ℕ} (ht : s.Tracked)
    (hme : s.mine pid = some me) (hend : State.EndOf pid me isCommit nextXid s s') : Keeps s s' := by
  intro pid' i hi
  obtain ⟨hi', hne, hfin⟩ := hend.mine ht hme hi
  exact ⟨hi', hend.mark i hne hfin⟩

theorem keeps_steady {s s' : State} (ht : s.Tracked) (hs : State.Steady s.Live s s') : Keeps s s' := by
  intro pid i hi
  rw [hs.mine] at hi
  exact ⟨hi, hs.mark i (ht.live pid i hi)⟩

/-- Whoever runs, `c` is below their xmin, or it wrote nothing and they are read-only or registered after
    it. -/
def Clearable (s : State) (c : Commit) : Prop :=
  ∀ pid i, s.mine pid = some i → c.finishedBefore ≤ (s.sx i).mark.snap.xmin ∨
    (c.wrote = false ∧
      ((s.sx i).mark.readOnly = true ∨ c.seq ≤ (s.sx i).mark.lastCommitBeforeSnapshot))

/-- What a call must do: keep the invariant, and forget only what is clearable. -/
def Sound (w : Node) (c : Call) : Prop :=
  (w.step (.call c)).Inv ∧ ∀ k, w.Forgets (.call c) k → Clearable (w.step (.call c)).state k

/-- A call that commits nothing and holds what was held forgets nothing. -/
theorem not_forgets {w : Node} {c : Call} {nextXid : ℕ} (hmade : w.made c = some nextXid)
    (hcommits : w.commitsOf nextXid c = [])
    (hholds : ∀ k, w.state.Holds k → (w.state.call nextXid c).1.Holds k) (k : Commit) :
    ¬ w.Forgets (.call c) k := by
  rintro ⟨hk, hheld, hgone⟩
  rw [step_call hmade] at hk hgone
  rw [hcommits, List.append_nil] at hk
  exact hgone (hholds k (hheld hk))

theorem registeredAt_lt {w : Node} (h : w.Inv) (c : Call) {k : Commit} (hk : k ∈ w.commits) (pid : ℤ)
    (hlt : (w.backendAfter c pid).registeredAt < k.time) : (w.backend pid).registeredAt < k.time := by
  unfold backendAfter at hlt
  split at hlt
  · split at hlt
    · exact absurd (h.timeLt k hk) (not_lt.mpr hlt.le)
    · exact hlt
  · exact hlt

theorem sound_steady {w : Node} (h : w.Inv) {c : Call} {nextXid : ℕ} (hmade : w.made c = some nextXid)
    (hcommits : w.commitsOf nextXid c = [])
    (hs : State.Steady w.state.Live w.state (w.state.call nextXid c).1) : w.Sound c := by
  have ht := State.tracked_call h.ledger.tracked nextXid c
  refine ⟨h.callKeeps hmade ?_ (keeps_steady h.ledger.tracked hs), fun k hk => ?_⟩
  · rw [hcommits, List.append_nil]
    exact (h.ledger.ofSteady hs ht).mono fun k hk pid hlt => registeredAt_lt h c hk pid hlt
  · refine absurd hk (not_forgets hmade hcommits (fun k hheld => ?_) k)
    exact (hs.holds h.ledger.tracked.finishedLive).mpr hheld

theorem sound_numbered {w : Node} (h : w.Inv) {c : Call} {nextXid : ℕ} (hmade : w.made c = some nextXid)
    (hcommits : w.commitsOf nextXid c = []) {seq : ℕ} (hle : w.state.lastCommitSeq ≤ seq)
    (hs : State.Steady (fun _ => True) { w.state with lastCommitSeq := seq } (w.state.call nextXid c).1) :
    w.Sound c := by
  have ht := State.tracked_call h.ledger.tracked nextXid c
  have hnumber : State.Tracked { w.state with lastCommitSeq := seq } :=
    h.ledger.tracked.of_spares (State.Spares.ofSame rfl rfl rfl rfl)
  have hlive := hs.mono (Q := State.Live { w.state with lastCommitSeq := seq }) fun _ _ => trivial
  have hkeeps := keeps_steady hnumber hlive
  refine ⟨h.callKeeps hmade ?_ hkeeps, fun k hk => ?_⟩
  · rw [hcommits, List.append_nil]
    exact ((h.ledger.number hle hnumber).ofSteady hlive ht).mono
      fun k hk pid hlt => registeredAt_lt h c hk pid hlt
  · refine absurd hk (not_forgets hmade hcommits (fun k hheld => ?_) k)
    exact (hs.holds fun _ _ => trivial).mpr hheld

/-- A call that ends a transaction. -/
theorem sound_ended {w : Node} (h : w.Inv) {c : Call} {nextXid : ℕ} (hmade : w.made c = some nextXid)
    (hreg : ∀ pid snap readOnly, c ≠ .register pid snap readOnly) {pid : ℤ} {me : ℕ} {isCommit : Bool}
    (hme : w.state.mine pid = some me)
    (hcommits : w.commits ++ w.commitsOf nextXid c =
      w.state.commitsAfter w.commits me isCommit nextXid w.clock)
    (hend : State.EndOf pid me isCommit nextXid w.state (w.state.call nextXid c).1) : w.Sound c := by
  have ht := State.tracked_call h.ledger.tracked nextXid c
  refine ⟨h.callKeeps hmade ?_ (keeps_endOf h.ledger.tracked hme hend), fun k hk => ?_⟩
  · simp only [backendAfter_registeredAt w hreg]
    rw [hcommits]
    exact h.ledger.release hme hend ht w.clock
  · obtain ⟨hk, hheld, hgone⟩ := hk
    rw [step_call hmade] at hk hgone ⊢
    rw [hcommits] at hk
    intro pid' i hi
    obtain ⟨-, hmark⟩ := keeps_endOf h.ledger.tracked hme hend pid' i hi
    rw [hmark]
    exact hend.forgets h.ledger hme ht hk hheld hgone hi

theorem sound_register {w : Node} (h : w.Inv) {pid : ℤ} {snap : Snap} {readOnly : Bool} {nextXid : ℕ}
    (hmade : w.made (.register pid snap readOnly) = some nextXid) :
    w.Sound (.register pid snap readOnly) := by
  rcases w.state.register_marks pid snap readOnly with hs | ⟨id, hnone, hj⟩
  · exact sound_steady h hmade rfl hs
  · have ht := State.tracked_call h.ledger.tracked nextXid (.register pid snap readOnly)
    have htaken : (w.backend pid).taken = some snap := by
      have hmade : (if (w.backend pid).taken = some snap then _ else none) = some nextXid := hmade
      split at hmade
      · assumption
      · cases hmade
    have hold : ∀ i, w.state.Live i →
        ((w.state.register pid snap readOnly).sx i).mark = (w.state.sx i).mark := by
      intro i hi
      rw [hj.mark, if_neg]
      rintro rfl
      exact hj.free hi
    have hfresh : ((w.state.register pid snap readOnly).sx id).mark = w.state.freshMark snap readOnly := by
      rw [hj.mark, if_pos rfl]
    refine ⟨h.call hmade ?_ (fun pid' i hi => ?_) fun pid' i x hi hx => ?_, fun k hk => ?_⟩
    · have hcommits : w.commits ++ w.commitsOf nextXid (.register pid snap readOnly) = w.commits :=
        List.append_nil _
      rw [hcommits]
      refine h.ledger.join hnone hj ht (fun pid' hne => ?_) fun k hk => ?_
      · show (if some pid = some pid' then _ else w.backend pid').registeredAt = _
        rw [if_neg fun heq => hne (Option.some.inj heq).symm]
      · show k.time ≤ (if some pid = some pid then _ else w.backend pid).registeredAt
        rw [if_pos rfl]
        exact (h.timeLt k hk).le
    · have hi : (w.state.register pid snap readOnly).mine pid' = some i := hi
      show w.Uses pid' ((w.state.register pid snap readOnly).sx i).mark.snap
      rcases hj.mine hi with ⟨rfl, rfl⟩ | ⟨-, hi⟩
      · rw [hfresh]
        exact Or.inl htaken
      · rw [hold i (h.ledger.tracked.live pid' i hi)]
        exact Or.inr ⟨i, hi, rfl⟩
    · have hi : (w.state.register pid snap readOnly).mine pid' = some i := hi
      have hx : ((w.state.register pid snap readOnly).sx i).mark.topXid = some x := hx
      rcases hj.mine hi with ⟨rfl, rfl⟩ | ⟨-, hi⟩
      · rw [hfresh] at hx
        cases hx
      · rw [hold i (h.ledger.tracked.live pid' i hi)] at hx
        exact h.ownXid pid' i x hi hx
    · refine absurd hk (not_forgets hmade rfl (fun k hheld => ?_) k)
      obtain ⟨f, hf, hlive, hseq⟩ := hheld
      have hne : f ≠ id := by
        rintro rfl
        exact hj.free hlive
      refine ⟨f, (congrArg (f ∈ ·) hj.finishedList).mpr hf, (hj.live f hne).mpr hlive, ?_⟩
      exact (congrArg Mark.commitSeq (hold f hlive)).trans hseq

theorem sound_setXid {w : Node} (h : w.Inv) {pid : ℤ} {xid nextXid : ℕ}
    (hmade : w.made (.setXid pid xid) = some nextXid) : w.Sound (.setXid pid xid) := by
  have hrunning : w.cluster.running.get pid = some xid := by
    have hmade : (if w.cluster.running.get pid = some xid ∧ (w.backend pid).taken = none then
        (w.backend pid).nextRead else none) = some nextXid := hmade
    split at hmade
    · rename_i hand
      exact hand.1
    · cases hmade
  cases hme : w.state.mine pid with
  | none =>
    refine sound_steady h hmade rfl ?_
    unfold State.call
    simp only [hme]
    exact State.Steady.refl _ _
  | some me =>
    have hcall : (w.state.call nextXid (.setXid pid xid)).1 = w.state.setXid me xid := by
      unfold State.call
      simp only [hme]
    cases htop : (w.state.sx me).topXid with
    | some x =>
      refine sound_steady h hmade rfl ?_
      rw [hcall]
      unfold State.setXid
      rw [htop]
      exact State.Steady.refl _ _
    | none =>
      have hset : w.state.setXid me xid =
          { w.state.modify me fun x => { x with topXid := some xid } with
            xids := w.state.xids.insert xid me } := by
        unfold State.setXid
        rw [htop]
        rfl
      have hmark : ∀ i, ((w.state.setXid me xid).sx i).mark.anonymous = (w.state.sx i).mark.anonymous := by
        intro i
        rw [hset]
        refine State.proj_sx_modify w.state me i (fun x => x.mark.anonymous) ?_
        exact fun _ => rfl
      have ht := State.tracked_call h.ledger.tracked nextXid (.setXid pid xid)
      have hmine : ∀ pid', (w.state.setXid me xid).mine pid' = w.state.mine pid' := by
        intro pid'
        rw [hset]
        rfl
      refine ⟨h.call hmade ?_ (fun pid' i hi => ?_) fun pid' i x hi hx => ?_, fun k hk => ?_⟩
      · have hcommits : w.commits ++ w.commitsOf nextXid (.setXid pid xid) = w.commits := List.append_nil _
        rw [hcommits]
        rw [hcall] at ht ⊢
        refine (h.ledger.ofAnonymous ht (fun i _ => hmark i) (fun i _ => ?_) ?_ ?_ ?_ ?_ ?_).mono
          fun k hk pid' hlt => registeredAt_lt h (.setXid pid xid) hk pid' hlt
        all_goals
          rw [hset]
          rfl
      · rw [hcall, hmine] at hi
        refine Or.inr ⟨i, hi, ?_⟩
        rw [hcall]
        exact (congrArg Mark.snap (hmark i)).symm
      · rw [hcall, hmine] at hi
        rw [hcall, hset] at hx
        have hx : ((w.state.modify me fun x => { x with topXid := some xid }).sx i).mark.topXid = some x := hx
        rw [State.sx_modify (h.ledger.tracked.live pid me hme)] at hx
        by_cases heq : i = me
        · rw [if_pos heq] at hx
          obtain rfl : xid = x := Option.some.inj hx
          rw [heq] at hi
          rw [h.ledger.tracked.inj pid' pid me hi hme]
          exact hrunning
        · rw [if_neg heq] at hx
          exact h.ownXid pid' i x hi hx
      · refine absurd hk (not_forgets hmade rfl (fun k hheld => ?_) k)
        obtain ⟨f, hf, hlive, hseq⟩ := hheld
        rw [hcall]
        refine ⟨f, ?_, ?_, (congrArg Mark.commitSeq (hmark f)).trans hseq⟩
        · rw [hset]
          exact hf
        · rw [hset]
          exact State.live_modify.mpr hlive

theorem sound_call {w : Node} (h : w.Inv) {c : Call} {nextXid : ℕ} (hmade : w.made c = some nextXid) :
    w.Sound c := by
  by_cases hreg : ∃ pid snap readOnly, c = .register pid snap readOnly
  · obtain ⟨pid, snap, readOnly, rfl⟩ := hreg
    exact sound_register h hmade
  have hreg : ∀ pid snap readOnly, c ≠ .register pid snap readOnly :=
    fun pid snap readOnly heq => hreg ⟨pid, snap, readOnly, heq⟩
  by_cases hxid : ∃ pid xid, c = .setXid pid xid
  · obtain ⟨pid, xid, rfl⟩ := hxid
    exact sound_setXid h hmade
  have hxid : ∀ pid xid, c ≠ .setXid pid xid := fun pid xid heq => hxid ⟨pid, xid, heq⟩
  by_cases hrel : ∃ pid isCommit, c = .release pid isCommit
  · obtain ⟨pid, isCommit, rfl⟩ := hrel
    cases hme : w.state.mine pid with
    | none =>
      have hsame : (w.state.call nextXid (.release pid isCommit)).1 = w.state := by
        show w.state.releaseAt pid isCommit nextXid = w.state
        unfold State.releaseAt
        rw [hme]
      have hcommits : w.commitsOf nextXid (.release pid isCommit) = [] := by
        cases isCommit with
        | true =>
          show (w.state.mine pid).toList.map _ = []
          rw [hme]
          rfl
        | false => rfl
      refine sound_steady h hmade hcommits ?_
      rw [hsame]
      exact State.Steady.refl _ _
    | some me =>
      refine sound_ended h hmade hreg hme ?_ (State.endOf_releaseAt h.ledger.tracked hme isCommit nextXid)
      cases isCommit with
      | true =>
        show w.commits ++ (w.state.mine pid).toList.map _ = _
        rw [hme]
        rfl
      | false => rfl
  have hrel : ∀ pid isCommit, c ≠ .release pid isCommit := fun pid isCommit heq => hrel ⟨pid, isCommit, heq⟩
  have hcommits : w.commitsOf nextXid c = [] := by
    unfold commitsOf
    split
    · exact absurd rfl (hrel _ _)
    · rfl
  have heffect := w.state.call_effect nextXid c hreg hxid hrel
  generalize hcall : (w.state.call nextXid c).1 = s' at heffect
  cases heffect with
  | steady hs =>
    refine sound_steady h hmade hcommits ?_
    rw [hcall]
    exact hs.mono fun _ _ => trivial
  | numbered seq hle hs =>
    refine sound_numbered h hmade hcommits hle ?_
    rw [hcall]
    exact hs
  | safe pid =>
    cases hme : w.state.mine pid with
    | none =>
      refine sound_steady h hmade hcommits ?_
      rw [hcall]
      unfold State.releaseAt
      rw [hme]
      exact State.Steady.refl _ _
    | some me =>
      have hend := State.endOf_releaseAt h.ledger.tracked hme false nextXid
      rw [← hcall] at hend
      refine sound_ended h hmade hreg hme ?_ hend
      rw [hcommits]
      rfl

/-! ## Runs -/

theorem inv_step (w : Node) (m : Move) (h : w.Inv) : (w.step m).Inv := by
  cases m with
  | assignXid pid => exact inv_assignXid h pid
  | endXid pid => exact inv_endXid h pid
  | takeSnapshot pid => exact inv_takeSnapshot h pid
  | readNext pid => exact inv_readNext h pid
  | call c =>
    cases hmade : w.made c with
    | none =>
      unfold step act
      simp only [hmade]
      exact h.tick
    | some nextXid => exact (sound_call h hmade).1

theorem not_forgets_of_same {w : Node} {m : Move} (hstate : (w.step m).state = w.state)
    (hcommits : (w.step m).commits = w.commits) (k : Commit) : ¬ w.Forgets m k := by
  rintro ⟨hk, hheld, hgone⟩
  rw [hcommits] at hk
  rw [hstate] at hgone
  exact hgone (hheld hk)

theorem clearable_of_forgets {w : Node} (h : w.Inv) {m : Move} {k : Commit} (hk : w.Forgets m k) :
    Clearable (w.step m).state k := by
  cases m with
  | call c =>
    cases hmade : w.made c with
    | none =>
      have hsame : w.step (.call c) = { w with clock := w.clock + 1 } := by
        unfold step act
        simp only [hmade]
      refine absurd hk (not_forgets_of_same ?_ ?_ k)
      · rw [hsame]
      · rw [hsame]
    | some nextXid => exact (sound_call h hmade).2 k hk
  | assignXid pid =>
    refine absurd hk (not_forgets_of_same ?_ ?_ k)
    all_goals
      unfold step act
      simp only
      split
      · rfl
      · rfl
  | endXid pid =>
    refine absurd hk (not_forgets_of_same ?_ ?_ k)
    all_goals
      unfold step act
      simp only
      split
      · rfl
      · rfl
  | takeSnapshot pid =>
    refine absurd hk (not_forgets_of_same ?_ ?_ k)
    all_goals
      unfold step act
      simp only
      split
      · rfl
      · rfl
  | readNext pid => exact absurd hk (not_forgets_of_same rfl rfl k)

/-- In every run, the state holds a committed transaction that has an xid as long as a registered one runs
    that took its snapshot before, unless it wrote nothing; and then as long as such a one runs that can
    write and was registered when it committed. -/
theorem outlivesRegistered (reserved : ℕ) (moves : List Move) (m : Move) :
    (moves.foldl step (start reserved)).OutlivesRegistered m := by
  have h := run_invariant step inv_step moves (start reserved) (inv_start reserved)
  have h' := inv_step _ m h
  intro k hk pid i hi hlater
  generalize moves.foldl step (start reserved) = w at h h' hk hi hlater ⊢
  -- the transaction ended after the snapshot of the one that runs
  have hxmin : ((w.step m).state.sx i).mark.snap.xmin < k.finishedBefore := by
    rcases hlater with ⟨htaken, hsome⟩ | hlt
    · exact h'.commitXmin k hk.1 hsome pid _ (Or.inr ⟨i, hi, rfl⟩) htaken
    · exact hlt
  rcases clearable_of_forgets h hk pid i hi with hle | ⟨hwrote, hreader⟩
  · exact absurd hxmin (not_lt.mpr hle)
  · refine ⟨hwrote, hreader.imp_right fun hseq => ?_⟩
    by_contra hlt
    exact absurd (h'.ledger.registered k hk.1 pid i hi (not_le.mp hlt)) (not_lt.mpr hseq)

/-- A session reads the next xid and makes a call. -/
def calls (c : Call) : List Move := (c.backend?.toList.map .readNext) ++ [.call c]

/-- Session 1 takes xid 724 and writes nothing; session 2, read-only, takes its snapshot before session 1
    commits. -/
def readOnlyLeft : List Move :=
  [.takeSnapshot 1] ++ calls (.register 1 ⟨723, 723, []⟩ false) ++ [.assignXid 3, .endXid 3, .assignXid 1] ++
    calls (.setXid 1 724) ++ [.takeSnapshot 2] ++ calls (.register 2 ⟨724, 724, []⟩ true) ++ [.readNext 1]

/-- Session 1 writes; session 2 takes its snapshot before session 1 commits, and has yet to register it. -/
def unregistered : List Move :=
  [.takeSnapshot 1] ++ calls (.register 1 ⟨723, 723, []⟩ false) ++ [.assignXid 1] ++
    calls (.setXid 1 723) ++ calls (.conflictIn 1 0 10 none none) ++ [.takeSnapshot 2, .readNext 1]

/-- The commit of session 1 is forgotten at once in both, while session 2 runs, or is still to register. -/
theorem not_outlivesSnapshots :
    ¬ (readOnlyLeft.foldl step (start 0)).OutlivesSnapshots (.call (.release 1 true)) ∧
      ¬ (unregistered.foldl step (start 0)).OutlivesSnapshots (.call (.release 1 true)) := by
  constructor
  · intro h
    have hforgets : (readOnlyLeft.foldl step (start 0)).Forgets (.call (.release 1 true))
        ⟨2, some 724, false, 725, 12⟩ := by
      have hnone : ((readOnlyLeft.foldl step (start 0)).step
          (.call (.release 1 true))).state.finishedList = [] := by decide
      refine ⟨by decide, fun hk => absurd hk (by decide), fun hheld => ?_⟩
      obtain ⟨f, hf, -⟩ := hheld
      rw [hnone] at hf
      cases hf
    have huses := h _ hforgets 2 ⟨724, 724, []⟩ (Or.inr ⟨1, by decide, by decide⟩)
    exact absurd huses (by decide)
  · intro h
    have hforgets : (unregistered.foldl step (start 0)).Forgets (.call (.release 1 true))
        ⟨2, some 723, true, 724, 10⟩ := by
      have hnone : ((unregistered.foldl step (start 0)).step
          (.call (.release 1 true))).state.finishedList = [] := by decide
      refine ⟨by decide, fun hk => absurd hk (by decide), fun hheld => ?_⟩
      obtain ⟨f, hf, -⟩ := hheld
      rw [hnone] at hf
      cases hf
    have huses := h _ hforgets 2 ⟨723, 723, []⟩ (Or.inl (by decide))
    exact absurd huses (by decide)

end Node

end Secantus.Ssi
