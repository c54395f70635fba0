/-
  The removal horizon (xids.rs): below it no transaction runs, and every snapshot that is held or will be
  taken sees what committed there.

  `Xids` is one store's `Cluster` with the command counters and the snapshots that REPEATABLE READ and
  SERIALIZABLE transactions hold. `rehold_snapshot` lets go of the clusters' lock between its two halves,
  so it is two moves. `kept` is what `snapshot_of` answered a session that holds its snapshot; no move
  reads it.
-/
import Secantus.Ssi.Cluster

namespace Secantus.Ssi

open Secantus Secantus.Library

/-- A transaction that had ended when the snapshot was taken. -/
def Snap.sees (s : Snap) (xid : ℕ) : Prop := xid < s.xmax ∧ xid ∉ s.xip

theorem Cluster.sees_of_lt_xmin (c : Cluster) (pid : ℤ) {x : ℕ} (h : x < (c.snapshotOf pid).xmin) :
    (c.snapshotOf pid).sees x := by
  refine ⟨lt_of_lt_of_le h (c.xmin_snapshotOf_le pid), fun hx => ?_⟩
  exact absurd (c.xmin_le_of_mem_xip pid hx) (not_le.mpr h)

/-- What bounds the xids of the others and the latest completed one bounds a snapshot's xmin. -/
theorem Cluster.le_xmin_snapshotOf (c : Cluster) (pid : ℤ) {k : ℕ} (hlatest : k ≤ c.latestCompleted + 1)
    (hrunning : ∀ pid' x, pid' ≠ pid → c.running.get pid' = some x → k ≤ x) :
    k ≤ (c.snapshotOf pid).xmin := by
  show k ≤ (c.snapshotOf pid).xip.head?.getD _
  cases hxip : (c.snapshotOf pid).xip with
  | nil => exact hlatest
  | cons y ys =>
    obtain ⟨pid', hne, hy, -⟩ := (c.mem_xip_snapshotOf pid y).mp (hxip ▸ List.mem_cons_self)
    exact hrunning pid' y hne hy

/-- The least of some xids, where there are none `d`. -/
def leastOr (xids : List ℕ) (d : ℕ) : ℕ := xids.min?.getD d

theorem leastOr_mem_or (xids : List ℕ) (d : ℕ) :
    leastOr xids d ∈ xids ∨ xids = [] ∧ leastOr xids d = d := by
  unfold leastOr
  cases h : xids.min? with
  | none => exact Or.inr ⟨List.min?_eq_none_iff.mp h, rfl⟩
  | some m => exact Or.inl (List.min?_eq_some_iff.mp h).1

theorem leastOr_le {xids : List ℕ} {x : ℕ} (hx : x ∈ xids) (d : ℕ) : leastOr xids d ≤ x := by
  unfold leastOr
  cases h : xids.min? with
  | none =>
    rw [List.min?_eq_none_iff.mp h] at hx
    cases hx
  | some m => exact (List.min?_eq_some_iff.mp h).2 x hx

/-! ## One store's transaction ids -/

structure Xids where
  cluster : Cluster
  /-- A running transaction's current command id, and whether a row write used it. -/
  commands : SortedMap ℤ (ℕ × Bool)
  /-- The xmin of the snapshot that a transaction holds. -/
  snapshots : SortedMap ℤ ℕ
  kept : List (ℤ × Snap)

inductive XidMove where
  /-- `XidOp::Assign`. -/
  | assign (pid : ℤ)
  /-- `writer`: a row write asks for its stamp. -/
  | writer (pid : ℤ)
  /-- `advance_command`: a statement ends. -/
  | advanceCommand (pid : ℤ) (n : ℕ)
  | holdSnapshot (pid : ℤ)
  /-- The first half of `rehold_snapshot`; the second is `hold_snapshot`. -/
  | dropSnapshot (pid : ℤ)
  /-- `snapshot_of`. -/
  | takeSnapshot (pid : ℤ)
  /-- `end`. -/
  | endTransaction (pid : ℤ)

namespace Xids

def install (reserved : ℕ) : Xids := ⟨Cluster.install reserved, SortedMap.empty, SortedMap.empty, []⟩

def command (w : Xids) (pid : ℤ) : ℕ × Bool := (w.commands.get pid).getD (0, false)

/-- The xmin of the snapshot that `hold_snapshot` takes. -/
def xminFor (w : Xids) (pid : ℤ) : ℕ :=
  leastOr ((w.cluster.running.entries.filter fun e => e.1 ≠ pid).map Prod.snd)
    (w.cluster.latestCompleted + 1)

def horizon (w : Xids) : ℕ :=
  min (leastOr (w.cluster.running.values ++ w.snapshots.values) (w.cluster.latestCompleted + 1))
    (w.cluster.latestCompleted + 1)

def step (w : Xids) : XidMove → Xids
  | .assign pid => { w with cluster := w.cluster.assign pid }
  | .writer pid =>
    { w with
      cluster := w.cluster.assign pid
      commands := w.commands.insert pid ((w.command pid).1, true) }
  | .advanceCommand pid n =>
    if n = 0 then w else { w with commands := w.commands.insert pid ((w.command pid).1 + n, false) }
  | .holdSnapshot pid => { w with snapshots := w.snapshots.orInsert pid (w.xminFor pid) }
  | .dropSnapshot pid =>
    { w with snapshots := w.snapshots.erase pid, kept := w.kept.filter (·.1 ≠ pid) }
  | .takeSnapshot pid =>
    if (w.snapshots.get pid).isSome then { w with kept := (pid, w.cluster.snapshotOf pid) :: w.kept }
    else w
  | .endTransaction pid =>
    { cluster := w.cluster.complete pid
      commands := w.commands.erase pid
      snapshots := w.snapshots.erase pid
      kept := w.kept.filter (·.1 ≠ pid) }

abbrev run (w : Xids) (moves : List XidMove) : Xids := moves.foldl step w

/-! ## What the horizon is below -/

theorem le_horizon_iff (w : Xids) (k : ℕ) :
    k ≤ w.horizon ↔ k ≤ w.cluster.latestCompleted + 1 ∧
      (∀ pid x, w.cluster.running.get pid = some x → k ≤ x) ∧
      (∀ pid x, w.snapshots.get pid = some x → k ≤ x) := by
  unfold horizon
  rw [le_min_iff]
  constructor
  · rintro ⟨hleast, hlatest⟩
    refine ⟨hlatest, fun pid x hx => ?_, fun pid x hx => ?_⟩
    · refine hleast.trans (leastOr_le (List.mem_append_left _ ?_) _)
      exact (SortedMap.mem_values_iff _ x).mpr ⟨pid, hx⟩
    · refine hleast.trans (leastOr_le (List.mem_append_right _ ?_) _)
      exact (SortedMap.mem_values_iff _ x).mpr ⟨pid, hx⟩
  · rintro ⟨hlatest, hrunning, hheld⟩
    refine ⟨?_, hlatest⟩
    rcases leastOr_mem_or (w.cluster.running.values ++ w.snapshots.values)
      (w.cluster.latestCompleted + 1) with hmem | ⟨-, heq⟩
    · rcases List.mem_append.mp hmem with h | h
      · obtain ⟨pid, hx⟩ := (SortedMap.mem_values_iff _ _).mp h
        exact hrunning pid _ hx
      · obtain ⟨pid, hx⟩ := (SortedMap.mem_values_iff _ _).mp h
        exact hheld pid _ hx
    · rw [heq]
      exact hlatest

theorem horizon_le_latest (w : Xids) : w.horizon ≤ w.cluster.latestCompleted + 1 :=
  ((w.le_horizon_iff _).mp le_rfl).1

theorem horizon_le_running (w : Xids) {pid : ℤ} {x : ℕ} (h : w.cluster.running.get pid = some x) :
    w.horizon ≤ x :=
  ((w.le_horizon_iff _).mp le_rfl).2.1 pid x h

theorem horizon_le_held (w : Xids) {pid : ℤ} {x : ℕ} (h : w.snapshots.get pid = some x) :
    w.horizon ≤ x :=
  ((w.le_horizon_iff _).mp le_rfl).2.2 pid x h

theorem horizon_le_xmin (w : Xids) (pid : ℤ) : w.horizon ≤ (w.cluster.snapshotOf pid).xmin :=
  w.cluster.le_xmin_snapshotOf pid w.horizon_le_latest fun _ _ _ hx => w.horizon_le_running hx

theorem xminFor_mem_or (w : Xids) (pid : ℤ) :
    (∃ pid', pid' ≠ pid ∧ w.cluster.running.get pid' = some (w.xminFor pid)) ∨
      w.xminFor pid = w.cluster.latestCompleted + 1 := by
  rcases leastOr_mem_or ((w.cluster.running.entries.filter fun e => e.1 ≠ pid).map Prod.snd)
    (w.cluster.latestCompleted + 1) with hmem | ⟨-, heq⟩
  · obtain ⟨⟨pid', x⟩, he, hx⟩ := List.mem_map.mp hmem
    obtain ⟨hmem, hne⟩ := List.mem_filter.mp he
    refine Or.inl ⟨pid', by simpa using hne, ?_⟩
    rw [SortedMap.get_eq_some_iff]
    show (pid', leastOr _ _) ∈ _
    rw [← hx]
    exact hmem
  · exact Or.inr heq

theorem xminFor_le_running (w : Xids) {pid pid' : ℤ} {x : ℕ} (hne : pid' ≠ pid)
    (hx : w.cluster.running.get pid' = some x) : w.xminFor pid ≤ x := by
  refine leastOr_le (List.mem_map.mpr ⟨(pid', x), List.mem_filter.mpr ⟨?_, by simpa using hne⟩, rfl⟩) _
  exact (SortedMap.get_eq_some_iff _ _ _).mp hx

theorem horizon_le_xminFor (w : Xids) (pid : ℤ) : w.horizon ≤ w.xminFor pid := by
  rcases w.xminFor_mem_or pid with ⟨pid', -, hx⟩ | heq
  · exact w.horizon_le_running hx
  · exact heq ▸ w.horizon_le_latest

end Xids

/-! ## The moves of the counter -/

namespace Cluster

/-- An xid that runs after an assignment ran before it, or is the next one. -/
theorem running_assign {c : Cluster} {pid pid' : ℤ} {x : ℕ}
    (h : (c.assign pid).running.get pid' = some x) :
    c.running.get pid' = some x ∨ pid' = pid ∧ c.running.get pid = none ∧ x = c.next := by
  unfold assign at h
  split at h
  · exact Or.inl h
  · rename_i hnone
    rw [SortedMap.get_insert] at h
    split at h
    · rename_i heq
      exact Or.inr ⟨heq.symm, by simpa using hnone, (Option.some.inj h).symm⟩
    · exact Or.inl h

theorem running_assign_of_running {c : Cluster} {pid pid' : ℤ} {x : ℕ}
    (h : c.running.get pid' = some x) : (c.assign pid).running.get pid' = some x := by
  unfold assign
  split
  · exact h
  · rename_i hnone
    rw [SortedMap.get_insert, if_neg, h]
    rintro rfl
    simp [h] at hnone

theorem latestCompleted_assign (c : Cluster) (pid : ℤ) :
    (c.assign pid).latestCompleted = c.latestCompleted := by
  unfold assign
  split <;> rfl

theorem next_assign (c : Cluster) (pid : ℤ) :
    (c.assign pid).next = c.next ∨
      (c.assign pid).next = c.next + 1 ∧ (c.assign pid).running.get pid = some c.next := by
  unfold assign
  split
  · exact Or.inl rfl
  · refine Or.inr ⟨rfl, ?_⟩
    rw [SortedMap.get_insert, if_pos rfl]

theorem running_complete_iff {c : Cluster} {pid pid' : ℤ} {x : ℕ} :
    (c.complete pid).running.get pid' = some x ↔ pid' ≠ pid ∧ c.running.get pid' = some x := by
  unfold complete
  split
  · rename_i hnone
    refine ⟨fun h => ⟨?_, h⟩, And.right⟩
    rintro rfl
    rw [hnone] at h
    cases h
  · rw [SortedMap.get_erase]
    by_cases heq : pid' = pid
    · simp [heq]
    · rw [if_neg (Ne.symm heq)]
      exact ⟨fun h => ⟨heq, h⟩, And.right⟩

theorem next_complete (c : Cluster) (pid : ℤ) : (c.complete pid).next = c.next := by
  unfold complete
  split <;> rfl

theorem latestCompleted_le_complete (c : Cluster) (pid : ℤ) :
    c.latestCompleted ≤ (c.complete pid).latestCompleted := by
  unfold complete
  split
  · exact le_rfl
  · exact le_max_left _ _

theorem running_le_complete {c : Cluster} {pid : ℤ} {x : ℕ} (h : c.running.get pid = some x) :
    x ≤ (c.complete pid).latestCompleted := by
  unfold complete
  rw [h]
  exact le_max_right _ _

theorem latestCompleted_complete (c : Cluster) (pid : ℤ) :
    (c.complete pid).latestCompleted = c.latestCompleted ∨
      c.running.get pid = some (c.complete pid).latestCompleted := by
  unfold complete
  split
  · exact Or.inl rfl
  · rename_i xid hxid
    rcases max_choice c.latestCompleted xid with h | h
    · exact Or.inl h
    · right
      show _ = some (max _ _)
      rw [h, hxid]

/-- The xids handed out are below the next one, and those above the latest completed one all run. -/
structure Dense (c : Cluster) : Prop where
  latest_lt : c.latestCompleted < c.next
  running_lt : ∀ pid x, c.running.get pid = some x → x < c.next
  runs : ∀ x, c.latestCompleted < x → x < c.next → ∃ pid, c.running.get pid = some x

theorem dense_install (reserved : ℕ) : (install reserved).Dense where
  latest_lt := by
    have : frozenXid + 1 ≤ max reserved (frozenXid + 1) := le_max_right _ _
    show max reserved (frozenXid + 1) - 1 < max reserved (frozenXid + 1)
    omega
  running_lt := by
    intro pid x h
    cases h
  runs := by
    intro x hlt hx
    change max reserved (frozenXid + 1) - 1 < x at hlt
    change x < max reserved (frozenXid + 1) at hx
    omega

theorem Dense.assign {c : Cluster} (h : c.Dense) (pid : ℤ) : (c.assign pid).Dense := by
  have hnext : c.next ≤ (c.assign pid).next := by
    rcases c.next_assign pid with heq | ⟨heq, -⟩ <;> omega
  refine ⟨?_, fun pid' x hx => ?_, fun x hlt hx => ?_⟩
  · rw [latestCompleted_assign]
    exact lt_of_lt_of_le h.latest_lt hnext
  · rcases running_assign hx with hx | ⟨rfl, -, rfl⟩
    · exact lt_of_lt_of_le (h.running_lt pid' x hx) hnext
    · -- the xid it was just given
      rcases c.next_assign pid' with heq | ⟨heq, -⟩
      · unfold Cluster.assign at hx heq
        split at heq
        · rename_i hsome
          rw [if_pos hsome] at hx
          exact absurd (h.running_lt pid' _ hx) (lt_irrefl _)
        · simp at heq
      · omega
  · rw [latestCompleted_assign] at hlt
    rcases c.next_assign pid with heq | ⟨heq, hgiven⟩
    · obtain ⟨pid', hrun⟩ := h.runs x hlt (heq ▸ hx)
      exact ⟨pid', running_assign_of_running hrun⟩
    · by_cases hnew : x = c.next
      · exact ⟨pid, hnew ▸ hgiven⟩
      · obtain ⟨pid', hrun⟩ := h.runs x hlt (by omega)
        exact ⟨pid', running_assign_of_running hrun⟩

theorem Dense.complete {c : Cluster} (h : c.Dense) (pid : ℤ) : (c.complete pid).Dense := by
  refine ⟨?_, fun pid' x hx => ?_, fun x hlt hx => ?_⟩
  · rw [next_complete]
    rcases c.latestCompleted_complete pid with heq | hrun
    · rw [heq]
      exact h.latest_lt
    · exact h.running_lt pid _ hrun
  · rw [next_complete]
    exact h.running_lt pid' x (running_complete_iff.mp hx).2
  · rw [next_complete] at hx
    obtain ⟨pid', hrun⟩ := h.runs x (lt_of_le_of_lt (c.latestCompleted_le_complete pid) hlt) hx
    refine ⟨pid', running_complete_iff.mpr ⟨?_, hrun⟩⟩
    rintro rfl
    exact absurd (running_le_complete hrun) (not_le.mpr hlt)

end Cluster

namespace Xids

/-! ## The horizon does not go back -/

theorem horizon_le_assign (w : Xids) (h : w.cluster.Dense) (pid : ℤ) :
    w.horizon ≤ { w with cluster := w.cluster.assign pid }.horizon := by
  refine (le_horizon_iff _ _).mpr ⟨?_, fun pid' x hx => ?_, fun pid' x hx => w.horizon_le_held hx⟩
  · show _ ≤ (w.cluster.assign pid).latestCompleted + 1
    rw [Cluster.latestCompleted_assign]
    exact w.horizon_le_latest
  · rcases Cluster.running_assign hx with hx | ⟨-, -, rfl⟩
    · exact w.horizon_le_running hx
    · exact w.horizon_le_latest.trans h.latest_lt

/-- A move that takes nothing from the counter only takes snapshots away or adds later ones. -/
theorem horizon_le_of_snapshots {w w' : Xids} (hcluster : w'.cluster = w.cluster)
    (hheld : ∀ pid x, w'.snapshots.get pid = some x → w.horizon ≤ x) : w.horizon ≤ w'.horizon := by
  refine (le_horizon_iff _ _).mpr ⟨?_, fun pid x hx => ?_, hheld⟩
  · rw [hcluster]
    exact w.horizon_le_latest
  · rw [hcluster] at hx
    exact w.horizon_le_running hx

theorem held_of_erase {w : Xids} {pid pid' : ℤ} {x : ℕ}
    (h : (w.snapshots.erase pid).get pid' = some x) : pid' ≠ pid ∧ w.snapshots.get pid' = some x := by
  rw [SortedMap.get_erase] at h
  split at h
  · cases h
  · rename_i hne
    exact ⟨Ne.symm hne, h⟩

/-- What a session holds after `hold_snapshot`: what it held, or the snapshot it takes now. -/
theorem held_of_orInsert {w : Xids} {pid pid' : ℤ} {x : ℕ}
    (h : (w.snapshots.orInsert pid (w.xminFor pid)).get pid' = some x) :
    w.snapshots.get pid' = some x ∨ pid' = pid ∧ x = w.xminFor pid := by
  rw [SortedMap.get_orInsert] at h
  split at h
  · rename_i heq
    subst heq
    cases hheld : w.snapshots.get pid with
    | none =>
      rw [hheld, Option.getD_none] at h
      exact Or.inr ⟨rfl, (Option.some.inj h).symm⟩
    | some y =>
      rw [hheld, Option.getD_some] at h
      exact Or.inl h
  · exact Or.inl h

theorem horizon_le_step (w : Xids) (m : XidMove) (h : w.cluster.Dense) :
    w.horizon ≤ (w.step m).horizon := by
  cases m with
  | assign pid | writer pid => exact w.horizon_le_assign h pid
  | advanceCommand pid n =>
    simp only [step]
    split <;> exact le_refl w.horizon
  | holdSnapshot pid =>
    refine horizon_le_of_snapshots rfl fun pid' x hx => ?_
    rcases held_of_orInsert hx with hx | ⟨-, rfl⟩
    · exact w.horizon_le_held hx
    · exact w.horizon_le_xminFor pid
  | dropSnapshot pid => exact horizon_le_of_snapshots rfl fun _ _ hx => w.horizon_le_held (held_of_erase hx).2
  | takeSnapshot pid =>
    simp only [step]
    split <;> exact le_refl w.horizon
  | endTransaction pid =>
    refine (le_horizon_iff _ _).mpr ⟨?_, fun pid' x hx => ?_, fun pid' x hx => ?_⟩
    · exact w.horizon_le_latest.trans (Nat.succ_le_succ (w.cluster.latestCompleted_le_complete pid))
    · exact w.horizon_le_running (Cluster.running_complete_iff.mp hx).2
    · exact w.horizon_le_held (held_of_erase hx).2

/-! ## The snapshots of the sessions that hold one -/

/-- A session's xmin `k` is covered: by the xmin it holds, or by its own xid. -/
def Covers (w : Xids) (pid : ℤ) (k : ℕ) : Prop :=
  (∃ held, w.snapshots.get pid = some held ∧ held ≤ k) ∨ ∃ x, w.cluster.running.get pid = some x ∧ x ≤ k

theorem horizon_le_of_covers {w : Xids} {pid : ℤ} {k : ℕ} (h : w.Covers pid k) : w.horizon ≤ k := by
  rcases h with ⟨held, hheld, hle⟩ | ⟨x, hx, hle⟩
  · exact (w.horizon_le_held hheld).trans hle
  · exact (w.horizon_le_running hx).trans hle

/-- Who holds a snapshot holds back what the others run and, alone or with its own xid, what comes after the
latest completed one; so it covers every snapshot it took meanwhile. -/
structure Sound (w : Xids) : Prop where
  dense : w.cluster.Dense
  le_next : ∀ pid held, w.snapshots.get pid = some held → held ≤ w.cluster.next
  le_running : ∀ pid held, w.snapshots.get pid = some held →
    ∀ pid' x, pid' ≠ pid → w.cluster.running.get pid' = some x → held ≤ x
  covers_latest : ∀ pid held, w.snapshots.get pid = some held → w.Covers pid (w.cluster.latestCompleted + 1)
  kept_covered : ∀ pid snap, (pid, snap) ∈ w.kept → w.Covers pid snap.xmin
  kept_taken : ∀ pid snap, (pid, snap) ∈ w.kept → ∃ c : Cluster, snap = c.snapshotOf pid

theorem sound_install (reserved : ℕ) : (install reserved).Sound where
  dense := Cluster.dense_install reserved
  le_next := by
    intro pid held h
    cases h
  le_running := by
    intro pid held h
    cases h
  covers_latest := by
    intro pid held h
    cases h
  kept_covered := by
    intro pid snap h
    cases h
  kept_taken := by
    intro pid snap h
    cases h

theorem Covers.mono {w w' : Xids} {pid : ℤ} {k k' : ℕ} (h : w.Covers pid k) (hle : k ≤ k')
    (hsnap : ∀ x, w.snapshots.get pid = some x → w'.snapshots.get pid = some x)
    (hrun : ∀ x, w.cluster.running.get pid = some x → w'.cluster.running.get pid = some x) :
    w'.Covers pid k' := by
  rcases h with ⟨held, hheld, hk⟩ | ⟨x, hx, hk⟩
  · exact Or.inl ⟨held, hsnap held hheld, hk.trans hle⟩
  · exact Or.inr ⟨x, hrun x hx, hk.trans hle⟩

theorem Sound.assign {w : Xids} (h : w.Sound) (pid : ℤ) :
    { w with cluster := w.cluster.assign pid }.Sound where
  dense := h.dense.assign pid
  le_next := by
    intro pid' held hheld
    have hle := h.le_next pid' held hheld
    show held ≤ (w.cluster.assign pid).next
    rcases w.cluster.next_assign pid with heq | ⟨heq, -⟩ <;> omega
  le_running := by
    intro pid' held hheld pid'' x hne hx
    rcases Cluster.running_assign hx with hx | ⟨-, -, rfl⟩
    · exact h.le_running pid' held hheld pid'' x hne hx
    · exact h.le_next pid' held hheld
  covers_latest := by
    intro pid' held hheld
    refine (h.covers_latest pid' held hheld).mono ?_ (fun _ hx => hx)
      fun _ hx => Cluster.running_assign_of_running hx
    show _ ≤ (w.cluster.assign pid).latestCompleted + 1
    rw [Cluster.latestCompleted_assign]
  kept_covered := by
    intro pid' snap hmem
    exact (h.kept_covered pid' snap hmem).mono le_rfl (fun _ hx => hx)
      fun _ hx => Cluster.running_assign_of_running hx
  kept_taken := h.kept_taken

theorem Sound.commands {w : Xids} (h : w.Sound) (commands : SortedMap ℤ (ℕ × Bool)) :
    { w with commands := commands }.Sound where
  dense := h.dense
  le_next := h.le_next
  le_running := h.le_running
  covers_latest := h.covers_latest
  kept_covered := h.kept_covered
  kept_taken := h.kept_taken

/-- The snapshot that is held now covers what comes after the latest completed xid: an xid just after it, if
any, is another session's, which the snapshot is below, or the session's own. -/
theorem covers_latest_xminFor {w : Xids} (h : w.cluster.Dense) (pid : ℤ) :
    w.xminFor pid ≤ w.cluster.latestCompleted + 1 ∨
      w.cluster.running.get pid = some (w.cluster.latestCompleted + 1) := by
  by_cases hnext : w.cluster.latestCompleted + 1 < w.cluster.next
  · obtain ⟨pid', hrun⟩ := h.runs _ (Nat.lt_succ_self _) hnext
    by_cases hown : pid' = pid
    · exact Or.inr (hown ▸ hrun)
    · exact Or.inl (w.xminFor_le_running hown hrun)
  · left
    rcases w.xminFor_mem_or pid with ⟨pid', -, hrun⟩ | heq
    · have := h.running_lt pid' _ hrun
      omega
    · exact le_of_eq heq

theorem get_orInsert_of_held {w : Xids} {pid pid' : ℤ} {x : ℕ} (h : w.snapshots.get pid' = some x) :
    (w.snapshots.orInsert pid (w.xminFor pid)).get pid' = some x := by
  rw [SortedMap.get_orInsert]
  split
  · rename_i heq
    subst heq
    rw [h, Option.getD_some]
  · exact h

theorem Sound.holdSnapshot {w : Xids} (h : w.Sound) (pid : ℤ) :
    { w with snapshots := w.snapshots.orInsert pid (w.xminFor pid) }.Sound where
  dense := h.dense
  le_next := by
    intro pid' held hheld
    rcases held_of_orInsert hheld with hheld | ⟨-, rfl⟩
    · exact h.le_next pid' held hheld
    · rcases w.xminFor_mem_or pid with ⟨pid'', -, hrun⟩ | heq
      · exact le_of_lt (h.dense.running_lt pid'' _ hrun)
      · exact heq ▸ h.dense.latest_lt
  le_running := by
    intro pid' held hheld pid'' x hne hx
    rcases held_of_orInsert hheld with hheld | ⟨rfl, rfl⟩
    · exact h.le_running pid' held hheld pid'' x hne hx
    · exact w.xminFor_le_running hne hx
  covers_latest := by
    intro pid' held hheld
    rcases held_of_orInsert hheld with hold | ⟨rfl, rfl⟩
    · exact (h.covers_latest pid' held hold).mono le_rfl (fun _ hx => get_orInsert_of_held hx)
        fun _ hx => hx
    · rcases covers_latest_xminFor h.dense pid' with hle | hrun
      · exact Or.inl ⟨_, hheld, hle⟩
      · exact Or.inr ⟨_, hrun, le_rfl⟩
  kept_covered := by
    intro pid' snap hmem
    exact (h.kept_covered pid' snap hmem).mono le_rfl (fun _ hx => get_orInsert_of_held hx) fun _ hx => hx
  kept_taken := h.kept_taken

/-- A session lets go of its snapshot, and perhaps of its xid: what the others hold and kept stands. -/
theorem Sound.forget {w : Xids} (h : w.Sound) (pid : ℤ) {c : Cluster} (hdense : c.Dense)
    (hnext : c.next = w.cluster.next) (hlatest : w.cluster.latestCompleted ≤ c.latestCompleted)
    (hrun : ∀ pid' x, pid' ≠ pid → (c.running.get pid' = some x ↔ w.cluster.running.get pid' = some x))
    (hrun' : ∀ pid' x, c.running.get pid' = some x → w.cluster.running.get pid' = some x)
    (commands : SortedMap ℤ (ℕ × Bool)) :
    Sound ⟨c, commands, w.snapshots.erase pid, w.kept.filter (·.1 ≠ pid)⟩ := by
  have covers : ∀ pid' k k', pid' ≠ pid → k ≤ k' → w.Covers pid' k →
      Covers ⟨c, commands, w.snapshots.erase pid, w.kept.filter (·.1 ≠ pid)⟩ pid' k' := by
    intro pid' k k' hne hle hcov
    refine hcov.mono hle (fun x hx => ?_) fun x hx => (hrun pid' x hne).mpr hx
    show (w.snapshots.erase pid).get pid' = some x
    rw [SortedMap.get_erase, if_neg (Ne.symm hne), hx]
  have kept : ∀ pid' snap, (pid', snap) ∈ w.kept.filter (·.1 ≠ pid) → pid' ≠ pid ∧ (pid', snap) ∈ w.kept := by
    intro pid' snap hmem
    obtain ⟨hmem, hne⟩ := List.mem_filter.mp hmem
    exact ⟨by simpa using hne, hmem⟩
  refine ⟨hdense, ?_, ?_, ?_, ?_, ?_⟩
  · intro pid' held hheld
    show held ≤ c.next
    rw [hnext]
    exact h.le_next pid' held (held_of_erase hheld).2
  · intro pid' held hheld pid'' x hne hx
    exact h.le_running pid' held (held_of_erase hheld).2 pid'' x hne (hrun' pid'' x hx)
  · intro pid' held hheld
    obtain ⟨hne, hheld⟩ := held_of_erase hheld
    exact covers pid' _ _ hne (Nat.succ_le_succ hlatest) (h.covers_latest pid' held hheld)
  · intro pid' snap hmem
    obtain ⟨hne, hmem⟩ := kept pid' snap hmem
    exact covers pid' _ _ hne le_rfl (h.kept_covered pid' snap hmem)
  · intro pid' snap hmem
    exact h.kept_taken pid' snap (kept pid' snap hmem).2

/-- A snapshot that a session takes while it holds one is covered. -/
theorem Sound.covers_snapshotOf {w : Xids} (h : w.Sound) {pid : ℤ} {held : ℕ}
    (hheld : w.snapshots.get pid = some held) : w.Covers pid (w.cluster.snapshotOf pid).xmin := by
  by_cases hle : held ≤ w.cluster.latestCompleted + 1
  · refine Or.inl ⟨held, hheld, w.cluster.le_xmin_snapshotOf pid hle ?_⟩
    exact fun pid' x hne hx => h.le_running pid held hheld pid' x hne hx
  · rcases h.covers_latest pid held hheld with ⟨held', hheld', hle'⟩ | ⟨x, hx, hxle⟩
    · rw [hheld] at hheld'
      exact absurd (Option.some.inj hheld' ▸ hle') hle
    · -- its own xid is the least one that runs
      refine Or.inr ⟨x, hx, w.cluster.le_xmin_snapshotOf pid hxle fun pid' y hne hy => ?_⟩
      have := h.le_running pid held hheld pid' y hne hy
      omega

theorem Sound.takeSnapshot {w : Xids} (h : w.Sound) {pid : ℤ} {held : ℕ}
    (hheld : w.snapshots.get pid = some held) :
    { w with kept := (pid, w.cluster.snapshotOf pid) :: w.kept }.Sound where
  dense := h.dense
  le_next := h.le_next
  le_running := h.le_running
  covers_latest := h.covers_latest
  kept_covered := by
    intro pid' snap hmem
    rcases List.mem_cons.mp hmem with heq | hmem
    · cases heq
      exact h.covers_snapshotOf hheld
    · exact h.kept_covered pid' snap hmem
  kept_taken := by
    intro pid' snap hmem
    rcases List.mem_cons.mp hmem with heq | hmem
    · cases heq
      exact ⟨w.cluster, rfl⟩
    · exact h.kept_taken pid' snap hmem

theorem Sound.step {w : Xids} (h : w.Sound) (m : XidMove) : (w.step m).Sound := by
  cases m with
  | assign pid => exact h.assign pid
  | writer pid => exact (h.assign pid).commands _
  | advanceCommand pid n =>
    simp only [Xids.step]
    split
    · exact h
    · exact h.commands _
  | holdSnapshot pid => exact h.holdSnapshot pid
  | dropSnapshot pid => exact h.forget pid h.dense rfl le_rfl (fun _ _ _ => Iff.rfl) (fun _ _ hx => hx) _
  | takeSnapshot pid =>
    simp only [Xids.step]
    split
    · rename_i hsome
      obtain ⟨held, hheld⟩ := Option.isSome_iff_exists.mp hsome
      exact h.takeSnapshot hheld
    · exact h
  | endTransaction pid =>
    refine h.forget pid (h.dense.complete pid) (w.cluster.next_complete pid)
      (w.cluster.latestCompleted_le_complete pid) (fun pid' x hne => ?_)
      (fun pid' x hx => (Cluster.running_complete_iff.mp hx).2) _
    exact ⟨fun hx => (Cluster.running_complete_iff.mp hx).2, fun hx =>
      Cluster.running_complete_iff.mpr ⟨hne, hx⟩⟩

theorem sound_run {w : Xids} (h : w.Sound) (moves : List XidMove) : (w.run moves).Sound :=
  run_invariant step (P := Sound) (fun _ m hw => hw.step m) moves w h

theorem horizon_le_run {w : Xids} (h : w.Sound) (moves : List XidMove) :
    w.horizon ≤ (w.run moves).horizon := by
  induction moves generalizing w with
  | nil => exact le_rfl
  | cons m moves ih => exact (w.horizon_le_step m h.dense).trans (ih (h.step m))

theorem Sound.sees_kept {w : Xids} (h : w.Sound) {pid : ℤ} {snap : Snap} (hmem : (pid, snap) ∈ w.kept)
    {x : ℕ} (hx : x < w.horizon) : snap.sees x := by
  have hle := horizon_le_of_covers (h.kept_covered pid snap hmem)
  obtain ⟨c, rfl⟩ := h.kept_taken pid snap hmem
  exact c.sees_of_lt_xmin pid (lt_of_lt_of_le hx hle)

/-- The horizon is safe and monotone: whatever the sessions do after any run, it does not go back; it is no more
than any xid that runs, any xmin that is held and the xmin of any snapshot taken from then on; and what lies
before it has ended and is seen by every snapshot that a session holds or takes from then on. -/
theorem horizon_safe (reserved : ℕ) (before after : List XidMove) :
    let w := (install reserved).run before
    let w' := w.run after
    w.horizon ≤ w'.horizon ∧
      (∀ pid x, w.cluster.running.get pid = some x → w.horizon ≤ x) ∧
      (∀ pid x, w.snapshots.get pid = some x → w.horizon ≤ x) ∧
      (∀ pid, w.horizon ≤ (w'.cluster.snapshotOf pid).xmin) ∧
      ∀ x < w.horizon,
        (∀ pid, w'.cluster.running.get pid ≠ some x) ∧
          (∀ pid held, w'.snapshots.get pid = some held → x < held) ∧
          (∀ pid snap, (pid, snap) ∈ w'.kept → snap.sees x) ∧
          ∀ pid, (w'.cluster.snapshotOf pid).sees x := by
  intro w w'
  have hw : w.Sound := sound_run (sound_install reserved) before
  have hw' : w'.Sound := sound_run hw after
  have hmono : w.horizon ≤ w'.horizon := horizon_le_run hw after
  refine ⟨hmono, fun _ _ h => w.horizon_le_running h, fun _ _ h => w.horizon_le_held h,
    fun pid => hmono.trans (w'.horizon_le_xmin pid), fun x hx => ?_⟩
  have hx' : x < w'.horizon := lt_of_lt_of_le hx hmono
  refine ⟨fun pid hrun => ?_, fun pid held h => ?_, fun pid snap h => ?_, fun pid => ?_⟩
  · exact absurd (w'.horizon_le_running hrun) (not_le.mpr hx')
  · exact lt_of_lt_of_le hx' (w'.horizon_le_held h)
  · exact hw'.sees_kept h hx'
  · exact w'.cluster.sees_of_lt_xmin pid (lt_of_lt_of_le hx' (w'.horizon_le_xmin pid))

end Xids

end Secantus.Ssi
