/-
  Transaction ids (xids.rs) and the sessions that work on one SSI state.

  The two have locks of their own, so a session's steps are: take or end an xid, take a snapshot, read the
  next xid, and then make a call with it. `ssi_begin` takes the snapshot in one step and registers it in
  another. `Node` also keeps when each snapshot was taken and each transaction committed, which no step
  reads.
-/
import Secantus.Ssi.Calls

namespace Secantus.Ssi

open Secantus Secantus.Library

/-! ## Transaction ids -/

/-- `FROZEN_XID`. -/
def frozenXid : ℕ := 722

/-- `Cluster`: the counter and the xids that sessions hold. -/
structure Cluster where
  next : ℕ
  latestCompleted : ℕ
  running : SortedMap ℤ ℕ

namespace Cluster

/-- `install`, from the end of the last reservation. -/
def install (reserved : ℕ) : Cluster where
  next := max reserved (frozenXid + 1)
  latestCompleted := max reserved (frozenXid + 1) - 1
  running := SortedMap.empty

/-- `XidOp::Assign`, as `writer` also does it: the session's xid, taken now if it has none. -/
def assign (c : Cluster) (pid : ℤ) : Cluster :=
  if (c.running.get pid).isSome then c
  else { c with next := c.next + 1, running := c.running.insert pid c.next }

/-- `end`. -/
def complete (c : Cluster) (pid : ℤ) : Cluster :=
  match c.running.get pid with
  | none => c
  | some xid =>
    { c with running := c.running.erase pid, latestCompleted := max c.latestCompleted xid }

def snapshotOf (c : Cluster) (pid : ℤ) : Snap :=
  let xmax := c.latestCompleted + 1
  let others := c.running.entries.filter fun e => e.1 ≠ pid && e.2 < xmax
  let xip := (others.map Prod.snd).insertionSort (· ≤ ·)
  ⟨xip.head?.getD xmax, xmax, xip⟩

theorem mem_xip_snapshotOf (c : Cluster) (pid : ℤ) (x : ℕ) :
    x ∈ (c.snapshotOf pid).xip ↔
      ∃ pid', pid' ≠ pid ∧ c.running.get pid' = some x ∧ x < c.latestCompleted + 1 := by
  unfold snapshotOf
  simp only [List.mem_insertionSort, List.mem_map, List.mem_filter, Bool.and_eq_true, decide_eq_true_eq,
    Prod.exists, exists_eq_right, SortedMap.get_eq_some_iff]
  constructor
  · rintro ⟨pid', hmem, hne, hlt⟩
    exact ⟨pid', hne, hmem, hlt⟩
  · rintro ⟨pid', hne, hmem, hlt⟩
    exact ⟨pid', hmem, hne, hlt⟩

theorem xmin_le_of_mem_xip (c : Cluster) (pid : ℤ) {x : ℕ} (h : x ∈ (c.snapshotOf pid).xip) :
    (c.snapshotOf pid).xmin ≤ x := by
  have hsorted : (c.snapshotOf pid).xip.Pairwise (· ≤ ·) := List.pairwise_insertionSort _ _
  show (c.snapshotOf pid).xip.head?.getD _ ≤ x
  cases hxip : (c.snapshotOf pid).xip with
  | nil =>
    rw [hxip] at h
    cases h
  | cons y ys =>
    rw [hxip] at h hsorted
    rcases List.mem_cons.mp h with rfl | h
    · exact le_refl x
    · exact (List.pairwise_cons.mp hsorted).1 x h

theorem xmin_snapshotOf_le (c : Cluster) (pid : ℤ) : (c.snapshotOf pid).xmin ≤ c.latestCompleted + 1 := by
  show (c.snapshotOf pid).xip.head?.getD _ ≤ _
  cases hxip : (c.snapshotOf pid).xip with
  | nil => exact le_refl _
  | cons y ys =>
    obtain ⟨-, -, -, hlt⟩ := (c.mem_xip_snapshotOf pid y).mp (hxip ▸ List.mem_cons_self)
    exact le_of_lt hlt

/-- A snapshot's xmin is no more than any xid that another session holds. -/
theorem xmin_snapshotOf_le_running (c : Cluster) {pid pid' : ℤ} (hne : pid' ≠ pid) {x : ℕ}
    (hx : c.running.get pid' = some x) : (c.snapshotOf pid).xmin ≤ x := by
  by_cases hlt : x < c.latestCompleted + 1
  · exact c.xmin_le_of_mem_xip pid ((c.mem_xip_snapshotOf pid x).mpr ⟨pid', hne, hx, hlt⟩)
  · exact (c.xmin_snapshotOf_le pid).trans (not_lt.mp hlt)

end Cluster

/-! ## Sessions -/

/-- The session a call is made by; a page split's caller does not matter. -/
def Call.backend? : Call → Option ℤ
  | .register pid _ _ | .setXid pid _ | .lockRelation pid _ _ | .lockPage pid _ _ _
  | .lockTuple pid _ _ _ _ | .scanConflictsOut pid _ _ _ _ | .conflictIn pid _ _ _ _
  | .tableConflictIn pid _ _ | .noteVersion pid _ _ _ _ _ | .preCommit pid | .release pid _
  | .setDeferrableWaiting pid _ => some pid
  | .pageSplit _ _ _ _ => none

structure Backend where
  /-- The snapshot that `ssi_begin` took and has yet to register. -/
  taken : Option Snap
  /-- `next_xid`, read before the SSI state is locked. -/
  nextRead : Option ℕ
  /-- When the last snapshot was taken, and when the last transaction registered. -/
  takenAt : ℕ
  registeredAt : ℕ
  deriving DecidableEq

/-- A committed serializable transaction, as it was when it ended. -/
structure Commit where
  seq : ℕ
  xid : Option ℕ
  wrote : Bool
  finishedBefore : ℕ
  time : ℕ
  deriving DecidableEq

/-- What is kept of transaction `i` when it commits. -/
def State.commitOf (s : State) (i nextXid time : ℕ) : Commit where
  seq := s.lastCommitSeq + 1
  xid := (s.sx i).topXid
  wrote := !(s.sx i).flags.readOnly && (s.sx i).didWrite
  finishedBefore := nextXid
  time := time

structure Node where
  cluster : Cluster
  state : State
  backend : ℤ → Backend
  clock : ℕ
  commits : List Commit

/-- A step of a session. -/
inductive Move where
  | assignXid (pid : ℤ)
  | endXid (pid : ℤ)
  | takeSnapshot (pid : ℤ)
  | readNext (pid : ℤ)
  | call (c : Call)

namespace Node

def start (reserved : ℕ) : Node where
  cluster := Cluster.install reserved
  state := State.initial
  backend _ := ⟨none, none, 0, 0⟩
  clock := 0
  commits := []

/-- The session is neither between its snapshot and its registration nor in a call. -/
def idle (w : Node) (pid : ℤ) : Bool :=
  (w.backend pid).taken.isNone && (w.backend pid).nextRead.isNone

/-- The next xid that the call's session read for it; none where its session does not make this call. -/
def made (w : Node) : Call → Option ℕ
  | .register pid snap _ => if (w.backend pid).taken = some snap then (w.backend pid).nextRead else none
  | .setXid pid xid =>
    if w.cluster.running.get pid = some xid ∧ (w.backend pid).taken = none then (w.backend pid).nextRead
    else none
  | c =>
    match c.backend? with
    | none => some w.cluster.next
    | some pid => if (w.backend pid).taken = none then (w.backend pid).nextRead else none

/-- The sessions after a call: the next xid read for it is used up, and so is the snapshot registered. -/
def backendAfter (w : Node) (c : Call) (pid : ℤ) : Backend :=
  if c.backend? = some pid then
    match c with
    | .register _ _ _ =>
      { w.backend pid with taken := none, nextRead := none, registeredAt := w.clock }
    | _ => { w.backend pid with nextRead := none }
  else w.backend pid

/-- The transaction a call commits. -/
def commitsOf (w : Node) (nextXid : ℕ) : Call → List Commit
  | .release pid true => (w.state.mine pid).toList.map (w.state.commitOf · nextXid w.clock)
  | _ => []

def setBackend (w : Node) (pid : ℤ) (b : Backend) : Node :=
  { w with backend := fun p => if p = pid then b else w.backend p }

def act (w : Node) : Move → Node
  | .assignXid pid => if w.idle pid then { w with cluster := w.cluster.assign pid } else w
  | .endXid pid =>
    -- `ssi_end` goes before it
    if w.idle pid && (w.state.mine pid).isNone then { w with cluster := w.cluster.complete pid } else w
  | .takeSnapshot pid =>
    if w.idle pid && (w.state.mine pid).isNone then
      w.setBackend pid
        { w.backend pid with taken := some (w.cluster.snapshotOf pid), takenAt := w.clock }
    else w
  | .readNext pid => w.setBackend pid { w.backend pid with nextRead := some w.cluster.next }
  | .call c =>
    match w.made c with
    | none => w
    | some nextXid =>
      { w with
        state := (w.state.call nextXid c).1
        backend := w.backendAfter c
        commits := w.commits ++ w.commitsOf nextXid c }

def step (w : Node) (m : Move) : Node := { w.act m with clock := w.clock + 1 }

end Node

end Secantus.Ssi
