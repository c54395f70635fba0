/-
  Where an oplog batch goes (`oplog_shard_for_batch`, `drainer_for_batch`): to a shard table by
  its first sequence, and in async mode to a drainer by the same.

  The shard is the sequence modulo the routed width, the drainer is the sequence modulo
  `OPLOG_SHARDS` modulo the number of drainers. `oneWriter_iff`: a shard has one writer exactly
  when every shard is routed to, or the number of drainers divides the routed width and
  `OPLOG_SHARDS`.

  The synchronous oplog under concurrent transactions and readers.

  A transaction mints runs of sequences as it writes its entries, takes its commit timestamp,
  commits or rolls back, and then leaves the in-flight window and gives up its reserved
  timestamp, each a step of its own. A reader takes the visible tail and then reads the oplog up
  to it; `read_oplog` bounds itself before it takes its snapshot. A run is any list of such
  events; one that cannot happen leaves the state.
-/
import Secantus.Paths.Basic
import Secantus.Oplog.State
import Mathlib.Data.Int.GCD
import Mathlib.Logic.Function.Basic

namespace Secantus.Oplog

open Secantus

/-- `OPLOG_SHARDS`. -/
def oplogShards : ℤ := 16

/-- `OPLOG_ROUTE_SHARDS_DEFAULT`. -/
def oplogRouteShardsDefault : ℤ := 2

/-- `oplog_route_shards`, of the integer `SECANTUS_OPLOG_SHARDS` holds, if it holds one. -/
def oplogRouteShards (configured : Option ℤ) : ℤ :=
  (configured.filter fun n => 1 ≤ n ∧ n ≤ oplogShards).getD oplogRouteShardsDefault

def oplogShardName (shard : ℤ) : String := "table:secantus_oplog_sh" ++ toString shard

def oplogShardForBatch (configured : Option ℤ) (startSeq : ℤ) : String :=
  oplogShardName (startSeq % oplogRouteShards configured)

/-- `ASYNC_OPLOG_DRAINERS`. -/
def asyncOplogDrainers : ℕ := 4

/-- The pool's size (`spawn_oplog_drainer`), of the number `SECANTUS_OPLOG_ASYNC_DRAINERS`
    holds, if it holds one. -/
def numDrainers (configured : Option ℕ) : ℕ :=
  min ((configured.filter (0 < ·)).getD asyncOplogDrainers) oplogShards.toNat

def drainerForBatch (startSeq : ℤ) (drainers : ℕ) : ℕ := (startSeq % oplogShards).toNat % drainers

/-- No two drainers write the same shard. -/
def OneWriter (shards : Option ℤ) (drainers : Option ℕ) : Prop :=
  ∀ s t, oplogShardForBatch shards s = oplogShardForBatch shards t →
    drainerForBatch s (numDrainers drainers) = drainerForBatch t (numDrainers drainers)

theorem oplogRouteShards_bounds (configured : Option ℤ) :
    1 ≤ oplogRouteShards configured ∧ oplogRouteShards configured ≤ oplogShards := by
  unfold oplogRouteShards
  cases h : configured.filter fun n => 1 ≤ n ∧ n ≤ oplogShards with
  | none => decide
  | some n =>
    have hn := (Option.filter_eq_some_iff.mp h).2
    simpa using hn

theorem oplogShardName_natCast (n : ℕ) :
    oplogShardName n = "table:secantus_oplog_sh" ++ toString n := rfl

theorem oplogShardName_inj {i j : ℤ} (hi : 0 ≤ i) (hj : 0 ≤ j)
    (h : oplogShardName i = oplogShardName j) : i = j := by
  obtain ⟨m, rfl⟩ := Int.eq_ofNat_of_zero_le hi
  obtain ⟨n, rfl⟩ := Int.eq_ofNat_of_zero_le hj
  rw [oplogShardName_natCast, oplogShardName_natCast, String.append_right_inj] at h
  rw [Paths.toString_inj h]

theorem oplogShardForBatch_eq_iff (configured : Option ℤ) (s t : ℤ) :
    oplogShardForBatch configured s = oplogShardForBatch configured t ↔
      s % oplogRouteShards configured = t % oplogRouteShards configured := by
  have hr : oplogRouteShards configured ≠ 0 := by
    have := (oplogRouteShards_bounds configured).1
    omega
  refine ⟨fun h => ?_, fun h => by rw [oplogShardForBatch, h, oplogShardForBatch]⟩
  exact oplogShardName_inj (Int.emod_nonneg s hr) (Int.emod_nonneg t hr) h

/-- A drainer count that divides `OPLOG_SHARDS` is the only modulus of the drainer. -/
theorem drainerForBatch_of_dvd {d : ℕ} (hd : (d : ℤ) ∣ oplogShards) (s : ℤ) :
    (drainerForBatch s d : ℤ) = s % d := by
  have h0 : 0 ≤ s % oplogShards := Int.emod_nonneg s (by decide)
  unfold drainerForBatch
  rw [Int.natCast_emod, Int.toNat_of_nonneg h0, Int.emod_emod_of_dvd s hd]

/-- Two sequences a multiple of the width apart go to one shard; a width short of
    `OPLOG_SHARDS` has such a pair `gcd` apart among the first sixteen. -/
theorem dvd_of_oneWriter {r : ℤ} {d : ℕ} (hr : 1 ≤ r) (hlt : r < oplogShards)
    (h : ∀ s t : ℤ, s % r = t % r → drainerForBatch s d = drainerForBatch t d) :
    (d : ℤ) ∣ Int.gcd r oplogShards := by
  set g := Int.gcd r oplogShards with hg
  -- Bezout: `g = r * x + 16 * y`, so `g` and `16 * y` share a shard, `16 * y` and 0 a drainer
  have hbez : (g : ℤ) = r * Int.gcdA r oplogShards + oplogShards * Int.gcdB r oplogShards :=
    Int.gcd_eq_gcd_ab r oplogShards
  have hshard : (g : ℤ) % r = (oplogShards * Int.gcdB r oplogShards) % r := by
    rw [hbez, add_comm, Int.add_mul_emod_self_left]
  have hdrain := h _ _ hshard
  have hzero : drainerForBatch (oplogShards * Int.gcdB r oplogShards) d = 0 := by
    unfold drainerForBatch
    rw [Int.mul_emod_right]
    exact Nat.zero_mod d
  have hgpos : 0 < g := Int.gcd_pos_of_ne_zero_left _ (by omega)
  have hglt : (g : ℤ) < oplogShards := by
    have hle : (g : ℤ) ≤ r := Int.le_of_dvd (by omega) (Int.gcd_dvd_left ..)
    omega
  have hself : drainerForBatch (g : ℤ) d = g % d := by
    unfold drainerForBatch
    rw [Int.emod_eq_of_lt (by omega) hglt, Int.toNat_natCast]
  rw [hself, hzero] at hdrain
  exact Int.natCast_dvd_natCast.mpr (Nat.dvd_of_mod_eq_zero hdrain)

/-- Each shard has one drainer exactly when every shard is routed to, or the drainers divide the
    routed width and the shards. -/
theorem oneWriter_iff (shards : Option ℤ) (drainers : Option ℕ) :
    OneWriter shards drainers ↔
      oplogRouteShards shards = oplogShards ∨
        (numDrainers drainers : ℤ) ∣ oplogRouteShards shards ∧
          (numDrainers drainers : ℤ) ∣ oplogShards := by
  obtain ⟨hr1, hr16⟩ := oplogRouteShards_bounds shards
  unfold OneWriter
  simp only [oplogShardForBatch_eq_iff]
  constructor
  · intro h
    rcases hr16.lt_or_eq with hlt | heq
    · have hdvd := dvd_of_oneWriter hr1 hlt h
      exact .inr ⟨hdvd.trans (Int.gcd_dvd_left ..), hdvd.trans (Int.gcd_dvd_right ..)⟩
    · exact .inl heq
  · rintro (heq | ⟨hdr, hd⟩) s t hst
    · rw [heq] at hst
      rw [drainerForBatch, hst, drainerForBatch]
    · have hmod : s % (numDrainers drainers : ℤ) = t % (numDrainers drainers : ℤ) := by
        rw [← Int.emod_emod_of_dvd s hdr, hst, Int.emod_emod_of_dvd t hdr]
      have hs := drainerForBatch_of_dvd hd s
      have ht := drainerForBatch_of_dvd hd t
      omega

/-- With nothing configured, batches 1 and 3 share shard 1 and go to drainers 1 and 3. -/
theorem oneWriter_default_fails :
    oplogShardForBatch none 1 = oplogShardForBatch none 3 ∧
      drainerForBatch 1 (numDrainers none) = 1 ∧ drainerForBatch 3 (numDrainers none) = 3 ∧
      ¬OneWriter none none := by
  have hshard : oplogShardForBatch none 1 = oplogShardForBatch none 3 := by decide
  refine ⟨hshard, by decide, by decide, fun h => ?_⟩
  have := h 1 3 hshard
  revert this
  decide

/-- An oplog row: its sequence, its timestamp and the transaction that wrote it. -/
structure Entry where
  seq : ℤ
  ts : ℕ
  owner : ℕ
  deriving DecidableEq

inductive Phase where
  | running
  | committed
  | rolledBack
  deriving DecidableEq

/-- A transaction: the runs it minted that are in the window, its commit timestamp once taken,
    the timestamp it has reserved, and how far it is. -/
structure Txn where
  ranges : List (ℤ × ℤ)
  stamp : Option ℕ
  reserved : Option ℕ
  phase : Phase

def Txn.new : Txn := ⟨[], none, none, .running⟩

/-- Its commit timestamp is not taken and it has not ended: it may still write. -/
def Txn.Writing (t : Txn) : Prop := t.phase = .running ∧ t.stamp = none

instance (t : Txn) : Decidable t.Writing := inferInstanceAs (Decidable (_ ∧ _))

/-- A reader: where it reads from next, the tail it was given, the bound its read has taken, and
    the sequences it has received. -/
structure Reader where
  start : ℤ
  pos : ℤ
  tail : Option ℤ
  bound : Option ℤ
  received : List ℤ

structure Sync where
  st : OplogState
  txns : ℕ → Txn
  /-- Every row written, in the order of the sequences. -/
  entries : List Entry
  readers : ℕ → Reader

/-- The rows of committed transactions: what a snapshot taken now holds. -/
def Sync.visible (s : Sync) : List Entry :=
  s.entries.filter fun e => (s.txns e.owner).phase = .committed

def Sync.Ended (s : Sync) (t : ℕ) : Prop := (s.txns t).phase ≠ .running

inductive Event where
  /-- `mint_and_write` of a transaction's entries, one clock reading each. -/
  | mint (t : ℕ) (nows : List ℤ)
  /-- The transaction id of a prepared transaction: a sequence nothing is written at. -/
  | prepare (now : ℤ)
  /-- `commit_stamp`. -/
  | stamp (t : ℕ) (now : ℤ)
  /-- The storage engine commits the transaction, or rolls it back. -/
  | finish (t : ℕ) (commit : Bool)
  /-- `deregister_in_flight` of an ended transaction's runs. -/
  | deregister (t : ℕ)
  /-- `release_stamp` of an ended transaction's reservation. -/
  | release (t : ℕ)
  /-- A reader is given the visible tail. -/
  | takeTail (r : ℕ)
  /-- `read_oplog` takes its bound. -/
  | readBound (r : ℕ)
  /-- `read_oplog` takes its snapshot and returns; the reader consumes what is up to its tail. -/
  | readRows (r : ℕ) (limit : ℕ)

/-- The rows of a mint. -/
def entriesOf (owner : ℕ) : ℤ → List Timestamp → List Entry
  | _, [] => []
  | q, t :: ts => ⟨q, tsU64 t, owner⟩ :: entriesOf owner (q + 1) ts

/-- `read_oplog` from `start`, after its bound was taken. -/
def readOplog (visible : List Entry) (start : ℤ) (limit : ℕ) (maxSeq : ℤ) : List Entry :=
  if maxSeq < start then []
  else ((visible.filter (start ≤ ·.seq)).take limit).takeWhile (·.seq ≤ maxSeq)

/-- Where a reader goes on: after the last row it kept of a full page, and after its tail when there
    are no more. -/
def nextPos (pos tail : ℤ) (kept : List ℤ) (limit : ℕ) : ℤ :=
  if kept.length < limit then max pos (tail + 1) else kept.getLast?.getD (pos - 1) + 1

/-- What a reader does with the rows it asked for: it keeps those up to its tail. -/
def Reader.consume (r : Reader) (tail : ℤ) (rows : List Entry) (limit : ℕ) : Reader :=
  let kept := (rows.map (·.seq)).filter (· ≤ tail)
  ⟨r.start, nextPos r.pos tail kept limit, none, none, r.received ++ kept⟩

def Sync.step (s : Sync) : Event → Sync
  | .mint t nows =>
    if (s.txns t).Writing ∧ nows ≠ [] then
      let (st, start, ts) := mintSeqAndTs s.st nows true
      let txn := { s.txns t with ranges := (s.txns t).ranges ++ [(start, start + nows.length)] }
      { s with
        st := st
        txns := Function.update s.txns t txn
        entries := s.entries ++ entriesOf t start ts }
    else s
  | .prepare now => { s with st := (mintSeqAndTs s.st [now] false).1 }
  | .stamp t now =>
    if (s.txns t).Writing then
      let (st, ts, reserved) := commitStamp s.st (s.txns t).ranges now
      let txn := { s.txns t with stamp := some ts, reserved := if reserved then some ts else none }
      { s with st := st, txns := Function.update s.txns t txn }
    else s
  | .finish t commit =>
    if (s.txns t).phase = .running then
      let txn := { s.txns t with phase := if commit then .committed else .rolledBack }
      { s with txns := Function.update s.txns t txn }
    else s
  | .deregister t =>
    if (s.txns t).phase = .running then s
    else
      { s with
        st := deregisterInFlight s.st (s.txns t).ranges
        txns := Function.update s.txns t { s.txns t with ranges := [] } }
  | .release t =>
    match (s.txns t).reserved with
    | none => s
    | some ts =>
      if (s.txns t).phase = .running then s
      else
        { s with
          st := releaseStamp s.st ts
          txns := Function.update s.txns t { s.txns t with reserved := none } }
  | .takeTail r =>
    let reader := { s.readers r with tail := some (visibleTail s.st), bound := none }
    { s with readers := Function.update s.readers r reader }
  | .readBound r =>
    let reader := { s.readers r with bound := some (visibleTail s.st) }
    { s with readers := Function.update s.readers r reader }
  | .readRows r limit =>
    match (s.readers r).tail, (s.readers r).bound with
    | some tail, some bound =>
      let rows := readOplog s.visible (s.readers r).pos limit bound
      { s with readers := Function.update s.readers r ((s.readers r).consume tail rows limit) }
    | _, _ => s

def Sync.run (s : Sync) (events : List Event) : Sync := events.foldl Sync.step s

/-- An opened store, its readers at their starts. -/
def Sync.opened (nextSeq secs ord : ℤ) (starts : ℕ → ℤ) : Sync where
  st := .opened nextSeq secs ord
  txns := fun _ => .new
  entries := []
  readers := fun r => ⟨starts r, starts r, none, none, []⟩

end Secantus.Oplog
