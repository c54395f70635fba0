/-
  The oplog's counters (`OplogState` of secantus-storage): minting sequences and timestamps, the
  window of unresolved mints and reserved timestamps, and the points read from them.

  Sequences are integers. A timestamp is 32 bits of seconds over 32 bits of ordinal; the counters
  it is made from are wider and are cut to 32 bits as it is made. The clock is a parameter: one
  reading for each timestamp minted.
-/
import Mathlib.Data.Nat.Bitwise
import Secantus.Bson.Value
import Secantus.Library.SortedMap

namespace Secantus.Oplog

open Secantus

/-- `InFlight`: a run of minted sequences up to `stop`, and the timestamp of its first. -/
structure InFlight where
  stop : ℤ
  firstTs : ℕ
  deriving DecidableEq

structure OplogState where
  nextSeq : ℤ
  lastTsSecs : ℤ
  lastTsOrd : ℤ
  writtenSeq : ℤ
  doneRanges : SortedMap ℤ ℤ
  inFlight : SortedMap ℤ InFlight
  tsReserved : SortedMap ℕ ℤ

/-- The counters as a store opens with them: nothing in flight, everything written. -/
def OplogState.opened (nextSeq secs ord : ℤ) : OplogState :=
  ⟨nextSeq, secs, ord, nextSeq - 1, .empty, .empty, .empty⟩

/-- `as u32`. -/
def asU32 (n : ℤ) : UInt32 := UInt32.ofNat (n % 2 ^ 32).toNat

/-- `as u64`. -/
def asU64 (n : ℤ) : ℕ := (n % 2 ^ 64).toNat

/-- `ts_u64`: seconds high, increment low. -/
def tsU64 (t : Timestamp) : ℕ := t.time.toNat <<< 32 ||| t.increment.toNat

/-! ## Minting -/

/-- `mint_ts`, at the clock reading `now`. -/
def mintTs (st : OplogState) (now : ℤ) : OplogState × Timestamp :=
  let st :=
    if st.lastTsSecs < now then { st with lastTsSecs := now, lastTsOrd := 1 }
    else { st with lastTsOrd := st.lastTsOrd + 1 }
  (st, ⟨asU32 st.lastTsSecs, asU32 st.lastTsOrd⟩)

/-- A timestamp for each clock reading. -/
def mintAll (st : OplogState) : List ℤ → OplogState × List Timestamp
  | [] => (st, [])
  | now :: nows =>
    let (st, t) := mintTs st now
    let (st, ts) := mintAll st nows
    (st, t :: ts)

/-- `mint_seq_and_ts`: as many sequences as there are clock readings. -/
def mintSeqAndTs (st : OplogState) (nows : List ℤ) (track : Bool) : OplogState × ℤ × List Timestamp :=
  let start := st.nextSeq
  let (st, ts) := mintAll { st with nextSeq := start + nows.length } nows
  if track then
    let first := (ts.head?.map tsU64).getD 0
    ({ st with inFlight := st.inFlight.insert start ⟨start + nows.length, first⟩ }, start, ts)
  else (st, start, ts)

def reserveStamp (st : OplogState) (now : ℤ) : OplogState × ℕ :=
  let (st, t) := mintTs st now
  ({ st with tsReserved := st.tsReserved.insert (tsU64 t) st.nextSeq }, tsU64 t)

def releaseStamp (st : OplogState) (ts : ℕ) : OplogState :=
  { st with tsReserved := st.tsReserved.erase ts }

def deregisterInFlight (st : OplogState) (ranges : List (ℤ × ℤ)) : OplogState :=
  ranges.foldl (fun st r => { st with inFlight := st.inFlight.erase r.1 }) st

/-- The least of the first timestamps of `ranges` that are in flight (`commit_stamp`). -/
def firstMinted (st : OplogState) (ranges : List (ℤ × ℤ)) : Option ℕ :=
  (ranges.filterMap fun r => (st.inFlight.get r.1).map (·.firstTs)).min?

/-- `commit_stamp` in a timestamped store that is not replaying: the timestamp, and whether it is
    reserved. -/
def commitStamp (st : OplogState) (minted : List (ℤ × ℤ)) (now : ℤ) : OplogState × ℕ × Bool :=
  match firstMinted st minted with
  | some ts => (st, ts, false)
  | none =>
    let (st, ts) := reserveStamp st now
    (st, ts, true)

/-! ## The points -/

def visibleTail (st : OplogState) : ℤ :=
  match st.inFlight.first? with
  | some (start, _) => start - 1
  | none => st.nextSeq - 1

/-- `all_committed_ts_locked`. -/
def allCommittedTs (st : OplogState) : ℕ :=
  let minted := st.inFlight.first?.map (·.2.firstTs)
  let reserved := st.tsReserved.first?.map (·.1)
  match (minted.toList ++ reserved.toList).min? with
  | some first => first - 1
  | none => asU64 st.lastTsSecs <<< 32 % 2 ^ 64 ||| asU64 st.lastTsOrd

/-- `all_committed_seq_locked`. -/
def allCommittedSeq (st : OplogState) : ℤ :=
  match st.tsReserved.values.min? with
  | some floor => min (visibleTail st) (floor - 1)
  | none => visibleTail st

/-! ## What minting changes -/

@[simp] theorem mintTs_nextSeq (st : OplogState) (now : ℤ) : (mintTs st now).1.nextSeq = st.nextSeq := by
  unfold mintTs
  dsimp only
  split <;> rfl

@[simp] theorem mintTs_inFlight (st : OplogState) (now : ℤ) :
    (mintTs st now).1.inFlight = st.inFlight := by
  unfold mintTs
  dsimp only
  split <;> rfl

@[simp] theorem mintTs_tsReserved (st : OplogState) (now : ℤ) :
    (mintTs st now).1.tsReserved = st.tsReserved := by
  unfold mintTs
  dsimp only
  split <;> rfl

@[simp] theorem mintTs_writtenSeq (st : OplogState) (now : ℤ) :
    (mintTs st now).1.writtenSeq = st.writtenSeq := by
  unfold mintTs
  dsimp only
  split <;> rfl

@[simp] theorem mintTs_doneRanges (st : OplogState) (now : ℤ) :
    (mintTs st now).1.doneRanges = st.doneRanges := by
  unfold mintTs
  dsimp only
  split <;> rfl

/-- Minting timestamps leaves everything but the clock. -/
theorem mintAll_frame (nows : List ℤ) (st : OplogState) :
    (mintAll st nows).1.nextSeq = st.nextSeq ∧ (mintAll st nows).1.inFlight = st.inFlight ∧
      (mintAll st nows).1.tsReserved = st.tsReserved ∧
      (mintAll st nows).1.writtenSeq = st.writtenSeq ∧
      (mintAll st nows).1.doneRanges = st.doneRanges := by
  induction nows generalizing st with
  | nil => exact ⟨rfl, rfl, rfl, rfl, rfl⟩
  | cons now nows ih =>
    obtain ⟨h1, h2, h3, h4, h5⟩ := ih (mintTs st now).1
    refine ⟨?_, ?_, ?_, ?_, ?_⟩
    · exact h1.trans (mintTs_nextSeq st now)
    · exact h2.trans (mintTs_inFlight st now)
    · exact h3.trans (mintTs_tsReserved st now)
    · exact h4.trans (mintTs_writtenSeq st now)
    · exact h5.trans (mintTs_doneRanges st now)

theorem mintAll_length (nows : List ℤ) (st : OplogState) :
    (mintAll st nows).2.length = nows.length := by
  induction nows generalizing st with
  | nil => rfl
  | cons now nows ih => exact congrArg (· + 1) (ih (mintTs st now).1)

@[simp] theorem mintSeqAndTs_start (st : OplogState) (nows : List ℤ) (track : Bool) :
    (mintSeqAndTs st nows track).2.1 = st.nextSeq := by
  unfold mintSeqAndTs
  cases track <;> rfl

@[simp] theorem mintSeqAndTs_ts (st : OplogState) (nows : List ℤ) (track : Bool) :
    (mintSeqAndTs st nows track).2.2 =
      (mintAll { st with nextSeq := st.nextSeq + nows.length } nows).2 := by
  unfold mintSeqAndTs
  cases track <;> rfl

@[simp] theorem mintSeqAndTs_nextSeq (st : OplogState) (nows : List ℤ) (track : Bool) :
    (mintSeqAndTs st nows track).1.nextSeq = st.nextSeq + nows.length := by
  have h := (mintAll_frame nows { st with nextSeq := st.nextSeq + nows.length }).1
  unfold mintSeqAndTs
  cases track with
  | false => exact h
  | true => exact h

@[simp] theorem mintSeqAndTs_tsReserved (st : OplogState) (nows : List ℤ) (track : Bool) :
    (mintSeqAndTs st nows track).1.tsReserved = st.tsReserved := by
  have h := (mintAll_frame nows { st with nextSeq := st.nextSeq + nows.length }).2.2.1
  unfold mintSeqAndTs
  cases track with
  | false => exact h
  | true => exact h

@[simp] theorem mintSeqAndTs_writtenSeq (st : OplogState) (nows : List ℤ) (track : Bool) :
    (mintSeqAndTs st nows track).1.writtenSeq = st.writtenSeq := by
  have h := (mintAll_frame nows { st with nextSeq := st.nextSeq + nows.length }).2.2.2.1
  unfold mintSeqAndTs
  cases track with
  | false => exact h
  | true => exact h

@[simp] theorem mintSeqAndTs_doneRanges (st : OplogState) (nows : List ℤ) (track : Bool) :
    (mintSeqAndTs st nows track).1.doneRanges = st.doneRanges := by
  have h := (mintAll_frame nows { st with nextSeq := st.nextSeq + nows.length }).2.2.2.2
  unfold mintSeqAndTs
  cases track with
  | false => exact h
  | true => exact h

/-- An untracked mint leaves the window, a tracked one adds its run. -/
theorem mintSeqAndTs_inFlight (st : OplogState) (nows : List ℤ) (track : Bool) :
    (mintSeqAndTs st nows track).1.inFlight =
      if track then
        st.inFlight.insert st.nextSeq
          ⟨st.nextSeq + nows.length, ((mintSeqAndTs st nows track).2.2.head?.map tsU64).getD 0⟩
      else st.inFlight := by
  have h := (mintAll_frame nows { st with nextSeq := st.nextSeq + nows.length }).2.1
  unfold mintSeqAndTs
  cases track with
  | false => exact h
  | true =>
    simp only [if_true]
    rw [h]

theorem deregisterInFlight_get (ranges : List (ℤ × ℤ)) (st : OplogState) (k : ℤ) :
    (deregisterInFlight st ranges).inFlight.get k =
      if k ∈ ranges.map Prod.fst then none else st.inFlight.get k := by
  induction ranges generalizing st with
  | nil => simp [deregisterInFlight]
  | cons r ranges ih =>
    have hstep : deregisterInFlight st (r :: ranges) =
        deregisterInFlight { st with inFlight := st.inFlight.erase r.1 } ranges := rfl
    rw [hstep, ih, SortedMap.get_erase]
    by_cases hr : r.1 = k
    · simp [hr]
    · have hne : k ≠ r.1 := Ne.symm hr
      simp only [if_neg hr, List.map_cons, List.mem_cons, hne, false_or]

theorem deregisterInFlight_frame (ranges : List (ℤ × ℤ)) (st : OplogState) :
    (deregisterInFlight st ranges).nextSeq = st.nextSeq ∧
      (deregisterInFlight st ranges).lastTsSecs = st.lastTsSecs ∧
      (deregisterInFlight st ranges).lastTsOrd = st.lastTsOrd ∧
      (deregisterInFlight st ranges).tsReserved = st.tsReserved := by
  induction ranges generalizing st with
  | nil => exact ⟨rfl, rfl, rfl, rfl⟩
  | cons r ranges ih => exact ih { st with inFlight := st.inFlight.erase r.1 }

/-- A commit timestamp is minted without a sequence, and leaves the window. -/
theorem commitStamp_frame (st : OplogState) (minted : List (ℤ × ℤ)) (now : ℤ) :
    (commitStamp st minted now).1.nextSeq = st.nextSeq ∧
      (commitStamp st minted now).1.inFlight = st.inFlight := by
  unfold commitStamp
  split
  · exact ⟨rfl, rfl⟩
  · exact ⟨mintTs_nextSeq st now, mintTs_inFlight st now⟩

/-! ## The visible tail -/

/-- The tail is below every run in flight and below the next sequence, and no lower than it
    must be. -/
theorem le_visibleTail_iff (st : OplogState) (h : ∀ k r, st.inFlight.get k = some r → k < st.nextSeq)
    (q : ℤ) :
    q ≤ visibleTail st ↔ q < st.nextSeq ∧ ∀ k r, st.inFlight.get k = some r → q < k := by
  unfold visibleTail
  cases hf : st.inFlight.first? with
  | none =>
    have hnone := (SortedMap.first?_eq_none_iff _).mp hf
    constructor
    · intro hq
      refine ⟨by simp only at hq; omega, fun k r hk => ?_⟩
      rw [hnone k] at hk
      cases hk
    · rintro ⟨hq, -⟩
      simp only
      omega
  | some e =>
    obtain ⟨start, r⟩ := e
    obtain ⟨hget, hle⟩ := (SortedMap.first?_eq_some_iff _ _ _).mp hf
    have hlt := h start r hget
    constructor
    · intro hq
      simp only at hq
      refine ⟨by omega, fun k r' hk => ?_⟩
      have := hle k r' hk
      omega
    · rintro ⟨-, hq⟩
      have := hq start r hget
      simp only
      omega

end Secantus.Oplog
