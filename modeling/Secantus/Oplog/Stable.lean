/-
  The stable checkpoint point: `all_committed_seq` and `all_committed_ts` taken together.

  While every timestamp minted fits its 32 bits, a run in the window and a reservation each part the
  rows below them from the rows above, and the two points agree: every row up to the sequence is of an
  ended transaction and no later than the timestamp, for good, and every commit timestamp taken later
  is later than it (`stable_point_consistent`). Past the 32 bits they do not
  (`stable_point_ordinal_wraps`).
-/
import Secantus.Oplog.Shards
import Secantus.Oplog.Window

namespace Secantus.Oplog

open Secantus

/-! ## The rows, parted by the window and the reservations -/

structure Parted (s : Sync) : Prop where
  clocked : Clocked s.st
  rows : ∀ row ∈ s.entries, row.ts ≤ clock s.st
  minted : ∀ k r, s.st.inFlight.get k = some r → ∀ row ∈ s.entries, row.seq < k → row.ts < r.firstTs
  reserved : ∀ c floor, s.st.tsReserved.get c = some floor → ∀ row ∈ s.entries, row.seq < floor →
    row.ts < c
  floors : ∀ c floor, s.st.tsReserved.get c = some floor → floor ≤ s.st.nextSeq

/-- Runs and reservations may go and the clock move on. -/
theorem Parted.shrink {s s' : Sync} (h : Parted s) (hrange : InRange s'.st)
    (hclock : clock s.st ≤ clock s'.st) (hnext : s.st.nextSeq ≤ s'.st.nextSeq)
    (hflight : ∀ k r, s'.st.inFlight.get k = some r → s.st.inFlight.get k = some r)
    (hreserved : ∀ c floor, s'.st.tsReserved.get c = some floor → s.st.tsReserved.get c = some floor)
    (hentries : s'.entries = s.entries) : Parted s' where
  clocked :=
    { range := hrange
      minted := fun k r hk =>
        (h.clocked.minted k r (hflight k r hk)).imp_right fun hle => hle.trans hclock
      ascending := fun k r k' r' hk hk' =>
        h.clocked.ascending k r k' r' (hflight k r hk) (hflight k' r' hk')
      reserved := fun c floor hc =>
        (h.clocked.reserved c floor (hreserved c floor hc)).imp_right fun hle => hle.trans hclock }
  rows := by
    rw [hentries]
    exact fun row hrow => (h.rows row hrow).trans hclock
  minted := by
    rw [hentries]
    exact fun k r hk => h.minted k r (hflight k r hk)
  reserved := by
    rw [hentries]
    exact fun c floor hc => h.reserved c floor (hreserved c floor hc)
  floors := fun c floor hc => (h.floors c floor (hreserved c floor hc)).trans hnext

/-- The clock after a mint. -/
theorem mintSeqAndTs_clock {st : OplogState} {nows : List ℤ} (track : Bool) (h : InRange st)
    (hfits : ClockFits st.lastTsSecs st.lastTsOrd nows) :
    InRange (mintSeqAndTs st nows track).1 ∧ clock st ≤ clock (mintSeqAndTs st nows track).1 ∧
      ∀ t ∈ (mintSeqAndTs st nows track).2.2,
        clock st < tsU64 t ∧ tsU64 t ≤ clock (mintSeqAndTs st nows track).1 := by
  obtain ⟨h1, h2, h3⟩ := mintAll_clock nows { st with nextSeq := st.nextSeq + nows.length }
    ⟨h.1, h.2, h.3, h.4⟩ hfits
  cases track with
  | false => exact ⟨h1, h2, h3⟩
  | true => exact ⟨⟨h1.1, h1.2, h1.3, h1.4⟩, h2, h3⟩

/-- The timestamp of a run's first row is later than the clock was. -/
theorem mintSeqAndTs_first {st : OplogState} {nows : List ℤ} (h : InRange st)
    (hfits : ClockFits st.lastTsSecs st.lastTsOrd nows) (hne : nows ≠ []) :
    InRange (mintSeqAndTs st nows true).1 ∧ clock st ≤ clock (mintSeqAndTs st nows true).1 ∧
      clock st < ((mintSeqAndTs st nows true).2.2.head?.map tsU64).getD 0 ∧
      ((mintSeqAndTs st nows true).2.2.head?.map tsU64).getD 0 ≤
        clock (mintSeqAndTs st nows true).1 := by
  obtain ⟨hrange, hclock, hall⟩ := mintSeqAndTs_clock true h hfits
  refine ⟨hrange, hclock, ?_⟩
  cases hts : (mintSeqAndTs st nows true).2.2 with
  | nil =>
    have hlen : (mintSeqAndTs st nows true).2.2.length = nows.length := by
      rw [mintSeqAndTs_ts, mintAll_length]
    rw [hts] at hlen
    exact absurd (List.length_eq_zero_iff.mp hlen.symm) hne
  | cons t ts => exact hall t (hts ▸ List.mem_cons_self)

theorem Parted.mint {s : Sync} (h : Parted s) (hw : Window s) {t : ℕ} {nows : List ℤ}
    (hok : (s.txns t).Writing ∧ nows ≠ [])
    (hfits : ClockFits s.st.lastTsSecs s.st.lastTsOrd nows) : Parted (s.step (.mint t nows)) := by
  obtain ⟨hrange, hclock, hall⟩ := mintSeqAndTs_clock true h.clocked.range hfits
  obtain ⟨-, -, hlow, hhigh⟩ := mintSeqAndTs_first h.clocked.range hfits hok.2
  have hget := mintSeqAndTs_get s.st nows
  rw [Sync.step_mint hok]
  refine ⟨⟨hrange, ?_, ?_, ?_⟩, ?_, ?_, ?_, ?_⟩
  · intro k r hk
    rw [hget] at hk
    split at hk
    · obtain rfl := Option.some.inj hk
      exact ⟨by simp only; omega, hhigh⟩
    · exact (h.clocked.minted k r hk).imp_right fun hle => hle.trans hclock
  · intro k r k' r' hk hk' hlt
    rw [hget] at hk hk'
    split at hk
    · -- nothing in the window is above the new run
      split at hk'
      · omega
      · have := hw.keys k' r' hk'
        omega
    · split at hk'
      · obtain rfl := Option.some.inj hk'
        exact lt_of_le_of_lt (h.clocked.minted k r hk).2 hlow
      · exact h.clocked.ascending k r k' r' hk hk' hlt
  · intro c floor hc
    rw [mintSeqAndTs_tsReserved] at hc
    exact (h.clocked.reserved c floor hc).imp_right fun hle => hle.trans hclock
  · intro row hrow
    rcases List.mem_append.mp hrow with hrow | hrow
    · exact (h.rows row hrow).trans hclock
    · obtain ⟨-, -, -, t', ht', hts⟩ := mem_entriesOf hrow
      rw [hts]
      exact (hall t' ht').2
  · intro k r hk row hrow hlt
    rw [hget] at hk
    rcases List.mem_append.mp hrow with hrow | hrow
    · split at hk
      · obtain rfl := Option.some.inj hk
        exact lt_of_le_of_lt (h.rows row hrow) hlow
      · exact h.minted k r hk row hrow hlt
    · have hseq := (mem_entriesOf hrow).2.1
      split at hk
      · omega
      · have := hw.keys k r hk
        omega
  · intro c floor hc row hrow hlt
    rw [mintSeqAndTs_tsReserved] at hc
    rcases List.mem_append.mp hrow with hrow | hrow
    · exact h.reserved c floor hc row hrow hlt
    · have hseq := (mem_entriesOf hrow).2.1
      have := h.floors c floor hc
      omega
  · intro c floor hc
    rw [mintSeqAndTs_tsReserved] at hc
    have := h.floors c floor hc
    show floor ≤ (mintSeqAndTs s.st nows true).1.nextSeq
    rw [mintSeqAndTs_nextSeq]
    omega

/-- What reserving a timestamp does: the clock moves on to it, and its floor is the next sequence. -/
theorem reserveStamp_spec {st : OplogState} {now : ℤ} (h : InRange st)
    (hfits : ClockFits st.lastTsSecs st.lastTsOrd [now]) :
    InRange (reserveStamp st now).1 ∧ clock st < clock (reserveStamp st now).1 ∧
      (reserveStamp st now).2 = clock (reserveStamp st now).1 ∧
      ∀ c, (reserveStamp st now).1.tsReserved.get c =
        if clock (reserveStamp st now).1 = c then some st.nextSeq else st.tsReserved.get c := by
  obtain ⟨hrange, hclock, hts, -⟩ := mintTs_clock h hfits
  refine ⟨⟨hrange.1, hrange.2, hrange.3, hrange.4⟩, hclock, hts, fun c => ?_⟩
  show ((mintTs st now).1.tsReserved.insert (tsU64 (mintTs st now).2) (mintTs st now).1.nextSeq).get c = _
  rw [SortedMap.get_insert, hts, mintTs_tsReserved, mintTs_nextSeq]
  rfl

/-- A commit timestamp of a transaction that has minted nothing is reserved: every row is below its
    floor. -/
theorem Parted.reserve {s : Sync} (h : Parted s) {now : ℤ}
    (hfits : ClockFits s.st.lastTsSecs s.st.lastTsOrd [now]) (txns : ℕ → Txn) :
    Parted { s with st := (reserveStamp s.st now).1, txns := txns } := by
  obtain ⟨hrange, hclock, -, hget⟩ := reserveStamp_spec h.clocked.range hfits
  have hflight : (reserveStamp s.st now).1.inFlight = s.st.inFlight := mintTs_inFlight s.st now
  have hnext : (reserveStamp s.st now).1.nextSeq = s.st.nextSeq := mintTs_nextSeq s.st now
  refine ⟨⟨hrange, ?_, ?_, ?_⟩, ?_, ?_, ?_, ?_⟩
  · intro k r hk
    change (reserveStamp s.st now).1.inFlight.get k = some r at hk
    rw [hflight] at hk
    exact (h.clocked.minted k r hk).imp_right fun hle => hle.trans hclock.le
  · intro k r k' r' hk hk'
    change (reserveStamp s.st now).1.inFlight.get _ = some _ at hk hk'
    rw [hflight] at hk hk'
    exact h.clocked.ascending k r k' r' hk hk'
  · intro c floor hc
    rw [hget] at hc
    show 1 ≤ c ∧ c ≤ clock (reserveStamp s.st now).1
    split at hc
    · omega
    · have := h.clocked.reserved c floor hc
      omega
  · exact fun row hrow => (h.rows row hrow).trans hclock.le
  · intro k r hk
    change (reserveStamp s.st now).1.inFlight.get k = some r at hk
    rw [hflight] at hk
    exact h.minted k r hk
  · intro c floor hc row hrow hlt
    rw [hget] at hc
    split at hc
    · have := h.rows row hrow
      omega
    · exact h.reserved c floor hc row hrow hlt
  · intro c floor hc
    rw [hget] at hc
    show floor ≤ (reserveStamp s.st now).1.nextSeq
    rw [hnext]
    split at hc
    · exact le_of_eq (Option.some.inj hc).symm
    · exact h.floors c floor hc

/-- Every timestamp the event mints has seconds and an ordinal below `2 ^ 32`. -/
def StepFits (s : Sync) : Event → Prop
  | .mint t nows => (s.txns t).Writing → ClockFits s.st.lastTsSecs s.st.lastTsOrd nows
  | .prepare now => ClockFits s.st.lastTsSecs s.st.lastTsOrd [now]
  | .stamp t now => (s.txns t).Writing → firstMinted s.st (s.txns t).ranges = none →
      ClockFits s.st.lastTsSecs s.st.lastTsOrd [now]
  | _ => True

/-- `commit_stamp` takes the timestamp of the transaction's first mint, or reserves one. -/
theorem commitStamp_cases (st : OplogState) (minted : List (ℤ × ℤ)) (now : ℤ) :
    (∃ ts, firstMinted st minted = some ts ∧ commitStamp st minted now = (st, ts, false)) ∨
    (firstMinted st minted = none ∧
      commitStamp st minted now = ((reserveStamp st now).1, (reserveStamp st now).2, true)) := by
  unfold commitStamp
  cases hmin : firstMinted st minted with
  | none => exact Or.inr ⟨rfl, rfl⟩
  | some ts => exact Or.inl ⟨ts, rfl, rfl⟩

theorem Parted.step {s : Sync} (h : Parted s) (hw : Window s) {e : Event} (hfits : StepFits s e) :
    Parted (s.step e) := by
  have hsame : ∀ (txns : ℕ → Txn) (readers : ℕ → Reader),
      Parted { s with txns := txns, readers := readers } := fun _ _ =>
    h.shrink h.clocked.range le_rfl le_rfl (fun _ _ => id) (fun _ _ => id) rfl
  cases e with
  | mint t nows =>
    by_cases hok : (s.txns t).Writing ∧ nows ≠ []
    · exact h.mint hw hok (hfits hok.1)
    · simp only [Sync.step, if_neg hok]
      exact h
  | prepare now =>
    obtain ⟨hrange, hclock, -⟩ := mintSeqAndTs_clock false h.clocked.range hfits
    refine h.shrink hrange hclock ?_ (fun k r hk => ?_) (fun c floor hc => ?_) rfl
    · show s.st.nextSeq ≤ (mintSeqAndTs s.st [now] false).1.nextSeq
      rw [mintSeqAndTs_nextSeq]
      simp
    · exact (congrArg (·.get k) (mintSeqAndTs_inFlight s.st [now] false)).symm.trans hk
    · exact (congrArg (·.get c) (mintSeqAndTs_tsReserved s.st [now] false)).symm.trans hc
  | stamp t now =>
    by_cases hok : (s.txns t).Writing
    · simp only [Sync.step, if_pos hok]
      rcases commitStamp_cases s.st (s.txns t).ranges now with ⟨ts, -, heq⟩ | ⟨hnone, heq⟩
      · rw [heq]
        exact hsame _ _
      · rw [heq]
        exact h.reserve (hfits hok hnone) _
    · simp only [Sync.step, if_neg hok]
      exact h
  | finish t commit =>
    simp only [Sync.step]
    split
    · exact hsame _ _
    · exact h
  | deregister t =>
    simp only [Sync.step]
    split
    · exact h
    · obtain ⟨hnext, hsecs, hord, hreserved⟩ := deregisterInFlight_frame (s.txns t).ranges s.st
      have hclock : clock (deregisterInFlight s.st (s.txns t).ranges) = clock s.st := by
        unfold clock
        rw [hsecs, hord]
      obtain ⟨h1, h2, h3, h4⟩ := h.clocked.range
      refine h.shrink ?_ (le_of_eq hclock.symm) (le_of_eq hnext.symm) (fun k r hk => ?_)
        (fun c floor hc => ?_) rfl
      · exact ⟨hsecs ▸ h1, hsecs ▸ h2, hord ▸ h3, hord ▸ h4⟩
      · rw [deregisterInFlight_get] at hk
        split at hk
        · cases hk
        · exact hk
      · exact (congrArg (·.get c) hreserved).symm.trans hc
  | release t =>
    simp only [Sync.step]
    split
    · exact h
    · split
      · exact h
      · refine h.shrink ⟨h.clocked.range.1, h.clocked.range.2, h.clocked.range.3, h.clocked.range.4⟩
          le_rfl le_rfl (fun _ _ => id) (fun c floor hc => ?_) rfl
        change (SortedMap.erase _ _).get c = _ at hc
        rw [SortedMap.get_erase] at hc
        split at hc
        · cases hc
        · exact hc
  | takeTail r => exact hsame _ _
  | readBound r => exact hsame _ _
  | readRows r limit =>
    simp only [Sync.step]
    split
    · exact hsame _ _
    · exact h

/-! ## Commit timestamps -/

structure Stamped (s : Sync) : Prop where
  held : ∀ t, (s.txns t).phase = .running → ∀ c, (s.txns t).stamp = some c →
    (∃ r ∈ (s.txns t).ranges, ∃ x, s.st.inFlight.get r.1 = some x ∧ x.firstTs = c) ∨
    ((s.txns t).reserved = some c ∧ ∃ floor, s.st.tsReserved.get c = some floor)
  le : ∀ t c, (s.txns t).reserved = some c → c ≤ clock s.st
  apart : ∀ t u c, (s.txns t).reserved = some c → (s.txns u).reserved = some c → t = u

/-- The stamp of a running transaction is later than the timestamp of the point. -/
theorem Stamped.lt_stamp {s : Sync} (h : Stamped s) (hp : Parted s) {t c : ℕ}
    (hrun : (s.txns t).phase = .running) (hc : (s.txns t).stamp = some c) :
    allCommittedTs s.st < c := by
  obtain ⟨-, hflight, hreserved⟩ := (hp.clocked.le_allCommittedTs_iff _).mp le_rfl
  rcases h.held t hrun c hc with ⟨r, -, x, hx, rfl⟩ | ⟨-, floor, hfloor⟩
  · exact hflight r.1 x hx
  · exact hreserved c floor hfloor

/-- A transaction after an event, as far as its stamp goes: it ran with this stamp before, and what
    holds the stamp is still there. -/
structure Kept (s s' : Sync) (t : ℕ) : Prop where
  running : (s.txns t).phase = .running
  stamp : (s'.txns t).stamp = (s.txns t).stamp
  ranges : ∀ r ∈ (s.txns t).ranges, r ∈ (s'.txns t).ranges ∧
    ∀ x, s.st.inFlight.get r.1 = some x → s'.st.inFlight.get r.1 = some x
  reserved : (s'.txns t).reserved = (s.txns t).reserved ∧
    ∀ c floor, (s.txns t).reserved = some c → s.st.tsReserved.get c = some floor →
      s'.st.tsReserved.get c = some floor

theorem Kept.held {s s' : Sync} {t c : ℕ} (hk : Kept s s' t) (h : Stamped s)
    (hc : (s'.txns t).stamp = some c) :
    (∃ r ∈ (s'.txns t).ranges, ∃ x, s'.st.inFlight.get r.1 = some x ∧ x.firstTs = c) ∨
    ((s'.txns t).reserved = some c ∧ ∃ floor, s'.st.tsReserved.get c = some floor) := by
  rw [hk.stamp] at hc
  rcases h.held t hk.running c hc with ⟨r, hr, x, hx, hts⟩ | ⟨hres, floor, hfloor⟩
  · obtain ⟨hr', hget⟩ := hk.ranges r hr
    exact Or.inl ⟨r, hr', x, hget x hx, hts⟩
  · exact Or.inr ⟨hk.reserved.1.trans hres, floor, hk.reserved.2 c floor hres hfloor⟩

theorem Stamped.keep {s s' : Sync} (h : Stamped s) (hclock : clock s.st ≤ clock s'.st)
    (hreserved : ∀ t c, (s'.txns t).reserved = some c → (s.txns t).reserved = some c)
    (hkept : ∀ t, (s'.txns t).phase = .running → (s'.txns t).stamp ≠ none → Kept s s' t) :
    Stamped s' where
  held := fun t hrun _ hc => (hkept t hrun (hc ▸ Option.some_ne_none _)).held h hc
  le := fun t c hc => (h.le t c (hreserved t c hc)).trans hclock
  apart := fun t u c ht hu => h.apart t u c (hreserved t c ht) (hreserved u c hu)

/-- Only the transaction `t` is rewritten: it keeps or gives up its reservation, and is not running
    with a stamp unless it was. -/
theorem Stamped.retag {s : Sync} (h : Stamped s) {t : ℕ} {txn : Txn} {st : OplogState}
    (hclock : clock s.st ≤ clock st)
    (hflight : ∀ u, u ≠ t → (s.txns u).phase = .running → ∀ r ∈ (s.txns u).ranges, ∀ x,
      s.st.inFlight.get r.1 = some x → st.inFlight.get r.1 = some x)
    (hres : ∀ u, u ≠ t → ∀ c floor, (s.txns u).reserved = some c →
      s.st.tsReserved.get c = some floor → st.tsReserved.get c = some floor)
    (hreserved : ∀ c, txn.reserved = some c → (s.txns t).reserved = some c)
    (htxn : txn.phase = .running → txn.stamp = none) (entries : List Entry) :
    Stamped { s with st := st, txns := Function.update s.txns t txn, entries := entries } := by
  refine h.keep hclock (fun u c hc => ?_) (fun u hrun hstamp => ?_)
  · change (Function.update s.txns t txn u).reserved = some c at hc
    by_cases hu : u = t
    · rw [hu, Function.update_self] at hc
      exact hu ▸ hreserved c hc
    · rwa [Function.update_of_ne hu] at hc
  · change (Function.update s.txns t txn u).phase = .running at hrun
    change (Function.update s.txns t txn u).stamp ≠ none at hstamp
    have hu : u ≠ t := by
      intro hu
      rw [hu, Function.update_self] at hrun hstamp
      exact hstamp (htxn hrun)
    rw [Function.update_of_ne hu] at hrun
    have hupdate : Function.update s.txns t txn u = s.txns u := Function.update_of_ne hu ..
    refine ⟨hrun, ?_, fun r hr => ⟨?_, hflight u hu hrun r hr⟩, ?_, hres u hu⟩
    · exact congrArg Txn.stamp hupdate
    · exact (congrArg Txn.ranges hupdate).symm ▸ hr
    · exact congrArg Txn.reserved hupdate

theorem firstMinted_mem {st : OplogState} {minted : List (ℤ × ℤ)} {ts : ℕ}
    (h : firstMinted st minted = some ts) :
    ∃ r ∈ minted, ∃ x, st.inFlight.get r.1 = some x ∧ x.firstTs = ts := by
  obtain ⟨r, hr, hts⟩ := List.mem_filterMap.mp (List.min?_eq_some_iff.mp h).1
  obtain ⟨x, hx, rfl⟩ := Option.map_eq_some_iff.mp hts
  exact ⟨r, hr, x, hx, rfl⟩

theorem Stamped.stamp {s : Sync} (h : Stamped s) (hp : Parted s) {t : ℕ} {now : ℤ}
    (hfits : StepFits s (.stamp t now)) : Stamped (s.step (.stamp t now)) := by
  by_cases hok : (s.txns t).Writing
  · simp only [Sync.step, if_pos hok]
    rcases commitStamp_cases s.st (s.txns t).ranges now with ⟨ts, hts, heq⟩ | ⟨hnone, heq⟩
    · rw [heq]
      refine ⟨fun u hrun c hc => ?_, fun u c hc => ?_, fun u v c hu hv => ?_⟩
      · by_cases hu : u = t
        · simp only [hu, Function.update_self] at hc ⊢
          obtain rfl := Option.some.inj hc
          exact Or.inl (firstMinted_mem hts)
        · simp only [Function.update_of_ne hu] at hrun hc ⊢
          exact h.held u hrun c hc
      · by_cases hu : u = t
        · simp [hu] at hc
        · simp only [Function.update_of_ne hu] at hc
          exact h.le u c hc
      · have hut : u ≠ t := fun hut => by simp [hut] at hu
        have hvt : v ≠ t := fun hvt => by simp [hvt] at hv
        simp only [Function.update_of_ne hut, Function.update_of_ne hvt] at hu hv
        exact h.apart u v c hu hv
    · rw [heq]
      -- the reserved timestamp is later than every other
      obtain ⟨-, hlater, hnew, hget⟩ := reserveStamp_spec hp.clocked.range (hfits hok hnone)
      have hflight : (reserveStamp s.st now).1.inFlight = s.st.inFlight := mintTs_inFlight s.st now
      refine ⟨fun u hrun c hc => ?_, fun u c hc => ?_, fun u v c hu hv => ?_⟩
      · by_cases hu : u = t
        · simp only [hu, Function.update_self, if_true] at hc ⊢
          refine Or.inr ⟨hc, s.st.nextSeq, ?_⟩
          rw [hget, if_pos (hnew.symm.trans (Option.some.inj hc))]
        · simp only [Function.update_of_ne hu] at hrun hc ⊢
          rw [hflight]
          refine (h.held u hrun c hc).imp_right fun hheld => ?_
          obtain ⟨hres, floor, hfloor⟩ := hheld
          refine ⟨hres, floor, ?_⟩
          have := h.le u c hres
          rw [hget, if_neg (by omega), hfloor]
      · by_cases hu : u = t
        · simp only [hu, Function.update_self, if_true] at hc
          exact le_of_eq ((Option.some.inj hc).symm.trans hnew)
        · simp only [Function.update_of_ne hu] at hc
          exact (h.le u c hc).trans hlater.le
      · have hold : ∀ w, w ≠ t → (s.txns w).reserved = some c → c < clock (reserveStamp s.st now).1 :=
          fun w _ hw => lt_of_le_of_lt (h.le w c hw) hlater
        by_cases hut : u = t
        · by_cases hvt : v = t
          · rw [hut, hvt]
          · simp only [hut, Function.update_self, if_true] at hu
            simp only [Function.update_of_ne hvt] at hv
            have := hold v hvt hv
            have := Option.some.inj hu
            omega
        · by_cases hvt : v = t
          · simp only [hvt, Function.update_self, if_true] at hv
            simp only [Function.update_of_ne hut] at hu
            have := hold u hut hu
            have := Option.some.inj hv
            omega
          · simp only [Function.update_of_ne hut, Function.update_of_ne hvt] at hu hv
            exact h.apart u v c hu hv
  · simp only [Sync.step, if_neg hok]
    exact h

theorem Stamped.step {s : Sync} (h : Stamped s) (hw : Window s) (hp : Parted s) {e : Event}
    (hfits : StepFits s e) : Stamped (s.step e) := by
  have hreaders : ∀ readers : ℕ → Reader, Stamped { s with readers := readers } :=
    fun _ => ⟨h.held, h.le, h.apart⟩
  cases e with
  | mint t nows =>
    by_cases hok : (s.txns t).Writing ∧ nows ≠ []
    · obtain ⟨-, hclock, -⟩ := mintSeqAndTs_clock true hp.clocked.range (hfits hok.1)
      rw [Sync.step_mint hok]
      refine h.retag hclock ?_ ?_ ?_ ?_ _
      · intro u _ _ r hr x hx
        have := hw.keys r.1 x hx
        rw [mintSeqAndTs_get, if_neg (by omega), hx]
      · intro u _ c floor _ hc
        rw [mintSeqAndTs_tsReserved, hc]
      · exact fun _ => id
      · exact fun _ => hok.1.2
    · simp only [Sync.step, if_neg hok]
      exact h
  | prepare now =>
    obtain ⟨-, hclock, -⟩ := mintSeqAndTs_clock false hp.clocked.range hfits
    refine h.keep hclock (fun _ _ => id) (fun u hrun _ => ⟨hrun, rfl, fun r hr => ⟨hr, ?_⟩, rfl, ?_⟩)
    · intro x hx
      exact (congrArg (·.get r.1) (mintSeqAndTs_inFlight s.st [now] false)).trans hx
    · intro c floor _ hc
      exact (congrArg (·.get c) (mintSeqAndTs_tsReserved s.st [now] false)).trans hc
  | stamp t now => exact h.stamp hp hfits
  | finish t commit =>
    simp only [Sync.step]
    split
    · refine h.retag le_rfl (fun _ _ _ _ _ _ => id) (fun _ _ _ _ _ => id) ?_ ?_ _
      · exact fun _ => id
      · cases commit <;> simp
    · exact h
  | deregister t =>
    by_cases hrun : (s.txns t).phase = .running
    · simp only [Sync.step, if_pos hrun]
      exact h
    · obtain ⟨-, hsecs, hord, hreserved⟩ := deregisterInFlight_frame (s.txns t).ranges s.st
      simp only [Sync.step, if_neg hrun]
      refine h.retag (le_of_eq ?_) ?_ ?_ ?_ ?_ _
      · unfold clock
        rw [hsecs, hord]
      · intro u hu _ r hr x hx
        rw [deregisterInFlight_get, if_neg, hx]
        intro hmem
        obtain ⟨r', hr', heq⟩ := List.mem_map.mp hmem
        exact hu (hw.apart u t r hr r' hr' heq.symm)
      · intro u _ c floor _ hc
        rw [hreserved, hc]
      · exact fun _ => id
      · exact fun hrun' => absurd hrun' hrun
  | release t =>
    simp only [Sync.step]
    split
    · exact h
    · rename_i ts hts
      split
      · exact h
      · rename_i hrun
        refine h.retag ?_ ?_ ?_ ?_ ?_ _
        · exact le_rfl
        · exact fun _ _ _ _ _ _ => id
        · intro u hu c floor hres hc
          have hne : ts ≠ c := fun heq => hu (h.apart u t c hres (heq ▸ hts))
          show (SortedMap.erase s.st.tsReserved ts).get c = some floor
          rw [SortedMap.get_erase, if_neg hne, hc]
        · exact fun c hc => absurd hc (Option.some_ne_none c).symm
        · exact fun hrun' => absurd hrun' hrun
  | takeTail r => exact hreaders _
  | readBound r => exact hreaders _
  | readRows r limit =>
    simp only [Sync.step]
    split
    · exact hreaders _
    · exact h

/-! ## The point over a run -/

/-- The clock does not go back, and what an event adds to the window or reserves is later than it. -/
theorem Parted.step_later {s : Sync} (h : Parted s) {e : Event} (hfits : StepFits s e) :
    clock s.st ≤ clock (s.step e).st ∧
    (∀ k r, (s.step e).st.inFlight.get k = some r →
      s.st.inFlight.get k = some r ∨ clock s.st < r.firstTs) ∧
    (∀ c floor, (s.step e).st.tsReserved.get c = some floor →
      s.st.tsReserved.get c = some floor ∨ clock s.st < c) := by
  have hself : clock s.st ≤ clock s.st ∧
      (∀ k r, s.st.inFlight.get k = some r → s.st.inFlight.get k = some r ∨ clock s.st < r.firstTs) ∧
      (∀ c floor, s.st.tsReserved.get c = some floor →
        s.st.tsReserved.get c = some floor ∨ clock s.st < c) :=
    ⟨le_rfl, fun _ _ => Or.inl, fun _ _ => Or.inl⟩
  cases e with
  | mint t nows =>
    by_cases hok : (s.txns t).Writing ∧ nows ≠ []
    · obtain ⟨-, hclock, hfirst⟩ := mintSeqAndTs_first h.clocked.range (hfits hok.1) hok.2
      rw [Sync.step_mint hok]
      refine ⟨hclock, fun k r hk => ?_, fun c floor hc => Or.inl ?_⟩
      · rw [mintSeqAndTs_get] at hk
        split at hk
        · obtain rfl := Option.some.inj hk
          exact Or.inr hfirst.1
        · exact Or.inl hk
      · rwa [mintSeqAndTs_tsReserved] at hc
    · simp only [Sync.step, if_neg hok]
      exact hself
  | prepare now =>
    obtain ⟨-, hclock, -⟩ := mintSeqAndTs_clock false h.clocked.range hfits
    refine ⟨hclock, fun k r hk => Or.inl ?_, fun c floor hc => Or.inl ?_⟩
    · exact (congrArg (·.get k) (mintSeqAndTs_inFlight s.st [now] false)).symm.trans hk
    · exact (congrArg (·.get c) (mintSeqAndTs_tsReserved s.st [now] false)).symm.trans hc
  | stamp t now =>
    by_cases hok : (s.txns t).Writing
    · simp only [Sync.step, if_pos hok]
      rcases commitStamp_cases s.st (s.txns t).ranges now with ⟨ts, -, heq⟩ | ⟨hnone, heq⟩
      · rw [heq]
        exact hself
      · obtain ⟨-, hlater, -, hget⟩ := reserveStamp_spec h.clocked.range (hfits hok hnone)
        rw [heq]
        refine ⟨hlater.le, fun k r hk => Or.inl ?_, fun c floor hc => ?_⟩
        · exact (congrArg (·.get k) (mintTs_inFlight s.st now)).symm.trans hk
        · rw [hget] at hc
          split at hc
          · exact Or.inr (by omega)
          · exact Or.inl hc
    · simp only [Sync.step, if_neg hok]
      exact hself
  | finish t commit =>
    simp only [Sync.step]
    split <;> exact hself
  | deregister t =>
    simp only [Sync.step]
    split
    · exact hself
    · obtain ⟨-, hsecs, hord, hreserved⟩ := deregisterInFlight_frame (s.txns t).ranges s.st
      refine ⟨le_of_eq ?_, fun k r hk => Or.inl ?_, fun c floor hc => Or.inl ?_⟩
      · unfold clock
        rw [hsecs, hord]
      · rw [deregisterInFlight_get] at hk
        split at hk
        · cases hk
        · exact hk
      · rwa [hreserved] at hc
  | release t =>
    simp only [Sync.step]
    split
    · exact hself
    · split
      · exact hself
      · refine ⟨le_rfl, fun _ _ => Or.inl, fun c floor hc => Or.inl ?_⟩
        change (SortedMap.erase _ _).get c = _ at hc
        rw [SortedMap.get_erase] at hc
        split at hc
        · cases hc
        · exact hc
  | takeTail r => exact hself
  | readBound r => exact hself
  | readRows r limit =>
    simp only [Sync.step]
    split <;> exact hself

theorem Parted.allCommittedTs_le_step {s : Sync} (h : Parted s) (hw : Window s) {e : Event}
    (hfits : StepFits s e) : allCommittedTs s.st ≤ allCommittedTs (s.step e).st := by
  obtain ⟨hle, hflight, hreserved⟩ := (h.clocked.le_allCommittedTs_iff _).mp le_rfl
  obtain ⟨hclock, hflight', hreserved'⟩ := h.step_later hfits
  refine ((h.step hw hfits).clocked.le_allCommittedTs_iff _).mpr ⟨hle.trans hclock, ?_, ?_⟩
  · intro k r hk
    exact (hflight' k r hk).elim (hflight k r) hle.trans_lt
  · intro c floor hc
    exact (hreserved' c floor hc).elim (hreserved c floor) hle.trans_lt

/-- The rows up to the sequence are no later than the timestamp. -/
theorem Parted.ts_le {s : Sync} (h : Parted s) {row : Entry} (hrow : row ∈ s.entries)
    (hw : Window s) (hseq : row.seq ≤ allCommittedSeq s.st) : row.ts ≤ allCommittedTs s.st := by
  obtain ⟨htail, hfloor⟩ := (le_allCommittedSeq_iff s.st _).mp hseq
  obtain ⟨-, hflight⟩ := (le_visibleTail_iff s.st hw.keys _).mp htail
  refine (h.clocked.le_allCommittedTs_iff _).mpr ⟨h.rows row hrow, ?_, ?_⟩
  · exact fun k r hk => h.minted k r hk row hrow (hflight k r hk)
  · exact fun c floor hc => h.reserved c floor hc row hrow (hfloor c floor hc)

theorem step_stamp (s : Sync) (e : Event) (t : ℕ) :
    ((s.step e).txns t).stamp = (s.txns t).stamp ∨ ((s.step e).txns t).phase = .running :=
  (step_txn s e t).elim (fun h => Or.inl h.1) And.right

structure Sound (s : Sync) : Prop where
  window : Window s
  parted : Parted s
  stamped : Stamped s

theorem Sound.step {s : Sync} (h : Sound s) {e : Event} (hfits : StepFits s e) : Sound (s.step e) where
  window := h.window.step e
  parted := h.parted.step h.window hfits
  stamped := h.stamped.step h.window h.parted hfits

theorem sound_opened (nextSeq secs ord : ℤ) (starts : ℕ → ℤ)
    (h : InRange (.opened nextSeq secs ord)) : Sound (.opened nextSeq secs ord starts) where
  window := window_opened nextSeq secs ord starts
  parted :=
    { clocked :=
        { range := h
          minted := fun _ _ hk => nomatch hk
          ascending := fun _ _ _ _ hk => nomatch hk
          reserved := fun _ _ hc => nomatch hc }
      rows := fun _ hrow => absurd hrow List.not_mem_nil
      minted := fun _ _ hk => nomatch hk
      reserved := fun _ _ hc => nomatch hc
      floors := fun _ _ hc => nomatch hc }
  stamped :=
    { held := fun _ _ _ hc => nomatch hc
      le := fun _ _ hc => nomatch hc
      apart := fun _ _ _ hc => nomatch hc }

/-- The point taken in `s` is right in the later state `s'`: the rows up to its sequence were there,
    of ended transactions and no later than its timestamp, and a transaction that had not ended has
    no commit timestamp at or below it. -/
def StablePoint (s s' : Sync) : Prop :=
  (∀ row ∈ s'.entries, row.seq ≤ allCommittedSeq s.st →
    row ∈ s.entries ∧ row.ts ≤ allCommittedTs s.st ∧ s.Ended row.owner) ∧
  (∀ t c, ¬ s.Ended t → (s'.txns t).stamp = some c → allCommittedTs s.st < c)

theorem run_adds_above (events : List Event) (s : Sync) :
    ∀ row ∈ (s.run events).entries, row ∈ s.entries ∨ s.st.nextSeq ≤ row.seq := by
  induction events generalizing s with
  | nil => exact fun _ => Or.inl
  | cons e events ih =>
    intro row hrow
    obtain ⟨hnext, -, hadds⟩ := step_adds_above s e
    rcases ih (s.step e) row hrow with hrow | hle
    · exact hadds row hrow
    · exact Or.inr (hnext.trans hle)

theorem Sound.lt_stamp_run {s : Sync} (h : Sound s) (events : List Event)
    (hfits : Library.StepsMeet Sync.step StepFits s events) {t c : ℕ} (ht : ¬ s.Ended t)
    (hc : ((s.run events).txns t).stamp = some c) : allCommittedTs s.st < c := by
  have hrun := Library.run_invariant_of_meets Sync.step
    (P := fun s' => Sound s' ∧ allCommittedTs s.st ≤ allCommittedTs s'.st ∧
      ∀ c, (s'.txns t).stamp = some c → allCommittedTs s.st < c)
    (fun s' e hfit ⟨hs, hle, hstamp⟩ => ?_) events s hfits ⟨h, le_rfl, fun c hc => ?_⟩
  · exact hrun.2.2 c hc
  · have hle' := hle.trans (hs.parted.allCommittedTs_le_step hs.window hfit)
    refine ⟨hs.step hfit, hle', fun c hc => ?_⟩
    rcases step_stamp s' e t with heq | hrunning
    · exact hstamp c (heq ▸ hc)
    · exact hle'.trans_lt ((hs.step hfit).stamped.lt_stamp (hs.step hfit).parted hrunning hc)
  · exact h.stamped.lt_stamp h.parted (not_not.mp ht) hc

/-- While every timestamp minted fits its 32 bits, the point is right, then and ever after. -/
theorem stable_point_consistent (nextSeq secs ord : ℤ) (starts : ℕ → ℤ) (events events' : List Event)
    (hopen : InRange (.opened nextSeq secs ord))
    (hfits : Library.StepsMeet Sync.step StepFits (.opened nextSeq secs ord starts)
      (events ++ events')) :
    let s := (Sync.opened nextSeq secs ord starts).run events
    StablePoint s (s.run events') := by
  intro s
  obtain ⟨hbefore, hafter⟩ := (Library.stepsMeet_append Sync.step StepFits _ _ _).mp hfits
  have hs : Sound s := Library.run_invariant_of_meets Sync.step (fun _ _ hfit h => h.step hfit)
    events _ hbefore (sound_opened nextSeq secs ord starts hopen)
  refine ⟨fun row hrow hseq => ?_, fun t c ht hc => hs.lt_stamp_run events' hafter ht hc⟩
  have htail := ((le_allCommittedSeq_iff s.st _).mp hseq).1
  have hold : row ∈ s.entries := by
    rcases run_adds_above events' s row hrow with hold | hnew
    · exact hold
    · have := ((le_visibleTail_iff s.st hs.window.keys _).mp htail).1
      omega
  exact ⟨hold, hs.parted.ts_le hold hs.window hseq, hs.window.ended hold htail⟩

/-- Two transactions in one second, and the first commits. -/
theorem stable_point_consistent_one_second :
    let s := (Sync.opened 1 5 0 fun _ => 1).run [.mint 0 [5], .mint 1 [5, 5], .finish 0 true]
    InRange (.opened 1 5 0) ∧ StablePoint s (s.run [.deregister 0, .finish 1 true]) := by
  have hopen : InRange (.opened 1 5 0) := ⟨by decide, by decide, by decide, by decide⟩
  refine ⟨hopen, stable_point_consistent 1 5 0 (fun _ => 1) _ _ hopen ?_⟩
  refine ⟨fun _ => ?_, fun _ => ?_, trivial, trivial, trivial, trivial⟩
  · decide
  · decide

/-- The ordinal wraps at `2 ^ 32`: the second transaction's timestamp is earlier than the first's, and
    while it is in flight the point has the first's row but not its timestamp. -/
theorem stable_point_ordinal_wraps :
    let s := (Sync.opened 1 5 (2 ^ 32 - 2) fun _ => 1).run
      [.mint 0 [5], .mint 1 [5], .finish 0 true, .deregister 0]
    ¬ StablePoint s s := by
  intro s h
  have hrow := (h.1 ⟨1, 25769803775, 0⟩ (by decide) (by decide)).2.1
  exact absurd hrow (by decide)

/-! ## The order of the timestamps -/

theorem mintAll_ascending (nows : List ℤ) (st : OplogState) (h : InRange st)
    (hfits : ClockFits st.lastTsSecs st.lastTsOrd nows) :
    (mintAll st nows).2.Pairwise fun t t' => tsU64 t < tsU64 t' := by
  induction nows generalizing st with
  | nil => exact List.Pairwise.nil
  | cons now nows ih =>
    obtain ⟨hrange, -, hts, hrest⟩ := mintTs_clock h hfits
    refine List.Pairwise.cons (fun t ht => ?_) (ih (mintTs st now).1 hrange hrest)
    show tsU64 (mintTs st now).2 < tsU64 t
    rw [hts]
    exact ((mintAll_clock nows (mintTs st now).1 hrange hrest).2.2 t ht).1

theorem entriesOf_later (owner : ℕ) {ts : List Timestamp} (h : ts.Pairwise fun t t' => tsU64 t < tsU64 t') (q : ℤ) :
    (entriesOf owner q ts).Pairwise (·.ts < ·.ts) := by
  induction ts generalizing q with
  | nil => exact List.Pairwise.nil
  | cons t ts ih =>
    obtain ⟨hfirst, hrest⟩ := List.pairwise_cons.mp h
    refine List.Pairwise.cons (fun e he => ?_) (ih hrest (q + 1))
    obtain ⟨-, -, -, t', ht', hts⟩ := mem_entriesOf he
    rw [hts]
    exact hfirst t' ht'

/-- A mint's timestamps are later than those of every row before it. -/
theorem Sound.later_step {s : Sync} (h : Sound s) {e : Event} (hfits : StepFits s e)
    (hlater : s.entries.Pairwise (·.ts < ·.ts)) : (s.step e).entries.Pairwise (·.ts < ·.ts) := by
  cases e with
  | mint t nows =>
    by_cases hok : (s.txns t).Writing ∧ nows ≠ []
    · obtain ⟨-, -, hall⟩ := mintSeqAndTs_clock true h.parted.clocked.range (hfits hok.1)
      rw [Sync.step_mint hok]
      refine List.pairwise_append.mpr ⟨hlater, entriesOf_later t ?_ _, fun row hrow row' hrow' => ?_⟩
      · rw [mintSeqAndTs_ts]
        exact mintAll_ascending nows _ ⟨h.parted.clocked.range.1, h.parted.clocked.range.2,
          h.parted.clocked.range.3, h.parted.clocked.range.4⟩ (hfits hok.1)
      · obtain ⟨-, -, -, t', ht', hts⟩ := mem_entriesOf hrow'
        rw [hts]
        exact (h.parted.rows row hrow).trans_lt (hall t' ht').1
    · simp only [Sync.step, if_neg hok]
      exact hlater
  | prepare now | takeTail r | readBound r => exact hlater
  | stamp t now | finish t commit | deregister t =>
    simp only [Sync.step]
    split <;> exact hlater
  | release t =>
    simp only [Sync.step]
    split
    · exact hlater
    · split <;> exact hlater
  | readRows r limit =>
    simp only [Sync.step]
    split <;> exact hlater

/-- While every timestamp minted fits its 32 bits, the rows written, and those that any call of `read_oplog` returns,
    have their timestamps in the order of their sequences, no two the same. -/
theorem ts_in_seq_order (nextSeq secs ord : ℤ) (starts : ℕ → ℤ) (events : List Event)
    (hopen : InRange (.opened nextSeq secs ord))
    (hfits : Library.StepsMeet Sync.step StepFits (.opened nextSeq secs ord starts) events) :
    let s := (Sync.opened nextSeq secs ord starts).run events
    s.entries.Pairwise (fun a b => a.seq < b.seq ∧ a.ts < b.ts) ∧
      ∀ start limit maxSeq,
        (readOplog s.visible start limit maxSeq).Pairwise fun a b => a.seq < b.seq ∧ a.ts < b.ts := by
  intro s
  have hs : Sound s ∧ s.entries.Pairwise (·.ts < ·.ts) := Library.run_invariant_of_meets Sync.step
    (P := fun s => Sound s ∧ s.entries.Pairwise fun a b : Entry => a.ts < b.ts)
    (fun _ _ hfit h => ⟨h.1.step hfit, h.1.later_step hfit h.2⟩) events _ hfits
    ⟨sound_opened nextSeq secs ord starts hopen, List.Pairwise.nil⟩
  have hrows := hs.1.window.ascending.and hs.2
  refine ⟨hrows, fun start limit maxSeq => ?_⟩
  unfold readOplog
  split
  · exact List.Pairwise.nil
  · refine hrows.sublist ((List.takeWhile_sublist _).trans ((List.take_sublist _ _).trans ?_))
    exact List.filter_sublist.trans List.filter_sublist

theorem ts_in_seq_order_two :
    let s := (Sync.opened 1 5 0 fun _ => 1).run [.mint 0 [5, 4], .finish 0 true]
    s.entries.Pairwise (fun a b => a.seq < b.seq ∧ a.ts < b.ts) ∧
      ∀ start limit maxSeq,
        (readOplog s.visible start limit maxSeq).Pairwise fun a b => a.seq < b.seq ∧ a.ts < b.ts := by
  refine ts_in_seq_order 1 5 0 (fun _ => 1) _ ⟨by decide, by decide, by decide, by decide⟩ ⟨fun _ => ?_, trivial, trivial⟩
  decide

end Secantus.Oplog
