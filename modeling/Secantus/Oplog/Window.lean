/-
  The in-flight window of the synchronous oplog: nothing at or below a visible tail commits after
  the tail was given, so a reader that follows the tails misses no row.

  `Window` is what every event keeps: a running transaction's runs are in the window, its rows are
  in its runs, and no two transactions hold a run at one start. A row at or below the tail is then
  of a transaction that has ended, and a row not written yet is above it.
-/
import Secantus.Library.Merge
import Secantus.Oplog.Routing

namespace Secantus.Oplog

open Secantus

structure Window (s : Sync) : Prop where
  ascending : s.entries.Pairwise (·.seq < ·.seq)
  minted : ∀ e ∈ s.entries, e.seq < s.st.nextSeq
  keys : ∀ k r, s.st.inFlight.get k = some r → k < s.st.nextSeq
  starts : ∀ t, ∀ r ∈ (s.txns t).ranges, r.1 < s.st.nextSeq
  held : ∀ t, (s.txns t).phase = .running → ∀ r ∈ (s.txns t).ranges,
    ∃ ts, s.st.inFlight.get r.1 = some ⟨r.2, ts⟩
  covered : ∀ e ∈ s.entries, (s.txns e.owner).phase = .running →
    ∃ r ∈ (s.txns e.owner).ranges, r.1 ≤ e.seq ∧ e.seq < r.2
  apart : ∀ t u, ∀ r ∈ (s.txns t).ranges, ∀ r' ∈ (s.txns u).ranges, r.1 = r'.1 → t = u

theorem window_opened (nextSeq secs ord : ℤ) (starts : ℕ → ℤ) :
    Window (Sync.opened nextSeq secs ord starts) where
  ascending := List.Pairwise.nil
  minted := fun _ he => absurd he List.not_mem_nil
  keys := fun _ _ hk => nomatch hk
  starts := fun _ _ hr => absurd hr List.not_mem_nil
  held := fun _ _ _ hr => absurd hr List.not_mem_nil
  covered := fun _ he => absurd he List.not_mem_nil
  apart := fun _ _ _ hr => absurd hr List.not_mem_nil

/-- The window reads neither the timestamps nor the readers. -/
theorem Window.congr {s s' : Sync} (h : Window s) (hnext : s.st.nextSeq ≤ s'.st.nextSeq)
    (hflight : s'.st.inFlight = s.st.inFlight) (hentries : s'.entries = s.entries)
    (hranges : ∀ t, (s'.txns t).ranges = (s.txns t).ranges)
    (hphase : ∀ t, (s'.txns t).phase = .running → (s.txns t).phase = .running) : Window s' where
  ascending := hentries ▸ h.ascending
  minted := by
    rw [hentries]
    exact fun e he => lt_of_lt_of_le (h.minted e he) hnext
  keys := by
    rw [hflight]
    exact fun k r hk => lt_of_lt_of_le (h.keys k r hk) hnext
  starts := by
    intro t
    rw [hranges]
    exact fun r hr => lt_of_lt_of_le (h.starts t r hr) hnext
  held := by
    intro t ht
    rw [hranges, hflight]
    exact h.held t (hphase t ht)
  covered := by
    rw [hentries]
    intro e he hrun
    rw [hranges]
    exact h.covered e he (hphase _ hrun)
  apart := by
    intro t u
    rw [hranges, hranges]
    exact h.apart t u

/-! ## What each event does to the window -/

theorem mem_entriesOf {owner : ℕ} {e : Entry} : ∀ {ts : List Timestamp} {q : ℤ},
    e ∈ entriesOf owner q ts →
      e.owner = owner ∧ q ≤ e.seq ∧ e.seq < q + ts.length ∧ ∃ t ∈ ts, e.ts = tsU64 t := by
  intro ts
  induction ts with
  | nil => exact fun he => absurd he List.not_mem_nil
  | cons t ts ih =>
    intro q he
    rw [entriesOf, List.mem_cons] at he
    rw [List.length_cons]
    rcases he with rfl | he
    · refine ⟨rfl, le_rfl, ?_, t, List.mem_cons_self, rfl⟩
      show q < q + ((ts.length + 1 : ℕ) : ℤ)
      omega
    · obtain ⟨howner, hlow, hhigh, t', ht', hts⟩ := ih he
      exact ⟨howner, by omega, by omega, t', List.mem_cons_of_mem _ ht', hts⟩

theorem entriesOf_ascending (owner : ℕ) : ∀ (ts : List Timestamp) (q : ℤ),
    (entriesOf owner q ts).Pairwise (·.seq < ·.seq) := by
  intro ts
  induction ts with
  | nil => exact fun _ => List.Pairwise.nil
  | cons t ts ih =>
    intro q
    refine List.Pairwise.cons (fun e he => ?_) (ih (q + 1))
    have := (mem_entriesOf he).2.1
    show q < e.seq
    omega

/-- The state after a mint that happens. -/
theorem Sync.step_mint {s : Sync} {t : ℕ} {nows : List ℤ} (hok : (s.txns t).Writing ∧ nows ≠ []) :
    s.step (.mint t nows) =
      { s with
        st := (mintSeqAndTs s.st nows true).1
        txns := Function.update s.txns t
          ⟨(s.txns t).ranges ++ [(s.st.nextSeq, s.st.nextSeq + nows.length)], (s.txns t).stamp,
            (s.txns t).reserved, (s.txns t).phase⟩
        entries := s.entries ++ entriesOf t s.st.nextSeq (mintSeqAndTs s.st nows true).2.2 } := by
  simp only [Sync.step, if_pos hok, mintSeqAndTs_start]

theorem mintSeqAndTs_get (st : OplogState) (nows : List ℤ) (k : ℤ) :
    (mintSeqAndTs st nows true).1.inFlight.get k =
      if st.nextSeq = k then
        some ⟨st.nextSeq + nows.length, ((mintSeqAndTs st nows true).2.2.head?.map tsU64).getD 0⟩
      else st.inFlight.get k := by
  rw [mintSeqAndTs_inFlight, if_pos rfl, SortedMap.get_insert]

/-- A run of a transaction after `t` minted one at `q`. -/
theorem mem_ranges_update {s : Sync} {t u : ℕ} {q stop : ℤ} {r : ℤ × ℤ}
    (h : r ∈ (Function.update s.txns t ⟨(s.txns t).ranges ++ [(q, stop)], (s.txns t).stamp,
      (s.txns t).reserved, (s.txns t).phase⟩ u).ranges) :
    r ∈ (s.txns u).ranges ∨ u = t ∧ r = (q, stop) := by
  by_cases hu : u = t
  · rw [hu, Function.update_self, List.mem_append, List.mem_singleton] at h
    rw [hu]
    exact h.imp_right fun hr => ⟨rfl, hr⟩
  · rw [Function.update_of_ne hu] at h
    exact Or.inl h

/-- A transaction that may write mints a run at the next sequence. -/
theorem Window.mint {s : Sync} (h : Window s) (t : ℕ) (nows : List ℤ) :
    Window (s.step (.mint t nows)) := by
  by_cases hok : (s.txns t).Writing ∧ nows ≠ []
  · have hpos : 0 < nows.length := List.length_pos_iff.mpr hok.2
    have hnext := mintSeqAndTs_nextSeq s.st nows true
    have hlen : (mintSeqAndTs s.st nows true).2.2.length = nows.length := by
      rw [mintSeqAndTs_ts, mintAll_length]
    have hkept : ∀ k r, s.st.inFlight.get k = some r →
        (mintSeqAndTs s.st nows true).1.inFlight.get k = some r := by
      intro k r hk
      have := h.keys k r hk
      rw [mintSeqAndTs_get, if_neg (by omega), hk]
    have hphase : ∀ u, (Function.update s.txns t
        ⟨(s.txns t).ranges ++ [(s.st.nextSeq, s.st.nextSeq + nows.length)], (s.txns t).stamp,
          (s.txns t).reserved, (s.txns t).phase⟩ u).phase = (s.txns u).phase := by
      intro u
      by_cases hu : u = t
      · rw [hu, Function.update_self]
      · rw [Function.update_of_ne hu]
    rw [Sync.step_mint hok]
    refine ⟨?_, ?_, ?_, ?_, ?_, ?_, ?_⟩
    · refine List.pairwise_append.mpr ⟨h.ascending, entriesOf_ascending t _ _, ?_⟩
      intro e he e' he'
      exact lt_of_lt_of_le (h.minted e he) (mem_entriesOf he').2.1
    · intro e he
      show e.seq < (mintSeqAndTs s.st nows true).1.nextSeq
      rw [hnext]
      rcases List.mem_append.mp he with he | he
      · have := h.minted e he
        omega
      · have := (mem_entriesOf he).2.2.1
        omega
    · intro k r hk
      show k < (mintSeqAndTs s.st nows true).1.nextSeq
      rw [hnext]
      rw [mintSeqAndTs_get] at hk
      split at hk
      · omega
      · have := h.keys k r hk
        omega
    · intro u r hr
      show r.1 < (mintSeqAndTs s.st nows true).1.nextSeq
      rw [hnext]
      rcases mem_ranges_update hr with hr | ⟨-, rfl⟩
      · have := h.starts u r hr
        omega
      · show s.st.nextSeq < s.st.nextSeq + nows.length
        omega
    · intro u hu r hr
      rcases mem_ranges_update hr with hr | ⟨rfl, rfl⟩
      · obtain ⟨ts, hts⟩ := h.held u (hphase u ▸ hu) r hr
        exact ⟨ts, hkept _ _ hts⟩
      · exact ⟨_, (mintSeqAndTs_get s.st nows s.st.nextSeq).trans (if_pos rfl)⟩
    · intro e he hrun
      rcases List.mem_append.mp he with he | he
      · obtain ⟨r, hr, hle, hlt⟩ := h.covered e he (hphase _ ▸ hrun)
        refine ⟨r, ?_, hle, hlt⟩
        by_cases hu : e.owner = t
        · show r ∈ (Function.update s.txns t _ e.owner).ranges
          rw [hu, Function.update_self]
          exact List.mem_append_left _ (hu ▸ hr)
        · show r ∈ (Function.update s.txns t _ e.owner).ranges
          rw [Function.update_of_ne hu]
          exact hr
      · obtain ⟨howner, hlow, hhigh, -⟩ := mem_entriesOf he
        refine ⟨(s.st.nextSeq, s.st.nextSeq + nows.length), ?_, hlow, ?_⟩
        · show _ ∈ (Function.update s.txns t _ e.owner).ranges
          rw [howner, Function.update_self]
          exact List.mem_append_right _ (List.mem_singleton_self _)
        · rw [hlen] at hhigh
          exact hhigh
    · -- the new run starts at the next sequence, above every other
      intro u v r hr r' hr' heq
      rcases mem_ranges_update hr with hold | ⟨hu, rfl⟩ <;>
        rcases mem_ranges_update hr' with hold' | ⟨hv, rfl⟩
      · exact h.apart u v r hold r' hold' heq
      · have := h.starts u r hold
        simp only at heq
        omega
      · have := h.starts v r' hold'
        simp only at heq
        omega
      · rw [hu, hv]
  · have hstep : s.step (.mint t nows) = s := by
      simp only [Sync.step, if_neg hok]
    rw [hstep]
    exact h

theorem Window.deregister {s : Sync} (h : Window s) (t : ℕ) : Window (s.step (.deregister t)) := by
  by_cases hrun : (s.txns t).phase = .running
  · have hstep : s.step (.deregister t) = s := by
      simp only [Sync.step, if_pos hrun]
    rw [hstep]
    exact h
  · obtain ⟨hnext, -, -, -⟩ := deregisterInFlight_frame (s.txns t).ranges s.st
    have hget := deregisterInFlight_get (s.txns t).ranges s.st
    have hranges : ∀ {u r}, r ∈ (Function.update s.txns t
        ⟨[], (s.txns t).stamp, (s.txns t).reserved, (s.txns t).phase⟩ u).ranges →
        u ≠ t ∧ r ∈ (s.txns u).ranges := by
      intro u r hr
      by_cases hu : u = t
      · rw [hu, Function.update_self] at hr
        exact absurd hr List.not_mem_nil
      · rw [Function.update_of_ne hu] at hr
        exact ⟨hu, hr⟩
    have hother : ∀ {u}, (Function.update s.txns t
        ⟨[], (s.txns t).stamp, (s.txns t).reserved, (s.txns t).phase⟩ u).phase = .running →
        u ≠ t ∧ (s.txns u).phase = .running := by
      intro u hu
      by_cases hut : u = t
      · rw [hut, Function.update_self] at hu
        exact absurd hu hrun
      · rw [Function.update_of_ne hut] at hu
        exact ⟨hut, hu⟩
    have hstep : s.step (.deregister t) =
        { s with
          st := deregisterInFlight s.st (s.txns t).ranges
          txns := Function.update s.txns t
            ⟨[], (s.txns t).stamp, (s.txns t).reserved, (s.txns t).phase⟩ } := by
      simp only [Sync.step, if_neg hrun]
    rw [hstep]
    refine ⟨h.ascending, ?_, ?_, ?_, ?_, ?_, ?_⟩
    · intro e he
      exact lt_of_lt_of_eq (h.minted e he) hnext.symm
    · intro k r hk
      rw [hget] at hk
      split at hk
      · cases hk
      · exact lt_of_lt_of_eq (h.keys k r hk) hnext.symm
    · intro u r hr
      exact lt_of_lt_of_eq (h.starts u r (hranges hr).2) hnext.symm
    · -- the runs given up are of `t` alone
      intro u hu r hr
      obtain ⟨hut, hr⟩ := hranges hr
      obtain ⟨ts, hts⟩ := h.held u (hother hu).2 r hr
      refine ⟨ts, (hget r.1).trans ?_⟩
      rw [if_neg, hts]
      intro hmem
      obtain ⟨r', hr', heq⟩ := List.mem_map.mp hmem
      exact hut (h.apart u t r hr r' hr' heq.symm)
    · intro e he hu
      obtain ⟨hut, hu⟩ := hother hu
      obtain ⟨r, hr, hle, hlt⟩ := h.covered e he hu
      refine ⟨r, ?_, hle, hlt⟩
      show r ∈ (Function.update s.txns t _ e.owner).ranges
      rw [Function.update_of_ne hut]
      exact hr
    · intro u v r hr r' hr' heq
      exact h.apart u v r (hranges hr).2 r' (hranges hr').2 heq

/-- A transaction rewritten with the runs it had; it has not come back to life. -/
theorem Window.retag {s : Sync} (h : Window s) {t : ℕ} {txn : Txn} {st : OplogState}
    (hnext : st.nextSeq = s.st.nextSeq) (hflight : st.inFlight = s.st.inFlight)
    (hranges : txn.ranges = (s.txns t).ranges)
    (hphase : txn.phase = .running → (s.txns t).phase = .running) :
    Window { s with st := st, txns := Function.update s.txns t txn } := by
  refine h.congr (le_of_eq hnext.symm) hflight rfl (fun u => ?_) (fun u hu => ?_)
  · show (Function.update s.txns t txn u).ranges = _
    by_cases hu : u = t
    · rw [hu, Function.update_self, hranges]
    · rw [Function.update_of_ne hu]
  · change (Function.update s.txns t txn u).phase = _ at hu
    by_cases hut : u = t
    · rw [hut, Function.update_self] at hu
      exact hut ▸ hphase hu
    · rwa [Function.update_of_ne hut] at hu

theorem Window.step {s : Sync} (h : Window s) (e : Event) : Window (s.step e) := by
  cases e with
  | mint t nows => exact h.mint t nows
  | prepare now =>
    refine h.congr ?_ (mintSeqAndTs_inFlight s.st [now] false) rfl (fun _ => rfl) (fun _ => id)
    show s.st.nextSeq ≤ (mintSeqAndTs s.st [now] false).1.nextSeq
    rw [mintSeqAndTs_nextSeq]
    simp
  | stamp t now =>
    simp only [Sync.step]
    split
    · obtain ⟨hnext, hflight⟩ := commitStamp_frame s.st (s.txns t).ranges now
      exact h.retag hnext hflight rfl id
    · exact h
  | finish t commit =>
    simp only [Sync.step]
    split
    · rename_i hrun
      exact h.retag rfl rfl rfl (fun _ => hrun)
    · exact h
  | deregister t => exact h.deregister t
  | release t =>
    simp only [Sync.step]
    split
    · exact h
    · split
      · exact h
      · exact h.retag rfl rfl rfl id
  | takeTail r => exact h.congr le_rfl rfl rfl (fun _ => rfl) (fun _ => id)
  | readBound r => exact h.congr le_rfl rfl rfl (fun _ => rfl) (fun _ => id)
  | readRows r limit =>
    simp only [Sync.step]
    split
    · exact h.congr le_rfl rfl rfl (fun _ => rfl) (fun _ => id)
    · exact h

/-! ## The tail -/

/-- What an event adds is at or above the next sequence: a run put in the window, and a row. -/
theorem step_adds_above (s : Sync) (e : Event) :
    s.st.nextSeq ≤ (s.step e).st.nextSeq ∧
    (∀ k r, (s.step e).st.inFlight.get k = some r →
      s.st.inFlight.get k = some r ∨ s.st.nextSeq ≤ k ∧ k < (s.step e).st.nextSeq) ∧
    (∀ row ∈ (s.step e).entries, row ∈ s.entries ∨ s.st.nextSeq ≤ row.seq) := by
  have hself : s.st.nextSeq ≤ s.st.nextSeq ∧
      (∀ k r, s.st.inFlight.get k = some r →
        s.st.inFlight.get k = some r ∨ s.st.nextSeq ≤ k ∧ k < s.st.nextSeq) ∧
      (∀ row ∈ s.entries, row ∈ s.entries ∨ s.st.nextSeq ≤ row.seq) :=
    ⟨le_rfl, fun _ _ hk => Or.inl hk, fun _ hrow => Or.inl hrow⟩
  cases e with
  | mint t nows =>
    by_cases hok : (s.txns t).Writing ∧ nows ≠ []
    · have hpos : 0 < nows.length := List.length_pos_iff.mpr hok.2
      have hnext := mintSeqAndTs_nextSeq s.st nows true
      rw [Sync.step_mint hok]
      refine ⟨?_, fun k r hk => ?_, fun row hrow => ?_⟩
      · show s.st.nextSeq ≤ (mintSeqAndTs s.st nows true).1.nextSeq
        omega
      · rw [mintSeqAndTs_get] at hk
        split at hk
        · refine Or.inr ⟨by omega, ?_⟩
          show k < (mintSeqAndTs s.st nows true).1.nextSeq
          omega
        · exact Or.inl hk
      · exact (List.mem_append.mp hrow).imp_right fun h => (mem_entriesOf h).2.1
    · simp only [Sync.step, if_neg hok]
      exact hself
  | prepare now =>
    refine ⟨?_, fun k r hk => Or.inl ?_, fun _ hrow => Or.inl hrow⟩
    · show s.st.nextSeq ≤ (mintSeqAndTs s.st [now] false).1.nextSeq
      rw [mintSeqAndTs_nextSeq]
      simp
    · exact (congrArg (·.get k) (mintSeqAndTs_inFlight s.st [now] false)).symm.trans hk
  | stamp t now =>
    simp only [Sync.step]
    split
    · obtain ⟨hnext, hflight⟩ := commitStamp_frame s.st (s.txns t).ranges now
      refine ⟨le_of_eq hnext.symm, fun k r hk => Or.inl ?_, fun _ hrow => Or.inl hrow⟩
      exact (congrArg (·.get k) hflight).symm.trans hk
    · exact hself
  | finish t commit =>
    simp only [Sync.step]
    split <;> exact hself
  | deregister t =>
    simp only [Sync.step]
    split
    · exact hself
    · obtain ⟨hnext, -, -, -⟩ := deregisterInFlight_frame (s.txns t).ranges s.st
      refine ⟨le_of_eq hnext.symm, fun k r hk => Or.inl ?_, fun _ hrow => Or.inl hrow⟩
      rw [deregisterInFlight_get] at hk
      split at hk
      · cases hk
      · exact hk
  | release t =>
    simp only [Sync.step]
    split
    · exact hself
    · split <;> exact hself
  | takeTail r => exact hself
  | readBound r => exact hself
  | readRows r limit =>
    simp only [Sync.step]
    split <;> exact hself

/-- An event leaves a transaction its stamp and its phase, or changes one of them while it runs. -/
theorem step_txn (s : Sync) (e : Event) (t : ℕ) :
    (((s.step e).txns t).stamp = (s.txns t).stamp ∧ ((s.step e).txns t).phase = (s.txns t).phase) ∨
      (s.txns t).phase = .running ∧
        (((s.step e).txns t).stamp = (s.txns t).stamp ∨ ((s.step e).txns t).phase = .running) := by
  have hupdate : ∀ (u : ℕ) (txn : Txn), (txn.stamp = (s.txns u).stamp ∧ txn.phase = (s.txns u).phase) ∨
      (s.txns u).phase = .running ∧ (txn.stamp = (s.txns u).stamp ∨ txn.phase = .running) →
      ((Function.update s.txns u txn t).stamp = (s.txns t).stamp ∧
        (Function.update s.txns u txn t).phase = (s.txns t).phase) ∨
      (s.txns t).phase = .running ∧ ((Function.update s.txns u txn t).stamp = (s.txns t).stamp ∨
        (Function.update s.txns u txn t).phase = .running) := by
    intro u txn htxn
    by_cases ht : t = u
    · rw [ht, Function.update_self]
      exact htxn
    · rw [Function.update_of_ne ht]
      exact Or.inl ⟨rfl, rfl⟩
  cases e with
  | mint u nows =>
    simp only [Sync.step]
    split
    · exact hupdate u _ (Or.inl ⟨rfl, rfl⟩)
    · exact Or.inl ⟨rfl, rfl⟩
  | prepare now => exact Or.inl ⟨rfl, rfl⟩
  | stamp u now =>
    simp only [Sync.step]
    split
    · rename_i hok
      exact hupdate u _ (Or.inr ⟨hok.1, Or.inr hok.1⟩)
    · exact Or.inl ⟨rfl, rfl⟩
  | finish u commit =>
    simp only [Sync.step]
    split
    · rename_i hrun
      exact hupdate u _ (Or.inr ⟨hrun, Or.inl rfl⟩)
    · exact Or.inl ⟨rfl, rfl⟩
  | deregister u =>
    simp only [Sync.step]
    split
    · exact Or.inl ⟨rfl, rfl⟩
    · exact hupdate u _ (Or.inl ⟨rfl, rfl⟩)
  | release u =>
    simp only [Sync.step]
    split
    · exact Or.inl ⟨rfl, rfl⟩
    · split
      · exact Or.inl ⟨rfl, rfl⟩
      · exact hupdate u _ (Or.inl ⟨rfl, rfl⟩)
  | takeTail r => exact Or.inl ⟨rfl, rfl⟩
  | readBound r => exact Or.inl ⟨rfl, rfl⟩
  | readRows r limit =>
    simp only [Sync.step]
    split <;> exact Or.inl ⟨rfl, rfl⟩

/-- A transaction that is committed after an event was running or committed before it. -/
theorem step_phase (s : Sync) (e : Event) (t : ℕ) :
    ((s.step e).txns t).phase = (s.txns t).phase ∨ (s.txns t).phase = .running :=
  (step_txn s e t).imp And.right And.left

theorem Window.visibleTail_le_step {s : Sync} (h : Window s) (e : Event) :
    visibleTail s.st ≤ visibleTail (s.step e).st := by
  obtain ⟨hnext, hflight, -⟩ := step_adds_above s e
  obtain ⟨htail, hbelow⟩ := (le_visibleTail_iff s.st h.keys (visibleTail s.st)).mp le_rfl
  refine (le_visibleTail_iff _ (h.step e).keys _).mpr ⟨by omega, fun k r hk => ?_⟩
  rcases hflight k r hk with hk | ⟨hk, -⟩
  · exact hbelow k r hk
  · omega

/-- A row at or below the tail is of a transaction that has ended. -/
theorem Window.ended {s : Sync} (h : Window s) {row : Entry} (hrow : row ∈ s.entries)
    (htail : row.seq ≤ visibleTail s.st) : s.Ended row.owner := by
  intro hrun
  obtain ⟨r, hr, hle, -⟩ := h.covered row hrow hrun
  obtain ⟨ts, hts⟩ := h.held _ hrun r hr
  have := ((le_visibleTail_iff s.st h.keys _).mp htail).2 r.1 _ hts
  omega

/-- A row at or below the tail that an event leaves visible was visible before it. -/
theorem Window.visible_step {s : Sync} (h : Window s) (e : Event) {row : Entry}
    (hrow : row ∈ (s.step e).visible) (htail : row.seq ≤ visibleTail s.st) : row ∈ s.visible := by
  obtain ⟨hmem, hphase⟩ := List.mem_filter.mp hrow
  have hold : row ∈ s.entries := by
    rcases (step_adds_above s e).2.2 row hmem with hold | hnew
    · exact hold
    · have := ((le_visibleTail_iff s.st h.keys _).mp htail).1
      omega
  refine List.mem_filter.mpr ⟨hold, ?_⟩
  rcases step_phase s e row.owner with heq | hrun
  · rwa [heq] at hphase
  · exact absurd hrun (h.ended hold htail)

/-- A tail given at one time bounds what is visible at every later one. -/
theorem Window.visible_run {s : Sync} (h : Window s) (events : List Event) {row : Entry}
    (hrow : row ∈ (s.run events).visible) (htail : row.seq ≤ visibleTail s.st) :
    row ∈ s.visible := by
  induction events generalizing s with
  | nil => exact hrow
  | cons e events ih =>
    have hlater : row ∈ (s.step e).visible :=
      ih (h.step e) hrow (htail.trans (h.visibleTail_le_step e))
    exact h.visible_step e hlater htail

end Secantus.Oplog
