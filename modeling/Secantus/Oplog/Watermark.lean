/-
  The watermark of the async oplog (`advance_written_seq`): the drainers persist batches in any
  order, a batch ahead of the watermark is parked, and the watermark moves over what has become
  contiguous.

  A run is any list of events: a committed write hands a batch to the drainers
  (`mint_and_enqueue`), a prepared transaction takes a sequence that no batch holds, a drainer
  persists one of the queued batches. `writtenSeq_exact`: after every run the watermark is the end
  of the longest gapless run of persisted sequences, the next event does not lower it, and it is
  the last minted sequence once all are persisted.
-/
import Mathlib.Data.List.Pairwise
import Mathlib.Data.List.Perm.Basic
import Mathlib.Order.Bounds.Basic
import Secantus.Oplog.State

namespace Secantus.Oplog

open Secantus

/-- The loop of `advance_written_seq`: absorb the range after the watermark while there is one. -/
def absorb (st : OplogState) : OplogState × Bool :=
  match _h : st.doneRanges.get (st.writtenSeq + 1) with
  | some stop =>
    ((absorb { st with
      writtenSeq := stop - 1
      doneRanges := st.doneRanges.erase (st.writtenSeq + 1) }).1, true)
  | none => (st, false)
termination_by st.doneRanges.entries.length
decreasing_by exact SortedMap.length_erase_lt ‹_›

/-- `advance_written_seq`: the watermark's state, and whether it moved. -/
def advanceWrittenSeq (st : OplogState) (start n : ℤ) : OplogState × Bool :=
  absorb { st with doneRanges := st.doneRanges.insert start (start + n) }

/-! ## Runs -/

/-- A batch: its first sequence and its length. -/
abbrev Batch := ℤ × ℕ

def Batch.stop (b : Batch) : ℤ := b.1 + b.2

/-- The counters, the batches queued at the drainers and the ones they have persisted. -/
structure Async where
  st : OplogState
  queued : List Batch
  persisted : List Batch

inductive AsyncEvent where
  /-- A committed write's entries, one clock reading each. -/
  | enqueue (nows : List ℤ)
  /-- The transaction id of a prepared transaction: a sequence nothing is written at. -/
  | prepare (now : ℤ)
  /-- A drainer has written the queued batch at this place. -/
  | persist (i : ℕ)

/-- `mint_and_enqueue`, the mint of `prepare_user_transaction`, and `persist_and_record`. -/
def Async.step (a : Async) : AsyncEvent → Async
  | .enqueue nows =>
    if nows.isEmpty then a
    else
      let (st, start, _) := mintSeqAndTs a.st nows false
      { a with st, queued := a.queued ++ [(start, nows.length)] }
  | .prepare now => { a with st := (mintSeqAndTs a.st [now] false).1 }
  | .persist i =>
    match a.queued[i]? with
    | none => a
    | some b =>
      ⟨(advanceWrittenSeq a.st b.1 b.2).1, a.queued.eraseIdx i, b :: a.persisted⟩

/-- An opened store. -/
def Async.opened (nextSeq secs ord : ℤ) : Async := ⟨.opened nextSeq secs ord, [], []⟩

def Async.run (a : Async) (events : List AsyncEvent) : Async := events.foldl Async.step a

/-- A sequence of a persisted batch. -/
def Async.Persisted (a : Async) (q : ℤ) : Prop := ∃ b ∈ a.persisted, b.1 ≤ q ∧ q < b.stop

/-! ## The invariant -/

/-- The watermark and the parked ranges against the persisted batches. -/
structure Tracks (first : ℤ) (persisted : List Batch) (st : OplogState) : Prop where
  low : first - 1 ≤ st.writtenSeq
  covered : ∀ q, first ≤ q → q ≤ st.writtenSeq →
    ∃ b ∈ persisted, b.1 ≤ q ∧ q < b.stop ∧ b.stop ≤ st.writtenSeq + 1
  parked : ∀ b ∈ persisted, b.stop ≤ st.writtenSeq + 1 ∨ st.doneRanges.get b.1 = some b.stop
  sound : ∀ k stop, st.doneRanges.get k = some stop → ∃ b ∈ persisted, b.1 = k ∧ b.stop = stop

/-- Two batches share no sequence. -/
def Apart (a b : Batch) : Prop := a.stop ≤ b.1 ∨ b.stop ≤ a.1

instance : Std.Symm Apart where
  symm _ _ h := Or.symm h

structure Async.Inv (first : ℤ) (a : Async) : Prop where
  tracks : Tracks first a.persisted a.st
  settled : a.st.doneRanges.get (a.st.writtenSeq + 1) = none
  apart : (a.queued ++ a.persisted).Pairwise Apart
  within : ∀ b ∈ a.queued ++ a.persisted, 0 < b.2 ∧ first ≤ b.1 ∧ b.stop ≤ a.st.nextSeq
  written : a.st.writtenSeq < a.st.nextSeq

/-- One turn of the loop. -/
theorem Tracks.absorbOne {first : ℤ} {persisted : List Batch} {st : OplogState}
    (h : Tracks first persisted st) (hpos : ∀ b ∈ persisted, 0 < b.2) {stop : ℤ}
    (hget : st.doneRanges.get (st.writtenSeq + 1) = some stop) :
    Tracks first persisted
      { st with writtenSeq := stop - 1, doneRanges := st.doneRanges.erase (st.writtenSeq + 1) } ∧
    st.writtenSeq ≤ stop - 1 := by
  obtain ⟨b, hb, hstart, hstop⟩ := h.sound _ _ hget
  have hlen := hpos b hb
  have hdef : b.stop = b.1 + b.2 := rfl
  have hmono : st.writtenSeq ≤ stop - 1 := by omega
  refine ⟨⟨?_, ?_, ?_, ?_⟩, hmono⟩
  · have := h.low
    simp only
    omega
  · intro q hq hqw
    simp only at hqw ⊢
    by_cases hold : q ≤ st.writtenSeq
    · obtain ⟨b', hb', h1, h2, h3⟩ := h.covered q hq hold
      exact ⟨b', hb', h1, h2, by omega⟩
    · exact ⟨b, hb, by omega, by omega, by omega⟩
  · intro b' hb'
    simp only
    rcases h.parked b' hb' with hle | hp
    · exact .inl (by omega)
    · by_cases hk : st.writtenSeq + 1 = b'.1
      · -- the range just absorbed
        left
        rw [← hk, hget] at hp
        have := Option.some.inj hp
        omega
      · right
        rw [SortedMap.get_erase, if_neg hk, hp]
  · intro k stop' hk
    simp only [SortedMap.get_erase] at hk
    split at hk
    · cases hk
    · exact h.sound k stop' hk

/-- The loop stops with nothing after the watermark. -/
theorem Tracks.absorb {first : ℤ} {persisted : List Batch} {st : OplogState}
    (h : Tracks first persisted st) (hpos : ∀ b ∈ persisted, 0 < b.2) :
    Tracks first persisted (absorb st).1 ∧
      (Oplog.absorb st).1.doneRanges.get ((Oplog.absorb st).1.writtenSeq + 1) = none ∧
      st.writtenSeq ≤ (Oplog.absorb st).1.writtenSeq ∧
      (Oplog.absorb st).1.nextSeq = st.nextSeq := by
  induction st using Oplog.absorb.induct with
  | case1 st stop hget ih =>
    obtain ⟨hstep, hmono⟩ := h.absorbOne hpos hget
    obtain ⟨h1, h2, h3, h4⟩ := ih hstep
    have he : Oplog.absorb st =
        ((Oplog.absorb { st with
          writtenSeq := stop - 1
          doneRanges := st.doneRanges.erase (st.writtenSeq + 1) }).1, true) := by
      rw [Oplog.absorb]
      split
      · rename_i stop' hget'
        obtain rfl := Option.some.inj (hget.symm.trans hget')
        rfl
      · rename_i hnone
        rw [hget] at hnone
        cases hnone
    rw [he]
    exact ⟨h1, h2, hmono.trans h3, h4⟩
  | case2 st hget =>
    have he : Oplog.absorb st = (st, false) := by
      rw [Oplog.absorb]
      split
      · rename_i stop hsome
        rw [hget] at hsome
        cases hsome
      · rfl
    rw [he]
    exact ⟨h, hget, le_refl _, rfl⟩

/-- A batch apart from the persisted ones is parked. -/
theorem Tracks.insert {first : ℤ} {persisted : List Batch} {st : OplogState}
    (h : Tracks first persisted st) {b : Batch} (hb : 0 < b.2)
    (hapart : ∀ c ∈ persisted, Apart b c) (hpos : ∀ c ∈ persisted, 0 < c.2) :
    Tracks first (b :: persisted)
      { st with doneRanges := st.doneRanges.insert b.1 (b.1 + b.2) } := by
  refine ⟨h.low, ?_, ?_, ?_⟩
  · intro q hq hqw
    obtain ⟨c, hc, hrest⟩ := h.covered q hq hqw
    exact ⟨c, List.mem_cons_of_mem _ hc, hrest⟩
  · intro c hc
    simp only [SortedMap.get_insert]
    rcases List.mem_cons.mp hc with rfl | hc
    · exact .inr (if_pos rfl)
    · have hne : b.1 ≠ c.1 := by
        have h1 := hpos c hc
        have h2 : c.stop = c.1 + c.2 := rfl
        have h3 : b.stop = b.1 + b.2 := rfl
        rcases hapart c hc with h | h <;> omega
      rw [if_neg hne]
      exact h.parked c hc
  · intro k stop hk
    simp only [SortedMap.get_insert] at hk
    split at hk
    · rename_i he
      exact ⟨b, List.mem_cons_self, he, Option.some.inj hk⟩
    · obtain ⟨c, hc, hrest⟩ := h.sound k stop hk
      exact ⟨c, List.mem_cons_of_mem _ hc, hrest⟩

/-! ## Every run -/

theorem Async.inv_opened (nextSeq secs ord : ℤ) : (Async.opened nextSeq secs ord).Inv nextSeq where
  tracks := by
    refine ⟨le_refl _, fun q hq hqw => ?_, fun b hb => ?_, fun k stop hk => ?_⟩
    · have hw : (Async.opened nextSeq secs ord).st.writtenSeq = nextSeq - 1 := rfl
      omega
    · cases hb
    · cases hk
  settled := rfl
  apart := List.Pairwise.nil
  within := fun b hb => by cases hb
  written := by
    show nextSeq - 1 < nextSeq
    omega

/-- A mint past the next sequence keeps the invariant. -/
theorem Async.Inv.mint {first : ℤ} {a : Async} (h : a.Inv first) (nows : List ℤ)
    {queued : List Batch}
    (hq : queued = a.queued ∨ 0 < nows.length ∧ queued = a.queued ++ [(a.st.nextSeq, nows.length)])
    (hfirst : first ≤ a.st.nextSeq) :
    Async.Inv first ⟨(mintSeqAndTs a.st nows false).1, queued, a.persisted⟩ := by
  have hwr := mintSeqAndTs_writtenSeq a.st nows false
  have hdr := mintSeqAndTs_doneRanges a.st nows false
  have hns := mintSeqAndTs_nextSeq a.st nows false
  have hwithin : ∀ b ∈ a.queued ++ a.persisted,
      0 < b.2 ∧ first ≤ b.1 ∧ b.stop ≤ (mintSeqAndTs a.st nows false).1.nextSeq := fun b hb => by
    obtain ⟨h1, h2, h3⟩ := h.within b hb
    exact ⟨h1, h2, by rw [hns]; omega⟩
  refine ⟨⟨?_, ?_, ?_, ?_⟩, ?_, ?_, ?_, ?_⟩
  · rw [hwr]
    exact h.tracks.low
  · intro q hq hqw
    rw [hwr] at hqw ⊢
    exact h.tracks.covered q hq hqw
  · intro b hb
    rw [hwr, hdr]
    exact h.tracks.parked b hb
  · intro k stop hk
    rw [hdr] at hk
    exact h.tracks.sound k stop hk
  · rw [hwr, hdr]
    exact h.settled
  · rcases hq with rfl | ⟨-, rfl⟩
    · exact h.apart
    · -- the new batch starts where every other one has stopped
      have hnew : ∀ b ∈ a.queued ++ a.persisted, Apart (a.st.nextSeq, nows.length) b := fun b hb =>
        .inr (h.within b hb).2.2
      have hcons : ((a.st.nextSeq, nows.length) :: (a.queued ++ a.persisted)).Pairwise Apart :=
        List.pairwise_cons.mpr ⟨hnew, h.apart⟩
      have hperm : ((a.st.nextSeq, nows.length) :: (a.queued ++ a.persisted)).Perm
          (a.queued ++ [(a.st.nextSeq, nows.length)] ++ a.persisted) := by
        rw [List.append_assoc, List.singleton_append]
        exact List.perm_middle.symm
      exact (hperm.pairwise_iff fun {_ _} h => Or.symm h).mp hcons
  · intro b hb
    rcases hq with rfl | ⟨hn, rfl⟩
    · exact hwithin b hb
    · rw [List.append_assoc, List.mem_append, List.singleton_append, List.mem_cons] at hb
      rcases hb with hb | rfl | hb
      · exact hwithin b (List.mem_append_left _ hb)
      · exact ⟨hn, hfirst, hns.ge⟩
      · exact hwithin b (List.mem_append_right _ hb)
  · have := h.written
    rw [hwr, hns]
    omega

theorem Async.Inv.step {first : ℤ} {a : Async} (h : a.Inv first) (e : AsyncEvent) :
    (a.step e).Inv first ∧ a.st.writtenSeq ≤ (a.step e).st.writtenSeq := by
  have hfirst : first ≤ a.st.nextSeq := by
    have h1 := h.tracks.low
    have h2 := h.written
    omega
  cases e with
  | enqueue nows =>
    unfold Async.step
    simp only
    split
    · exact ⟨h, le_refl _⟩
    · rename_i hne
      have hn : 0 < nows.length := List.length_pos_iff.mpr (by simpa using hne)
      have hstart := mintSeqAndTs_start a.st nows false
      refine ⟨?_, (mintSeqAndTs_writtenSeq a.st nows false).ge⟩
      exact h.mint nows (.inr ⟨hn, by rw [← hstart]⟩) hfirst
  | prepare now =>
    exact ⟨h.mint [now] (.inl rfl) hfirst, (mintSeqAndTs_writtenSeq a.st [now] false).ge⟩
  | persist i =>
    unfold Async.step
    simp only
    cases hb : a.queued[i]? with
    | none => exact ⟨h, le_refl _⟩
    | some b =>
      have hmem : b ∈ a.queued := List.mem_of_getElem? hb
      obtain ⟨hi, hbi⟩ := List.getElem?_eq_some_iff.mp hb
      have hperm : (a.queued.eraseIdx i ++ b :: a.persisted).Perm (a.queued ++ a.persisted) := by
        have h1 : (b :: a.queued.eraseIdx i).Perm a.queued := by
          rw [← hbi]
          exact List.getElem_cons_eraseIdx_perm hi
        exact List.perm_middle.trans (h1.append_right a.persisted)
      have hapart : (a.queued.eraseIdx i ++ b :: a.persisted).Pairwise Apart :=
        (hperm.pairwise_iff fun {_ _} h => Or.symm h).mpr h.apart
      have hpersisted := (List.pairwise_append.mp hapart).2.1
      have hpos : ∀ c ∈ b :: a.persisted, 0 < c.2 := fun c hc =>
        (h.within c (hperm.mem_iff.mp (List.mem_append_right _ hc))).1
      have hinsert := h.tracks.insert (hpos b List.mem_cons_self)
        (List.pairwise_cons.mp hpersisted).1 fun c hc => hpos c (List.mem_cons_of_mem _ hc)
      obtain ⟨htracks, hsettled, hmono, hnext⟩ := hinsert.absorb hpos
      refine ⟨⟨htracks, hsettled, hapart, fun c hc => ?_, ?_⟩, hmono⟩
      · have := h.within c (hperm.mem_iff.mp hc)
        rwa [show (advanceWrittenSeq a.st b.1 b.2).1.nextSeq = a.st.nextSeq from hnext]
      · -- a watermark past the next sequence would be past a persisted batch
        show (advanceWrittenSeq a.st b.1 b.2).1.writtenSeq < (advanceWrittenSeq a.st b.1 b.2).1.nextSeq
        rw [show (advanceWrittenSeq a.st b.1 b.2).1.nextSeq = a.st.nextSeq from hnext]
        by_contra hlt
        have hw : a.st.nextSeq ≤ (advanceWrittenSeq a.st b.1 b.2).1.writtenSeq := not_lt.mp hlt
        obtain ⟨c, hc, -, hlt', -⟩ := htracks.covered a.st.nextSeq hfirst hw
        have := (h.within c (hperm.mem_iff.mp (List.mem_append_right _ hc))).2.2
        omega

theorem Async.inv_run (nextSeq secs ord : ℤ) (events : List AsyncEvent) :
    ((Async.opened nextSeq secs ord).run events).Inv nextSeq := by
  unfold Async.run
  have h : ∀ (es : List AsyncEvent) (a : Async), a.Inv nextSeq → (es.foldl Async.step a).Inv nextSeq :=
    fun es => by
      induction es with
      | nil => exact fun a ha => ha
      | cons e es ih => exact fun a ha => ih (a.step e) (ha.step e).1
  exact h events _ (Async.inv_opened nextSeq secs ord)

/-- The watermark is the end of the longest gapless run of persisted sequences, never moves back,
    and is the last minted sequence once every one is persisted. -/
theorem writtenSeq_exact (nextSeq secs ord : ℤ) (events : List AsyncEvent) :
    let a := (Async.opened nextSeq secs ord).run events
    IsGreatest {w | nextSeq - 1 ≤ w ∧ ∀ q, nextSeq ≤ q → q ≤ w → a.Persisted q} a.st.writtenSeq ∧
    (∀ e, a.st.writtenSeq ≤ (a.step e).st.writtenSeq) ∧
    ((∀ q, nextSeq ≤ q → q < a.st.nextSeq → a.Persisted q) →
      a.st.writtenSeq = a.st.nextSeq - 1) := by
  intro a
  have hinv : a.Inv nextSeq := Async.inv_run nextSeq secs ord events
  have hgreatest : IsGreatest
      {w | nextSeq - 1 ≤ w ∧ ∀ q, nextSeq ≤ q → q ≤ w → a.Persisted q} a.st.writtenSeq := by
    refine ⟨⟨hinv.tracks.low, fun q hq hqw => ?_⟩, fun w ⟨hw, hall⟩ => ?_⟩
    · obtain ⟨b, hb, h1, h2, -⟩ := hinv.tracks.covered q hq hqw
      exact ⟨b, hb, h1, h2⟩
    · by_contra hlt
      -- the sequence after the watermark is in a parked batch `b`, which starts below it
      have hlow := hinv.tracks.low
      obtain ⟨b, hb, hb1, hb2⟩ := hall (a.st.writtenSeq + 1) (by omega) (by omega)
      have hget : a.st.doneRanges.get b.1 = some b.stop :=
        (hinv.tracks.parked b hb).resolve_left (by omega)
      have hne : b.1 ≠ a.st.writtenSeq + 1 := fun he => by
        rw [he, hinv.settled] at hget
        cases hget
      have hbpos := hinv.within b (List.mem_append_right _ hb)
      -- and then shares its first sequence with an absorbed one
      obtain ⟨c, hc, hc1, hc2, hc3⟩ := hinv.tracks.covered b.1 hbpos.2.1 (by omega)
      have hpersisted := (List.pairwise_append.mp hinv.apart).2.1
      have hcb : c ≠ b := fun he => by
        rw [he] at hc3
        omega
      rcases hpersisted.forall hc hb hcb with h | h <;> omega
  refine ⟨hgreatest, fun e => (hinv.step e).2, fun hall => ?_⟩
  have hle : a.st.nextSeq - 1 ≤ a.st.writtenSeq := by
    have hlow := hinv.tracks.low
    have hw := hinv.written
    exact hgreatest.2 ⟨by omega, fun q hq hqw => hall q hq (by omega)⟩
  have := hinv.written
  omega

end Secantus.Oplog
