/-
  The horizon while a serializable transaction runs: there is one, so a page split copies the locks of the
  old page (ssi.rs, `page_split`).
-/
import Secantus.Ssi.Coverage
import Secantus.Ssi.Ledger

namespace Secantus.Ssi

open Secantus Secantus.Library

namespace State

/-- Each session's transaction counts for the horizon, which is there for it. -/
structure Running (s : State) : Prop where
  tracked : s.Tracked
  active : ∀ pid i, s.mine pid = some i → i ∈ s.active
  isOpen : ∀ pid i, s.mine pid = some i → (s.sx i).mark.Open
  horizon : ∀ pid i, s.mine pid = some i → s.globalXmin.isSome = true

theorem running_initial : Running initial where
  tracked := tracked_initial
  active pid i h := by cases h
  isOpen pid i h := by cases h
  horizon pid i h := by cases h

theorem Running.ofSteady {s s' : State} (h : s.Running) (hs : Steady s.Live s s') (ht : s'.Tracked) :
    s'.Running := by
  have hlive := h.tracked.live
  refine ⟨ht, fun pid i hi => ?_, fun pid i hi => ?_, fun pid i hi => ?_⟩
  · rw [hs.mine] at hi
    exact (hs.active i (hlive pid i hi)).mpr (h.active pid i hi)
  · rw [hs.mine] at hi
    rw [hs.mark i (hlive pid i hi)]
    exact h.isOpen pid i hi
  · rw [hs.mine] at hi
    rw [hs.globalXmin]
    exact h.horizon pid i hi

theorem globalXmin_endAt (s : State) (pid : ℤ) (me : ℕ) (isCommit : Bool) (nextXid : ℕ) :
    (s.endAt pid me isCommit nextXid).globalXmin = s.globalXmin := by
  have hsteady : Steady (fun _ => True) (s.endBase pid me isCommit nextXid)
      (s.endAt pid me isCommit nextXid) :=
    Steady.ofOnlyConflicts (s.onlyConflicts_endAt pid me isCommit nextXid)
  rw [hsteady.globalXmin]
  unfold endBase countDown endMark
  cases isCommit with
  | true => split <;> rfl
  | false => split <;> rfl

/-- The horizon stays when a transaction ends, unless it is looked for anew among those that run. -/
theorem globalXmin_leaveHorizon {s mid : State} {pid : ℤ} {me : ℕ} {isCommit : Bool} {nextXid : ℕ}
    (h : Ending pid me isCommit nextXid s mid) (hxmin : mid.globalXmin = s.globalXmin) :
    (mid.leaveHorizon me).1.globalXmin = s.globalXmin ∨
      ∀ i ∈ s.active, i ≠ me → (s.sx i).mark.Open →
        (mid.leaveHorizon me).1.globalXmin.isSome = true := by
  obtain ⟨-, hmoved⟩ := ending_leaveHorizon h
  by_cases hm : (mid.leaveHorizon me).2 = true
  · refine Or.inr fun i hi hne hopen => ?_
    obtain ⟨g, hg, -⟩ := hmoved hm i hi hne hopen
    rw [hg]
    rfl
  · refine Or.inl ?_
    rw [← hxmin]
    unfold leaveHorizon at hm ⊢
    split
    · simp only at hm ⊢
      split
      · rename_i hpos hzero
        rw [if_pos hpos, if_pos hzero] at hm
        exact absurd rfl hm
      · rfl
    · rfl

theorem globalXmin_clearOld {s : State} (hnodup : s.finishedList.Nodup) :
    s.clearOld.globalXmin = s.globalXmin := (clearFrom_marks s.finishedList hnodup s).1.globalXmin

theorem globalXmin_releaseAt {s : State} (h : s.Tracked) {pid : ℤ} {me : ℕ} (hme : s.mine pid = some me)
    (isCommit : Bool) (nextXid : ℕ) :
    (s.releaseAt pid isCommit nextXid).globalXmin = s.globalXmin ∨
      ∀ i ∈ s.active, i ≠ me → (s.sx i).mark.Open →
        (s.releaseAt pid isCommit nextXid).globalXmin.isSome = true := by
  have hat := (ending_endBase (h.live pid me hme) pid isCommit nextXid).thenOnlyConflicts
    (s.onlyConflicts_endAt pid me isCommit nextXid)
  obtain ⟨hmid, -⟩ := ending_leaveHorizon hat
  obtain ⟨-, hglobal, -⟩ := endOf_finish hmid (h.unfinished pid me hme)
  have hleave := globalXmin_leaveHorizon hat (s.globalXmin_endAt pid me isCommit nextXid)
  have hspares := (spares_endAt (fun _ => True) s pid me isCommit nextXid).trans
    (spares_leaveHorizon _ _ me)
  have hnodup := (finish_spec h hme hspares isCommit).nodup
  rw [← hglobal] at hleave
  unfold releaseAt
  rw [hme]
  simp only
  split
  · rw [globalXmin_clearOld hnodup]
    exact hleave
  · exact hleave

theorem Running.release {s : State} (h : s.Running) (pid : ℤ) (isCommit : Bool) (nextXid : ℕ)
    (ht : (s.releaseAt pid isCommit nextXid).Tracked) : (s.releaseAt pid isCommit nextXid).Running := by
  cases hme : s.mine pid with
  | none =>
    have hsame : s.releaseAt pid isCommit nextXid = s := by
      unfold releaseAt
      rw [hme]
    rw [hsame]
    exact h
  | some me =>
    have hend := endOf_releaseAt h.tracked hme isCommit nextXid
    have hxmin := globalXmin_releaseAt h.tracked hme isCommit nextXid
    refine ⟨ht, fun pid' i hi => ?_, fun pid' i hi => ?_, fun pid' i hi => ?_⟩
    · obtain ⟨hi, hne, hfin⟩ := hend.mine h.tracked hme hi
      exact (hend.active i hne hfin).mpr (h.active pid' i hi)
    · obtain ⟨hi, hne, hfin⟩ := hend.mine h.tracked hme hi
      rw [hend.mark i hne hfin]
      exact h.isOpen pid' i hi
    · obtain ⟨hi, hne, -⟩ := hend.mine h.tracked hme hi
      rcases hxmin with hsame | hsome
      · rw [hsame]
        exact h.horizon pid' i hi
      · exact hsome i (h.active pid' i hi) hne (h.isOpen pid' i hi)

theorem isSome_enterBackend (s : State) (pid : ℤ) (id xmin : ℕ) :
    (s.enterBackend pid id xmin).globalXmin.isSome = true := by
  unfold enterBackend
  split
  · rfl
  · rename_i g hg
    split
    · show s.globalXmin.isSome = true
      rw [hg]
      rfl
    · show s.globalXmin.isSome = true
      rw [hg]
      rfl

theorem horizon_register (s : State) (pid : ℤ) (snap : Snap) (readOnly : Bool) :
    (s.register pid snap readOnly).byPid = s.byPid ∨
      (s.register pid snap readOnly).globalXmin.isSome = true := by
  have hpossible : ∀ (t : State) (id : ℕ) (others : List ℕ),
      (others.foldl (notePossible id) t).byPid = t.byPid := by
    intro t id others
    have hsteady : Steady (fun _ => True) t (others.foldl (notePossible id) t) :=
      Steady.ofOnlyConflicts (OnlyConflicts.foldl (fun s other => s.onlyConflicts_notePossible id other)
        others t)
    exact hsteady.byPid
  unfold register
  split
  · exact Or.inl rfl
  split
  · exact Or.inl rfl
  · simp only
    split
    · split
      · exact Or.inl (hpossible _ _ _)
      · exact Or.inr (isSome_enterBackend _ _ _ _)
    · exact Or.inr (isSome_enterBackend _ _ _ _)

theorem Running.register {s : State} (h : s.Running) (pid : ℤ) (snap : Snap) (readOnly : Bool)
    (ht : (s.register pid snap readOnly).Tracked) : (s.register pid snap readOnly).Running := by
  rcases s.register_marks pid snap readOnly with hs | ⟨id, -, hj⟩
  · exact h.ofSteady hs ht
  · have hsome : (s.register pid snap readOnly).globalXmin.isSome = true := by
      refine (s.horizon_register pid snap readOnly).resolve_left fun hpids => ?_
      have hmine : s.mine pid = some id := by
        rw [mine, ← hpids, hj.byPid, SortedMap.get_insert, if_pos rfl]
      exact hj.free (h.tracked.live pid id hmine)
    refine ⟨ht, fun pid' i hi => ?_, fun pid' i hi => ?_, fun _ _ _ => hsome⟩
    · rw [hj.active]
      exact (hj.mine hi).imp And.right fun hi => h.active pid' i hi.2
    · rcases hj.mine hi with ⟨-, rfl⟩ | ⟨-, hi⟩
      · rw [hj.mark, if_pos rfl]
        exact ⟨rfl, rfl⟩
      · rw [hj.mark, if_neg]
        · exact h.isOpen pid' i hi
        · rintro rfl
          exact hj.free (h.tracked.live pid' i hi)

theorem Running.setXid {s : State} (h : s.Running) (sx xid : ℕ) (ht : (s.setXid sx xid).Tracked) :
    (s.setXid sx xid).Running := by
  unfold State.setXid at ht ⊢
  split
  · exact h
  · rename_i hnone
    rw [if_neg hnone] at ht
    refine ⟨ht, h.active, fun pid i hi => ?_, h.horizon⟩
    have hopen := h.isOpen pid i hi
    rwa [← proj_sx_modify s sx i (f := fun x => { x with topXid := some xid })
      (fun x => x.mark.Open) (fun _ => rfl)] at hopen

theorem Running.call {s : State} (h : s.Running) (nextXid : ℕ) (c : Call) :
    (s.call nextXid c).1.Running := by
  have ht := tracked_call h.tracked nextXid c
  by_cases hreg : ∃ pid snap readOnly, c = .register pid snap readOnly
  · obtain ⟨pid, snap, readOnly, rfl⟩ := hreg
    exact h.register pid snap readOnly ht
  by_cases hxid : ∃ pid xid, c = .setXid pid xid
  · obtain ⟨pid, xid, rfl⟩ := hxid
    unfold State.call at ht ⊢
    simp only at ht ⊢
    split
    · rename_i sx hsx
      rw [hsx] at ht
      exact h.setXid sx xid ht
    · exact h
  by_cases hrel : ∃ pid isCommit, c = .release pid isCommit
  · obtain ⟨pid, isCommit, rfl⟩ := hrel
    exact h.release pid isCommit nextXid ht
  have heffect := s.call_effect nextXid c (fun pid snap readOnly heq => hreg ⟨pid, snap, readOnly, heq⟩)
    (fun pid xid heq => hxid ⟨pid, xid, heq⟩) fun pid isCommit heq => hrel ⟨pid, isCommit, heq⟩
  revert ht heffect
  generalize (s.call nextXid c).1 = s'
  intro ht heffect
  cases heffect with
  | steady hs => exact h.ofSteady (hs.mono fun _ _ => trivial) ht
  | numbered seq hle hs =>
    have hseq : State.Running { s with lastCommitSeq := seq } :=
      ⟨h.tracked.of_spares (Spares.ofSame rfl rfl rfl rfl), h.active, h.isOpen, h.horizon⟩
    exact hseq.ofSteady (hs.mono fun _ _ => trivial) ht
  | safe pid => exact h.release pid false nextXid ht

theorem mem_holders_createLocks (sxs : List ℕ) (s : State) (t : Target) (i : ℕ) (u : Target) :
    i ∈ (sxs.foldl (fun s sx => s.createLock sx t) s).holders u ↔ i ∈ s.holders u ∨ (u = t ∧ i ∈ sxs) := by
  induction sxs generalizing s with
  | nil => simp
  | cons sx sxs ih =>
    rw [List.foldl_cons, ih, mem_holders_createLock, List.mem_cons, or_assoc, and_or_left]

/-- A page split copies the locks of the old page to the new one. -/
theorem mem_holders_pageSplit {s : State} (hsome : s.globalXmin.isSome = true) (db : ℕ) (rel : ℤ)
    (old new i : ℕ) (u : Target) :
    i ∈ (s.pageSplit db rel old new).holders u ↔
      i ∈ s.holders u ∨ (u = .page db rel new ∧ i ∈ s.holders (.page db rel old)) := by
  unfold pageSplit
  rw [if_neg (by rw [Option.isNone_iff_eq_none, ← Option.not_isSome_iff_eq_none, not_not]; exact hsome)]
  exact mem_holders_createLocks _ s _ i u

/-- Whoever's lock covers the old page of a split is covered on the new one. -/
theorem covers_pageSplit {s : State} (h : s.Running) {pid : ℤ} {i : ℕ} (hi : s.mine pid = some i)
    {db : ℕ} {rel : ℤ} {old new : ℕ} (hcov : s.Covers i (.page db rel old)) :
    (s.pageSplit db rel old new).Covers i (.page db rel new) := by
  have hsome := h.horizon pid i hi
  obtain ⟨u, hu, hmem⟩ := hcov
  rcases List.mem_cons.mp hu with rfl | hu
  · refine ⟨.page db rel new, List.mem_cons_self, ?_⟩
    rw [mem_holders_pageSplit hsome]
    exact Or.inr ⟨rfl, hmem⟩
  · refine ⟨u, List.mem_cons_of_mem _ hu, ?_⟩
    rw [mem_holders_pageSplit hsome]
    exact Or.inl hmem

end State

end Secantus.Ssi
