/-
  The transactions sessions are in, and the locks they hold, over every call.

  `Tracked` is the invariant: each session's transaction has a slot of its own, is not among the finished
  ones, and finds its locks in the shared table. The end of a transaction takes away only its own locks
  and those of finished transactions (`releaseAt_spec`).
-/
import Secantus.Ssi.Holding

namespace Secantus.Ssi

open Secantus Secantus.Library

namespace State

/-- What runs, and what is finished. -/
structure Tracked (s : State) : Prop where
  live : ∀ pid i, s.mine pid = some i → s.Live i
  inj : ∀ pid pid' i, s.mine pid = some i → s.mine pid' = some i → pid = pid'
  unfinished : ∀ pid i, s.mine pid = some i → i ∉ s.finishedList
  nodup : s.finishedList.Nodup
  finishedLive : ∀ f ∈ s.finishedList, s.Live f
  ownHeld : ∀ pid i, s.mine pid = some i → s.OwnHeld i

theorem tracked_initial : Tracked initial where
  live pid i h := by cases h
  inj pid pid' i h := by cases h
  unfinished pid i h := by cases h
  nodup := List.nodup_nil
  finishedLive f h := by cases h
  ownHeld pid i h := by cases h

/-- Nothing that runs or is finished loses its slot or its locks. -/
theorem Tracked.of_spares {s s' : State} (h : s.Tracked) (hs : Spares (fun _ => True) s s') :
    s'.Tracked where
  live pid i hpid := by
    rw [mine, hs.byPid] at hpid
    exact (hs.live i trivial).mpr (h.live pid i hpid)
  inj pid pid' i hpid hpid' := by
    rw [mine, hs.byPid] at hpid hpid'
    exact h.inj pid pid' i hpid hpid'
  unfinished pid i hpid := by
    rw [mine, hs.byPid] at hpid
    rw [hs.finishedList]
    exact h.unfinished pid i hpid
  nodup := hs.finishedList ▸ h.nodup
  finishedLive f hf := by
    rw [hs.finishedList] at hf
    exact (hs.live f trivial).mpr (h.finishedLive f hf)
  ownHeld pid i hpid := by
    rw [mine, hs.byPid] at hpid
    exact hs.ownHeld trivial (h.ownHeld pid i hpid)

/-- Fields the locks do not read. -/
theorem Spares.ofSame {P : ℕ → Prop} {s s' : State} (hsx : s'.sxacts = s.sxacts)
    (htargets : s'.targets = s.targets) (hpid : s'.byPid = s.byPid)
    (hlist : s'.finishedList = s.finishedList) : Spares P s s' where
  live i _ := by rw [Live, hsx, Live]
  localLocks i _ := by rw [sx, hsx, sx]
  holders i _ t := by rw [State.holders, htargets, State.holders]
  byPid := hpid
  finishedList := hlist

/-! ## Forgetting a transaction -/

theorem mem_dropHolders {me i : ℕ} (hi : i ≠ me) (ts : List Target)
    (targets : SortedMap Target (List ℕ)) (u : Target) :
    i ∈ ((ts.foldl (dropHolder me) targets).get u).getD [] ↔ i ∈ (targets.get u).getD [] := by
  induction ts generalizing targets with
  | nil => exact Iff.rfl
  | cons t ts ih =>
    rw [List.foldl_cons, ih, mem_dropHolder]
    exact ⟨And.left, fun h => ⟨h, fun heq => hi heq.2⟩⟩

theorem spares_forget (s : State) (me : ℕ) : Spares (· ≠ me) s (s.forget me) := by
  have hclear : Spares (· ≠ me) s
      { s with sxacts := s.sxacts.clear me, active := s.active.filter (· ≠ me) } :=
    { live := fun i hi => by
        show (∃ x, (s.sxacts.clear me).get i = some x) ↔ _
        rw [Slots.get_clear, if_neg (Ne.symm hi), Live]
      localLocks := fun i hi => by
        show (((s.sxacts.clear me).get i).getD default).localLocks = _
        rw [Slots.get_clear, if_neg (Ne.symm hi), sx]
      holders := fun _ _ _ => Iff.rfl
      byPid := rfl
      finishedList := rfl }
  have hpossible : ∀ (s : State) (c : ℕ), Spares (· ≠ me) s
      (if (s.conflicts.get c).isSome then s.releaseConflict c else s) := by
    intro s c
    split
    · exact Spares.ofOnlyConflicts (s.onlyConflicts_releaseConflict c)
    · exact Spares.refl _ s
  have hboth := hclear.trans (Spares.foldl hpossible (s.sx me).possibleUnsafe _)
  unfold forget
  simp only
  split
  · exact hboth
  · exact hboth.trans (Spares.ofSame rfl rfl rfl rfl)

/-- `release_one` leaves every other transaction its slot and its locks. -/
theorem spares_releaseOne (s : State) (me : ℕ) (isPartial : Bool) :
    Spares (· ≠ me) s (s.releaseOne me isPartial) := by
  have htargets : Spares (· ≠ me) s
      { s with targets := (s.sx me).locks.foldl (dropHolder me) s.targets } :=
    { live := fun _ _ => Iff.rfl
      localLocks := fun _ _ => rfl
      holders := fun i hi u => mem_dropHolders hi _ _ u
      byPid := rfl
      finishedList := rfl }
  have hown := htargets.trans (Spares.ofModifyOther _ (fun h => h rfl)
    fun x => { x with locks := [], localLocks := SortedMap.empty })
  have hloop : ∀ (cs : List ℕ) (s : State), Spares (· ≠ me) s (cs.foldl releaseConflict s) :=
    fun cs s => Spares.ofOnlyConflicts (OnlyConflicts.foldl onlyConflicts_releaseConflict cs s)
  unfold releaseOne
  cases isPartial with
  | true => exact hown.trans (hloop _ _)
  | false => exact ((hown.trans (hloop _ _)).trans (hloop _ _)).trans (spares_forget _ me)

theorem live_releaseOne_partly (s : State) (me i : ℕ) : (s.releaseOne me true).Live i ↔ s.Live i := by
  unfold releaseOne
  simp only [if_true]
  rw [(OnlyConflicts.foldl onlyConflicts_releaseConflict _ _).live i, live_modify]
  rfl

/-! ## The finished transactions -/

/-- `clear_old` touches only finished transactions, and what it keeps of them keeps its slot. -/
theorem clearFrom_spec (fs : List ℕ) (hnodup : fs.Nodup) (s : State) :
    Spares (· ∉ fs) s (s.clearFrom fs).1 ∧ (s.clearFrom fs).2.Sublist fs ∧
      ∀ f ∈ (s.clearFrom fs).2, (s.clearFrom fs).1.Live f ↔ s.Live f := by
  induction fs generalizing s with
  | nil => exact ⟨Spares.refl _ s, List.Sublist.refl [], fun f hf => by cases hf⟩
  | cons f fs ih =>
    obtain ⟨hf, hnodup⟩ := List.nodup_cons.mp hnodup
    have hmono : ∀ i, i ∉ f :: fs → i ∉ fs := fun i hi h => hi (List.mem_cons_of_mem _ h)
    have hne : ∀ i, i ∉ f :: fs → i ≠ f := fun i hi h => hi (h ▸ List.mem_cons_self)
    -- a transaction that is gone: the rest of the loop, from the state without it
    have hgone : ∀ s₁, Spares (· ≠ f) s s₁ →
        Spares (· ∉ f :: fs) s (s₁.clearFrom fs).1 ∧ (s₁.clearFrom fs).2.Sublist (f :: fs) ∧
          ∀ g ∈ (s₁.clearFrom fs).2, (s₁.clearFrom fs).1.Live g ↔ s.Live g := by
      intro s₁ hs₁
      obtain ⟨hspares, hsub, hlive⟩ := ih hnodup s₁
      refine ⟨(hs₁.mono hne).trans (hspares.mono hmono), hsub.cons f, fun g hg => ?_⟩
      refine (hlive g hg).trans (hs₁.live g ?_)
      rintro rfl
      exact hf (hsub.subset hg)
    have hrelease : Spares (· ≠ f) s
        ((s.modify f fun x => { x with finished := false }).releaseOne f false) :=
      (Spares.ofModifyOther s (fun h => h rfl) _).trans (spares_releaseOne _ f false)
    unfold clearFrom
    simp only
    split
    · exact hgone _ hrelease
    split
    · split
      · exact hgone _ (hrelease.trans (Spares.ofSame rfl rfl rfl rfl))
      · -- partly released, and kept
        have hpart : Spares (· ≠ f) s { s.releaseOne f true with
            havePartialClearedThrough := (s.sx f).commitSeq } :=
          (spares_releaseOne s f true).trans (Spares.ofSame rfl rfl rfl rfl)
        obtain ⟨hspares, hsub, hlive⟩ := ih hnodup { s.releaseOne f true with
            havePartialClearedThrough := (s.sx f).commitSeq }
        refine ⟨(hpart.mono hne).trans (hspares.mono hmono), hsub.cons_cons f, fun g hg => ?_⟩
        have hslot : ∀ i, State.Live { s.releaseOne f true with
            havePartialClearedThrough := (s.sx f).commitSeq } i ↔ s.Live i :=
          fun i => live_releaseOne_partly s f i
        rcases List.mem_cons.mp hg with rfl | hg
        · exact (hspares.live g hf).trans (hslot g)
        · exact (hlive g hg).trans (hslot g)
    · exact ⟨Spares.refl _ s, List.Sublist.refl _, fun _ _ => Iff.rfl⟩

/-! ## The end of a transaction -/

theorem spares_endMark (P : ℕ → Prop) (s : State) (me : ℕ) (isCommit didWrite : Bool) :
    Spares P s (s.endMark me isCommit didWrite) := by
  unfold endMark
  split
  · have hseq : Spares P s { s with lastCommitSeq := s.lastCommitSeq + 1 } :=
      Spares.ofSame rfl rfl rfl rfl
    refine hseq.trans (Spares.ofModify _ me ?_)
    exact fun _ => rfl
  · refine Spares.ofModify s me ?_
    exact fun _ => rfl

/-- One fewer writable transaction, unless a read-only one ends. -/
def countDown (s : State) (declaredReadOnly : Bool) : State :=
  if declaredReadOnly then s
  else
    { s with
      writableCount := s.writableCount - 1
      canPartialClearThrough :=
        if s.writableCount - 1 = 0 then s.lastCommitSeq else s.canPartialClearThrough }

theorem onlyConflicts_endCount (s : State) (me : ℕ) (declaredReadOnly : Bool) :
    OnlyConflicts (s.countDown declaredReadOnly) (s.endCount me declaredReadOnly) := by
  unfold endCount countDown
  split
  · exact OnlyConflicts.foldl onlyConflicts_releaseConflict _ _
  · exact OnlyConflicts.refl _

theorem onlyConflicts_endSummary (s : State) (me : ℕ) (isCommit : Bool) :
    OnlyConflicts s (s.endSummary me isCommit) := by
  unfold endSummary
  split
  · refine OnlyConflicts.modify s me ?_
    exact fun _ => rfl
  · exact OnlyConflicts.refl s

/-- The conflicts of a transaction's end change only conflicts, once the writers are counted. -/
theorem onlyConflicts_endConflicts (s : State) (me : ℕ) (isCommit declaredReadOnly didWrite : Bool) :
    OnlyConflicts (s.countDown declaredReadOnly)
      (s.endConflicts me isCommit declaredReadOnly didWrite) := by
  have hcount := s.onlyConflicts_endCount me declaredReadOnly
  have hsummary := hcount.trans ((s.endCount me declaredReadOnly).onlyConflicts_endSummary me isCommit)
  have hout : ∀ (cs : List ℕ) (s : State), OnlyConflicts s (cs.foldl (endOut me isCommit) s) :=
    fun cs s => OnlyConflicts.foldl (fun s c => s.onlyConflicts_endOut me isCommit c) cs s
  have hin : ∀ (cs : List ℕ) (s : State), OnlyConflicts s (cs.foldl (endIn isCommit) s) :=
    fun cs s => OnlyConflicts.foldl (fun s c => s.onlyConflicts_endIn isCommit c) cs s
  have hpossible : ∀ (cs : List ℕ) (s : State),
      OnlyConflicts s (cs.foldl (endUnsafe me isCommit didWrite) s) :=
    fun cs s => OnlyConflicts.foldl (fun s c => s.onlyConflicts_endUnsafe me isCommit didWrite c) cs s
  unfold endConflicts
  simp only
  split
  · exact (hsummary.trans (hout _ _)).trans (hin _ _)
  · exact ((hsummary.trans (hout _ _)).trans (hin _ _)).trans (hpossible _ _)

theorem spares_endConflicts (P : ℕ → Prop) (s : State) (me : ℕ)
    (isCommit declaredReadOnly didWrite : Bool) :
    Spares P s (s.endConflicts me isCommit declaredReadOnly didWrite) := by
  have hcount : Spares P s (s.countDown declaredReadOnly) := by
    unfold countDown
    split
    · exact Spares.refl P s
    · exact Spares.ofSame rfl rfl rfl rfl
  exact hcount.trans (Spares.ofOnlyConflicts (s.onlyConflicts_endConflicts me isCommit _ didWrite))

theorem spares_leaveHorizon (P : ℕ → Prop) (s : State) (me : ℕ) : Spares P s (s.leaveHorizon me).1 := by
  unfold leaveHorizon
  split
  · simp only
    split
    · exact Spares.ofSame rfl rfl rfl rfl
    · exact Spares.ofSame rfl rfl rfl rfl
  · exact Spares.refl P s

/-- Up to the horizon, the end of a transaction changes marks and conflicts, and the backend's entry. -/
theorem spares_endAt (P : ℕ → Prop) (s : State) (pid : ℤ) (me : ℕ) (isCommit : Bool) (nextXid : ℕ) :
    Spares P { s with byPid := s.byPid.erase pid } (s.endAt pid me isCommit nextXid) := by
  refine Spares.trans (Spares.ofModify _ me ?_)
    ((spares_endMark P _ me isCommit _).trans (spares_endConflicts P _ me isCommit _ _))
  exact fun _ => rfl

/-- What `release_at` leaves: the other sessions' transactions as they were, and finished ones that have
    their slots. -/
structure Released (pid : ℤ) (me : ℕ) (s s' : State) : Prop where
  byPid : s'.byPid = s.byPid.erase pid
  live : ∀ i, i ≠ me → i ∉ s.finishedList → (s'.Live i ↔ s.Live i)
  localLocks : ∀ i, i ≠ me → i ∉ s.finishedList → (s'.sx i).localLocks = (s.sx i).localLocks
  holders : ∀ i, i ≠ me → i ∉ s.finishedList → ∀ t, i ∈ s'.holders t ↔ i ∈ s.holders t
  nodup : s'.finishedList.Nodup
  finished : ∀ f ∈ s'.finishedList, (f = me ∨ f ∈ s.finishedList) ∧ s'.Live f

theorem finish_spec {s mid : State} (h : s.Tracked) {pid : ℤ} {me : ℕ} (hme : s.mine pid = some me)
    (hmid : Spares (fun _ => True) { s with byPid := s.byPid.erase pid } mid) (isCommit : Bool) :
    Released pid me s (mid.finish me isCommit) := by
  have hunfinished := h.unfinished pid me hme
  have hlist : mid.finishedList = s.finishedList := hmid.finishedList
  unfold finish
  split
  · have hmem : ∀ f, f ∈ mid.finishedList ++ [me] → f = me ∨ f ∈ s.finishedList := by
      intro f hf
      rw [hlist, List.mem_append, List.mem_singleton] at hf
      exact hf.symm
    refine ⟨hmid.byPid, fun i _ _ => ?_, fun i _ _ => ?_, fun i _ _ t => hmid.holders i trivial t, ?_,
      fun f hf => ⟨hmem f hf, ?_⟩⟩
    · exact live_modify.trans (hmid.live i trivial)
    · refine (proj_sx_modify mid me i Sxact.localLocks ?_).trans (hmid.localLocks i trivial)
      exact fun _ => rfl
    · show (mid.finishedList ++ [me]).Nodup
      rw [hlist, List.nodup_append]
      refine ⟨h.nodup, List.nodup_singleton _, fun a ha b hb => ?_⟩
      rw [List.mem_singleton.mp hb]
      rintro rfl
      exact hunfinished ha
    · have hlive : s.Live f := by
        rcases hmem f hf with rfl | hf
        · exact h.live pid f hme
        · exact h.finishedLive f hf
      exact live_modify.mpr ((hmid.live f trivial).mpr hlive)
  · have hone := spares_releaseOne mid me false
    have hlist' : (mid.releaseOne me false).finishedList = s.finishedList := hone.finishedList.trans hlist
    refine ⟨hone.byPid.trans hmid.byPid, fun i hi _ => ?_, fun i hi _ => ?_, fun i hi _ t => ?_, ?_,
      fun f hf => ?_⟩
    · exact (hone.live i hi).trans (hmid.live i trivial)
    · exact (hone.localLocks i hi).trans (hmid.localLocks i trivial)
    · exact (hone.holders i hi t).trans (hmid.holders i trivial t)
    · rw [hlist']
      exact h.nodup
    · rw [hlist'] at hf
      have hne : f ≠ me := by
        rintro rfl
        exact hunfinished hf
      exact ⟨Or.inr hf, (hone.live f hne).mpr ((hmid.live f trivial).mpr (h.finishedLive f hf))⟩

theorem Released.clearOld {pid : ℤ} {me : ℕ} {s fin : State} (h : Released pid me s fin) :
    Released pid me s fin.clearOld := by
  obtain ⟨hspares, hsub, hkept⟩ := clearFrom_spec fin.finishedList h.nodup fin
  have hrunning : ∀ i, i ≠ me → i ∉ s.finishedList → i ∉ fin.finishedList := by
    intro i hi hf hmem
    exact (h.finished i hmem).1.elim hi hf
  refine ⟨hspares.byPid.trans h.byPid, fun i hi hf => ?_, fun i hi hf => ?_, fun i hi hf t => ?_,
    h.nodup.sublist hsub, fun f hf => ?_⟩
  · exact (hspares.live i (hrunning i hi hf)).trans (h.live i hi hf)
  · exact (hspares.localLocks i (hrunning i hi hf)).trans (h.localLocks i hi hf)
  · exact (hspares.holders i (hrunning i hi hf) t).trans (h.holders i hi hf t)
  · obtain ⟨hwhere, hlive⟩ := h.finished f (hsub.subset hf)
    exact ⟨hwhere, (hkept f hf).mpr hlive⟩

theorem releaseAt_spec {s : State} (h : s.Tracked) {pid : ℤ} {me : ℕ} (hme : s.mine pid = some me)
    (isCommit : Bool) (nextXid : ℕ) : Released pid me s (s.releaseAt pid isCommit nextXid) := by
  have hmid := (spares_endAt (fun _ => True) s pid me isCommit nextXid).trans
    (spares_leaveHorizon _ _ me)
  have hfin := finish_spec h hme hmid isCommit
  unfold releaseAt
  rw [hme]
  simp only
  split
  · exact hfin.clearOld
  · exact hfin

/-! ## What a call keeps -/

/-- The sessions' transactions after a step are those before it, and what was covered still is, apart from
    the targets in `D`. -/
structure KeepsCover (D : ℤ → Target → Prop) (s s' : State) : Prop where
  tracked : s'.Tracked
  mine : ∀ pid i, s'.mine pid = some i → s.mine pid = some i
  covers : ∀ pid i, s'.mine pid = some i → ∀ t, ¬ D pid t → s.Covers i t → s'.Covers i t

namespace KeepsCover

variable {D : ℤ → Target → Prop} {s s' s'' : State}

theorem refl (h : s.Tracked) : KeepsCover D s s := ⟨h, fun _ _ h => h, fun _ _ _ _ _ h => h⟩

theorem trans (h : KeepsCover D s s') (h' : KeepsCover D s' s'') : KeepsCover D s s'' where
  tracked := h'.tracked
  mine pid i hpid := h.mine pid i (h'.mine pid i hpid)
  covers pid i hpid t ht hcov := h'.covers pid i hpid t ht (h.covers pid i (h'.mine pid i hpid) t ht hcov)

theorem ofSpares (h : s.Tracked) (hs : Spares (fun _ => True) s s') : KeepsCover D s s' where
  tracked := h.of_spares hs
  mine pid i hpid := by
    rw [State.mine, hs.byPid] at hpid
    exact hpid
  covers _ _ _ t _ hcov := (hs.covers trivial t).mpr hcov

theorem ofOnlyConflicts (h : s.Tracked) (hs : OnlyConflicts s s') : KeepsCover D s s' :=
  ofSpares h (Spares.ofOnlyConflicts hs)

/-- One session's transaction changes its locks, the others keep theirs. -/
theorem ofOne (h : s.Tracked) {pid : ℤ} {me : ℕ} (hme : s.mine pid = some me)
    (hs : Spares (· ≠ me) s s') (hlive : s'.Live me) (hown : s'.OwnHeld me)
    (hcov : ∀ t, ¬ D pid t → s.Covers me t → s'.Covers me t) : KeepsCover D s s' where
  tracked := by
    have hslot : ∀ i, s.Live i → s'.Live i := by
      intro i hi
      by_cases heq : i = me
      · exact heq ▸ hlive
      · exact (hs.live i heq).mpr hi
    refine ⟨fun pid' i hpid => ?_, fun pid' pid'' i hpid hpid' => ?_, fun pid' i hpid => ?_,
      hs.finishedList ▸ h.nodup, fun f hf => ?_, fun pid' i hpid => ?_⟩
    · rw [State.mine, hs.byPid] at hpid
      exact hslot i (h.live pid' i hpid)
    · rw [State.mine, hs.byPid] at hpid hpid'
      exact h.inj pid' pid'' i hpid hpid'
    · rw [State.mine, hs.byPid] at hpid
      rw [hs.finishedList]
      exact h.unfinished pid' i hpid
    · rw [hs.finishedList] at hf
      exact hslot f (h.finishedLive f hf)
    · rw [State.mine, hs.byPid] at hpid
      by_cases heq : i = me
      · exact heq ▸ hown
      · exact hs.ownHeld heq (h.ownHeld pid' i hpid)
  mine pid' i hpid := by
    rw [State.mine, hs.byPid] at hpid
    exact hpid
  covers pid' i hpid t ht hc := by
    rw [State.mine, hs.byPid] at hpid
    by_cases heq : i = me
    · subst heq
      obtain rfl := h.inj pid' pid i hpid hme
      exact hcov t ht hc
    · exact (hs.covers heq t).mpr hc

end KeepsCover

theorem keepsCover_releaseAt {D : ℤ → Target → Prop} {s : State} (h : s.Tracked) (pid : ℤ)
    (isCommit : Bool) (nextXid : ℕ) : KeepsCover D s (s.releaseAt pid isCommit nextXid) := by
  cases hme : s.mine pid with
  | none =>
    have hsame : s.releaseAt pid isCommit nextXid = s := by
      unfold releaseAt
      rw [hme]
    rw [hsame]
    exact KeepsCover.refl h
  | some me =>
    have hrel := releaseAt_spec h hme isCommit nextXid
    have hmine : ∀ pid' i, (s.releaseAt pid isCommit nextXid).mine pid' = some i →
        s.mine pid' = some i ∧ i ≠ me := by
      intro pid' i hpid
      rw [mine, hrel.byPid, SortedMap.get_erase] at hpid
      by_cases heq : pid = pid'
      · rw [if_pos heq] at hpid
        cases hpid
      · rw [if_neg heq] at hpid
        refine ⟨hpid, ?_⟩
        rintro rfl
        exact heq (h.inj pid pid' i hme hpid)
    refine ⟨⟨fun pid' i hpid => ?_, fun pid' pid'' i hpid hpid' => ?_, fun pid' i hpid hfin => ?_,
      hrel.nodup, fun f hf => (hrel.finished f hf).2, fun pid' i hpid t ht => ?_⟩,
      fun pid' i hpid => (hmine pid' i hpid).1, fun pid' i hpid t _ hcov => ?_⟩
    · obtain ⟨hpid, hne⟩ := hmine pid' i hpid
      exact (hrel.live i hne (h.unfinished pid' i hpid)).mpr (h.live pid' i hpid)
    · exact h.inj pid' pid'' i (hmine pid' i hpid).1 (hmine pid'' i hpid').1
    · obtain ⟨hpid, hne⟩ := hmine pid' i hpid
      exact (hrel.finished i hfin).1.elim hne (h.unfinished pid' i hpid)
    · obtain ⟨hpid, hne⟩ := hmine pid' i hpid
      have hunf := h.unfinished pid' i hpid
      rw [hrel.holders i hne hunf]
      refine h.ownHeld pid' i hpid t ?_
      rw [lockExists, ← hrel.localLocks i hne hunf]
      exact ht
    · obtain ⟨hpid, hne⟩ := hmine pid' i hpid
      obtain ⟨u, hu, hmem⟩ := hcov
      exact ⟨u, hu, (hrel.holders i hne (h.unfinished pid' i hpid) u).mpr hmem⟩

/-- `needed_for_read` releases a safe read-only transaction, or changes nothing. -/
theorem keepsCover_neededForRead {D : ℤ → Target → Prop} {s : State} (h : s.Tracked) (pid : ℤ)
    (nextXid : ℕ) : KeepsCover D s (s.neededForRead pid nextXid).1 := by
  unfold neededForRead
  split
  · exact KeepsCover.refl h
  · split
    · exact keepsCover_releaseAt h pid false nextXid
    · exact KeepsCover.refl h

theorem mine_of_neededForRead {s : State} {pid : ℤ} {nextXid sx : ℕ}
    (h : (s.neededForRead pid nextXid).2 = some sx) :
    s.mine pid = some sx ∧ (s.neededForRead pid nextXid).1 = s := by
  unfold neededForRead at h ⊢
  split at h
  · cases h
  · rename_i heq
    split at h
    · cases h
    · rename_i hsafe
      rw [Option.some.inj h] at heq
      refine ⟨heq, ?_⟩
      rw [if_neg hsafe]

theorem keepsCover_acquire {D : ℤ → Target → Prop} {s : State} (h : s.Tracked) {pid : ℤ} {me : ℕ}
    (hme : s.mine pid = some me) (t : Target) : KeepsCover D s (s.acquire me t) := by
  have hacq := acquire_spec (h.live pid me hme) (h.ownHeld pid me hme) t
  exact KeepsCover.ofOne h hme hacq.spares ((hacq.live me).mpr (h.live pid me hme)) hacq.ownHeld
    fun r _ hr => hacq.kept r hr

theorem keepsCover_lockTarget {D : ℤ → Target → Prop} {s : State} (h : s.Tracked) (pid : ℤ)
    (nextXid : ℕ) (t : Target) : KeepsCover D s (s.lockTarget pid nextXid t) := by
  have hneed := keepsCover_neededForRead (D := D) h pid nextXid
  unfold lockTarget
  split
  · rename_i s' sx heq
    obtain ⟨hme, hsame⟩ := mine_of_neededForRead (congrArg Prod.snd heq)
    rw [heq] at hsame hneed
    obtain rfl : s' = s := hsame
    exact keepsCover_acquire h hme t
  · rename_i heq
    rw [heq] at hneed
    exact hneed

theorem keepsCover_lockTuple {D : ℤ → Target → Prop} {s : State} (h : s.Tracked) (pid : ℤ)
    (nextXid db : ℕ) (rel ctid : ℤ) (xmin : Option ℕ) :
    KeepsCover D s (s.lockTuple pid nextXid db rel ctid xmin) := by
  have hneed := keepsCover_neededForRead (D := D) h pid nextXid
  unfold lockTuple
  split
  · rename_i heq
    rw [heq] at hneed
    exact hneed
  · rename_i s' sx heq
    obtain ⟨hme, hsame⟩ := mine_of_neededForRead (congrArg Prod.snd heq)
    rw [heq] at hsame hneed
    obtain rfl : s' = s := hsame
    split
    · exact KeepsCover.refl h
    split
    · exact KeepsCover.refl h
    · exact keepsCover_acquire h hme _

theorem keepsCover_scanConflictsOut {D : ℤ → Target → Prop} {s : State} (h : s.Tracked) (pid : ℤ)
    (nextXid db : ℕ) (rel : ℤ) (examined : ℤ → Option Document → Bool) (tuples : Bool) :
    KeepsCover D s (s.scanConflictsOut pid nextXid db rel examined tuples).1 := by
  have hneed := keepsCover_neededForRead (D := D) h pid nextXid
  unfold scanConflictsOut
  split
  · exact KeepsCover.refl h
  split
  · rename_i heq
    rw [heq] at hneed
    exact hneed
  · rename_i heq
    rw [heq] at hneed
    split
    · exact hneed
    · exact hneed.trans (KeepsCover.ofOnlyConflicts hneed.tracked (onlyConflicts_checkVersions _ _ _))

/-! ## Page splits and writes -/

theorem keepsCover_createLock {D : ℤ → Target → Prop} {s : State} (h : s.Tracked) (sx : ℕ) (t : Target) :
    KeepsCover D s (s.createLock sx t) := by
  have hs := spares_createLock s sx t
  have hgrow : ∀ i u, i ∈ s.holders u → i ∈ (s.createLock sx t).holders u :=
    fun i u hu => (mem_holders_createLock s sx t i u).mpr (Or.inl hu)
  have hmine : ∀ pid, (s.createLock sx t).mine pid = s.mine pid := fun pid => by
    rw [mine, hs.byPid, mine]
  refine ⟨⟨fun pid i hpid => ?_, fun pid pid' i hpid hpid' => ?_, fun pid i hpid => ?_,
    hs.finishedList ▸ h.nodup, fun f hf => ?_, fun pid i hpid u hu => ?_⟩, fun pid i hpid => ?_,
    fun pid i _ u _ hcov => ?_⟩
  · rw [hmine] at hpid
    exact (live_createLock s sx t i).mpr (h.live pid i hpid)
  · rw [hmine] at hpid hpid'
    exact h.inj pid pid' i hpid hpid'
  · rw [hmine] at hpid
    rw [hs.finishedList]
    exact h.unfinished pid i hpid
  · rw [hs.finishedList] at hf
    exact (live_createLock s sx t f).mpr (h.finishedLive f hf)
  · rw [hmine] at hpid
    rw [lockExists, localLocks_createLock] at hu
    exact hgrow i u (h.ownHeld pid i hpid u hu)
  · rw [hmine] at hpid
    exact hpid
  · obtain ⟨v, hv, hmem⟩ := hcov
    exact ⟨v, hv, hgrow i v hmem⟩

theorem keepsCover_pageSplit {D : ℤ → Target → Prop} {s : State} (h : s.Tracked) (db : ℕ) (rel : ℤ)
    (old new : ℕ) : KeepsCover D s (s.pageSplit db rel old new) := by
  have hloop : ∀ (sxs : List ℕ) (s : State), s.Tracked →
      KeepsCover D s (sxs.foldl (fun s sx => s.createLock sx (.page db rel new)) s) := by
    intro sxs
    induction sxs with
    | nil => exact fun s h => KeepsCover.refl h
    | cons sx sxs ih =>
      intro s h
      have hone := keepsCover_createLock (D := D) h sx (.page db rel new)
      exact hone.trans (ih _ hone.tracked)
  unfold pageSplit
  split
  · exact KeepsCover.refl h
  · exact hloop _ s h

theorem keepsCover_targetConflictsIn {s : State} (h : s.Tracked) {pid : ℤ} {me : ℕ}
    (hme : s.mine pid = some me) (t : Target) :
    KeepsCover (fun pid' u => pid' = pid ∧ u = t ∧ t.isTuple = true) s (s.targetConflictsIn me t).1 := by
  unfold targetConflictsIn
  split
  · exact KeepsCover.refl h
  · rename_i holders _
    have hflag := s.onlyConflicts_flagHolders me holders
    split
    · rename_i heq
      rw [heq] at hflag
      exact KeepsCover.ofOnlyConflicts h hflag
    · rename_i s' heq
      rw [heq] at hflag
      have hkeep := KeepsCover.ofOnlyConflicts (D := fun pid' u => pid' = pid ∧ u = t ∧ t.isTuple = true)
        h hflag
      split
      · rename_i hdrop
        rw [Bool.and_eq_true] at hdrop
        have hme' : s'.mine pid = some me := by
          rw [hflag.mine]
          exact hme
        have hlive' := hkeep.tracked.live pid me hme'
        refine hkeep.trans (KeepsCover.ofOne hkeep.tracked hme' (spares_dropLock s' me t)
          ((live_dropLock s' me t me).mpr hlive') (fun u hu => ?_) fun u hu hcov => ?_)
        · rw [lockExists_dropLock hlive', Bool.and_eq_true, decide_eq_true_eq] at hu
          refine (mem_holders_dropLock s' me t me u).mpr ⟨?_, fun hand => hu.1 hand.1⟩
          exact hkeep.tracked.ownHeld pid me hme' u hu.2
        · -- only `t` itself was covered by the lock on the tuple `t`
          obtain ⟨v, hv, hmem⟩ := hcov
          refine ⟨v, hv, (mem_holders_dropLock s' me t me v).mpr ⟨hmem, ?_⟩⟩
          rintro ⟨rfl, -⟩
          refine hu ⟨rfl, ?_, hdrop.1⟩
          rcases List.mem_cons.mp hv with rfl | hv
          · rfl
          · have htuple := hdrop.1
            cases u with
            | relation db rel => cases hv
            | page db rel blk =>
              rw [List.mem_singleton.mp hv] at htuple
              cases htuple
            | tuple db rel blk off =>
              rcases List.mem_cons.mp hv with rfl | hv
              · cases htuple
              · rw [List.mem_singleton.mp hv] at htuple
                cases htuple
      · exact hkeep

theorem KeepsCover.mono {D D' : ℤ → Target → Prop} {s s' : State} (h : KeepsCover D s s')
    (hD : ∀ pid t, D pid t → D' pid t) : KeepsCover D' s s' :=
  ⟨h.tracked, h.mine, fun pid i hpid t ht => h.covers pid i hpid t fun hd => ht (hD pid t hd)⟩

theorem byPid_targetConflictsIn (s : State) (me : ℕ) (t : Target) :
    (s.targetConflictsIn me t).1.byPid = s.byPid := by
  unfold targetConflictsIn
  split
  · rfl
  · rename_i holders _
    have hflag := s.onlyConflicts_flagHolders me holders
    split
    · rename_i heq
      rw [heq] at hflag
      exact hflag.byPid
    · rename_i heq
      rw [heq] at hflag
      split
      · exact hflag.byPid
      · exact hflag.byPid

theorem keepsCover_conflictsIn {s : State} (h : s.Tracked) {pid : ℤ} {me : ℕ}
    (hme : s.mine pid = some me) (ts : List Target) :
    KeepsCover (fun pid' u => pid' = pid ∧ u ∈ ts ∧ u.isTuple = true) s (s.conflictsIn me ts).1 := by
  induction ts generalizing s with
  | nil => exact KeepsCover.refl h
  | cons t ts ih =>
    have hfirst : KeepsCover (fun pid' u => pid' = pid ∧ u ∈ t :: ts ∧ u.isTuple = true) s
        (s.targetConflictsIn me t).1 := by
      refine (keepsCover_targetConflictsIn h hme t).mono fun pid' u hu => ?_
      obtain ⟨rfl, rfl, htuple⟩ := hu
      exact ⟨rfl, List.mem_cons_self, htuple⟩
    have hmine : (s.targetConflictsIn me t).1.mine pid = some me := by
      rw [mine, byPid_targetConflictsIn]
      exact hme
    unfold conflictsIn
    split
    · rename_i heq
      rw [heq] at hfirst
      exact hfirst
    · rename_i s' heq
      rw [heq] at hfirst hmine
      refine hfirst.trans ((ih hfirst.tracked hmine).mono fun pid' u hu => ?_)
      exact ⟨hu.1, List.mem_cons_of_mem _ hu.2.1, hu.2.2⟩

/-- A write drops at most the lock on the tuple that it names. -/
theorem keepsCover_conflictIn {s : State} (h : s.Tracked) (pid : ℤ) (db : ℕ) (rel : ℤ)
    (ctid : Option ℤ) (blk : Option ℕ) :
    KeepsCover (fun pid' u => pid' = pid ∧ ∃ c, ctid = some c ∧ u = .tuple db rel (blkOf c) (offOf c)) s
      (s.conflictIn pid db rel ctid blk).1 := by
  unfold conflictIn
  split
  · exact KeepsCover.refl h
  · rename_i me hme
    split
    · exact KeepsCover.refl h
    · have hmark : Spares (fun _ => True) s (s.modify me fun x => { x with didWrite := true }) := by
        refine Spares.ofModify s me ?_
        exact fun _ => rfl
      refine (KeepsCover.ofSpares h hmark).trans
        ((keepsCover_conflictsIn (h.of_spares hmark) hme _).mono fun pid' u hu => ?_)
      obtain ⟨hpid, hmem, htuple⟩ := hu
      refine ⟨hpid, ?_⟩
      simp only [writeTargets, List.mem_append, Option.mem_toList, Option.map_eq_some_iff,
        List.mem_singleton] at hmem
      rcases hmem with (⟨c, hc, rfl⟩ | ⟨b, -, rfl⟩) | rfl
      · exact ⟨c, hc, rfl⟩
      · cases htuple
      · cases htuple

theorem keepsCover_tableConflictIn {D : ℤ → Target → Prop} {s : State} (h : s.Tracked) (pid : ℤ) (db : ℕ)
    (rel : ℤ) : KeepsCover D s (s.tableConflictIn pid db rel).1 := by
  unfold tableConflictIn
  split
  · exact KeepsCover.refl h
  split
  · exact KeepsCover.refl h
  · rename_i me _
    have hmark : Spares (fun _ => True) s (s.modify me fun x => { x with didWrite := true }) := by
      refine Spares.ofModify s me ?_
      exact fun _ => rfl
    exact KeepsCover.ofSpares h
      (hmark.trans (Spares.ofOnlyConflicts (onlyConflicts_flagTargets _ me _)))

theorem keepsCover_preCommit {D : ℤ → Target → Prop} {s : State} (h : s.Tracked) (pid : ℤ) :
    KeepsCover D s (s.preCommit pid).1 := by
  unfold preCommit
  split
  · exact KeepsCover.refl h
  · rename_i me _
    have hdoom := s.onlyConflicts_doomPivots me (s.sx me).inConflicts
    split
    · exact KeepsCover.refl h
    split
    · rename_i heq
      rw [heq] at hdoom
      exact KeepsCover.ofOnlyConflicts h hdoom
    · rename_i s' heq
      rw [heq] at hdoom
      have hseq : Spares (fun _ => True) s' { s' with lastCommitSeq := s'.lastCommitSeq + 1 } :=
        Spares.ofSame rfl rfl rfl rfl
      refine KeepsCover.ofSpares h (((Spares.ofOnlyConflicts hdoom).trans hseq).trans
        (Spares.ofModify _ me ?_))
      exact fun _ => rfl

/-! ## A new transaction -/

/-- A registered transaction is a new one, and the others keep theirs. -/
structure Admitted (pid : ℤ) (s s' : State) : Prop where
  tracked : s'.Tracked
  mine : ∀ pid' i, s'.mine pid' = some i → s.mine pid' = some i ∨ (pid' = pid ∧ s.mine pid = none)
  covers : ∀ pid' i, s.mine pid' = some i → ∀ t, s.Covers i t → s'.Covers i t

/-- The free slot `id` was taken, or tried, and the backend got no entry. -/
theorem Admitted.ofSpares {s s' : State} (h : s.Tracked) {id : ℕ} (hfree : ¬ s.Live id)
    (hs : Spares (· ≠ id) s s') (pid : ℤ) : Admitted pid s s' := by
  have hne : ∀ i, s.Live i → i ≠ id := fun i hi heq => hfree (heq ▸ hi)
  have hmine : ∀ pid', s'.mine pid' = s.mine pid' := fun pid' => by rw [State.mine, hs.byPid, State.mine]
  refine ⟨⟨fun pid' i hpid => ?_, fun pid' pid'' i hpid hpid' => ?_, fun pid' i hpid => ?_,
    hs.finishedList ▸ h.nodup, fun f hf => ?_, fun pid' i hpid => ?_⟩, fun pid' i hpid => ?_,
    fun pid' i hpid t hcov => ?_⟩
  · rw [hmine] at hpid
    have hi := h.live pid' i hpid
    exact (hs.live i (hne i hi)).mpr hi
  · rw [hmine] at hpid hpid'
    exact h.inj pid' pid'' i hpid hpid'
  · rw [hmine] at hpid
    rw [hs.finishedList]
    exact h.unfinished pid' i hpid
  · rw [hs.finishedList] at hf
    have hf := h.finishedLive f hf
    exact (hs.live f (hne f hf)).mpr hf
  · rw [hmine] at hpid
    exact hs.ownHeld (hne i (h.live pid' i hpid)) (h.ownHeld pid' i hpid)
  · rw [hmine] at hpid
    exact Or.inl hpid
  · exact (hs.covers (hne i (h.live pid' i hpid)) t).mpr hcov

/-- The backend's entry for the transaction in `id`. -/
theorem Admitted.enterBackend {s s' : State} {pid : ℤ} (h : Admitted pid s s') {id : ℕ}
    (hnone : s.mine pid = none) (hlive : s'.Live id) (hown : s'.OwnHeld id)
    (hother : ∀ pid', s'.mine pid' ≠ some id) (hfin : id ∉ s'.finishedList) (xmin : ℕ) :
    Admitted pid s (s'.enterBackend pid id xmin) := by
  have hslots : (s'.enterBackend pid id xmin).sxacts = s'.sxacts ∧ (s'.enterBackend pid id xmin).targets = s'.targets ∧
      (s'.enterBackend pid id xmin).finishedList = s'.finishedList ∧
      (s'.enterBackend pid id xmin).byPid = s'.byPid.insert pid id := by
    unfold State.enterBackend
    split
    · exact ⟨rfl, rfl, rfl, rfl⟩
    · split
      · exact ⟨rfl, rfl, rfl, rfl⟩
      · exact ⟨rfl, rfl, rfl, rfl⟩
  obtain ⟨hsx, htargets, hlist, hpids⟩ := hslots
  have hliveEq : ∀ i, (s'.enterBackend pid id xmin).Live i ↔ s'.Live i := fun i => by rw [Live, hsx, Live]
  have hholders : ∀ t, (s'.enterBackend pid id xmin).holders t = s'.holders t := fun t => by
    rw [State.holders, htargets, State.holders]
  have hownEq : ∀ i, s'.OwnHeld i → (s'.enterBackend pid id xmin).OwnHeld i := by
    intro i hi t ht
    rw [lockExists, sx, hsx] at ht
    rw [hholders]
    exact hi t ht
  have hmine : ∀ pid' i, (s'.enterBackend pid id xmin).mine pid' = some i →
      (pid' = pid ∧ i = id) ∨ (pid' ≠ pid ∧ s'.mine pid' = some i) := by
    intro pid' i hpid
    rw [State.mine, hpids, SortedMap.get_insert] at hpid
    by_cases heq : pid = pid'
    · rw [if_pos heq] at hpid
      exact Or.inl ⟨heq.symm, (Option.some.inj hpid).symm⟩
    · rw [if_neg heq] at hpid
      exact Or.inr ⟨Ne.symm heq, hpid⟩
  refine ⟨⟨fun pid' i hpid => ?_, fun pid' pid'' i hpid hpid' => ?_, fun pid' i hpid => ?_, ?_,
    fun f hf => ?_, fun pid' i hpid => ?_⟩, fun pid' i hpid => ?_, fun pid' i hpid t hcov => ?_⟩
  · rw [hliveEq]
    rcases hmine pid' i hpid with ⟨-, rfl⟩ | ⟨-, hpid⟩
    · exact hlive
    · exact h.tracked.live pid' i hpid
  · rcases hmine pid' i hpid with ⟨hp, hi⟩ | ⟨-, hold⟩
    · rcases hmine pid'' i hpid' with ⟨hp', -⟩ | ⟨-, hold'⟩
      · exact hp.trans hp'.symm
      · exact absurd (hi ▸ hold') (hother pid'')
    · rcases hmine pid'' i hpid' with ⟨-, hi'⟩ | ⟨-, hold'⟩
      · exact absurd (hi' ▸ hold) (hother pid')
      · exact h.tracked.inj pid' pid'' i hold hold'
  · rw [hlist]
    rcases hmine pid' i hpid with ⟨-, rfl⟩ | ⟨-, hpid⟩
    · exact hfin
    · exact h.tracked.unfinished pid' i hpid
  · rw [hlist]
    exact h.tracked.nodup
  · rw [hlist] at hf
    exact (hliveEq f).mpr (h.tracked.finishedLive f hf)
  · refine hownEq i ?_
    rcases hmine pid' i hpid with ⟨-, rfl⟩ | ⟨-, hpid⟩
    · exact hown
    · exact h.tracked.ownHeld pid' i hpid
  · rcases hmine pid' i hpid with ⟨rfl, -⟩ | ⟨-, hpid⟩
    · exact Or.inr ⟨rfl, hnone⟩
    · exact h.mine pid' i hpid
  · obtain ⟨u, hu, hmem⟩ := h.covers pid' i hpid t hcov
    exact ⟨u, hu, (hholders u).symm ▸ hmem⟩

theorem addSxact_spec (s : State) (snap : Snap) :
    ¬ s.Live (s.addSxact snap).2 ∧ Spares (· ≠ (s.addSxact snap).2) s (s.addSxact snap).1 ∧
      (s.addSxact snap).1.Live (s.addSxact snap).2 ∧
      ((s.addSxact snap).1.sx (s.addSxact snap).2).localLocks = SortedMap.empty := by
  obtain ⟨hfree, hget⟩ := s.sxacts.add_spec (Sxact.fresh s.lastCommitSeq snap)
  have hself := hget (s.sxacts.add (Sxact.fresh s.lastCommitSeq snap)).2
  rw [if_pos rfl] at hself
  have hother : ∀ i, i ≠ (s.addSxact snap).2 → (s.addSxact snap).1.sxacts.get i = s.sxacts.get i :=
    fun i hi => (hget i).trans (if_neg (Ne.symm hi))
  refine ⟨fun hlive => ?_, ⟨fun i hi => ?_, fun i hi => ?_, fun _ _ _ => Iff.rfl, rfl, rfl⟩, ⟨_, hself⟩, ?_⟩
  · obtain ⟨x, hx⟩ := hlive
    cases hfree.symm.trans hx
  · rw [Live, hother i hi, Live]
  · rw [sx, hother i hi, sx]
  · rw [sx_of_get hself]
    rfl

theorem ownHeld_of_empty {s : State} {i : ℕ} (h : (s.sx i).localLocks = SortedMap.empty) : s.OwnHeld i := by
  intro t ht
  rw [lockExists, h] at ht
  cases ht

theorem admitted_register {s : State} (h : s.Tracked) (pid : ℤ) (snap : Snap) (readOnly : Bool) :
    Admitted pid s (s.register pid snap readOnly) := by
  have hnothing : Admitted pid s s := ⟨h, fun _ _ hp => Or.inl hp, fun _ _ _ _ hc => hc⟩
  obtain ⟨hfree, hspares, hlive, hempty⟩ := s.addSxact_spec snap
  unfold register
  split
  · exact hnothing
  · rename_i hsome
    have hnone : s.mine pid = none := by simpa using hsome
    split
    · exact hnothing
    · generalize s.addSxact snap = added at hfree hspares hlive hempty
      obtain ⟨s₁, id⟩ := added
      -- whatever is done to the new transaction's conflicts, it is still there with no locks
      have henter : ∀ s₂, Spares (fun _ => True) s₁ s₂ → Admitted pid s (s₂.enterBackend pid id snap.xmin) := by
        intro s₂ hs₂
        have hs := hspares.trans (hs₂.mono fun _ _ => trivial)
        refine (Admitted.ofSpares h hfree hs pid).enterBackend hnone ((hs₂.live id trivial).mpr hlive) ?_
          (fun pid' hpid => ?_) (fun hfin => ?_) _
        · exact ownHeld_of_empty ((hs₂.localLocks id trivial).trans hempty)
        · rw [State.mine, hs.byPid] at hpid
          exact hfree (h.live pid' id hpid)
        · rw [hs.finishedList] at hfin
          exact hfree (h.finishedLive id hfin)
      simp only
      split
      · have hflag : Spares (fun _ => True) s₁
            (s₁.modify id fun x => { x with flags := { x.flags with readOnly := true } }) := by
          refine Spares.ofModify s₁ id ?_
          exact fun _ => rfl
        have hs₂ := hflag.trans (Spares.ofOnlyConflicts (OnlyConflicts.foldl
          (fun s other => s.onlyConflicts_notePossible id other)
          (s₁.modify id fun x => { x with flags := { x.flags with readOnly := true } }).active _))
        split
        · refine Admitted.ofSpares h hfree ((hspares.trans (hs₂.mono fun _ _ => trivial)).trans ?_) pid
          refine ⟨fun i hi => ?_, fun i hi => ?_, fun _ _ _ => Iff.rfl, rfl, rfl⟩
          · show (∃ x, (Slots.clear _ id).get i = some x) ↔ _
            rw [Slots.get_clear, if_neg (Ne.symm hi), Live]
          · show Sxact.localLocks (((Slots.clear _ id).get i).getD default) = _
            rw [Slots.get_clear, if_neg (Ne.symm hi), sx]
        · exact henter _ hs₂
      · exact henter _ (Spares.ofSame rfl rfl rfl rfl)

end State

end Secantus.Ssi
