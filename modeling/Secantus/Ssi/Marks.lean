/-
  What the cleanup reads of the transactions (`Sxact.mark`), and what the end of a transaction does to it.

  `Steady P s s'` says that the transactions in `P` keep their slots and marks. `endOf_releaseAt` is the
  whole of `release_at`: who is forgotten is below the horizon of those that run, or was read-only and
  ended before the last writer did.
-/
import Secantus.Ssi.Tracked

namespace Secantus.Ssi

open Secantus Secantus.Library

/-- What a transaction's end and the cleanup read of it. -/
structure Mark where
  snap : Snap
  topXid : Option ℕ
  committed : Bool
  rolledBack : Bool
  readOnly : Bool
  commitSeq : ℕ
  finishedBefore : ℕ
  lastCommitBeforeSnapshot : ℕ

def Sxact.mark (x : Sxact) : Mark where
  snap := x.snap
  topXid := x.topXid
  committed := x.flags.committed
  rolledBack := x.flags.rolledBack
  readOnly := x.flags.readOnly
  commitSeq := x.commitSeq
  finishedBefore := x.finishedBefore
  lastCommitBeforeSnapshot := x.lastCommitBeforeSnapshot

/-- Neither committed nor rolled back. -/
def Mark.Open (m : Mark) : Prop := m.committed = false ∧ m.rolledBack = false

namespace State

/-- The transactions in `P` keep their slots and their marks, and the cleanup's counters stay. -/
structure Steady (P : ℕ → Prop) (s s' : State) : Prop where
  live : ∀ i, P i → (s'.Live i ↔ s.Live i)
  mark : ∀ i, P i → (s'.sx i).mark = (s.sx i).mark
  active : ∀ i, P i → (i ∈ s'.active ↔ i ∈ s.active)
  byPid : s'.byPid = s.byPid
  finishedList : s'.finishedList = s.finishedList
  globalXmin : s'.globalXmin = s.globalXmin
  writableCount : s'.writableCount = s.writableCount
  canPartialClearThrough : s'.canPartialClearThrough = s.canPartialClearThrough
  lastCommitSeq : s'.lastCommitSeq = s.lastCommitSeq

namespace Steady

variable {P Q : ℕ → Prop} {s s' s'' : State}

theorem refl (P : ℕ → Prop) (s : State) : Steady P s s :=
  ⟨fun _ _ => Iff.rfl, fun _ _ => rfl, fun _ _ => Iff.rfl, rfl, rfl, rfl, rfl, rfl, rfl⟩

theorem trans (h : Steady P s s') (h' : Steady P s' s'') : Steady P s s'' where
  live i hi := (h'.live i hi).trans (h.live i hi)
  mark i hi := (h'.mark i hi).trans (h.mark i hi)
  active i hi := (h'.active i hi).trans (h.active i hi)
  byPid := h'.byPid.trans h.byPid
  finishedList := h'.finishedList.trans h.finishedList
  globalXmin := h'.globalXmin.trans h.globalXmin
  writableCount := h'.writableCount.trans h.writableCount
  canPartialClearThrough := h'.canPartialClearThrough.trans h.canPartialClearThrough
  lastCommitSeq := h'.lastCommitSeq.trans h.lastCommitSeq

theorem mono (h : Steady P s s') (hQ : ∀ i, Q i → P i) : Steady Q s s' :=
  { h with
    live := fun i hi => h.live i (hQ i hi)
    mark := fun i hi => h.mark i (hQ i hi)
    active := fun i hi => h.active i (hQ i hi) }

theorem mine (h : Steady P s s') (pid : ℤ) : s'.mine pid = s.mine pid := by
  rw [State.mine, h.byPid, State.mine]

/-- Fields the cleanup does not read. -/
theorem ofSame (hsx : s'.sxacts = s.sxacts) (hactive : s'.active = s.active) (hpid : s'.byPid = s.byPid)
    (hlist : s'.finishedList = s.finishedList) (hxmin : s'.globalXmin = s.globalXmin)
    (hcount : s'.writableCount = s.writableCount)
    (hcan : s'.canPartialClearThrough = s.canPartialClearThrough)
    (hseq : s'.lastCommitSeq = s.lastCommitSeq) : Steady P s s' where
  live i _ := by rw [Live, hsx, Live]
  mark i _ := by rw [sx, hsx, sx]
  active i _ := by rw [hactive]
  byPid := hpid
  finishedList := hlist
  globalXmin := hxmin
  writableCount := hcount
  canPartialClearThrough := hcan
  lastCommitSeq := hseq

theorem ofOnlyConflicts (h : OnlyConflicts s s') : Steady P s s' where
  live i _ := h.live i
  mark i _ := by
    show (s'.sx i).core.mark = (s.sx i).core.mark
    rw [h.sx]
  active i _ := by rw [h.active]
  byPid := h.byPid
  finishedList := h.finishedList
  globalXmin := h.globalXmin
  writableCount := by
    show s'.rest.writableCount = s.rest.writableCount
    rw [h.rest]
  canPartialClearThrough := by
    show s'.rest.canPartialClearThrough = s.rest.canPartialClearThrough
    rw [h.rest]
  lastCommitSeq := by
    show s'.rest.lastCommitSeq = s.rest.lastCommitSeq
    rw [h.rest]

theorem ofOnlyLocks (h : OnlyLocks s s') : Steady P s s' := by
  have hmark : ∀ i, (s'.sx i).mark = (s.sx i).mark := by
    intro i
    show (s'.sx i).unlocked.mark = (s.sx i).unlocked.mark
    rw [h.sx]
  rw [← h.others] at hmark ⊢
  exact
    { refl P _ with
      live := fun i _ => (h.live i).trans (by rw [← h.others])
      mark := fun i _ => hmark i }

theorem ofModify (s : State) (i : ℕ) {f : Sxact → Sxact} (hf : ∀ x, (f x).mark = x.mark) :
    Steady P s (s.modify i f) :=
  { refl P s with
    live := fun _ _ => live_modify
    mark := fun j _ => proj_sx_modify s i j Sxact.mark hf }

theorem ofModifyOther (s : State) {i : ℕ} (hi : ¬ P i) (f : Sxact → Sxact) : Steady P s (s.modify i f) :=
  { refl P s with
    live := fun _ _ => live_modify
    mark := fun j hj => by
      have hne : i ≠ j := by
        rintro rfl
        exact hi hj
      rw [sx_modify_ne s hne] }

theorem foldl {α : Type*} {f : State → α → State} (hf : ∀ s a, Steady P s (f s a)) (as : List α)
    (s : State) : Steady P s (as.foldl f s) := by
  induction as generalizing s with
  | nil => exact refl P s
  | cons a as ih => exact (hf s a).trans (ih (f s a))

end Steady

/-! ## Forgetting a transaction -/

theorem steady_forget (s : State) (me : ℕ) : Steady (· ≠ me) s (s.forget me) := by
  have hclear : Steady (· ≠ me) s
      { s with sxacts := s.sxacts.clear me, active := s.active.filter (· ≠ me) } :=
    { Steady.refl (· ≠ me) s with
      live := fun i hi => by
        show (∃ x, (s.sxacts.clear me).get i = some x) ↔ _
        rw [Slots.get_clear, if_neg (Ne.symm hi), Live]
      mark := fun i hi => by
        show (((s.sxacts.clear me).get i).getD default).mark = _
        rw [Slots.get_clear, if_neg (Ne.symm hi), sx]
      active := fun i hi => by
        show i ∈ s.active.filter (· ≠ me) ↔ _
        rw [List.mem_filter, decide_eq_true_eq]
        exact and_iff_left hi }
  have hpossible : ∀ (s : State) (c : ℕ), Steady (· ≠ me) s
      (if (s.conflicts.get c).isSome then s.releaseConflict c else s) := by
    intro s c
    split
    · exact Steady.ofOnlyConflicts (s.onlyConflicts_releaseConflict c)
    · exact Steady.refl _ s
  have hboth := hclear.trans (Steady.foldl hpossible (s.sx me).possibleUnsafe _)
  unfold forget
  simp only
  split
  · exact hboth
  · exact hboth.trans (Steady.ofSame rfl rfl rfl rfl rfl rfl rfl rfl)

theorem steady_releaseOne_partly (P : ℕ → Prop) (s : State) (me : ℕ) : Steady P s (s.releaseOne me true) := by
  have htargets : Steady P s { s with targets := (s.sx me).locks.foldl (dropHolder me) s.targets } :=
    Steady.ofSame rfl rfl rfl rfl rfl rfl rfl rfl
  unfold releaseOne
  simp only [if_true]
  refine (htargets.trans (Steady.ofModify _ me ?_)).trans
    (Steady.ofOnlyConflicts (OnlyConflicts.foldl onlyConflicts_releaseConflict _ _))
  exact fun _ => rfl

theorem steady_releaseOne (s : State) (me : ℕ) : Steady (· ≠ me) s (s.releaseOne me false) := by
  have hloop : ∀ (cs : List ℕ) (s : State), Steady (· ≠ me) s (cs.foldl releaseConflict s) :=
    fun cs s => Steady.ofOnlyConflicts (OnlyConflicts.foldl onlyConflicts_releaseConflict cs s)
  have htargets : Steady (· ≠ me) s { s with targets := (s.sx me).locks.foldl (dropHolder me) s.targets } :=
    Steady.ofSame rfl rfl rfl rfl rfl rfl rfl rfl
  have hown := htargets.trans (Steady.ofModifyOther _ (fun h => h rfl)
    fun x => { x with locks := [], localLocks := SortedMap.empty })
  exact ((hown.trans (hloop _ _)).trans (hloop _ _)).trans (steady_forget _ me)

/-! ## The finished transactions -/

/-- The cleanup may forget a transaction with this mark: it ended before every snapshot at the horizon, or
    it was read-only and ended before the last writer did. -/
def Clears (s : State) (m : Mark) : Prop :=
  s.globalXmin.all (m.finishedBefore ≤ ·) = true ∨
    (m.readOnly = true ∧ m.commitSeq ≤ s.canPartialClearThrough)

theorem Steady.clears {P : ℕ → Prop} {s s' : State} (h : Steady P s s') {m : Mark} (hm : s'.Clears m) :
    s.Clears m := by
  unfold Clears at hm ⊢
  rw [h.globalXmin, h.canPartialClearThrough] at hm
  exact hm

theorem clearFrom_marks (fs : List ℕ) (hnodup : fs.Nodup) (s : State) :
    Steady (fun i => i ∈ fs → i ∈ (s.clearFrom fs).2) s (s.clearFrom fs).1 ∧
      ∀ f ∈ fs, f ∉ (s.clearFrom fs).2 → s.Clears (s.sx f).mark := by
  induction fs generalizing s with
  | nil => exact ⟨Steady.refl _ s, fun f hf => by cases hf⟩
  | cons f fs ih =>
    obtain ⟨hf, htail⟩ := List.nodup_cons.mp hnodup
    -- the transaction `f` is gone, and the loop goes on from the state without it
    have hgone : ∀ s₁, Steady (· ≠ f) s s₁ → s.Clears (s.sx f).mark →
        Steady (fun i => i ∈ f :: fs → i ∈ (s₁.clearFrom fs).2) s (s₁.clearFrom fs).1 ∧
          ∀ g ∈ f :: fs, g ∉ (s₁.clearFrom fs).2 → s.Clears (s.sx g).mark := by
      intro s₁ hs₁ hclears
      obtain ⟨hsteady, hrest⟩ := ih htail s₁
      refine ⟨(hs₁.mono fun i hi => ?_).trans
        (hsteady.mono fun i hi hmem => hi (List.mem_cons_of_mem _ hmem)), fun g hg hkept => ?_⟩
      · rintro rfl
        exact hf ((clearFrom_spec fs htail s₁).2.1.subset (hi List.mem_cons_self))
      · by_cases hgf : g = f
        · exact hgf ▸ hclears
        · have hg := (List.mem_cons.mp hg).resolve_left hgf
          have hclears := hs₁.clears (hrest g hg hkept)
          rwa [hs₁.mark g hgf] at hclears
    have hrelease : Steady (· ≠ f) s
        ((s.modify f fun x => { x with finished := false }).releaseOne f false) :=
      (Steady.ofModifyOther s (fun h => h rfl) _).trans (steady_releaseOne _ f)
    unfold clearFrom
    simp only
    split
    · rename_i hold
      exact hgone _ hrelease (Or.inl hold)
    split
    · rename_i hpart
      rw [Bool.and_eq_true, decide_eq_true_eq, decide_eq_true_eq] at hpart
      split
      · rename_i hro
        exact hgone _ (hrelease.trans (Steady.ofSame rfl rfl rfl rfl rfl rfl rfl rfl)) (Or.inr ⟨hro, hpart.2⟩)
      · have hone : ∀ P : ℕ → Prop, Steady P s
            { s.releaseOne f true with havePartialClearedThrough := (s.sx f).commitSeq } :=
          fun P => (steady_releaseOne_partly P s f).trans (Steady.ofSame rfl rfl rfl rfl rfl rfl rfl rfl)
        obtain ⟨hsteady, hrest⟩ := ih htail
          { s.releaseOne f true with havePartialClearedThrough := (s.sx f).commitSeq }
        refine ⟨(hone _).trans (hsteady.mono fun i hi hmem => ?_), fun g hg hkept => ?_⟩
        · refine (List.mem_cons.mp (hi (List.mem_cons_of_mem _ hmem))).resolve_left ?_
          rintro rfl
          exact hf hmem
        · rw [List.mem_cons, not_or] at hkept
          have hg := (List.mem_cons.mp hg).resolve_left hkept.1
          have hclears := (hone fun _ => True).clears (hrest g hg hkept.2)
          rwa [(hone fun _ => True).mark g trivial] at hclears
    · exact ⟨Steady.refl _ s, fun g hg hkept => absurd hg hkept⟩

/-! ## The horizon -/

/-- `new_global_xmin` gives no more than the least xmin, over what it has seen. -/
theorem lowerXmin_foldl_le (xs : List Sxact) (acc : Option ℕ × ℕ) :
    (∀ a, acc.1 = some a → ∃ g, (xs.foldl lowerXmin acc).1 = some g ∧ g ≤ a) ∧
      ∀ x ∈ xs, x.mark.Open → ∃ g, (xs.foldl lowerXmin acc).1 = some g ∧ g ≤ x.snap.xmin := by
  induction xs generalizing acc with
  | nil => exact ⟨fun a ha => ⟨a, ha, le_refl a⟩, fun x hx => by cases hx⟩
  | cons x xs ih =>
    obtain ⟨hacc, hrest⟩ := ih (lowerXmin acc x)
    have hlower : ∀ a, acc.1 = some a → ∃ g, (lowerXmin acc x).1 = some g ∧ g ≤ a := by
      intro a ha
      unfold lowerXmin
      simp only [ha]
      split
      · exact ⟨a, ha, le_refl a⟩
      split
      · exact ⟨a, ha, le_refl a⟩
      split
      · exact ⟨a, rfl, le_refl a⟩
      · exact ⟨x.snap.xmin, rfl, by omega⟩
    have hown : x.mark.Open → ∃ g, (lowerXmin acc x).1 = some g ∧ g ≤ x.snap.xmin := by
      rintro ⟨hcommitted, hrolled⟩
      have hcommitted : x.flags.committed = false := hcommitted
      have hrolled : x.flags.rolledBack = false := hrolled
      unfold lowerXmin
      simp only [hcommitted, hrolled, Bool.or_self, Bool.false_eq_true, if_false]
      split
      · rename_i g hg
        split
        · exact ⟨g, hg, by omega⟩
        split
        · exact ⟨g, rfl, by omega⟩
        · exact ⟨_, rfl, le_refl _⟩
      · exact ⟨_, rfl, le_refl _⟩
    refine ⟨fun a ha => ?_, fun y hy hopen => ?_⟩
    · obtain ⟨b, hb, hba⟩ := hlower a ha
      obtain ⟨g, hg, hgb⟩ := hacc b hb
      exact ⟨g, hg, hgb.trans hba⟩
    · rcases List.mem_cons.mp hy with rfl | hy
      · obtain ⟨b, hb, hby⟩ := hown hopen
        obtain ⟨g, hg, hgb⟩ := hacc b hb
        exact ⟨g, hg, hgb.trans hby⟩
      · exact hrest y hy hopen

theorem newGlobalXmin_le {s : State} {i : ℕ} (hi : i ∈ s.active) (hopen : (s.sx i).mark.Open) :
    ∃ g, s.newGlobalXmin.globalXmin = some g ∧ g ≤ (s.sx i).snap.xmin := by
  have hfold := (lowerXmin_foldl_le (s.active.map s.sx) (none, 0)).2 (s.sx i)
    (List.mem_map_of_mem hi) hopen
  rw [List.foldl_map] at hfold
  exact hfold

/-! ## The end of a transaction -/

end State

/-- The mark of a transaction that ends. -/
def Mark.ended (m : Mark) (isCommit didWrite : Bool) (seq nextXid : ℕ) : Mark :=
  if isCommit then
    { m with
      finishedBefore := nextXid
      committed := true
      commitSeq := seq
      readOnly := m.readOnly || !didWrite }
  else { m with finishedBefore := nextXid, rolledBack := true }

namespace State

/-- The mark that a transaction has once `me` has ended. -/
def markAfter (s : State) (me : ℕ) (isCommit : Bool) (nextXid i : ℕ) : Mark :=
  if i = me then (s.sx me).mark.ended isCommit (s.sx me).didWrite (s.lastCommitSeq + 1) nextXid
  else (s.sx i).mark

/-- The state before the end's conflicts: the entry gone, the marks made, the writers counted. -/
def endBase (s : State) (pid : ℤ) (me : ℕ) (isCommit : Bool) (nextXid : ℕ) : State :=
  let base := { s with byPid := s.byPid.erase pid }
  let base := base.modify me fun x => { x with finishedBefore := nextXid }
  (base.endMark me isCommit (s.sx me).didWrite).countDown (s.sx me).flags.readOnly

theorem onlyConflicts_endAt (s : State) (pid : ℤ) (me : ℕ) (isCommit : Bool) (nextXid : ℕ) :
    OnlyConflicts (s.endBase pid me isCommit nextXid) (s.endAt pid me isCommit nextXid) :=
  onlyConflicts_endConflicts _ me isCommit _ _

theorem sx_modify {s : State} {i : ℕ} (h : s.Live i) (f : Sxact → Sxact) (j : ℕ) :
    (s.modify i f).sx j = if j = i then f (s.sx i) else s.sx j := by
  by_cases hj : j = i
  · rw [if_pos hj, hj, sx_modify_self h]
  · rw [if_neg hj, sx_modify_ne s (Ne.symm hj)]

theorem mark_endMark {s : State} {me : ℕ} (hlive : s.Live me) (isCommit didWrite : Bool) (i : ℕ) :
    ((s.endMark me isCommit didWrite).sx i).mark =
      if i = me then
        (s.sx me).mark.ended isCommit didWrite (s.lastCommitSeq + 1) (s.sx me).finishedBefore
      else (s.sx i).mark := by
  unfold endMark
  cases isCommit with
  | true =>
    have hseq : State.Live { s with lastCommitSeq := s.lastCommitSeq + 1 } me := hlive
    show (sx (State.modify _ me _) i).mark = _
    rw [sx_modify hseq, apply_ite Sxact.mark]
    rfl
  | false =>
    show (sx (State.modify _ me _) i).mark = _
    rw [sx_modify hlive, apply_ite Sxact.mark]
    rfl

theorem sx_countDown (s : State) (declaredReadOnly : Bool) (i : ℕ) :
    (s.countDown declaredReadOnly).sx i = s.sx i := by
  unfold countDown
  split
  · rfl
  · rfl

theorem mark_endBase {s : State} {me : ℕ} (hlive : s.Live me) (pid : ℤ) (isCommit : Bool)
    (nextXid i : ℕ) :
    ((s.endBase pid me isCommit nextXid).sx i).mark = s.markAfter me isCommit nextXid i := by
  have hentry : State.Live { s with byPid := s.byPid.erase pid } me := hlive
  unfold endBase markAfter
  simp only
  rw [sx_countDown, mark_endMark (live_modify.mpr hentry), sx_modify hentry, sx_modify hentry, if_pos rfl]
  by_cases hi : i = me
  · rw [if_pos hi, if_pos hi]
    cases isCommit with
    | true => rfl
    | false => rfl
  · rw [if_neg hi, if_neg hi, if_neg hi]
    rfl

/-- The end of `me` before the finished transactions are looked at. -/
structure Ending (pid : ℤ) (me : ℕ) (isCommit : Bool) (nextXid : ℕ) (s mid : State) : Prop where
  byPid : mid.byPid = s.byPid.erase pid
  live : ∀ i, mid.Live i ↔ s.Live i
  mark : ∀ i, (mid.sx i).mark = s.markAfter me isCommit nextXid i
  active : mid.active = s.active
  finishedList : mid.finishedList = s.finishedList
  lastCommitSeq : mid.lastCommitSeq = if isCommit then s.lastCommitSeq + 1 else s.lastCommitSeq
  writableCount :
    mid.writableCount = if (s.sx me).flags.readOnly then s.writableCount else s.writableCount - 1
  canPartialClearThrough :
    mid.canPartialClearThrough =
      if (s.sx me).flags.readOnly = false ∧ s.writableCount - 1 = 0 then mid.lastCommitSeq
      else s.canPartialClearThrough

theorem ending_endBase {s : State} {me : ℕ} (hlive : s.Live me) (pid : ℤ) (isCommit : Bool)
    (nextXid : ℕ) : Ending pid me isCommit nextXid s (s.endBase pid me isCommit nextXid) := by
  let marked := (State.modify { s with byPid := s.byPid.erase pid } me fun x =>
    { x with finishedBefore := nextXid }).endMark me isCommit (s.sx me).didWrite
  have hmarked : marked.byPid = s.byPid.erase pid ∧ marked.active = s.active ∧
      marked.finishedList = s.finishedList ∧ marked.writableCount = s.writableCount ∧
      marked.canPartialClearThrough = s.canPartialClearThrough ∧
      (marked.lastCommitSeq = if isCommit then s.lastCommitSeq + 1 else s.lastCommitSeq) ∧
      ∀ i, marked.Live i ↔ s.Live i := by
    cases isCommit with
    | true => exact ⟨rfl, rfl, rfl, rfl, rfl, rfl, fun i => live_modify.trans live_modify⟩
    | false => exact ⟨rfl, rfl, rfl, rfl, rfl, rfl, fun i => live_modify.trans live_modify⟩
  obtain ⟨hpid, hactive, hlist, hcount, hcan, hseq, hlives⟩ := hmarked
  have hmark := mark_endBase hlive pid isCommit nextXid
  have hbase : s.endBase pid me isCommit nextXid = marked.countDown (s.sx me).flags.readOnly := rfl
  rw [hbase] at hmark ⊢
  unfold countDown at hmark ⊢
  cases hro : (s.sx me).flags.readOnly with
  | true =>
    rw [hro] at hmark
    refine ⟨hpid, hlives, hmark, hactive, hlist, hseq, ?_, ?_⟩
    · rw [if_pos rfl, if_pos hro]
      exact hcount
    · have hnot : ¬ ((s.sx me).flags.readOnly = false ∧ s.writableCount - 1 = 0) := by simp [hro]
      rw [if_neg hnot]
      exact hcan
  | false =>
    rw [hro] at hmark
    refine ⟨hpid, hlives, hmark, hactive, hlist, hseq, ?_, ?_⟩
    · rw [hro, ← hcount]
      rfl
    · rw [← hcount, ← hcan]
      show (if marked.writableCount - 1 = 0 then _ else _) = _
      exact if_congr (by simp [hro]) rfl rfl

theorem Ending.thenOnlyConflicts {pid : ℤ} {me : ℕ} {isCommit : Bool} {nextXid : ℕ} {s mid mid' : State}
    (h : Ending pid me isCommit nextXid s mid) (hc : OnlyConflicts mid mid') :
    Ending pid me isCommit nextXid s mid' := by
  have hsteady : Steady (fun _ => True) mid mid' := Steady.ofOnlyConflicts hc
  exact
    { byPid := hc.byPid.trans h.byPid
      live := fun i => (hc.live i).trans (h.live i)
      mark := fun i => (hsteady.mark i trivial).trans (h.mark i)
      active := hc.active.trans h.active
      finishedList := hc.finishedList.trans h.finishedList
      lastCommitSeq := hsteady.lastCommitSeq.trans h.lastCommitSeq
      writableCount := hsteady.writableCount.trans h.writableCount
      canPartialClearThrough := by
        rw [hsteady.canPartialClearThrough, h.canPartialClearThrough, hsteady.lastCommitSeq] }

/-- The horizon, when it moved, is below every running transaction's xmin. -/
theorem ending_leaveHorizon {pid : ℤ} {me : ℕ} {isCommit : Bool} {nextXid : ℕ} {s mid : State}
    (h : Ending pid me isCommit nextXid s mid) :
    Ending pid me isCommit nextXid s (mid.leaveHorizon me).1 ∧
      ((mid.leaveHorizon me).2 = true → ∀ i ∈ s.active, i ≠ me → (s.sx i).mark.Open →
        ∃ g, (mid.leaveHorizon me).1.globalXmin = some g ∧ g ≤ (s.sx i).snap.xmin) := by
  unfold leaveHorizon
  split
  · simp only
    split
    · refine ⟨⟨h.byPid, h.live, h.mark, h.active, h.finishedList, h.lastCommitSeq, h.writableCount,
        h.canPartialClearThrough⟩, fun _ i hi hne hopen => ?_⟩
      have hmark : (mid.sx i).mark = (s.sx i).mark := by
        rw [h.mark, markAfter, if_neg hne]
      have hxmin : (mid.sx i).snap.xmin = (s.sx i).snap.xmin :=
        congrArg (fun m : Mark => m.snap.xmin) hmark
      rw [← hxmin]
      rw [← hmark] at hopen
      exact newGlobalXmin_le (s := { mid with globalXminCount := mid.globalXminCount - 1 })
        (h.active ▸ hi) hopen
    · refine ⟨⟨h.byPid, h.live, h.mark, h.active, h.finishedList, h.lastCommitSeq, h.writableCount,
        h.canPartialClearThrough⟩, fun hmoved => ?_⟩
      cases hmoved
  · refine ⟨h, fun hmoved => ?_⟩
    cases hmoved

/-- What the end of `me` leaves of the marks. -/
structure EndOf (pid : ℤ) (me : ℕ) (isCommit : Bool) (nextXid : ℕ) (s s' : State) : Prop where
  byPid : s'.byPid = s.byPid.erase pid
  live : ∀ i, i ≠ me → i ∉ s.finishedList → (s'.Live i ↔ s.Live i)
  mark : ∀ i, i ≠ me → i ∉ s.finishedList → (s'.sx i).mark = (s.sx i).mark
  active : ∀ i, i ≠ me → i ∉ s.finishedList → (i ∈ s'.active ↔ i ∈ s.active)
  lastCommitSeq : s'.lastCommitSeq = if isCommit then s.lastCommitSeq + 1 else s.lastCommitSeq
  writableCount :
    s'.writableCount = if (s.sx me).flags.readOnly then s.writableCount else s.writableCount - 1
  canPartialClearThrough :
    s'.canPartialClearThrough =
      if (s.sx me).flags.readOnly = false ∧ s.writableCount - 1 = 0 then s'.lastCommitSeq
      else s.canPartialClearThrough
  finished : ∀ f ∈ s'.finishedList, (f ∈ s.finishedList ∨ (f = me ∧ isCommit = true)) ∧
    (s'.sx f).mark = s.markAfter me isCommit nextXid f
  /-- Who is forgotten is below the horizon, or was read-only and ended before the last writer did. -/
  gone : ∀ f, f ∈ s.finishedList ∨ (f = me ∧ isCommit = true) → f ∉ s'.finishedList →
    (∀ i ∈ s.active, i ≠ me → (s.sx i).mark.Open →
      (s.markAfter me isCommit nextXid f).finishedBefore ≤ (s.sx i).snap.xmin) ∨
    ((s.markAfter me isCommit nextXid f).readOnly = true ∧
      (s.markAfter me isCommit nextXid f).commitSeq ≤ s'.canPartialClearThrough)

/-- `finish` forgets no finished transaction, and leaves the horizon. -/
theorem endOf_finish {pid : ℤ} {me : ℕ} {isCommit : Bool} {nextXid : ℕ} {s mid : State}
    (h : Ending pid me isCommit nextXid s mid) (hme : me ∉ s.finishedList) :
    EndOf pid me isCommit nextXid s (mid.finish me isCommit) ∧
      (mid.finish me isCommit).globalXmin = mid.globalXmin ∧
      ∀ f, f ∈ s.finishedList ∨ (f = me ∧ isCommit = true) → f ∈ (mid.finish me isCommit).finishedList := by
  have hother : ∀ i, i ≠ me → (mid.sx i).mark = (s.sx i).mark := by
    intro i hi
    rw [h.mark, markAfter, if_neg hi]
  cases isCommit with
  | true =>
    have hflag : Steady (fun _ => True) mid (mid.modify me fun x => { x with finished := true }) := by
      refine Steady.ofModify mid me ?_
      exact fun _ => rfl
    have hlist : (mid.finish me true).finishedList = s.finishedList ++ [me] :=
      congrArg (· ++ [me]) h.finishedList
    have hall : ∀ f, f ∈ s.finishedList ∨ (f = me ∧ true = true) →
        f ∈ (mid.finish me true).finishedList := by
      intro f hf
      rw [hlist, List.mem_append, List.mem_singleton]
      exact hf.imp_right And.left
    refine ⟨⟨h.byPid, fun i _ _ => ?_, fun i hi _ => ?_, fun i _ _ => ?_, h.lastCommitSeq, h.writableCount,
      h.canPartialClearThrough, fun f hf => ?_, fun f hf hgone => absurd (hall f hf) hgone⟩, rfl, hall⟩
    · exact (hflag.live i trivial).trans (h.live i)
    · exact (hflag.mark i trivial).trans (hother i hi)
    · exact (congrArg (i ∈ ·) h.active).to_iff
    · rw [hlist, List.mem_append, List.mem_singleton] at hf
      exact ⟨hf.imp_right fun heq => ⟨heq, rfl⟩, (hflag.mark f trivial).trans (h.mark f)⟩
  | false =>
    have hone := steady_releaseOne mid me
    have hlist : (mid.finish me false).finishedList = s.finishedList :=
      hone.finishedList.trans h.finishedList
    have hall : ∀ f, f ∈ s.finishedList ∨ (f = me ∧ false = true) →
        f ∈ (mid.finish me false).finishedList := by
      rintro f (hf | ⟨-, hf⟩)
      · rw [hlist]
        exact hf
      · cases hf
    refine ⟨⟨hone.byPid.trans h.byPid, fun i hi _ => ?_, fun i hi _ => ?_, fun i hi _ => ?_, ?_, ?_, ?_,
      fun f hf => ?_, fun f hf hgone => absurd (hall f hf) hgone⟩, hone.globalXmin, hall⟩
    · exact (hone.live i hi).trans (h.live i)
    · exact (hone.mark i hi).trans (hother i hi)
    · exact (hone.active i hi).trans (congrArg (i ∈ ·) h.active).to_iff
    · exact hone.lastCommitSeq.trans h.lastCommitSeq
    · exact hone.writableCount.trans h.writableCount
    · exact hone.canPartialClearThrough.trans (hone.lastCommitSeq ▸ h.canPartialClearThrough)
    · rw [hlist] at hf
      have hne : f ≠ me := by
        rintro rfl
        exact hme hf
      exact ⟨Or.inl hf, (hone.mark f hne).trans (h.mark f)⟩

/-- Clearing the old ones, with the horizon below everyone that runs. -/
theorem EndOf.clearOld {pid : ℤ} {me : ℕ} {isCommit : Bool} {nextXid : ℕ} {s fin : State}
    (h : EndOf pid me isCommit nextXid s fin) (hnodup : fin.finishedList.Nodup)
    (hall : ∀ f, f ∈ s.finishedList ∨ (f = me ∧ isCommit = true) → f ∈ fin.finishedList)
    (hxmin : ∀ i ∈ s.active, i ≠ me → (s.sx i).mark.Open →
      ∃ g, fin.globalXmin = some g ∧ g ≤ (s.sx i).snap.xmin) :
    EndOf pid me isCommit nextXid s fin.clearOld := by
  obtain ⟨hsteady, hclears⟩ := clearFrom_marks fin.finishedList hnodup fin
  have hrunning : ∀ i, i ≠ me → i ∉ s.finishedList → i ∉ fin.finishedList := by
    intro i hi hf hmem
    exact (h.finished i hmem).1.elim hf fun heq => hi heq.1
  have hsub : ∀ f, f ∈ fin.clearOld.finishedList → f ∈ fin.finishedList :=
    fun f hf => (clearFrom_spec fin.finishedList hnodup fin).2.1.subset hf
  refine ⟨hsteady.byPid.trans h.byPid, fun i hi hf => ?_, fun i hi hf => ?_, fun i hi hf => ?_,
    hsteady.lastCommitSeq.trans h.lastCommitSeq, hsteady.writableCount.trans h.writableCount, ?_,
    fun f hf => ⟨(h.finished f (hsub f hf)).1, ?_⟩, fun f hf hgone => ?_⟩
  · exact (hsteady.live i fun hmem => absurd hmem (hrunning i hi hf)).trans (h.live i hi hf)
  · exact (hsteady.mark i fun hmem => absurd hmem (hrunning i hi hf)).trans (h.mark i hi hf)
  · exact (hsteady.active i fun hmem => absurd hmem (hrunning i hi hf)).trans (h.active i hi hf)
  · exact hsteady.canPartialClearThrough.trans (hsteady.lastCommitSeq ▸ h.canPartialClearThrough)
  · exact (hsteady.mark f fun _ => hf).trans (h.finished f (hsub f hf)).2
  · have hmem := hall f hf
    have hmark := (h.finished f hmem).2
    rcases hclears f hmem hgone with hold | ⟨hro, hseq⟩
    · refine Or.inl fun i hi hne hopen => ?_
      obtain ⟨g, hg, hle⟩ := hxmin i hi hne hopen
      rw [hg, Option.all_some, decide_eq_true_eq, hmark] at hold
      exact hold.trans hle
    · rw [hmark] at hro hseq
      exact Or.inr ⟨hro, hseq.trans_eq hsteady.canPartialClearThrough.symm⟩

theorem endOf_releaseAt {s : State} (h : s.Tracked) {pid : ℤ} {me : ℕ} (hme : s.mine pid = some me)
    (isCommit : Bool) (nextXid : ℕ) :
    EndOf pid me isCommit nextXid s (s.releaseAt pid isCommit nextXid) := by
  have hat := (ending_endBase (h.live pid me hme) pid isCommit nextXid).thenOnlyConflicts
    (s.onlyConflicts_endAt pid me isCommit nextXid)
  obtain ⟨hmid, hxmin⟩ := ending_leaveHorizon hat
  obtain ⟨hfin, hglobal, hall⟩ := endOf_finish hmid (h.unfinished pid me hme)
  have hspares := (spares_endAt (fun _ => True) s pid me isCommit nextXid).trans
    (spares_leaveHorizon _ _ me)
  have hnodup := (finish_spec h hme hspares isCommit).nodup
  unfold releaseAt
  rw [hme]
  simp only
  split
  · rename_i hmoved
    refine hfin.clearOld hnodup hall ?_
    rw [hglobal]
    exact hxmin hmoved
  · exact hfin

end State

end Secantus.Ssi
