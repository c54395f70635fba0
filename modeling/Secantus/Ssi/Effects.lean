/-
  What each call does to the marks of the transactions: most leave them all as they are, a read may release
  a transaction found safe, and `pre_commit` takes a number (`call_effect`). A registration adds one mark.
-/
import Secantus.Ssi.Marks

namespace Secantus.Ssi

open Secantus Secantus.Library

namespace State

/-- What a call does to the marks that is no registration, xid or release. -/
inductive Effect (nextXid : ℕ) (s : State) : State → Prop where
  | steady {s' : State} : Steady (fun _ => True) s s' → Effect nextXid s s'
  | numbered {s' : State} (seq : ℕ) : s.lastCommitSeq ≤ seq →
      Steady (fun _ => True) { s with lastCommitSeq := seq } s' → Effect nextXid s s'
  | safe (pid : ℤ) : Effect nextXid s (s.releaseAt pid false nextXid)

theorem Effect.refl (nextXid : ℕ) (s : State) : Effect nextXid s s := Effect.steady (Steady.refl _ s)

/-- `needed_for_read` releases a safe read-only transaction, or changes nothing. -/
theorem neededForRead_cases (s : State) (pid : ℤ) (nextXid : ℕ) :
    (∃ sx, s.neededForRead pid nextXid = (s, sx)) ∨
      s.neededForRead pid nextXid = (s.releaseAt pid false nextXid, none) := by
  unfold neededForRead
  split
  · exact Or.inl ⟨_, rfl⟩
  · split
    · exact Or.inr rfl
    · exact Or.inl ⟨_, rfl⟩

theorem effect_lockTarget (s : State) (pid : ℤ) (nextXid : ℕ) (t : Target) :
    Effect nextXid s (s.lockTarget pid nextXid t) := by
  unfold lockTarget
  rcases s.neededForRead_cases pid nextXid with ⟨sx, hsame⟩ | hsafe
  · rw [hsame]
    cases sx with
    | none => exact Effect.refl nextXid s
    | some sx => exact Effect.steady (Steady.ofOnlyLocks (s.onlyLocks_acquire sx t))
  · rw [hsafe]
    exact Effect.safe pid

theorem effect_lockTuple (s : State) (pid : ℤ) (nextXid db : ℕ) (rel ctid : ℤ) (xmin : Option ℕ) :
    Effect nextXid s (s.lockTuple pid nextXid db rel ctid xmin) := by
  unfold lockTuple
  rcases s.neededForRead_cases pid nextXid with ⟨sx, hsame⟩ | hsafe
  · rw [hsame]
    cases sx with
    | none => exact Effect.refl nextXid s
    | some sx =>
      simp only
      split
      · exact Effect.refl nextXid s
      split
      · exact Effect.refl nextXid s
      · exact Effect.steady (Steady.ofOnlyLocks (s.onlyLocks_acquire sx _))
  · rw [hsafe]
    exact Effect.safe pid

theorem effect_scanConflictsOut (s : State) (pid : ℤ) (nextXid db : ℕ) (rel : ℤ)
    (examined : ℤ → Option Document → Bool) (tuples : Bool) :
    Effect nextXid s (s.scanConflictsOut pid nextXid db rel examined tuples).1 := by
  unfold scanConflictsOut
  split
  · exact Effect.refl nextXid s
  rcases s.neededForRead_cases pid nextXid with ⟨sx, hsame⟩ | hsafe
  · rw [hsame]
    cases sx with
    | none => exact Effect.refl nextXid s
    | some me =>
      simp only
      split
      · exact Effect.refl nextXid s
      · exact Effect.steady (Steady.ofOnlyConflicts (s.onlyConflicts_checkVersions me _))
  · rw [hsafe]
    exact Effect.safe pid

/-! ## Writes -/

theorem steady_targetConflictsIn (P : ℕ → Prop) (s : State) (me : ℕ) (t : Target) :
    Steady P s (s.targetConflictsIn me t).1 := by
  unfold targetConflictsIn
  split
  · exact Steady.refl P s
  · rename_i holders _
    have hflag := s.onlyConflicts_flagHolders me holders
    split
    · rename_i heq
      rw [heq] at hflag
      exact Steady.ofOnlyConflicts hflag
    · rename_i s' heq
      rw [heq] at hflag
      split
      · exact (Steady.ofOnlyConflicts hflag).trans (Steady.ofOnlyLocks (s'.onlyLocks_dropLock me t))
      · exact Steady.ofOnlyConflicts hflag

theorem steady_conflictsIn (P : ℕ → Prop) (s : State) (me : ℕ) (ts : List Target) :
    Steady P s (s.conflictsIn me ts).1 := by
  induction ts generalizing s with
  | nil => exact Steady.refl P s
  | cons t ts ih =>
    have hfirst := steady_targetConflictsIn P s me t
    unfold conflictsIn
    split
    · rename_i heq
      rw [heq] at hfirst
      exact hfirst
    · rename_i heq
      rw [heq] at hfirst
      exact hfirst.trans (ih _)

theorem steady_didWrite (P : ℕ → Prop) (s : State) (me : ℕ) :
    Steady P s (s.modify me fun x => { x with didWrite := true }) := by
  refine Steady.ofModify s me ?_
  exact fun _ => rfl

theorem effect_preCommit (s : State) (nextXid : ℕ) (pid : ℤ) : Effect nextXid s (s.preCommit pid).1 := by
  unfold preCommit
  split
  · exact Effect.refl nextXid s
  · rename_i me _
    have hdoom := s.onlyConflicts_doomPivots me (s.sx me).inConflicts
    split
    · exact Effect.refl nextXid s
    split
    · rename_i heq
      rw [heq] at hdoom
      exact Effect.steady (Steady.ofOnlyConflicts hdoom)
    · rename_i s' heq
      rw [heq] at hdoom
      have hsteady : Steady (fun _ => True) s s' := Steady.ofOnlyConflicts hdoom
      refine Effect.numbered (s'.lastCommitSeq + 1) (by rw [hsteady.lastCommitSeq]; omega) ?_
      have hseq : Steady (fun _ => True) { s with lastCommitSeq := s'.lastCommitSeq + 1 }
          { s' with lastCommitSeq := s'.lastCommitSeq + 1 } :=
        ⟨hsteady.live, hsteady.mark, hsteady.active, hsteady.byPid, hsteady.finishedList,
          hsteady.globalXmin, hsteady.writableCount, hsteady.canPartialClearThrough, rfl⟩
      refine hseq.trans (Steady.ofModify _ me ?_)
      exact fun _ => rfl

theorem call_effect (s : State) (nextXid : ℕ) (c : Call)
    (hreg : ∀ pid snap readOnly, c ≠ .register pid snap readOnly)
    (hxid : ∀ pid xid, c ≠ .setXid pid xid) (hrel : ∀ pid isCommit, c ≠ .release pid isCommit) :
    Effect nextXid s (s.call nextXid c).1 := by
  cases c with
  | register pid snap readOnly => exact absurd rfl (hreg pid snap readOnly)
  | setXid pid xid => exact absurd rfl (hxid pid xid)
  | release pid isCommit => exact absurd rfl (hrel pid isCommit)
  | lockRelation pid db rel => exact s.effect_lockTarget pid nextXid _
  | lockPage pid db rel blk => exact s.effect_lockTarget pid nextXid _
  | lockTuple pid db rel ctid xmin => exact s.effect_lockTuple pid nextXid db rel ctid xmin
  | scanConflictsOut pid db rel examined tuples =>
    exact s.effect_scanConflictsOut pid nextXid db rel examined tuples
  | conflictIn pid db rel ctid blk =>
    unfold call conflictIn
    simp only
    split
    · exact Effect.refl nextXid s
    split
    · exact Effect.refl nextXid s
    · exact Effect.steady ((steady_didWrite _ s _).trans (steady_conflictsIn _ _ _ _))
  | tableConflictIn pid db rel =>
    unfold call tableConflictIn
    simp only
    split
    · exact Effect.refl nextXid s
    split
    · exact Effect.refl nextXid s
    · exact Effect.steady ((steady_didWrite _ s _).trans
        (Steady.ofOnlyConflicts (onlyConflicts_flagTargets _ _ _)))
  | noteVersion pid db rel ctid inserted doc =>
    unfold call noteVersion
    simp only
    split
    · exact Effect.refl nextXid s
    split
    · exact Effect.refl nextXid s
    · exact Effect.steady (Steady.ofSame rfl rfl rfl rfl rfl rfl rfl rfl)
  | pageSplit db rel old new =>
    exact Effect.steady (Steady.ofOnlyLocks (s.onlyLocks_pageSplit db rel old new))
  | preCommit pid => exact s.effect_preCommit nextXid pid
  | setDeferrableWaiting pid on =>
    unfold call setDeferrableWaiting
    simp only
    split
    · exact Effect.refl nextXid s
    · refine Effect.steady (Steady.ofModify s _ ?_)
      exact fun _ => rfl

/-! ## A registration -/

/-- The mark of a transaction that registers. -/
def freshMark (s : State) (snap : Snap) (readOnly : Bool) : Mark :=
  { (Sxact.fresh s.lastCommitSeq snap).mark with readOnly }

/-- The backend `pid` entered with the new transaction `id`, and the others are as they were. -/
structure Joined (pid : ℤ) (id : ℕ) (snap : Snap) (readOnly : Bool) (s s' : State) : Prop where
  free : ¬ s.Live id
  byPid : s'.byPid = s.byPid.insert pid id
  live : ∀ i, i ≠ id → (s'.Live i ↔ s.Live i)
  mark : ∀ i, (s'.sx i).mark = if i = id then s.freshMark snap readOnly else (s.sx i).mark
  active : ∀ i, i ∈ s'.active ↔ i = id ∨ i ∈ s.active
  finishedList : s'.finishedList = s.finishedList
  writableCount : s'.writableCount = if readOnly then s.writableCount else s.writableCount + 1
  canPartialClearThrough : s'.canPartialClearThrough = s.canPartialClearThrough
  lastCommitSeq : s'.lastCommitSeq = s.lastCommitSeq

/-- The new transaction before its backend's entry. -/
theorem joined_enterBackend {s t : State} {id : ℕ} {snap : Snap} {readOnly : Bool} (hfree : ¬ s.Live id)
    (hlive : ∀ i, i ≠ id → (t.Live i ↔ s.Live i))
    (hmark : ∀ i, (t.sx i).mark = if i = id then s.freshMark snap readOnly else (s.sx i).mark)
    (hactive : ∀ i, i ∈ t.active ↔ i = id ∨ i ∈ s.active) (hpids : t.byPid = s.byPid)
    (hlist : t.finishedList = s.finishedList)
    (hcount : t.writableCount = if readOnly then s.writableCount else s.writableCount + 1)
    (hcan : t.canPartialClearThrough = s.canPartialClearThrough)
    (hseq : t.lastCommitSeq = s.lastCommitSeq) (pid : ℤ) (xmin : ℕ) :
    Joined pid id snap readOnly s (t.enterBackend pid id xmin) := by
  unfold enterBackend
  split
  · exact ⟨hfree, congrArg (·.insert pid id) hpids, hlive, hmark, hactive, hlist, hcount, hcan, hseq⟩
  · split
    · exact ⟨hfree, congrArg (·.insert pid id) hpids, hlive, hmark, hactive, hlist, hcount, hcan, hseq⟩
    · exact ⟨hfree, congrArg (·.insert pid id) hpids, hlive, hmark, hactive, hlist, hcount, hcan, hseq⟩

theorem addSxact_marks (s : State) (snap : Snap) :
    (∀ i, ((s.addSxact snap).1.sx i).mark =
      if i = (s.addSxact snap).2 then s.freshMark snap false else (s.sx i).mark) ∧
    ∀ i, i ∈ (s.addSxact snap).1.active ↔ i = (s.addSxact snap).2 ∨ i ∈ s.active := by
  obtain ⟨-, hget⟩ := s.sxacts.add_spec (Sxact.fresh s.lastCommitSeq snap)
  refine ⟨fun i => ?_, fun i => ?_⟩
  · have hi : (s.addSxact snap).1.sxacts.get i =
        if (s.addSxact snap).2 = i then some (Sxact.fresh s.lastCommitSeq snap) else s.sxacts.get i :=
      hget i
    by_cases heq : i = (s.addSxact snap).2
    · rw [if_pos (Eq.symm heq)] at hi
      rw [if_pos heq, sx, hi]
      rfl
    · rw [if_neg (Ne.symm heq)] at hi
      rw [if_neg heq, sx, hi, sx]
  · show i ∈ s.active ++ [_] ↔ _
    rw [List.mem_append, List.mem_singleton, or_comm]
    rfl

theorem register_marks (s : State) (pid : ℤ) (snap : Snap) (readOnly : Bool) :
    Steady s.Live s (s.register pid snap readOnly) ∨
      ∃ id, s.mine pid = none ∧ Joined pid id snap readOnly s (s.register pid snap readOnly) := by
  obtain ⟨hfree, hspares, hlive, -⟩ := s.addSxact_spec snap
  obtain ⟨hmark, hactive⟩ := s.addSxact_marks snap
  have hlist := hspares.finishedList
  have hpids := hspares.byPid
  have hrest : (s.addSxact snap).1.writableCount = s.writableCount ∧
      (s.addSxact snap).1.canPartialClearThrough = s.canPartialClearThrough ∧
      (s.addSxact snap).1.lastCommitSeq = s.lastCommitSeq ∧
      (s.addSxact snap).1.globalXmin = s.globalXmin := ⟨rfl, rfl, rfl, rfl⟩
  unfold register
  split
  · exact Or.inl (Steady.refl _ s)
  · rename_i hsome
    have hnone : s.mine pid = none := by simpa using hsome
    split
    · exact Or.inl (Steady.refl _ s)
    · generalize s.addSxact snap = added at hfree hspares hlive hmark hactive hlist hpids hrest
      obtain ⟨s₁, id⟩ := added
      obtain ⟨hcount, hcan, hseq, hxmin⟩ := hrest
      simp only at hfree hspares hlive hmark hactive hlist hpids hcount hcan hseq hxmin
      simp only
      split
      · rename_i hro
        have hmarked : ∀ i, ((s₁.modify id fun x =>
            { x with flags := { x.flags with readOnly := true } }).sx i).mark =
              if i = id then s.freshMark snap true else (s.sx i).mark := by
          intro i
          have hi := hmark i
          rw [sx_modify hlive]
          by_cases heq : i = id
          · rw [if_pos heq] at hi ⊢
            rw [if_pos heq, ← heq]
            show ({ (s₁.sx i).mark with readOnly := true } : Mark) = _
            rw [hi]
            rfl
          · rw [if_neg heq] at hi ⊢
            rw [if_neg heq]
            exact hi
        have hsteady : Steady (fun _ => True)
            (s₁.modify id fun x => { x with flags := { x.flags with readOnly := true } }) _ :=
          Steady.ofOnlyConflicts (OnlyConflicts.foldl
            (fun s other => s.onlyConflicts_notePossible id other)
            (s₁.modify id fun x => { x with flags := { x.flags with readOnly := true } }).active _)
        generalize List.foldl (notePossible id) _ _ = s₂ at hsteady
        have hne : ∀ i, s.Live i → i ≠ id := fun i hi heq => hfree (heq ▸ hi)
        have hlive₂ : ∀ i, i ≠ id → (s₂.Live i ↔ s.Live i) := fun i hi =>
          (hsteady.live i trivial).trans (live_modify.trans (hspares.live i hi))
        have hmark₂ : ∀ i, (s₂.sx i).mark = if i = id then s.freshMark snap true else (s.sx i).mark :=
          fun i => (hsteady.mark i trivial).trans (hmarked i)
        have hactive₂ : ∀ i, i ∈ s₂.active ↔ i = id ∨ i ∈ s.active :=
          fun i => (hsteady.active i trivial).trans (hactive i)
        split
        · -- nobody it could conflict with: the slot is freed again
          refine Or.inl ⟨fun i hi => ?_, fun i hi => ?_, fun i hi => ?_, hsteady.byPid.trans hpids,
            hsteady.finishedList.trans hlist, hsteady.globalXmin.trans hxmin,
            hsteady.writableCount.trans hcount, hsteady.canPartialClearThrough.trans hcan,
            hsteady.lastCommitSeq.trans hseq⟩
          · show (∃ x, (s₂.sxacts.clear id).get i = some x) ↔ _
            rw [Slots.get_clear, if_neg (Ne.symm (hne i hi))]
            exact hlive₂ i (hne i hi)
          · show (((s₂.sxacts.clear id).get i).getD default).mark = _
            rw [Slots.get_clear, if_neg (Ne.symm (hne i hi))]
            exact (hmark₂ i).trans (if_neg (hne i hi))
          · show i ∈ s₂.active.filter (· ≠ id) ↔ _
            rw [List.mem_filter, decide_eq_true_eq, hactive₂]
            exact ⟨fun h => h.1.resolve_left h.2, fun h => ⟨Or.inr h, hne i hi⟩⟩
        · exact Or.inr ⟨id, hnone, joined_enterBackend hfree hlive₂ (hro ▸ hmark₂) hactive₂
            (hsteady.byPid.trans hpids) (hsteady.finishedList.trans hlist)
            ((hsteady.writableCount.trans hcount).trans (if_pos hro).symm)
            (hsteady.canPartialClearThrough.trans hcan) (hsteady.lastCommitSeq.trans hseq) pid _⟩
      · rename_i hro
        have hro : readOnly = false := by simpa using hro
        subst hro
        refine Or.inr ⟨id, hnone, ?_⟩
        exact joined_enterBackend (t := { s₁ with writableCount := s₁.writableCount + 1 }) hfree hspares.live
          hmark hactive hpids hlist (congrArg (· + 1) hcount) hcan hseq pid _

end State

end Secantus.Ssi
