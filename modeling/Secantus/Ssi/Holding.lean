/-
  Who holds what: how each change of the SIREAD locks shows in the shared table and in a transaction's
  own one.

  `Spares P s s'` says that the transactions in `P` keep their slots and their locks; the effect on the
  transaction itself is stated for each change. `acquire_spec` is the whole of a read's locking: what was
  covered stays covered, and so is what was read.
-/
import Secantus.Ssi.Frame

namespace Secantus.Ssi

open Secantus Secantus.Library

namespace State

/-- Who holds a lock on `t` in the shared table. -/
def holders (s : State) (t : Target) : List ℕ := (s.targets.get t).getD []

/-- Transaction `i` holds a lock on `t`, its page or its relation. -/
def Covers (s : State) (i : ℕ) (t : Target) : Prop := ∃ u ∈ t :: t.ancestors, i ∈ s.holders u

/-- The locks in the transaction's own table are in the shared one. -/
def OwnHeld (s : State) (i : ℕ) : Prop := ∀ t, s.lockExists i t = true → i ∈ s.holders t

/-- The transactions in `P` keep their slots and their locks. -/
structure Spares (P : ℕ → Prop) (s s' : State) : Prop where
  live : ∀ i, P i → (s'.Live i ↔ s.Live i)
  localLocks : ∀ i, P i → (s'.sx i).localLocks = (s.sx i).localLocks
  holders : ∀ i, P i → ∀ t, i ∈ s'.holders t ↔ i ∈ s.holders t
  byPid : s'.byPid = s.byPid
  finishedList : s'.finishedList = s.finishedList

namespace Spares

variable {P Q : ℕ → Prop} {s s' s'' : State}

theorem refl (P : ℕ → Prop) (s : State) : Spares P s s :=
  ⟨fun _ _ => Iff.rfl, fun _ _ => rfl, fun _ _ _ => Iff.rfl, rfl, rfl⟩

theorem trans (h : Spares P s s') (h' : Spares P s' s'') : Spares P s s'' where
  live i hi := (h'.live i hi).trans (h.live i hi)
  localLocks i hi := (h'.localLocks i hi).trans (h.localLocks i hi)
  holders i hi t := (h'.holders i hi t).trans (h.holders i hi t)
  byPid := h'.byPid.trans h.byPid
  finishedList := h'.finishedList.trans h.finishedList

theorem mono (h : Spares P s s') (hQ : ∀ i, Q i → P i) : Spares Q s s' where
  live i hi := h.live i (hQ i hi)
  localLocks i hi := h.localLocks i (hQ i hi)
  holders i hi := h.holders i (hQ i hi)
  byPid := h.byPid
  finishedList := h.finishedList

theorem ofOnlyConflicts (h : OnlyConflicts s s') : Spares P s s' where
  live i _ := h.live i
  localLocks i _ := h.localLocks i
  holders i _ t := by rw [State.holders, h.targets, State.holders]
  byPid := h.byPid
  finishedList := h.finishedList

/-- An update of one transaction that leaves its own table as it is. -/
theorem ofModify (s : State) (i : ℕ) {f : Sxact → Sxact} (hf : ∀ x, (f x).localLocks = x.localLocks) :
    Spares P s (s.modify i f) where
  live _ _ := live_modify
  localLocks j _ := proj_sx_modify s i j Sxact.localLocks hf
  holders _ _ _ := Iff.rfl
  byPid := rfl
  finishedList := rfl

theorem ofModifyOther (s : State) {i : ℕ} (hi : ¬ P i) (f : Sxact → Sxact) : Spares P s (s.modify i f) where
  live _ _ := live_modify
  localLocks j hj := by
    have hne : i ≠ j := by
      rintro rfl
      exact hi hj
    rw [sx_modify_ne s hne]
  holders _ _ _ := Iff.rfl
  byPid := rfl
  finishedList := rfl

theorem foldl {α : Type*} {f : State → α → State} (hf : ∀ s a, Spares P s (f s a)) (as : List α)
    (s : State) : Spares P s (as.foldl f s) := by
  induction as generalizing s with
  | nil => exact refl P s
  | cons a as ih => exact (hf s a).trans (ih (f s a))

theorem lockExists (h : Spares P s s') {i : ℕ} (hi : P i) (t : Target) :
    s'.lockExists i t = s.lockExists i t := by
  unfold State.lockExists
  rw [h.localLocks i hi]

theorem covers (h : Spares P s s') {i : ℕ} (hi : P i) (t : Target) : s'.Covers i t ↔ s.Covers i t := by
  unfold State.Covers
  simp only [h.holders i hi]

theorem ownHeld (h : Spares P s s') {i : ℕ} (hi : P i) (hown : s.OwnHeld i) : s'.OwnHeld i := by
  intro t ht
  rw [h.lockExists hi] at ht
  exact (h.holders i hi t).mpr (hown t ht)

end Spares

/-! ## One lock -/

theorem mem_dropHolder {targets : SortedMap Target (List ℕ)} {me i : ℕ} {t u : Target} :
    i ∈ ((dropHolder me targets t).get u).getD [] ↔
      i ∈ (targets.get u).getD [] ∧ ¬ (u = t ∧ i = me) := by
  unfold dropHolder
  cases ht : targets.get t with
  | none =>
    refine ⟨fun h => ⟨h, fun heq => ?_⟩, fun h => h.1⟩
    rw [heq.1, ht] at h
    cases h
  | some hs =>
    have hfilter : i ∈ hs.filter (· ≠ me) ↔ i ∈ hs ∧ i ≠ me := by simp
    by_cases hu : u = t
    · subst hu
      simp only
      split
      · rename_i hempty
        rw [List.isEmpty_iff] at hempty
        rw [hempty] at hfilter
        rw [SortedMap.get_erase, if_pos rfl, ht]
        simpa using hfilter
      · rw [SortedMap.get_insert, if_pos rfl, ht]
        simp
    · simp only
      split
      · rw [SortedMap.get_erase, if_neg (Ne.symm hu)]
        simp [hu]
      · rw [SortedMap.get_insert, if_neg (Ne.symm hu)]
        simp [hu]

theorem mem_holders_createLock (s : State) (me : ℕ) (t : Target) (i : ℕ) (u : Target) :
    i ∈ (s.createLock me t).holders u ↔ i ∈ s.holders u ∨ (u = t ∧ i = me) := by
  unfold createLock
  simp only
  split
  · rename_i hmem
    refine ⟨Or.inl, fun h => h.elim id fun heq => ?_⟩
    rw [heq.1, heq.2]
    exact hmem
  · show i ∈ ((s.targets.insert t ((s.targets.get t).getD [] ++ [me])).get u).getD [] ↔ _
    rw [SortedMap.get_insert]
    by_cases hu : t = u
    · subst hu
      simp [holders]
    · simp [holders, hu, Ne.symm hu]

/-- `create_lock` leaves every transaction's own table as it is. -/
theorem localLocks_createLock (s : State) (me : ℕ) (t : Target) (i : ℕ) :
    ((s.createLock me t).sx i).localLocks = (s.sx i).localLocks := by
  unfold createLock
  simp only
  split
  · rfl
  · refine (proj_sx_modify _ me i Sxact.localLocks ?_).trans rfl
    exact fun _ => rfl

theorem live_createLock (s : State) (me : ℕ) (t : Target) (i : ℕ) :
    (s.createLock me t).Live i ↔ s.Live i := by
  unfold createLock
  simp only
  split
  · exact Iff.rfl
  · exact live_modify

theorem spares_createLock (s : State) (me : ℕ) (t : Target) :
    Spares (· ≠ me) s (s.createLock me t) where
  live i _ := live_createLock s me t i
  localLocks i _ := localLocks_createLock s me t i
  holders i hi u := by
    rw [mem_holders_createLock]
    exact ⟨fun h => h.resolve_right fun heq => hi heq.2, Or.inl⟩
  byPid := by
    unfold createLock
    simp only
    split <;> rfl
  finishedList := by
    unfold createLock
    simp only
    split <;> rfl

theorem lockExists_modifyLocal {s : State} {me : ℕ} (hlive : s.Live me)
    (f : SortedMap Target LocalLock → SortedMap Target LocalLock) (t : Target) :
    (s.modifyLocal me f).lockExists me t = heldIn (f (s.sx me).localLocks) t := by
  unfold lockExists modifyLocal
  rw [sx_modify_self hlive]

theorem spares_modifyLocal (s : State) (me : ℕ)
    (f : SortedMap Target LocalLock → SortedMap Target LocalLock) :
    Spares (· ≠ me) s (s.modifyLocal me f) :=
  Spares.ofModifyOther s (fun h => h rfl) _

theorem heldIn_holdLocal (m : SortedMap Target LocalLock) (t u : Target) :
    heldIn (holdLocal m t) u = (decide (u = t) || heldIn m u) := by
  unfold heldIn holdLocal
  rw [SortedMap.get_insert]
  by_cases hu : t = u
  · simp [hu]
  · simp [hu, Ne.symm hu]

theorem heldIn_countChild (m : SortedMap Target LocalLock) (p u : Target) :
    heldIn (countChild m p) u = heldIn m u := by
  unfold heldIn countChild
  rw [SortedMap.get_insert]
  by_cases hu : p = u
  · subst hu
    cases m.get p <;> simp
  · simp [hu]

theorem heldIn_decrementChild (m : SortedMap Target LocalLock) (p u : Target) :
    heldIn (decrementChild m p) u = heldIn m u := by
  unfold decrementChild
  cases hp : m.get p with
  | none => rfl
  | some l =>
    have hself : heldIn m p = l.held := by simp [heldIn, hp]
    simp only
    split
    · rename_i hnone
      simp only [Bool.and_eq_true, Bool.not_eq_true'] at hnone
      by_cases hu : p = u
      · subst hu
        rw [hself, hnone.2]
        simp [heldIn, SortedMap.get_erase]
      · simp [heldIn, SortedMap.get_erase, hu]
    · by_cases hu : p = u
      · subst hu
        rw [hself]
        simp [heldIn, SortedMap.get_insert]
      · simp [heldIn, SortedMap.get_insert, hu]

theorem heldIn_foldl {f : SortedMap Target LocalLock → Target → SortedMap Target LocalLock}
    (hf : ∀ m p u, heldIn (f m p) u = heldIn m u) (ps : List Target) (m : SortedMap Target LocalLock)
    (u : Target) : heldIn (ps.foldl f m) u = heldIn m u := by
  induction ps generalizing m with
  | nil => rfl
  | cons p ps ih => rw [List.foldl_cons, ih, hf]

theorem heldIn_erase (m : SortedMap Target LocalLock) (t u : Target) :
    heldIn (m.erase t) u = (decide (u ≠ t) && heldIn m u) := by
  unfold heldIn
  rw [SortedMap.get_erase]
  by_cases hu : t = u
  · simp [hu]
  · simp [hu, Ne.symm hu]

/-! ## Dropping locks -/

theorem mem_holders_dropLock (s : State) (me : ℕ) (t : Target) (i : ℕ) (u : Target) :
    i ∈ (s.dropLock me t).holders u ↔ i ∈ s.holders u ∧ ¬ (u = t ∧ i = me) := mem_dropHolder

theorem live_dropLock (s : State) (me : ℕ) (t : Target) (i : ℕ) : (s.dropLock me t).Live i ↔ s.Live i := by
  unfold dropLock removeLock modifyLocal
  rw [live_modify, live_modify]
  rfl

theorem lockExists_dropLock {s : State} {me : ℕ} (hlive : s.Live me) (t u : Target) :
    (s.dropLock me t).lockExists me u = (decide (u ≠ t) && s.lockExists me u) := by
  have hlive' : (s.removeLock me t).Live me := live_modify.mpr hlive
  have hlocal : ((s.removeLock me t).sx me).localLocks = (s.sx me).localLocks :=
    proj_sx_modify _ me me Sxact.localLocks fun _ => rfl
  unfold dropLock
  rw [lockExists_modifyLocal hlive', hlocal]
  show heldIn _ u = (decide (u ≠ t) && heldIn (s.sx me).localLocks u)
  rw [heldIn_foldl heldIn_decrementChild, heldIn_erase]

theorem spares_dropLock (s : State) (me : ℕ) (t : Target) : Spares (· ≠ me) s (s.dropLock me t) where
  live i _ := live_dropLock s me t i
  localLocks i hi := by
    unfold dropLock removeLock modifyLocal
    rw [sx_modify_ne _ (Ne.symm hi), sx_modify_ne _ (Ne.symm hi)]
    rfl
  holders i hi u := by
    rw [mem_holders_dropLock]
    exact ⟨And.left, fun h => ⟨h, fun heq => hi heq.2⟩⟩
  byPid := rfl
  finishedList := rfl

/-- The loop of `delete_children`: the locks of the list that `t` covers go. -/
theorem deleteLoop_spec (me : ℕ) (t : Target) (olds : List Target) (s : State) (hlive : s.Live me) :
    let s' := olds.foldl (fun s old => if old.coveredBy t then s.dropLock me old else s) s
    s'.Live me ∧ Spares (· ≠ me) s s' ∧
      (∀ u, me ∈ s'.holders u ↔ me ∈ s.holders u ∧ ¬ (u ∈ olds ∧ u.coveredBy t = true)) ∧
      (∀ u, s'.lockExists me u = true ↔
        s.lockExists me u = true ∧ ¬ (u ∈ olds ∧ u.coveredBy t = true)) := by
  induction olds generalizing s with
  | nil => exact ⟨hlive, Spares.refl _ s, fun u => by simp, fun u => by simp⟩
  | cons old olds ih =>
    simp only [List.foldl_cons]
    by_cases hcov : old.coveredBy t = true
    · rw [if_pos hcov]
      obtain ⟨hl, hs, hh, he⟩ := ih (s.dropLock me old) ((live_dropLock s me old me).mpr hlive)
      refine ⟨hl, (spares_dropLock s me old).trans hs, fun u => ?_, fun u => ?_⟩
      · rw [hh, mem_holders_dropLock, List.mem_cons]
        by_cases hu : u = old
        · subst hu
          simp [hcov]
        · simp [hu]
      · rw [he, lockExists_dropLock hlive, List.mem_cons]
        by_cases hu : u = old
        · subst hu
          simp [hcov]
        · simp [hu]
    · rw [if_neg hcov]
      obtain ⟨hl, hs, hh, he⟩ := ih s hlive
      refine ⟨hl, hs, fun u => ?_, fun u => ?_⟩
      · rw [hh, List.mem_cons]
        by_cases hu : u = old
        · subst hu
          simp [hcov]
        · simp [hu]
      · rw [he, List.mem_cons]
        by_cases hu : u = old
        · subst hu
          simp [hcov]
        · simp [hu]

/-- What `me` holds and what is covered survives a step that keeps the locks `t` does not cover, once
    `t` is held. -/
theorem covers_of_kept {s s' : State} {me : ℕ} {t : Target} (ht : me ∈ s'.holders t)
    (hkept : ∀ u, me ∈ s.holders u → u.coveredBy t = false → me ∈ s'.holders u) {r : Target}
    (h : s.Covers me r) : s'.Covers me r := by
  obtain ⟨u, hu, hmem⟩ := h
  cases hcov : u.coveredBy t with
  | false => exact ⟨u, hu, hkept u hmem hcov⟩
  | true =>
    have hanc : t ∈ u.ancestors := by simpa [Target.coveredBy] using hcov
    refine ⟨t, List.mem_cons_of_mem _ ?_, ht⟩
    rcases List.mem_cons.mp hu with rfl | hu
    · exact hanc
    · exact Target.ancestors_trans hanc hu

/-! ## Taking a lock -/

theorem covers_of_lockExists {s : State} {me : ℕ} (hown : s.OwnHeld me) {t : Target}
    (h : (s.lockExists me t || s.coarserCovers me t) = true) : s.Covers me t := by
  rcases Bool.or_eq_true _ _ ▸ h with h | h
  · exact ⟨t, List.mem_cons_self, hown t h⟩
  · obtain ⟨p, hp, hheld⟩ := List.any_eq_true.mp h
    exact ⟨p, List.mem_cons_of_mem _ hp, hown p hheld⟩

/-- A read's locking: the transaction's own table stays part of the shared one, what was covered stays
    covered, and what was read is. -/
structure Acquired (me : ℕ) (t : Target) (s s' : State) : Prop where
  live : ∀ i, s'.Live i ↔ s.Live i
  spares : Spares (· ≠ me) s s'
  ownHeld : s'.OwnHeld me
  kept : ∀ r, s.Covers me r → s'.Covers me r
  covers : s'.Covers me t

theorem lockOne_spec {s : State} {me : ℕ} (hlive : s.Live me) (hown : s.OwnHeld me) (t : Target) :
    let s' := ((s.modifyLocal me (holdLocal · t)).createLock me t).modifyLocal me
      fun m => t.ancestors.foldl countChild m
    Acquired me t s s' ∧ me ∈ s'.holders t := by
  intro s'
  have hlive₁ : (s.modifyLocal me (holdLocal · t)).Live me := live_modify.mpr hlive
  have hlive₂ : ((s.modifyLocal me (holdLocal · t)).createLock me t).Live me :=
    (live_createLock _ me t me).mpr hlive₁
  have hholders : ∀ u, me ∈ s'.holders u ↔ me ∈ s.holders u ∨ u = t := by
    intro u
    show me ∈ ((s.modifyLocal me (holdLocal · t)).createLock me t).holders u ↔ _
    rw [mem_holders_createLock]
    simp only [and_true]
    rfl
  have hheld : ∀ u, s'.lockExists me u = (decide (u = t) || s.lockExists me u) := by
    intro u
    show (State.modifyLocal _ me _).lockExists me u = _
    rw [lockExists_modifyLocal hlive₂, localLocks_createLock]
    show heldIn (t.ancestors.foldl countChild _) u = _
    rw [heldIn_foldl heldIn_countChild]
    unfold modifyLocal
    rw [sx_modify_self hlive]
    exact heldIn_holdLocal _ t u
  have ht : me ∈ s'.holders t := (hholders t).mpr (Or.inr rfl)
  refine ⟨⟨fun i => ?_, ?_, fun u hu => ?_, fun r hr => ?_, ⟨t, List.mem_cons_self, ht⟩⟩, ht⟩
  · exact live_modify.trans ((live_createLock _ me t i).trans live_modify)
  · exact ((spares_modifyLocal s me _).trans (spares_createLock _ me t)).trans (spares_modifyLocal _ me _)
  · rw [hheld, Bool.or_eq_true, decide_eq_true_eq] at hu
    rcases hu with rfl | hu
    · exact ht
    · exact (hholders u).mpr (Or.inl (hown u hu))
  · obtain ⟨u, hu, hmem⟩ := hr
    exact ⟨u, hu, (hholders u).mpr (Or.inl hmem)⟩

theorem deleteChildren_spec {s : State} {me : ℕ} (hlive : s.Live me) (hown : s.OwnHeld me) {t : Target}
    (ht : me ∈ s.holders t) : Acquired me t s (s.deleteChildren me t) := by
  obtain ⟨hl, hs, hh, he⟩ := deleteLoop_spec me t (s.sx me).locks s hlive
  have hself : t.coveredBy t = false := by
    have : t ∉ t.ancestors := fun h => absurd (Target.level_lt_of_mem_ancestors h) (lt_irrefl _)
    simpa [Target.coveredBy] using this
  have ht' : me ∈ (s.deleteChildren me t).holders t := (hh t).mpr ⟨ht, fun h => by simp [hself] at h⟩
  refine ⟨fun i => ?_, hs, fun u hu => ?_, fun r hr => ?_, ⟨t, List.mem_cons_self, ht'⟩⟩
  · by_cases hi : i = me
    · subst hi
      exact iff_of_true hl hlive
    · exact hs.live i hi
  · obtain ⟨hu, hkept⟩ := (he u).mp hu
    exact (hh u).mpr ⟨hown u hu, hkept⟩
  · refine covers_of_kept ht' (fun u hu hcov => (hh u).mpr ⟨hu, fun h => ?_⟩) hr
    rw [hcov] at h
    exact Bool.false_ne_true h.2

theorem acquire_spec {s : State} {me : ℕ} (hlive : s.Live me) (hown : s.OwnHeld me) (t : Target) :
    Acquired me t s (s.acquire me t) := by
  induction hn : t.level using Nat.strong_induction_on generalizing s t with
  | _ n ih =>
    subst hn
    rw [acquire]
    split
    · rename_i hcovered
      exact ⟨fun _ => Iff.rfl, Spares.refl _ s, hown, fun _ h => h, covers_of_lockExists hown hcovered⟩
    · obtain ⟨hone, ht⟩ := lockOne_spec hlive hown t
      have hlive' := (hone.live me).mpr hlive
      simp only
      split
      · -- promoted to `p`, which covers `t`
        rename_i p hp
        have hup := ih p.level (Target.level_lt_of_mem_ancestors (promotion?_mem hp)) hlive' hone.ownHeld p rfl
        exact ⟨fun i => (hup.live i).trans (hone.live i), hone.spares.trans hup.spares, hup.ownHeld,
          fun r hr => hup.kept r (hone.kept r hr), hup.kept t hone.covers⟩
      · split
        · exact hone
        · have hdel := deleteChildren_spec hlive' hone.ownHeld ht
          exact ⟨fun i => (hdel.live i).trans (hone.live i), hone.spares.trans hdel.spares, hdel.ownHeld,
            fun r hr => hdel.kept r (hone.kept r hr), hdel.covers⟩

end State

end Secantus.Ssi
