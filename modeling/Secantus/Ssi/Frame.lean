/-
  What flagging, releasing and checking rw-conflicts leaves alone: everything but the conflict records,
  the lists they are on, and the marks they leave on a transaction (`OnlyConflicts`). What locking leaves
  alone: everything but the locks (`OnlyLocks`).
-/
import Secantus.Ssi.Calls

namespace Secantus.Ssi

open Secantus Secantus.Library

/-- A transaction without what conflicts change. -/
def Sxact.core (x : Sxact) : Sxact :=
  { x with
    earliestOutConflictCommit := 0
    outConflicts := []
    inConflicts := []
    possibleUnsafe := []
    flags :=
      { x.flags with doomed := false, conflictOut := false, roSafe := false, roUnsafe := false } }

/-- The state without its transactions and conflicts. -/
def State.rest (s : State) : State :=
  { s with sxacts := Slots.empty, conflicts := Slots.empty, freeConflicts := [] }

/-- Only conflicts change from `s` to `s'`. -/
structure OnlyConflicts (s s' : State) : Prop where
  sxacts : ∀ i, (s'.sxacts.get i).map Sxact.core = (s.sxacts.get i).map Sxact.core
  rest : s'.rest = s.rest

namespace OnlyConflicts

variable {s s' s'' : State}

theorem refl (s : State) : OnlyConflicts s s := ⟨fun _ => rfl, rfl⟩

theorem trans (h : OnlyConflicts s s') (h' : OnlyConflicts s' s'') : OnlyConflicts s s'' :=
  ⟨fun i => (h'.sxacts i).trans (h.sxacts i), h'.rest.trans h.rest⟩

theorem sx (h : OnlyConflicts s s') (i : ℕ) : (s'.sx i).core = (s.sx i).core := State.sx_of_map (h.sxacts i)

theorem live (h : OnlyConflicts s s') (i : ℕ) : s'.Live i ↔ s.Live i := State.live_of_map (h.sxacts i)

theorem targets (h : OnlyConflicts s s') : s'.targets = s.targets := by
  show s'.rest.targets = s.rest.targets
  rw [h.rest]

theorem byPid (h : OnlyConflicts s s') : s'.byPid = s.byPid := by
  show s'.rest.byPid = s.rest.byPid
  rw [h.rest]

theorem mine (h : OnlyConflicts s s') (pid : ℤ) : s'.mine pid = s.mine pid := by
  rw [State.mine, h.byPid, State.mine]

theorem finishedList (h : OnlyConflicts s s') : s'.finishedList = s.finishedList := by
  show s'.rest.finishedList = s.rest.finishedList
  rw [h.rest]

theorem active (h : OnlyConflicts s s') : s'.active = s.active := by
  show s'.rest.active = s.rest.active
  rw [h.rest]

theorem globalXmin (h : OnlyConflicts s s') : s'.globalXmin = s.globalXmin := by
  show s'.rest.globalXmin = s.rest.globalXmin
  rw [h.rest]

theorem localLocks (h : OnlyConflicts s s') (i : ℕ) : (s'.sx i).localLocks = (s.sx i).localLocks := by
  show (s'.sx i).core.localLocks = (s.sx i).core.localLocks
  rw [h.sx]

theorem modify (s : State) (i : ℕ) {f : Sxact → Sxact} (hf : ∀ x, (f x).core = x.core) :
    OnlyConflicts s (s.modify i f) := ⟨Slots.map_get_modify s.sxacts hf i, rfl⟩

theorem thenModify (h : OnlyConflicts s s') (i : ℕ) {f : Sxact → Sxact} (hf : ∀ x, (f x).core = x.core) :
    OnlyConflicts s (s'.modify i f) := h.trans (modify s' i hf)

theorem foldl {α : Type*} {f : State → α → State} (hf : ∀ s a, OnlyConflicts s (f s a)) (as : List α)
    (s : State) : OnlyConflicts s (as.foldl f s) := by
  induction as generalizing s with
  | nil => exact refl s
  | cons a as ih => exact (hf s a).trans (ih (f s a))

end OnlyConflicts

namespace State

variable (s : State)

theorem onlyConflicts_newConflict (out in_ : ℕ) : OnlyConflicts s (s.newConflict out in_).1 := by
  unfold newConflict
  split
  · exact ⟨fun _ => rfl, rfl⟩
  · exact ⟨fun _ => rfl, rfl⟩

theorem onlyConflicts_setConflict (reader writer : ℕ) :
    OnlyConflicts s (s.setConflict reader writer) := by
  show OnlyConflicts s (((s.newConflict reader writer).1.modify reader _).modify writer _)
  refine ((s.onlyConflicts_newConflict reader writer).thenModify reader ?_).thenModify writer ?_
  · exact fun _ => rfl
  · exact fun _ => rfl

theorem onlyConflicts_setPossibleUnsafe (ro active : ℕ) :
    OnlyConflicts s (s.setPossibleUnsafe ro active) := by
  show OnlyConflicts s (((s.newConflict active ro).1.modify active _).modify ro _)
  refine ((s.onlyConflicts_newConflict active ro).thenModify active ?_).thenModify ro ?_
  · exact fun _ => rfl
  · exact fun _ => rfl

theorem onlyConflicts_releaseConflict (c : ℕ) : OnlyConflicts s (s.releaseConflict c) := by
  have hout := OnlyConflicts.modify s (s.conflict c).out (f := Sxact.dropConflict c) fun _ => rfl
  have hin := OnlyConflicts.modify (s.modify (s.conflict c).out (Sxact.dropConflict c))
    (s.conflict c).in_ (f := Sxact.dropConflict c) fun _ => rfl
  exact (hout.trans hin).trans ⟨fun _ => rfl, rfl⟩

theorem onlyConflicts_flagUnsafe (sx : ℕ) : OnlyConflicts s (s.flagUnsafe sx) := by
  refine OnlyConflicts.trans (OnlyConflicts.modify s sx ?_) (OnlyConflicts.foldl ?_ _ _)
  · exact fun _ => rfl
  · exact onlyConflicts_releaseConflict

theorem onlyConflicts_doom (sx : ℕ) : OnlyConflicts s (s.doom sx) :=
  OnlyConflicts.modify _ _ fun _ => rfl

theorem onlyConflicts_checkFailure (reader writer me : ℕ) :
    OnlyConflicts s (s.checkFailure reader writer me).1 := by
  unfold checkFailure
  split
  · split
    · exact OnlyConflicts.refl s
    · split
      · exact OnlyConflicts.refl s
      · exact s.onlyConflicts_doom writer
  · exact OnlyConflicts.refl s

theorem onlyConflicts_flagConflict (reader writer me : ℕ) :
    OnlyConflicts s (s.flagConflict reader writer me).1 := by
  have hcheck := s.onlyConflicts_checkFailure reader writer me
  unfold flagConflict
  split
  · rename_i heq
    rw [heq] at hcheck
    exact hcheck
  · rename_i heq
    rw [heq] at hcheck
    exact hcheck.trans (onlyConflicts_setConflict _ reader writer)

theorem onlyConflicts_doomPivots (me : ℕ) (nears : List ℕ) :
    OnlyConflicts s (s.doomPivots me nears).1 := by
  induction nears generalizing s with
  | nil => exact OnlyConflicts.refl s
  | cons near nears ih =>
    unfold doomPivots
    simp only
    split
    · exact ih s
    · split
      · split
        · exact OnlyConflicts.refl s
        · exact (s.onlyConflicts_doom _).trans (ih _)
      · exact ih s

theorem onlyConflicts_noteOut (me : ℕ) (w : Sxact) : OnlyConflicts s (s.noteOut me w) :=
  OnlyConflicts.modify _ _ fun _ => rfl

theorem onlyConflicts_endOut (me : ℕ) (isCommit : Bool) (c : ℕ) :
    OnlyConflicts s (s.endOut me isCommit c) := by
  unfold endOut
  simp only
  split
  · split
    · exact (s.onlyConflicts_noteOut me _).trans (onlyConflicts_releaseConflict _ c)
    · exact s.onlyConflicts_releaseConflict c
  · split
    · exact s.onlyConflicts_noteOut me _
    · exact OnlyConflicts.refl s

theorem onlyConflicts_endIn (isCommit : Bool) (c : ℕ) : OnlyConflicts s (s.endIn isCommit c) := by
  unfold endIn
  simp only
  split
  · exact s.onlyConflicts_releaseConflict c
  · exact OnlyConflicts.refl s

theorem onlyConflicts_endUnsafe (me : ℕ) (isCommit didWrite : Bool) (c : ℕ) :
    OnlyConflicts s (s.endUnsafe me isCommit didWrite c) := by
  unfold endUnsafe
  simp only
  split
  · exact OnlyConflicts.refl s
  · split
    · exact s.onlyConflicts_flagUnsafe _
    · split
      · refine (s.onlyConflicts_releaseConflict c).thenModify _ ?_
        exact fun _ => rfl
      · exact s.onlyConflicts_releaseConflict c

theorem onlyConflicts_notePossible (id other : ℕ) : OnlyConflicts s (s.notePossible id other) := by
  unfold notePossible
  simp only
  split
  · exact s.onlyConflicts_setPossibleUnsafe id other
  · exact OnlyConflicts.refl s

theorem onlyConflicts_conflictOut (me xid : ℕ) : OnlyConflicts s (s.conflictOut me xid).1 := by
  unfold conflictOut
  split
  · exact OnlyConflicts.refl s
  split
  · exact OnlyConflicts.refl s
  split
  · exact OnlyConflicts.refl s
  simp only
  split
  · exact OnlyConflicts.refl s
  split
  · split
    · exact s.onlyConflicts_doom _
    · exact OnlyConflicts.refl s
  split
  · exact OnlyConflicts.refl s
  split
  · exact OnlyConflicts.refl s
  split
  · exact OnlyConflicts.refl s
  · exact s.onlyConflicts_flagConflict _ _ _

theorem onlyConflicts_checkVersion (me : ℕ) (v : Version) :
    OnlyConflicts s (s.checkVersion me v).1 := by
  unfold checkVersion
  split
  · exact OnlyConflicts.refl s
  · exact s.onlyConflicts_conflictOut me _

theorem onlyConflicts_checkVersions (me : ℕ) (vs : List Version) :
    OnlyConflicts s (s.checkVersions me vs).1 := by
  induction vs generalizing s with
  | nil => exact OnlyConflicts.refl s
  | cons v vs ih =>
    have hfirst := s.onlyConflicts_checkVersion me v
    unfold checkVersions
    split
    · rename_i heq
      rw [heq] at hfirst
      exact hfirst
    · rename_i heq
      rw [heq] at hfirst
      exact hfirst.trans (ih _)

theorem onlyConflicts_flagHolders (me : ℕ) (holders : List ℕ) :
    OnlyConflicts s (s.flagHolders me holders).1 := by
  induction holders generalizing s with
  | nil => exact OnlyConflicts.refl s
  | cons sx holders ih =>
    have hfirst := s.onlyConflicts_flagConflict sx me me
    unfold flagHolders
    simp only
    split
    · split
      · rename_i heq
        rw [heq] at hfirst
        exact hfirst
      · rename_i heq
        rw [heq] at hfirst
        exact hfirst.trans (ih _)
    · exact ih s

theorem onlyConflicts_flagAll (me : ℕ) (holders : List ℕ) :
    OnlyConflicts s (s.flagAll me holders).1 := by
  induction holders generalizing s with
  | nil => exact OnlyConflicts.refl s
  | cons sx holders ih =>
    have hfirst := s.onlyConflicts_flagConflict sx me me
    unfold flagAll
    split
    · split
      · rename_i heq
        rw [heq] at hfirst
        exact hfirst
      · rename_i heq
        rw [heq] at hfirst
        exact hfirst.trans (ih _)
    · exact ih s

theorem onlyConflicts_flagTargets (me : ℕ) (ts : List Target) :
    OnlyConflicts s (s.flagTargets me ts).1 := by
  induction ts generalizing s with
  | nil => exact OnlyConflicts.refl s
  | cons t ts ih =>
    have hfirst := s.onlyConflicts_flagAll me ((s.targets.get t).getD [])
    unfold flagTargets
    split
    · rename_i heq
      rw [heq] at hfirst
      exact hfirst
    · rename_i heq
      rw [heq] at hfirst
      exact hfirst.trans (ih _)

end State

/-! ## Locks -/

/-- A transaction without its locks. -/
def Sxact.unlocked (x : Sxact) : Sxact := { x with locks := [], localLocks := SortedMap.empty }

/-- Only locks change from `s` to `s'`. -/
structure OnlyLocks (s s' : State) : Prop where
  sxacts : ∀ i, (s'.sxacts.get i).map Sxact.unlocked = (s.sxacts.get i).map Sxact.unlocked
  others : { s' with sxacts := s.sxacts, targets := s.targets } = s

namespace OnlyLocks

variable {s s' s'' : State}

theorem refl (s : State) : OnlyLocks s s := ⟨fun _ => rfl, rfl⟩

theorem trans (h : OnlyLocks s s') (h' : OnlyLocks s' s'') : OnlyLocks s s'' := by
  refine ⟨fun i => (h'.sxacts i).trans (h.sxacts i), ?_⟩
  have hothers := congrArg (fun t : State => { t with sxacts := s.sxacts, targets := s.targets }) h'.others
  exact hothers.trans h.others

theorem sx (h : OnlyLocks s s') (i : ℕ) : (s'.sx i).unlocked = (s.sx i).unlocked := State.sx_of_map (h.sxacts i)

theorem live (h : OnlyLocks s s') (i : ℕ) : s'.Live i ↔ s.Live i := State.live_of_map (h.sxacts i)

theorem modify (s : State) (i : ℕ) {f : Sxact → Sxact} (hf : ∀ x, (f x).unlocked = x.unlocked) :
    OnlyLocks s (s.modify i f) := ⟨Slots.map_get_modify s.sxacts hf i, rfl⟩

theorem foldl {α : Type*} {f : State → α → State} (hf : ∀ s a, OnlyLocks s (f s a)) (as : List α)
    (s : State) : OnlyLocks s (as.foldl f s) := by
  induction as generalizing s with
  | nil => exact refl s
  | cons a as ih => exact (hf s a).trans (ih (f s a))

end OnlyLocks

namespace State

variable (s : State)

theorem onlyLocks_modifyLocal (sx : ℕ) (f : SortedMap Target LocalLock → SortedMap Target LocalLock) :
    OnlyLocks s (s.modifyLocal sx f) := by
  refine OnlyLocks.modify s sx ?_
  exact fun _ => rfl

theorem onlyLocks_createLock (sx : ℕ) (t : Target) : OnlyLocks s (s.createLock sx t) := by
  unfold createLock
  simp only
  split
  · exact OnlyLocks.refl s
  · have htargets : OnlyLocks s
        { s with targets := s.targets.insert t ((s.targets.get t).getD [] ++ [sx]) } :=
      ⟨fun _ => rfl, rfl⟩
    refine htargets.trans (OnlyLocks.modify _ sx ?_)
    exact fun _ => rfl

theorem onlyLocks_dropLock (sx : ℕ) (t : Target) : OnlyLocks s (s.dropLock sx t) := by
  have htargets : OnlyLocks s { s with targets := dropHolder sx s.targets t } := ⟨fun _ => rfl, rfl⟩
  have hremove : OnlyLocks s (s.removeLock sx t) := by
    refine htargets.trans (OnlyLocks.modify _ sx ?_)
    exact fun _ => rfl
  exact hremove.trans (onlyLocks_modifyLocal _ sx _)

theorem onlyLocks_deleteChildren (sx : ℕ) (t : Target) : OnlyLocks s (s.deleteChildren sx t) := by
  refine OnlyLocks.foldl (fun s old => ?_) _ s
  split
  · exact s.onlyLocks_dropLock sx old
  · exact OnlyLocks.refl s

theorem onlyLocks_acquire (sx : ℕ) (t : Target) : OnlyLocks s (s.acquire sx t) := by
  induction hn : t.level using Nat.strong_induction_on generalizing s t with
  | _ n ih =>
    subst hn
    have hown := ((s.onlyLocks_modifyLocal sx (holdLocal · t)).trans (onlyLocks_createLock _ sx t)).trans
      (onlyLocks_modifyLocal _ sx fun local_ => t.ancestors.foldl countChild local_)
    rw [acquire]
    split
    · exact OnlyLocks.refl s
    · simp only
      split
      · rename_i p hp
        exact hown.trans (ih p.level (Target.level_lt_of_mem_ancestors (promotion?_mem hp)) _ p rfl)
      · split
        · exact hown
        · exact hown.trans (onlyLocks_deleteChildren _ sx t)

theorem onlyLocks_pageSplit (db : ℕ) (rel : ℤ) (old new : ℕ) :
    OnlyLocks s (s.pageSplit db rel old new) := by
  unfold pageSplit
  split
  · exact OnlyLocks.refl s
  · exact OnlyLocks.foldl (fun s sx => s.onlyLocks_createLock sx _) _ s

end State

end Secantus.Ssi
