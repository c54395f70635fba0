/-
  The rw-conflicts between serializable transactions and the checks for the dangerous structure
  `Tin -> Tpivot -> Tout` (ssi.rs).

  The end of a serializable transaction (ssi.rs): its conflicts turned into flags or dropped, the horizon
  moved, and the committed transactions forgotten that no running one can still conflict with.

  SIREAD locks (ssi.rs): taken on what is read, promoted from tuple to page to relation past the limits,
  and dropped on a tuple the same transaction writes.
-/
import Secantus.Ssi.State

namespace Secantus.Ssi

open Secantus Secantus.Library

/-- A transaction without conflict `c` on its lists. -/
def Sxact.dropConflict (c : ℕ) (x : Sxact) : Sxact :=
  { x with
    outConflicts := x.outConflicts.filter (· ≠ c)
    inConflicts := x.inConflicts.filter (· ≠ c)
    possibleUnsafe := x.possibleUnsafe.filter (· ≠ c) }

namespace State

/-! ## The conflict lists -/

def conflictExists (s : State) (reader writer : ℕ) : Bool :=
  let r := s.sx reader
  let w := s.sx writer
  if r.flags.doomed || w.flags.doomed || r.outConflicts.isEmpty || w.inConflicts.isEmpty then false
  else r.outConflicts.any fun c => (s.conflict c).in_ = writer

def newConflict (s : State) (out in_ : ℕ) : State × ℕ :=
  match s.freeConflicts with
  | c :: free => ({ s with conflicts := s.conflicts.put c ⟨out, in_⟩, freeConflicts := free }, c)
  | [] =>
    let pushed := s.conflicts.push ⟨out, in_⟩
    ({ s with conflicts := pushed.1 }, pushed.2)

def setConflict (s : State) (reader writer : ℕ) : State :=
  let (s, c) := s.newConflict reader writer
  let s := s.modify reader fun x => { x with outConflicts := x.outConflicts ++ [c] }
  s.modify writer fun x => { x with inConflicts := x.inConflicts ++ [c] }

def setPossibleUnsafe (s : State) (ro active : ℕ) : State :=
  let (s, c) := s.newConflict active ro
  let s := s.modify active fun x => { x with possibleUnsafe := x.possibleUnsafe ++ [c] }
  s.modify ro fun x => { x with possibleUnsafe := x.possibleUnsafe ++ [c] }

def releaseConflict (s : State) (c : ℕ) : State :=
  let k := s.conflict c
  let s := (s.modify k.out (Sxact.dropConflict c)).modify k.in_ (Sxact.dropConflict c)
  { s with conflicts := s.conflicts.clear c, freeConflicts := c :: s.freeConflicts }

def flagUnsafe (s : State) (sx : ℕ) : State :=
  let s := s.modify sx fun x => { x with flags := { x.flags with roUnsafe := true } }
  (s.sx sx).possibleUnsafe.foldl releaseConflict s

/-! ## The checks -/

/-- Doom a transaction. -/
def doom (s : State) (sx : ℕ) : State :=
  s.modify sx fun x => { x with flags := { x.flags with doomed := true } }

/-- The conflict out of `w` to `t2` makes `r -> w` dangerous: `t2` committed first. -/
def firstOut (r w t2 : Sxact) : Bool :=
  t2.flags.prepared && (!r.flags.committed || t2.prepareSeq ≤ r.commitSeq) &&
    (!w.flags.committed || t2.prepareSeq ≤ w.commitSeq) &&
    (!r.flags.readOnly || t2.prepareSeq ≤ r.lastCommitBeforeSnapshot)

/-- The conflict of `t0` in to the reader makes the conflict out to `w` dangerous. -/
def lateIn (w t0 : Sxact) : Bool :=
  !t0.flags.doomed && (!t0.flags.committed || w.prepareSeq ≤ t0.commitSeq) &&
    (!t0.flags.readOnly || w.prepareSeq ≤ t0.lastCommitBeforeSnapshot)

/-- The writer is a pivot: it has a conflict out to one that committed first. -/
def writerIsPivot (s : State) (reader writer : ℕ) : Bool :=
  let r := s.sx reader
  let w := s.sx writer
  (w.flags.committed && (w.flags.conflictOut || w.flags.summaryConflictOut)) ||
    (w.flags.summaryConflictOut ||
      w.outConflicts.any fun c => firstOut r w (s.sx (s.conflict c).in_))

/-- The reader is a pivot: the writer has committed, and another is read before the reader. -/
def readerIsPivot (s : State) (reader writer : ℕ) : Bool :=
  let r := s.sx reader
  let w := s.sx writer
  w.flags.prepared && !r.flags.readOnly &&
    (r.flags.summaryConflictIn || r.inConflicts.any fun c => lateIn w (s.sx (s.conflict c).out))

def checkFailure (s : State) (reader writer me : ℕ) : State × Res :=
  if s.writerIsPivot reader writer || s.readerIsPivot reader writer then
    if me = writer then
      (s, some (.reason "Canceled on identification as a pivot, during write."))
    else if (s.sx writer).flags.prepared then
      let xid := (s.sx writer).topXid.getD 0 % 2 ^ 32
      (s, some (.reason ("Canceled on conflict out to pivot " ++ toString xid ++ ", during read.")))
    else (s.doom writer, none)
  else (s, none)

def flagConflict (s : State) (reader writer me : ℕ) : State × Res :=
  match s.checkFailure reader writer me with
  | (s, some failure) => (s, some failure)
  | (s, none) => (s.setConflict reader writer, none)

/-- The transaction of a conflict in to the pivot is one the committing `me` has to reckon with. -/
def pivotIn (s : State) (me far : ℕ) : Bool :=
  let tin := (s.conflict far).out
  let t := s.sx tin
  tin = me || (!t.flags.committed && !t.flags.readOnly && !t.flags.doomed)

/-- The loop of `pre_commit` over the conflicts in to `me`. -/
def doomPivots (s : State) (me : ℕ) : List ℕ → State × Res
  | [] => (s, none)
  | near :: rest =>
    let pivot := (s.conflict near).out
    let p := s.sx pivot
    if p.flags.committed || p.flags.doomed then s.doomPivots me rest
    else if p.inConflicts.any (s.pivotIn me) then
      if p.flags.prepared then
        (s, some (.reason "Canceled on commit attempt with conflict in from prepared pivot."))
      else (s.doom pivot).doomPivots me rest
    else s.doomPivots me rest

def preCommit (s : State) (pid : ℤ) : State × Res :=
  match s.mine pid with
  | none => (s, none)
  | some me =>
    if (s.sx me).flags.doomed then
      (s, some (.reason "Canceled on identification as a pivot, during commit attempt."))
    else
      match s.doomPivots me (s.sx me).inConflicts with
      | (s, some failure) => (s, some failure)
      | (s, none) =>
        let seq := s.lastCommitSeq + 1
        let s := { s with lastCommitSeq := seq }
        (s.modify me fun x => { x with prepareSeq := seq, flags := { x.flags with prepared := true } },
          none)

end State

/-! ## The end of a transaction -/

/-- A version without the transaction `xid`, which is forgotten; none when nobody else's is left. -/
def Version.forget (xid : ℕ) (rolledBack : Bool) (v : Version) : Option Version :=
  if v.xmin = some xid && rolledBack then none
  else
    let xmin := if v.xmin = some xid then none else v.xmin
    let xmax := if v.xmax = some xid then none else v.xmax
    if xmin.isSome || xmax.isSome then some { v with xmin, xmax } else none

namespace State

/-- The horizon after one more transaction (`new_global_xmin`). -/
def lowerXmin (acc : Option ℕ × ℕ) (x : Sxact) : Option ℕ × ℕ :=
  if x.flags.rolledBack || x.flags.committed then acc
  else
    match acc.1 with
    | some g =>
      if g < x.snap.xmin then acc
      else if x.snap.xmin = g then (some g, acc.2 + 1)
      else (some x.snap.xmin, 1)
    | none => (some x.snap.xmin, 1)

def newGlobalXmin (s : State) : State :=
  let (xmin, count) := s.active.foldl (fun acc i => lowerXmin acc (s.sx i)) (none, 0)
  { s with globalXmin := xmin, globalXminCount := count }

/-- Take a holder off a target, which goes with its last one. -/
def dropHolder (sx : ℕ) (targets : SortedMap Target (List ℕ)) (t : Target) : SortedMap Target (List ℕ) :=
  match targets.get t with
  | none => targets
  | some holders =>
    let holders := holders.filter (· ≠ sx)
    if holders.isEmpty then targets.erase t else targets.insert t holders

/-- The last part of `release_one`: the slot, the possible conflicts, the xid and its versions. -/
def forget (s : State) (sx : ℕ) : State :=
  let x := s.sx sx
  let s := { s with sxacts := s.sxacts.clear sx, active := s.active.filter (· ≠ sx) }
  let s := x.possibleUnsafe.foldl
    (fun s c => if (s.conflicts.get c).isSome then s.releaseConflict c else s) s
  match x.topXid with
  | none => s
  | some xid =>
    { s with
      xids := s.xids.erase xid
      versions := fun db rel => (s.versions db rel).filterMap (Version.forget xid x.flags.rolledBack) }

def releaseOne (s : State) (sx : ℕ) (isPartial : Bool) : State :=
  let locks := (s.sx sx).locks
  let s := { s with targets := locks.foldl (dropHolder sx) s.targets }
  let s := s.modify sx fun x => { x with locks := [], localLocks := SortedMap.empty }
  let s := if isPartial then s else (s.sx sx).outConflicts.foldl releaseConflict s
  let s := (s.sx sx).inConflicts.foldl releaseConflict s
  if isPartial then s else s.forget sx

/-- The loop of `clear_old`: the finished transactions that are left, those before them gone or kept. -/
def clearFrom (s : State) : List ℕ → State × List ℕ
  | [] => (s, [])
  | f :: rest =>
    let x := s.sx f
    if s.globalXmin.all (x.finishedBefore ≤ ·) then
      ((s.modify f fun x => { x with finished := false }).releaseOne f false).clearFrom rest
    else if s.havePartialClearedThrough < x.commitSeq && x.commitSeq ≤ s.canPartialClearThrough then
      if x.flags.readOnly then
        let s := (s.modify f fun x => { x with finished := false }).releaseOne f false
        { s with havePartialClearedThrough := x.commitSeq }.clearFrom rest
      else
        let s := s.releaseOne f true
        let (s, kept) := { s with havePartialClearedThrough := x.commitSeq }.clearFrom rest
        (s, f :: kept)
    else (s, f :: rest)

def clearOld (s : State) : State :=
  let (s, kept) := s.clearFrom s.finishedList
  { s with finishedList := kept }

/-- A conflict out to the committed `w`, kept as a flag. -/
def noteOut (s : State) (me : ℕ) (w : Sxact) : State :=
  s.modify me fun x =>
    let earliest :=
      if !x.flags.conflictOut || w.prepareSeq < x.earliestOutConflictCommit then w.prepareSeq
      else x.earliestOutConflictCommit
    { x with earliestOutConflictCommit := earliest, flags := { x.flags with conflictOut := true } }

/-- The conflicts out of the ending `me`. -/
def endOut (me : ℕ) (isCommit : Bool) (s : State) (c : ℕ) : State :=
  let w := s.sx (s.conflict c).in_
  let noted := if isCommit && !(s.sx me).flags.readOnly && w.flags.committed then s.noteOut me w else s
  if !isCommit || w.flags.committed || s.lastCommitSeq ≤ w.lastCommitBeforeSnapshot then
    noted.releaseConflict c
  else noted

/-- The conflicts in to the ending transaction. -/
def endIn (isCommit : Bool) (s : State) (c : ℕ) : State :=
  let r := s.sx (s.conflict c).out
  if !isCommit || r.flags.committed || r.flags.readOnly then s.releaseConflict c else s

/-- A concurrent read-only transaction of the ending writer `me`. -/
def endUnsafe (me : ℕ) (isCommit didWrite : Bool) (s : State) (c : ℕ) : State :=
  if (s.conflicts.get c).isNone then s
  else
    let ro := (s.conflict c).in_
    let x := s.sx me
    if isCommit && didWrite && x.flags.conflictOut &&
        x.earliestOutConflictCommit ≤ (s.sx ro).lastCommitBeforeSnapshot then
      s.flagUnsafe ro
    else
      let s := s.releaseConflict c
      if (s.sx ro).possibleUnsafe.isEmpty then
        s.modify ro fun x => { x with flags := { x.flags with roSafe := true } }
      else s

/-- Committed, with its number. A commit without a write is read-only, after the fact. -/
def markCommitted (s : State) (me : ℕ) (didWrite : Bool) : State :=
  let seq := s.lastCommitSeq + 1
  { s with lastCommitSeq := seq }.modify me fun x =>
    { x with
      commitSeq := seq
      flags := { x.flags with committed := true, readOnly := x.flags.readOnly || !didWrite } }

def markRolledBack (s : State) (me : ℕ) : State :=
  s.modify me fun x =>
    { x with flags := { x.flags with doomed := true, rolledBack := true, prepared := false } }

/-- The marks of the end. -/
def endMark (s : State) (me : ℕ) (isCommit didWrite : Bool) : State :=
  if isCommit then s.markCommitted me didWrite else s.markRolledBack me

/-- One fewer writable transaction; a read-only one waits on nobody any more. -/
def endCount (s : State) (me : ℕ) (declaredReadOnly : Bool) : State :=
  if declaredReadOnly then (s.sx me).possibleUnsafe.foldl releaseConflict s
  else
    let count := s.writableCount - 1
    { s with
      writableCount := count
      canPartialClearThrough := if count = 0 then s.lastCommitSeq else s.canPartialClearThrough }

/-- A summarized conflict out, kept as a flag. -/
def endSummary (s : State) (me : ℕ) (isCommit : Bool) : State :=
  if isCommit && !(s.sx me).flags.readOnly && (s.sx me).flags.summaryConflictOut then
    s.modify me fun x =>
      { x with
        earliestOutConflictCommit := firstNormalSeq
        flags := { x.flags with conflictOut := true } }
  else s

/-- The conflicts of the ending transaction. -/
def endConflicts (s : State) (me : ℕ) (isCommit declaredReadOnly didWrite : Bool) : State :=
  let s := (s.endCount me declaredReadOnly).endSummary me isCommit
  let s := (s.sx me).outConflicts.foldl (endOut me isCommit) s
  let s := (s.sx me).inConflicts.foldl (endIn isCommit) s
  if declaredReadOnly then s
  else (s.sx me).possibleUnsafe.foldl (endUnsafe me isCommit didWrite) s

/-- One fewer transaction at the horizon: the state, and whether the horizon moved. -/
def leaveHorizon (s : State) (me : ℕ) : State × Bool :=
  if s.globalXmin = some (s.sx me).snap.xmin then
    let s := { s with globalXminCount := s.globalXminCount - 1 }
    if s.globalXminCount = 0 then (s.newGlobalXmin, true) else (s, false)
  else (s, false)

/-- The ending transaction joins the finished ones, or is forgotten. -/
def finish (s : State) (me : ℕ) (isCommit : Bool) : State :=
  if isCommit then
    let s := s.modify me fun x => { x with finished := true }
    { s with finishedList := s.finishedList ++ [me] }
  else s.releaseOne me false

/-- The end of `me` up to the horizon. -/
def endAt (s : State) (pid : ℤ) (me : ℕ) (isCommit : Bool) (nextXid : ℕ) : State :=
  let declaredReadOnly := (s.sx me).flags.readOnly
  let didWrite := (s.sx me).didWrite
  let s := { s with byPid := s.byPid.erase pid }
  let s := s.modify me fun x => { x with finishedBefore := nextXid }
  (s.endMark me isCommit didWrite).endConflicts me isCommit declaredReadOnly didWrite

def releaseAt (s : State) (pid : ℤ) (isCommit : Bool) (nextXid : ℕ) : State :=
  match s.mine pid with
  | none => s
  | some me =>
    let (s, needToClear) := (s.endAt pid me isCommit nextXid).leaveHorizon me
    let s := s.finish me isCommit
    if needToClear then s.clearOld else s

end State

/-! ## SIREAD locks -/

/-- The lock on `t` is held, by a transaction's own table. -/
def heldIn (local_ : SortedMap Target LocalLock) (t : Target) : Bool := (local_.get t).any (·.held)

/-- One fewer child lock under `p` (`decrement_parents`). -/
def decrementChild (local_ : SortedMap Target LocalLock) (p : Target) : SortedMap Target LocalLock :=
  match local_.get p with
  | none => local_
  | some l =>
    let n := max (l.childLocks - 1) 0
    if n = 0 && !l.held then local_.erase p else local_.insert p ⟨l.held, n⟩

/-- One more child lock under `p` (`promote`). -/
def countChild (local_ : SortedMap Target LocalLock) (p : Target) : SortedMap Target LocalLock :=
  let l := (local_.get p).getD ⟨false, 0⟩
  local_.insert p ⟨l.held, l.childLocks + 1⟩

/-- Mark the lock on `t` held. -/
def holdLocal (local_ : SortedMap Target LocalLock) (t : Target) : SortedMap Target LocalLock :=
  let l := (local_.get t).getD ⟨false, 0⟩
  local_.insert t ⟨true, l.childLocks⟩

namespace State

/-- The update of a transaction's own table. -/
def modifyLocal (s : State) (sx : ℕ) (f : SortedMap Target LocalLock → SortedMap Target LocalLock) : State :=
  s.modify sx fun x => { x with localLocks := f x.localLocks }

def lockExists (s : State) (sx : ℕ) (t : Target) : Bool := heldIn (s.sx sx).localLocks t

def coarserCovers (s : State) (sx : ℕ) (t : Target) : Bool := t.ancestors.any (s.lockExists sx)

def createLock (s : State) (sx : ℕ) (t : Target) : State :=
  let holders := (s.targets.get t).getD []
  if sx ∈ holders then s
  else
    let s := { s with targets := s.targets.insert t (holders ++ [sx]) }
    s.modify sx fun x => { x with locks := x.locks ++ [t] }

def removeLock (s : State) (sx : ℕ) (t : Target) : State :=
  let s := { s with targets := dropHolder sx s.targets t }
  s.modify sx fun x => { x with locks := x.locks.filter (· ≠ t) }

/-- A lock and its entry in the transaction's own table go, and its parents count one less. -/
def dropLock (sx : ℕ) (s : State) (t : Target) : State :=
  (s.removeLock sx t).modifyLocal sx fun local_ => t.ancestors.foldl decrementChild (local_.erase t)

def deleteChildren (s : State) (sx : ℕ) (t : Target) : State :=
  (s.sx sx).locks.foldl (fun s old => if old.coveredBy t then s.dropLock sx old else s) s

/-- The coarsest target that has more children than its limit (`promote`). -/
def promotion? (s : State) (sx : ℕ) (t : Target) : Option Target :=
  t.ancestors.reverse.find? fun p =>
    match (s.sx sx).localLocks.get p with
    | some l => p.maxChildren < l.childLocks
    | none => false

theorem promotion?_mem {s : State} {sx : ℕ} {t p : Target} (h : s.promotion? sx t = some p) :
    p ∈ t.ancestors := List.mem_reverse.mp (List.mem_of_find?_eq_some h)

/-- `acquire`, with `promote`. -/
def acquire (s : State) (sx : ℕ) (t : Target) : State :=
  if s.lockExists sx t || s.coarserCovers sx t then s
  else
    let s := (s.modifyLocal sx (holdLocal · t)).createLock sx t
    let s := s.modifyLocal sx fun local_ => t.ancestors.foldl countChild local_
    match _h : s.promotion? sx t with
    | some p => s.acquire sx p
    | none => if t.isTuple then s else s.deleteChildren sx t
termination_by t.level
decreasing_by exact Target.level_lt_of_mem_ancestors (promotion?_mem _h)

def pageSplit (s : State) (db : ℕ) (rel : ℤ) (old new : ℕ) : State :=
  if s.globalXmin.isNone then s
  else ((s.targets.get (.page db rel old)).getD []).foldl
    (fun s sx => s.createLock sx (.page db rel new)) s

end State

end Secantus.Ssi
