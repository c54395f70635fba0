/-
  The calls on the SSI state (ssi.rs), as sessions make them. A run is a list of calls, each with the
  cluster's next xid as its session read it.
-/
import Secantus.Library.Merge
import Secantus.Ssi.Conflicts

namespace Secantus.Ssi

open Secantus Secantus.Library

namespace State

/-! ## Snapshots -/

/-- A transaction enters the horizon and its backend's entry. -/
def enterBackend (s : State) (pid : ℤ) (id xmin : ℕ) : State :=
  let s :=
    match s.globalXmin with
    | none => { s with globalXmin := some xmin, globalXminCount := 1 }
    | some g => if g = xmin then { s with globalXminCount := s.globalXminCount + 1 } else s
  { s with byPid := s.byPid.insert pid id }

/-- A new transaction's slot, last on the active list. -/
def addSxact (s : State) (snap : Snap) : State × ℕ :=
  let added := s.sxacts.add (Sxact.fresh s.lastCommitSeq snap)
  ({ s with sxacts := added.1, active := s.active ++ [added.2] }, added.2)

/-- A concurrent read/write transaction is a possible conflict of the read-only `id`. -/
def notePossible (id : ℕ) (s : State) (other : ℕ) : State :=
  let o := s.sx other
  if other ≠ id && !o.flags.committed && !o.flags.doomed && !o.flags.readOnly then
    s.setPossibleUnsafe id other
  else s

def register (s : State) (pid : ℤ) (snap : Snap) (readOnly : Bool) : State :=
  if (s.mine pid).isSome then s
  else if readOnly && s.writableCount = 0 then s
  else
    let (s, id) := s.addSxact snap
    if readOnly then
      let s := s.modify id fun x => { x with flags := { x.flags with readOnly := true } }
      let s := s.active.foldl (notePossible id) s
      if (s.sx id).possibleUnsafe.isEmpty then
        { s with active := s.active.filter (· ≠ id), sxacts := s.sxacts.clear id }
      else s.enterBackend pid id snap.xmin
    else { s with writableCount := s.writableCount + 1 }.enterBackend pid id snap.xmin

def setXid (s : State) (sx xid : ℕ) : State :=
  if (s.sx sx).topXid.isSome then s
  else
    let s := s.modify sx fun x => { x with topXid := some xid }
    { s with xids := s.xids.insert xid sx }

/-! ## Reads -/

def neededForRead (s : State) (pid : ℤ) (nextXid : ℕ) : State × Option ℕ :=
  match s.mine pid with
  | none => (s, none)
  | some sx => if (s.sx sx).flags.roSafe then (s.releaseAt pid false nextXid, none) else (s, some sx)

/-- `lock_relation` and `lock_page`: a lock on the target. -/
def lockTarget (s : State) (pid : ℤ) (nextXid : ℕ) (t : Target) : State :=
  match s.neededForRead pid nextXid with
  | (s, some sx) => s.acquire sx t
  | (s, none) => s

def lockTuple (s : State) (pid : ℤ) (nextXid db : ℕ) (rel ctid : ℤ) (xmin : Option ℕ) : State :=
  match s.neededForRead pid nextXid with
  | (s, none) => s
  | (s, some sx) =>
    -- a tuple it wrote, it holds a write lock on
    if xmin.isSome && xmin = (s.sx sx).topXid then s
    else if s.lockExists sx (.relation db rel) then s
    else s.acquire sx (.tuple db rel (blkOf ctid) (offOf ctid))

def concurrent (s : State) (sx xid : ℕ) : Bool :=
  let snap := (s.sx sx).snap
  if xid < snap.xmin then false else if snap.xmax ≤ xid then true else xid ∈ snap.xip

def conflictOut (s : State) (me xid : ℕ) : State × Res :=
  if (s.sx me).flags.doomed then
    (s, some (.reason "Canceled on identification as a pivot, during conflict out checking."))
  else if some xid = (s.sx me).topXid then (s, none)
  else
    match s.xids.get xid with
    | none => (s, none)
    | some other =>
      let m := s.sx me
      let o := s.sx other
      if other = me || o.flags.doomed then (s, none)
      else if o.flags.summaryConflictOut then
        if !o.flags.prepared then (s.doom other, none)
        else (s, some (.reason "Canceled on conflict out to old pivot."))
      else if m.flags.readOnly && o.flags.committed && !o.flags.summaryConflictOut &&
          (!o.flags.conflictOut || m.lastCommitBeforeSnapshot < o.earliestOutConflictCommit) then
        (s, none)
      else if !s.concurrent me xid then (s, none)
      else if s.conflictExists me other then (s, none)
      else s.flagConflict me other me

/-- Has a tracked writer committed? An untracked one is taken as committed long ago. -/
def writerState (s : State) (x : ℕ) : Option Bool :=
  (s.xids.get x).map fun i => (s.sx i).flags.committed

/-- What `xid` wrote is visible to the reader `me`. -/
def visibleXid (s : State) (me : ℕ) (xid : Option ℕ) : Bool :=
  match xid with
  | none => true
  | some x =>
    if some x = (s.sx me).topXid then true
    else
      match s.writerState x with
      | none => true
      | some committed => committed && !s.concurrent me x

/-- The writer of a version that a reader `me` may conflict out to (`check_version`). -/
def conflictingWriter (s : State) (me : ℕ) (v : Version) : Option ℕ :=
  let myXid := (s.sx me).topXid
  let txnXmin := (s.sx me).snap.xmin
  let inProgress :=
    match v.xmin with
    | none => false
    | some x => (some x ≠ myXid && s.writerState x = some false) || some x = myXid
  let visible := s.visibleXid me v.xmin && !(v.xmax.isSome && s.visibleXid me v.xmax)
  let xid :=
    if inProgress then v.xmin
    else
      match v.xmax with
      | none => if visible then none else v.xmin
      | some xmax =>
        if some xmax ≠ myXid && s.writerState xmax ≠ some false && xmax < txnXmin then none
        else
          match (if visible then some xmax else v.xmin) with
          | none => none
          | some x => if x < txnXmin then none else some x
  match xid with
  | none => none
  | some x => if some x = myXid || x < txnXmin then none else some x

def checkVersion (s : State) (me : ℕ) (v : Version) : State × Res :=
  match s.conflictingWriter me v with
  | none => (s, none)
  | some xid => s.conflictOut me xid

/-- The loop of `scan_conflicts_out`. -/
def checkVersions (s : State) (me : ℕ) : List Version → State × Res
  | [] => (s, none)
  | v :: rest =>
    match s.checkVersion me v with
    | (s, some failure) => (s, some failure)
    | (s, none) => s.checkVersions me rest

def scanConflictsOut (s : State) (pid : ℤ) (nextXid db : ℕ) (rel : ℤ)
    (examined : ℤ → Option Document → Bool) (tuples : Bool) : State × Res :=
  if !tuples then (s, none)
  else
    match s.neededForRead pid nextXid with
    | (s, none) => (s, none)
    | (s, some me) =>
      if (s.sx me).flags.doomed then
        (s, some (.reason "Canceled on identification as a pivot, during conflict out checking."))
      else
        s.checkVersions me
          (((s.versions db rel).entries.filter fun e => examined e.1 e.2.doc).map Prod.snd)

/-! ## Writes -/

/-- The loop of `target_conflicts_in` over the holders. -/
def flagHolders (s : State) (me : ℕ) : List ℕ → State × Res
  | [] => (s, none)
  | sx :: rest =>
    let o := s.sx sx
    if sx ≠ me && !o.flags.doomed && (!o.flags.committed || (s.sx me).snap.xmin < o.finishedBefore) &&
        !s.conflictExists sx me then
      match s.flagConflict sx me me with
      | (s, some failure) => (s, some failure)
      | (s, none) => s.flagHolders me rest
    else s.flagHolders me rest

def targetConflictsIn (s : State) (me : ℕ) (t : Target) : State × Res :=
  match s.targets.get t with
  | none => (s, none)
  | some holders =>
    match s.flagHolders me holders with
    | (s, some failure) => (s, some failure)
    | (s, none) =>
      -- a write lock on the tuple makes our own lock redundant
      if t.isTuple && me ∈ holders then (s.dropLock me t, none) else (s, none)

/-- The targets of a write: the tuple and the page that it names, and the relation. -/
def writeTargets (db : ℕ) (rel : ℤ) (ctid : Option ℤ) (blk : Option ℕ) : List Target :=
  (ctid.map fun c => .tuple db rel (blkOf c) (offOf c)).toList ++
    (blk.map fun b => .page db rel b).toList ++ [.relation db rel]

/-- The checks of a write, one target after the other. -/
def conflictsIn (s : State) (me : ℕ) : List Target → State × Res
  | [] => (s, none)
  | t :: rest =>
    match s.targetConflictsIn me t with
    | (s, some failure) => (s, some failure)
    | (s, none) => s.conflictsIn me rest

def conflictIn (s : State) (pid : ℤ) (db : ℕ) (rel : ℤ) (ctid : Option ℤ) (blk : Option ℕ) :
    State × Res :=
  match s.mine pid with
  | none => (s, none)
  | some me =>
    if (s.sx me).flags.doomed then
      (s, some (.reason "Canceled on identification as a pivot, during conflict in checking."))
    else (s.modify me fun x => { x with didWrite := true }).conflictsIn me (writeTargets db rel ctid blk)

/-- The holders of one target that a TRUNCATE or DROP conflicts with. -/
def flagAll (s : State) (me : ℕ) : List ℕ → State × Res
  | [] => (s, none)
  | sx :: rest =>
    if sx ≠ me && !s.conflictExists sx me then
      match s.flagConflict sx me me with
      | (s, some failure) => (s, some failure)
      | (s, none) => s.flagAll me rest
    else s.flagAll me rest

/-- The loop of `table_conflict_in`. -/
def flagTargets (s : State) (me : ℕ) : List Target → State × Res
  | [] => (s, none)
  | t :: rest =>
    match s.flagAll me ((s.targets.get t).getD []) with
    | (s, some failure) => (s, some failure)
    | (s, none) => s.flagTargets me rest

def tableConflictIn (s : State) (pid : ℤ) (db : ℕ) (rel : ℤ) : State × Res :=
  if s.globalXmin.isNone then (s, none)
  else
    match s.mine pid with
    | none => (s, none)
    | some me =>
      (s.modify me fun x => { x with didWrite := true }).flagTargets me
        (s.targets.keys.filter fun t => t.relationOf = (db, rel))

def noteVersion (s : State) (pid : ℤ) (db : ℕ) (rel ctid : ℤ) (inserted : Bool)
    (doc : Option Document) : State :=
  match s.mine pid with
  | none => s
  | some me =>
    match (s.sx me).topXid with
    | none => s
    | some xid =>
      let v := ((s.versions db rel).get ctid).getD ⟨none, none, none⟩
      let v : Version :=
        { xmin := if inserted then some xid else v.xmin
          xmax := if inserted then v.xmax else some xid
          doc := v.doc.or doc }
      { s with
        versions := fun db' rel' =>
          if db' = db ∧ rel' = rel then (s.versions db rel).insert ctid v else s.versions db' rel' }

def setDeferrableWaiting (s : State) (pid : ℤ) (on : Bool) : State :=
  match s.mine pid with
  | none => s
  | some sx => s.modify sx fun x => { x with flags := { x.flags with deferrableWaiting := on } }

end State

/-! ## Calls -/

/-- What a session asks of the state. -/
inductive Call where
  | register (pid : ℤ) (snap : Snap) (readOnly : Bool)
  | setXid (pid : ℤ) (xid : ℕ)
  | lockRelation (pid : ℤ) (db : ℕ) (rel : ℤ)
  | lockPage (pid : ℤ) (db : ℕ) (rel : ℤ) (blk : ℕ)
  | lockTuple (pid : ℤ) (db : ℕ) (rel ctid : ℤ) (xmin : Option ℕ)
  | scanConflictsOut (pid : ℤ) (db : ℕ) (rel : ℤ) (examined : ℤ → Option Document → Bool) (tuples : Bool)
  | conflictIn (pid : ℤ) (db : ℕ) (rel : ℤ) (ctid : Option ℤ) (blk : Option ℕ)
  | tableConflictIn (pid : ℤ) (db : ℕ) (rel : ℤ)
  | noteVersion (pid : ℤ) (db : ℕ) (rel ctid : ℤ) (inserted : Bool) (doc : Option Document)
  | pageSplit (db : ℕ) (rel : ℤ) (old new : ℕ)
  | preCommit (pid : ℤ)
  | release (pid : ℤ) (isCommit : Bool)
  | setDeferrableWaiting (pid : ℤ) (on : Bool)

/-- One call (`ssi::with`): the state after it, and its error if it has one. -/
def State.call (s : State) (nextXid : ℕ) : Call → State × Res
  | .register pid snap readOnly => (s.register pid snap readOnly, none)
  | .setXid pid xid =>
    match s.mine pid with
    | some sx => (s.setXid sx xid, none)
    | none => (s, none)
  | .lockRelation pid db rel => (s.lockTarget pid nextXid (.relation db rel), none)
  | .lockPage pid db rel blk => (s.lockTarget pid nextXid (.page db rel blk), none)
  | .lockTuple pid db rel ctid xmin => (s.lockTuple pid nextXid db rel ctid xmin, none)
  | .scanConflictsOut pid db rel examined tuples => s.scanConflictsOut pid nextXid db rel examined tuples
  | .conflictIn pid db rel ctid blk => s.conflictIn pid db rel ctid blk
  | .tableConflictIn pid db rel => s.tableConflictIn pid db rel
  | .noteVersion pid db rel ctid inserted doc => (s.noteVersion pid db rel ctid inserted doc, none)
  | .pageSplit db rel old new => (s.pageSplit db rel old new, none)
  | .preCommit pid => s.preCommit pid
  | .release pid isCommit => (s.releaseAt pid isCommit nextXid, none)
  | .setDeferrableWaiting pid on => (s.setDeferrableWaiting pid on, none)

end Secantus.Ssi
