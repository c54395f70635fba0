/-
  The statements of a retryable write that have been applied (transactions.rs, `Applied`).

  A statement is known by its id. Many inserts are kept as runs of ids, so one of them reads back as an
  insert without its `_id`.
-/
import Secantus.Bson.Value
import Secantus.Library.SortedMap

namespace Secantus.Retry

/-- What a statement that wrote did. -/
inductive StmtRecord where
  | insert (id : Option Bson)
  | update (upserted : Option Bson)
  | delete
  | findAndModify (reply : Document) (remove new : Bool)

def StmtRecord.isInsert : StmtRecord → Bool
  | .insert _ => true
  | _ => false

structure Applied where
  records : SortedMap ℤ StmtRecord
  /-- `(first, count)` runs of inserted statement ids. -/
  inserted : List (ℤ × ℕ)

namespace Applied

def empty : Applied := ⟨SortedMap.empty, []⟩

/-- Above this many inserts in one command, they are kept as runs. -/
def insertRunThreshold : ℕ := 16

def inRun (id : ℤ) (run : ℤ × ℕ) : Bool := 0 ≤ id - run.1 && id - run.1 < run.2

/-- What statement `id` did, if it has been applied. -/
def get (a : Applied) (id : ℤ) : Option StmtRecord :=
  match a.records.get id with
  | some record => some record
  | none => if a.inserted.any (inRun id) then some (.insert none) else none

def contains (a : Applied) (id : ℤ) : Bool := (a.get id).isSome

/-- One more id of the runs: the last run takes the id that follows it. -/
def addRun (runs : List (ℤ × ℕ)) (id : ℤ) : List (ℤ × ℕ) :=
  match runs.getLast? with
  | some (first, count) =>
    if first + count = id then runs.dropLast ++ [(first, count + 1)] else runs ++ [(id, 1)]
  | none => runs ++ [(id, 1)]

def add (a : Applied) (records : List (ℤ × StmtRecord)) : Applied :=
  if !records.all (·.2.isInsert) || records.length ≤ insertRunThreshold then
    { a with records := records.foldl (fun m r => m.insert r.1 r.2) a.records }
  else { a with inserted := ((records.map Prod.fst).mergeSort).foldl addRun a.inserted }

end Applied

end Secantus.Retry
