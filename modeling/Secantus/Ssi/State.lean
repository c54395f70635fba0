/-
  The state of Serializable Snapshot Isolation (ssi.rs): one for each cluster, the transactions that are
  running or committed but not forgotten, the rw-conflicts among them, and the SIREAD locks.

  The code reads a transaction or a conflict by its id and panics when that slot is free; `sx` and
  `conflict` give a default there, and an update of a free slot changes nothing.
-/
import Mathlib.Data.Prod.Lex
import Secantus.Bson.Value
import Secantus.Library.Slots
import Secantus.Library.SortedMap

namespace Secantus.Ssi

open Secantus Secantus.Library

/-- A predicate lock's target: a relation, a page of it, or a tuple. -/
inductive Target where
  | relation (db : ℕ) (rel : ℤ)
  | page (db : ℕ) (rel : ℤ) (blk : ℕ)
  | tuple (db : ℕ) (rel : ℤ) (blk off : ℕ)

namespace Target

/-- What the derived order compares: the kind, then the fields. -/
def sortKey : Target → ℕ ×ₗ ℕ ×ₗ ℤ ×ₗ ℕ ×ₗ ℕ
  | .relation db rel => toLex (0, toLex (db, toLex (rel, toLex (0, 0))))
  | .page db rel blk => toLex (1, toLex (db, toLex (rel, toLex (blk, 0))))
  | .tuple db rel blk off => toLex (2, toLex (db, toLex (rel, toLex (blk, off))))

theorem sortKey_injective : Function.Injective sortKey := by
  intro a b h
  cases a <;> cases b <;> simp_all [sortKey]

instance : LinearOrder Target := LinearOrder.lift' sortKey sortKey_injective

/-- `parent` and its parents, the nearest first. -/
def ancestors : Target → List Target
  | .relation _ _ => []
  | .page db rel _ => [.relation db rel]
  | .tuple db rel blk _ => [.page db rel blk, .relation db rel]

/-- How many targets are above. -/
def level (t : Target) : ℕ := t.ancestors.length

/-- `rel`. -/
def relationOf : Target → ℕ × ℤ
  | .relation db rel | .page db rel _ | .tuple db rel _ _ => (db, rel)

def coveredBy (t covering : Target) : Bool := covering ∈ t.ancestors

/-- `max_children`, with PostgreSQL's default limits of 64 locks a transaction, half of them in one
    relation, and 2 a page. -/
def maxChildren : Target → ℤ
  | .relation _ _ => 64 / 2 - 1
  | .page _ _ _ => 2
  | .tuple _ _ _ _ => 0

def isTuple : Target → Bool
  | .tuple _ _ _ _ => true
  | _ => false

theorem level_lt_of_mem_ancestors {p t : Target} (h : p ∈ t.ancestors) : p.level < t.level := by
  cases t with
  | relation db rel => cases h
  | page db rel blk =>
    rw [List.mem_singleton.mp h]
    simp [level, ancestors]
  | tuple db rel blk off =>
    rcases List.mem_cons.mp h with rfl | h
    · simp [level, ancestors]
    · rw [List.mem_singleton.mp h]
      simp [level, ancestors]

theorem ancestors_trans {a b c : Target} (hab : a ∈ b.ancestors) (hbc : b ∈ c.ancestors) :
    a ∈ c.ancestors := by
  cases c with
  | relation db rel => cases hbc
  | page db rel blk =>
    rw [List.mem_singleton.mp hbc] at hab
    cases hab
  | tuple db rel blk off =>
    rcases List.mem_cons.mp hbc with rfl | hbc
    · exact List.mem_cons_of_mem _ hab
    · rw [List.mem_singleton.mp hbc] at hab
      cases hab

end Target

/-- The block and the offset of a ctid. -/
def blkOf (ctid : ℤ) : ℕ := (ctid.tdiv 65536 % 2 ^ 32).toNat

def offOf (ctid : ℤ) : ℕ := (ctid.tmod 65536 % 2 ^ 16).toNat

/-- A transaction's snapshot. -/
structure Snap where
  xmin : ℕ
  xmax : ℕ
  xip : List ℕ
  deriving DecidableEq

/-- The detail of a 40001. -/
structure Failure where
  detail : String
  deriving DecidableEq

def Failure.reason (r : String) : Failure := ⟨"Reason code: " ++ r⟩

/-- What a call answers besides changing the state: `none` for `Ok`. -/
abbrev Res := Option Failure

structure LocalLock where
  held : Bool
  childLocks : ℤ
  deriving DecidableEq, Inhabited

/-- `InvalidSerCommitSeqNo`. -/
def invalidSeq : ℕ := 2 ^ 64 - 1

/-- `FirstNormalSerCommitSeqNo`. -/
def firstNormalSeq : ℕ := 2

/-- The bits of `Sxact::flags`. -/
structure Flags where
  committed : Bool := false
  prepared : Bool := false
  rolledBack : Bool := false
  doomed : Bool := false
  conflictOut : Bool := false
  readOnly : Bool := false
  deferrableWaiting : Bool := false
  roSafe : Bool := false
  roUnsafe : Bool := false
  summaryConflictIn : Bool := false
  summaryConflictOut : Bool := false
  deriving DecidableEq, Inhabited

/-- `SERIALIZABLEXACT`. -/
structure Sxact where
  lastCommitBeforeSnapshot : ℕ
  earliestOutConflictCommit : ℕ
  prepareSeq : ℕ
  commitSeq : ℕ
  topXid : Option ℕ
  finishedBefore : ℕ
  snap : Snap
  flags : Flags
  /-- The conflicts this one reads before, and is read before by, in the order recorded. -/
  outConflicts : List ℕ
  inConflicts : List ℕ
  possibleUnsafe : List ℕ
  /-- Its predicate locks, in the order taken. -/
  locks : List Target
  /-- `LocalPredicateLockHash`. -/
  localLocks : SortedMap Target LocalLock
  didWrite : Bool
  finished : Bool

/-- A transaction that just took `snap`. -/
def Sxact.fresh (lastCommitSeq : ℕ) (snap : Snap) : Sxact where
  lastCommitBeforeSnapshot := lastCommitSeq
  earliestOutConflictCommit := 0
  prepareSeq := invalidSeq
  commitSeq := invalidSeq
  topXid := none
  finishedBefore := 0
  snap := snap
  flags := {}
  outConflicts := []
  inConflicts := []
  possibleUnsafe := []
  locks := []
  localLocks := SortedMap.empty
  didWrite := false
  finished := false

instance : Inhabited Sxact := ⟨Sxact.fresh 0 ⟨0, 0, []⟩⟩

/-- `RWConflictData`: `out` reads before `in_` writes. -/
structure Conflict where
  out : ℕ
  in_ : ℕ
  deriving DecidableEq, Inhabited

/-- A tracked tuple version: who inserted and deleted it, and the row. -/
structure Version where
  xmin : Option ℕ
  xmax : Option ℕ
  doc : Option Document

structure State where
  sxacts : Slots Sxact
  /-- `PredXact->activeList`, in creation order. -/
  active : List ℕ
  conflicts : Slots Conflict
  /-- The freed conflict ids, the last freed first. -/
  freeConflicts : List ℕ
  /-- Each target's holders, in order. -/
  targets : SortedMap Target (List ℕ)
  xids : SortedMap ℕ ℕ
  lastCommitSeq : ℕ
  canPartialClearThrough : ℕ
  havePartialClearedThrough : ℕ
  globalXmin : Option ℕ
  globalXminCount : ℕ
  writableCount : ℕ
  finishedList : List ℕ
  /-- The versions serializable transactions wrote, by database, relation and ctid. -/
  versions : ℕ → ℤ → SortedMap ℤ Version
  /-- Each backend's transaction. -/
  byPid : SortedMap ℤ ℕ

namespace State

/-- A cluster's first state. -/
def initial : State where
  sxacts := Slots.empty
  active := []
  conflicts := Slots.empty
  freeConflicts := []
  targets := SortedMap.empty
  xids := SortedMap.empty
  lastCommitSeq := firstNormalSeq - 1
  canPartialClearThrough := 0
  havePartialClearedThrough := 0
  globalXmin := none
  globalXminCount := 0
  writableCount := 0
  finishedList := []
  versions := fun _ _ => SortedMap.empty
  byPid := SortedMap.empty

def sx (s : State) (i : ℕ) : Sxact := (s.sxacts.get i).getD default

/-- The update `sx_mut` makes. -/
def modify (s : State) (i : ℕ) (f : Sxact → Sxact) : State := { s with sxacts := s.sxacts.modify i f }

def conflict (s : State) (c : ℕ) : Conflict := (s.conflicts.get c).getD default

/-- The backend's serializable transaction, if it has one. -/
def mine (s : State) (pid : ℤ) : Option ℕ := s.byPid.get pid

/-- The transaction has a slot. -/
def Live (s : State) (i : ℕ) : Prop := ∃ x, s.sxacts.get i = some x

theorem sx_of_get {s : State} {i : ℕ} {x : Sxact} (h : s.sxacts.get i = some x) : s.sx i = x := by
  rw [sx, h]
  rfl

theorem sx_of_map {γ : Type*} {s s' : State} {i : ℕ} {g : Sxact → γ}
    (h : (s'.sxacts.get i).map g = (s.sxacts.get i).map g) : g (s'.sx i) = g (s.sx i) := by
  rw [sx, sx, ← Option.getD_map g, ← Option.getD_map g, h]

theorem live_of_map {γ : Type*} {s s' : State} {i : ℕ} {g : Sxact → γ}
    (h : (s'.sxacts.get i).map g = (s.sxacts.get i).map g) : s'.Live i ↔ s.Live i := by
  unfold Live
  rw [← Option.isSome_iff_exists, ← Option.isSome_iff_exists, ← Option.isSome_map, h, Option.isSome_map]

theorem live_modify {s : State} {i : ℕ} {f : Sxact → Sxact} {j : ℕ} :
    (s.modify i f).Live j ↔ s.Live j :=
  live_of_map (Slots.map_get_modify s.sxacts (g := fun _ => ()) (fun _ => rfl) i j)

theorem sx_modify_ne (s : State) {i j : ℕ} (h : i ≠ j) (f : Sxact → Sxact) :
    (s.modify i f).sx j = s.sx j := by
  unfold sx modify
  rw [Slots.get_modify, if_neg h]

theorem sx_modify_self {s : State} {i : ℕ} (h : s.Live i) (f : Sxact → Sxact) :
    (s.modify i f).sx i = f (s.sx i) := by
  obtain ⟨x, hx⟩ := h
  unfold sx modify
  rw [Slots.get_modify, if_pos rfl, hx]
  rfl

/-- What an update of a transaction does not change, it changes for none. -/
theorem proj_sx_modify {γ : Type*} (s : State) (i j : ℕ) {f : Sxact → Sxact} (π : Sxact → γ)
    (h : ∀ x, π (f x) = π x) : π ((s.modify i f).sx j) = π (s.sx j) :=
  sx_of_map (Slots.map_get_modify s.sxacts h i j)

end State

end Secantus.Ssi
