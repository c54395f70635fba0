/-
  mongod's lock manager (lock_manager.rs of secantus-commands): resource locks in four modes, taken by
  transactions and statements.

  A call of `acquire` takes the mutex when it asks and again each time it wakes, so it is several moves with
  those of others between them: `ask`, then `poll` until it is granted or its deadline is spent. The counters
  that serverStatus reports and the flow control tickets decide nothing and are left out. A resource without
  an entry in the table reads as one with no holder and no waiter.
-/
import Mathlib.Data.List.Count
import Mathlib.Logic.Function.Basic

namespace Secantus.LockManager

inductive Mode where
  | is
  | ix
  | s
  | x
  deriving DecidableEq

/-- A request in the first mode waits while another holds the second. -/
def Mode.conflictsWith : Mode → Mode → Bool
  | .is, .x | .s, .ix | .s, .x | .x, .is | .x, .ix | .x, .s | .x, .x | .ix, .s | .ix, .x => true
  | _, _ => false

theorem Mode.conflictsWith_comm (m m' : Mode) : m.conflictsWith m' = m'.conflictsWith m := by
  cases m <;> cases m' <;> rfl

inductive Resource where
  | global
  | database (name : String)
  | collection (name : String)
  | mutex
  | metadata
  | oplog
  | replicationStateTransition
  | mdtBarrier
  deriving DecidableEq

inductive Owner where
  | transaction (n : ℕ)
  | statement (n : ℕ)
  deriving DecidableEq

/-- An entry of a queue. -/
structure Request where
  ticket : ℕ
  owner : Owner
  mode : Mode
  deriving DecidableEq

structure Head where
  holders : List (Owner × Mode)
  queue : List Request

namespace Head

def empty : Head := ⟨[], []⟩

def blocks (h : Head) (owner : Owner) (mode : Mode) : Bool :=
  h.holders.any fun e => e.1 ≠ owner && mode.conflictsWith e.2

def holds (h : Head) (owner : Owner) : Bool := h.holders.any fun e => e.1 = owner

/-- The loop of `grantable`, with the requests it has let through. -/
def grantableAfter (h : Head) (ticket : ℕ) : List (Owner × Mode) → List Request → Bool
  | _, [] => false
  | granted, q :: queue =>
    if h.blocks q.owner q.mode || granted.any fun e => e.1 ≠ q.owner && q.mode.conflictsWith e.2 then false
    else if q.ticket = ticket then true
    else h.grantableAfter ticket (granted ++ [(q.owner, q.mode)]) queue

def grantable (h : Head) (ticket : ℕ) : Bool := h.grantableAfter ticket [] h.queue

/-- One more hold. -/
def hold (h : Head) (owner : Owner) (mode : Mode) : Head := { h with holders := h.holders ++ [(owner, mode)] }

/-- One more in the queue, unless its owner holds the resource: it converts in place. -/
def enqueue (h : Head) (q : Request) : Head :=
  if h.holds q.owner then h else { h with queue := h.queue ++ [q] }

/-- The queue without a ticket. -/
def leave (h : Head) (ticket : ℕ) : Head := { h with queue := h.queue.filter (·.ticket ≠ ticket) }

/-- Without the latest hold of `owner` in `mode`, if there is one. -/
def releaseOne (h : Head) (owner : Owner) (mode : Mode) : Head :=
  { h with holders := (h.holders.reverse.erase (owner, mode)).reverse }

end Head

structure State where
  heads : Resource → Head
  nextTicket : ℕ

/-- A call of `acquire` that waits. -/
structure Wait where
  ticket : ℕ
  owner : Owner
  resource : Resource
  mode : Mode
  /-- The owner held the resource when it asked; the call is in no queue. -/
  converting : Bool
  deriving DecidableEq

/-- What a waiting call does on waking. -/
inductive Wake where
  | granted
  | expired
  | waits
  deriving DecidableEq

namespace State

def setHead (s : State) (r : Resource) (h : Head) : State := { s with heads := Function.update s.heads r h }

/-- `acquire` up to its loop: the lock is taken (`none`), or the call waits. -/
def ask (s : State) (owner : Owner) (r : Resource) (mode : Mode) : State × Option Wait :=
  let head := s.heads r
  if !head.blocks owner mode && (head.queue.isEmpty || head.holds owner) then
    (s.setHead r (head.hold owner mode), none)
  else
    let ticket := s.nextTicket
    ({ s.setHead r (head.enqueue ⟨ticket, owner, mode⟩) with nextTicket := ticket + 1 },
      some ⟨ticket, owner, r, mode, head.holds owner⟩)

def ready (s : State) (w : Wait) : Bool :=
  if w.converting then !(s.heads w.resource).blocks w.owner w.mode else (s.heads w.resource).grantable w.ticket

/-- One turn of the loop of `acquire`. -/
def poll (s : State) (w : Wait) (expired : Bool) : State × Wake :=
  if s.ready w then
    (s.setHead w.resource (((s.heads w.resource).leave w.ticket).hold w.owner w.mode), .granted)
  else if expired then (s.setHead w.resource ((s.heads w.resource).leave w.ticket), .expired)
  else (s, .waits)

def release (s : State) (owner : Owner) : State :=
  { s with heads := fun r => { s.heads r with holders := (s.heads r).holders.filter (·.1 ≠ owner) } }

def releaseHold (s : State) (owner : Owner) (link : Resource × Mode) : State :=
  s.setHead link.1 ((s.heads link.1).releaseOne owner link.2)

def releaseHolds (s : State) (owner : Owner) (chain : List (Resource × Mode)) : State :=
  chain.foldl (releaseHold · owner) s

end State

/-! ## Calls under way -/

/-- The locks and the calls that wait. -/
structure System where
  state : State
  waiting : List Wait

inductive Move where
  /-- A call of `acquire` starts. -/
  | acquire (owner : Owner) (r : Resource) (mode : Mode)
  /-- A waiting call wakes, its deadline spent or not. -/
  | wake (w : Wait) (expired : Bool)
  | release (owner : Owner)
  | releaseHolds (owner : Owner) (chain : List (Resource × Mode))
  deriving DecidableEq

def Move.owner : Move → Owner
  | .acquire owner _ _ | .release owner | .releaseHolds owner _ => owner
  | .wake w _ => w.owner

/-- A step of a call of `acquire`. -/
def Move.acquires : Move → Bool
  | .acquire _ _ _ | .wake _ _ => true
  | .release _ | .releaseHolds _ _ => false

namespace System

def opened : System := ⟨⟨fun _ => Head.empty, 1⟩, []⟩

def head (w : System) (r : Resource) : Head := w.state.heads r

/-- The waiting calls after `wt` has woken. -/
def stillWaiting (waiting : List Wait) (wt : Wait) : Wake → List Wait
  | .waits => waiting
  | _ => waiting.erase wt

def step (w : System) : Move → System
  | .acquire owner r mode => ⟨(w.state.ask owner r mode).1, (w.state.ask owner r mode).2.toList ++ w.waiting⟩
  | .wake wt expired =>
    if wt ∈ w.waiting then
      ⟨(w.state.poll wt expired).1, stillWaiting w.waiting wt (w.state.poll wt expired).2⟩
    else w
  | .release owner => { w with state := w.state.release owner }
  | .releaseHolds owner chain => { w with state := w.state.releaseHolds owner chain }

abbrev run (w : System) (moves : List Move) : System := moves.foldl step w

/-- The call that a move lets return `Ok`. -/
def grants (w : System) : Move → Option Wait
  | .acquire owner r mode =>
    match (w.state.ask owner r mode).2 with
    | none => some ⟨w.state.nextTicket, owner, r, mode, (w.head r).holds owner⟩
    | some _ => none
  | .wake wt expired => if wt ∈ w.waiting ∧ (w.state.poll wt expired).2 = .granted then some wt else none
  | .release _ | .releaseHolds _ _ => none

/-- The call that a move lets return `Err`. -/
def refuses (w : System) : Move → Option Wait
  | .wake wt expired => if wt ∈ w.waiting ∧ (w.state.poll wt expired).2 = .expired then some wt else none
  | .acquire _ _ _ | .release _ | .releaseHolds _ _ => none

end System

end Secantus.LockManager
