/-
  The undo journal of a transaction's savepoints (`UndoJournal`, `UndoFrame`, `undo_note_row`
  and `undo_note_collection` of secantus-storage) and the row writes that note into it.

  A row of the store is its database, its collection and the key it is stored under; the
  journal knows rows by the key of their `_id`. `step` runs one operation of a transaction: a
  write notes the row's prior image first, and rolling back puts the returned records back
  while the journal is paused.

  Rolling back to a savepoint restores it.

  `specStep` is what savepoints mean: each keeps the store as it was when it was opened, or last
  rolled back to. A transaction whose rows are all stored under the key of their `_id`
  (`Codec.Keyed`) refines it over every run (`run_inv`): a frame's rows are a level of undo
  records, `absorb` puts a level over an older one, and the rules of `Savepoints.Restores` do the
  rest. `rollbackTo_restores` is the result; `rollbackTo_loses_duplicate` shows what the journal
  does with two rows of one `_id`, which a time-series collection can hold.
-/
import Secantus.SortKey.Encode
import Secantus.Library.Savepoints

namespace Secantus.Undo

open Secantus SortKey

/-- `StorageError`, where this code returns one. -/
inductive StorageError where
  | bson (msg : String)
  | internal (msg : String)
  deriving DecidableEq, Repr

/-- What the `bson` crate gives here: the `_id` of an encoded document (its error text when the
    bytes do not parse, nothing when there is none) and the debug text of a value. -/
structure Codec where
  rowId : Bytes → Except String (Option Bson)
  debug : Bson → Bytes

/-- A row: its database, collection and key. -/
abbrev RowKey := String × String × Bytes

/-- `id_key`, by `encode_id_key`: `undefined` has no `_id` key. -/
def idKey (id : Bson) : Except UnsupportedValue Bytes :=
  match id with
  | .undefined => .error (.value .undefined)
  | id => encodeValue .mongod id

def undoIdKey (c : Codec) (id : Bson) : Bytes :=
  match idKey id with
  | .ok k => k
  | .error _ => c.debug id

/-- `UndoRow`: a row as it was, `none` when it did not exist. -/
structure UndoRow where
  db : String
  coll : String
  id : Bson
  prior : Option Bytes

/-- The key a frame knows the row by. -/
def UndoRow.key (c : Codec) (r : UndoRow) : RowKey := (r.db, r.coll, undoIdKey c r.id)

structure UndoCollection where
  db : String
  coll : String
  existed : Bool

/-- `UndoFrame`: what one savepoint's frame holds. -/
structure UndoFrame where
  id : UInt64
  seen : List RowKey
  collsSeen : List (String × String)
  rows : List UndoRow
  collections : List UndoCollection

namespace UndoFrame

def new (id : UInt64) : UndoFrame := ⟨id, [], [], [], []⟩

/-- `if seen.insert(key) { rows.push(row) }`. -/
def pushRow (f : UndoFrame) (key : RowKey) (row : UndoRow) : UndoFrame :=
  if key ∈ f.seen then f else { f with seen := key :: f.seen, rows := f.rows ++ [row] }

/-- `if colls_seen.insert(key) { collections.push(c) }`. -/
def pushCollection (f : UndoFrame) (u : UndoCollection) : UndoFrame :=
  if (u.db, u.coll) ∈ f.collsSeen then f
  else { f with collsSeen := (u.db, u.coll) :: f.collsSeen, collections := f.collections ++ [u] }

/-- `absorb`: the records of `other` this frame has not got; this frame's are the older. -/
def absorb (c : Codec) (f other : UndoFrame) : UndoFrame :=
  other.collections.foldl pushCollection
    (other.rows.foldl (fun f row => f.pushRow (row.key c) row) f)

end UndoFrame

/-- `UndoJournal`: the frames of the open savepoints, outermost first. -/
structure UndoJournal where
  frames : List UndoFrame
  paused : Nat

namespace UndoJournal

def new : UndoJournal := ⟨[], 0⟩

/-- `open`. -/
def openFrame (j : UndoJournal) (id : UInt64) : UndoJournal :=
  { j with frames := j.frames ++ [.new id] }

def reset (j : UndoJournal) : UndoJournal := { j with frames := [] }

def hasFrame (j : UndoJournal) (id : UInt64) : Bool := j.frames.any (·.id == id)

/-- `release`: the frame of `id` and the ones inside it merge into the frame around them, or are
    dropped when there is none. -/
def release (c : Codec) (j : UndoJournal) (id : UInt64) : UndoJournal × Bool :=
  match j.frames.findIdx? (·.id == id) with
  | none => (j, false)
  | some p =>
    let kept := j.frames.take p
    let dropped := j.frames.drop p
    match kept.getLast? with
    | none => ({ j with frames := kept }, true)
    | some outer =>
      ({ j with frames := kept.dropLast ++ [dropped.foldl (·.absorb c ·) outer] }, true)

/-- `rollback_to`: the records to put back; the frame stays open and empty, the ones inside it
    are gone. -/
def rollbackTo (c : Codec) (j : UndoJournal) (id : UInt64) : Option (UndoFrame × UndoJournal) :=
  match j.frames.findIdx? (·.id == id) with
  | none => none
  | some p =>
    match j.frames[p]? with
    | none => none
    | some frame =>
      let inner := j.frames.drop (p + 1)
      some (inner.foldl (·.absorb c ·) frame,
        { j with frames := j.frames.take p ++ [.new id] })

def pause (j : UndoJournal) : UndoJournal := { j with paused := j.paused + 1 }

def resume (j : UndoJournal) : UndoJournal := { j with paused := j.paused - 1 }

def recording (j : UndoJournal) : Bool := j.paused == 0 && !j.frames.isEmpty

/-- `undo_note_row`, in a transaction: the first write of a row since the innermost open
    savepoint. -/
def noteRow (c : Codec) (j : UndoJournal) (db coll : String) (idK : Bytes) (prior : Option Bytes)
    (idSrc : Bytes) : Except StorageError UndoJournal :=
  if !j.recording then .ok j
  else
    match j.frames.getLast? with
    | none => .ok j
    | some frame =>
      if (db, coll, idK) ∈ frame.seen then .ok j
      else
        match c.rowId (prior.getD idSrc) with
        | .error e => .error (.bson e)
        | .ok none => .error (.internal "a row without _id")
        | .ok (some id) =>
          -- known by the key of the `_id`, which a merge computes again
          let frame := frame.pushRow (db, coll, undoIdKey c id) ⟨db, coll, id, prior⟩
          .ok { j with frames := j.frames.dropLast ++ [frame] }

/-- `undo_note_collection`, in a transaction. -/
def noteCollection (j : UndoJournal) (db coll : String) (existed : Bool) : UndoJournal :=
  if !j.recording then j
  else
    match j.frames.getLast? with
    | none => j
    | some frame =>
      { j with frames := j.frames.dropLast ++ [frame.pushCollection ⟨db, coll, existed⟩] }

end UndoJournal

/-! ## Transactions -/

/-- A transaction: the rows as it sees them, and its journal. -/
structure Txn where
  store : RowKey → Option Bytes
  undo : UndoJournal

/-- Write a row (`next`), or delete it: an insert notes no prior image and the new document, an
    update or a delete the old one. Deleting a row that is not there writes nothing. -/
def Txn.writeRow (c : Codec) (t : Txn) (r : RowKey) (next : Option Bytes) :
    Except StorageError Txn :=
  match t.store r, next with
  | none, none => .ok t
  | none, some new => do
    let undo ← t.undo.noteRow c r.1 r.2.1 r.2.2 none new
    .ok ⟨Function.update t.store r (some new), undo⟩
  | some old, next => do
    let undo ← t.undo.noteRow c r.1 r.2.1 r.2.2 (some old) old
    .ok ⟨Function.update t.store r next, undo⟩

/-- A write that fails leaves the transaction as it was. -/
def Txn.write (c : Codec) (t : Txn) (r : RowKey) (next : Option Bytes) : Txn :=
  match t.writeRow c r next with
  | .ok t' => t'
  | .error _ => t

/-- Put the records of a frame back, the journal paused (`apply_undo`, its rows). -/
def Txn.applyUndo (c : Codec) (t : Txn) (frame : UndoFrame) : Txn :=
  let t' := frame.rows.foldl (fun t row => t.write c (row.key c) row.prior)
    { t with undo := t.undo.pause }
  { t' with undo := t'.undo.resume }

/-- An operation of a transaction. -/
inductive Op where
  | openFrame (id : UInt64)
  | write (r : RowKey) (next : Option Bytes)
  | noteCollection (db coll : String) (existed : Bool)
  | release (id : UInt64)
  | rollbackTo (id : UInt64)
  | reset

def step (c : Codec) (t : Txn) : Op → Txn
  | .openFrame id => { t with undo := t.undo.openFrame id }
  | .write r next => t.write c r next
  | .noteCollection db coll existed => { t with undo := t.undo.noteCollection db coll existed }
  | .release id => { t with undo := (t.undo.release c id).1 }
  | .rollbackTo id =>
    match t.undo.rollbackTo c id with
    | none => t
    | some (frame, undo) => Txn.applyUndo c { t with undo } frame
  | .reset => { t with undo := t.undo.reset }

def run (c : Codec) (t : Txn) (ops : List Op) : Txn := ops.foldl (step c) t

open Secantus Savepoints

/-- What the savepoints of a transaction are to restore. -/
abbrev Spec := Session UInt64 RowKey (Option Bytes)

def specStep (σ : Spec) : Op → Spec
  | .openFrame id => σ.openAt id
  | .write r next => if σ.store r = none ∧ next = none then σ else σ.write r next
  | .noteCollection _ _ _ => σ
  | .release id => σ.release id
  | .rollbackTo id => σ.rollbackTo id
  | .reset => { σ with stack := [] }

def specRun (σ : Spec) (ops : List Op) : Spec := ops.foldl specStep σ

/-- A document is stored under the key of its `_id`. -/
def Codec.Keyed (c : Codec) (r : RowKey) (doc : Bytes) : Prop :=
  ∃ id, c.rowId doc = .ok (some id) ∧ undoIdKey c id = r.2.2

/-- Every document of a store is under the key of its `_id`. -/
def Codec.KeyedStore (c : Codec) (s : RowKey → Option Bytes) : Prop :=
  ∀ r doc, s r = some doc → c.Keyed r doc

/-- A write stores its document under the key of its `_id`. -/
def Op.Keyed (c : Codec) : Op → Prop
  | .write r (some doc) => c.Keyed r doc
  | _ => True

theorem Codec.KeyedStore.update {c : Codec} {s : RowKey → Option Bytes} (h : c.KeyedStore s)
    {r : RowKey} {next : Option Bytes} (hn : ∀ doc, next = some doc → c.Keyed r doc) :
    c.KeyedStore (Function.update s r next) := by
  intro q doc hq
  by_cases hqr : q = r
  · subst hqr
    rw [Function.update_self] at hq
    exact hn doc hq
  · rw [Function.update_of_ne hqr] at hq
    exact h q doc hq

/-! ## Frames as levels of undo records -/

/-- A frame's records. -/
def UndoFrame.level (c : Codec) (f : UndoFrame) : RowKey → Option (Option Bytes) :=
  firsts (UndoRow.key c) UndoRow.prior f.rows

/-- A frame has one record of each row it has seen. -/
structure UndoFrame.Sound (c : Codec) (f : UndoFrame) : Prop where
  nodup : (f.rows.map (UndoRow.key c)).Nodup
  seen_iff : ∀ k, k ∈ f.seen ↔ k ∈ f.rows.map (UndoRow.key c)

namespace UndoFrame

variable {c : Codec} {f : UndoFrame}

theorem sound_new (id : UInt64) : (UndoFrame.new id).Sound c := by
  constructor <;> simp [UndoFrame.new]

theorem level_new (id : UInt64) : (UndoFrame.new id).level c = empty := rfl

theorem Sound.pushRow (h : f.Sound c) (row : UndoRow) : (f.pushRow (row.key c) row).Sound c := by
  unfold UndoFrame.pushRow
  split
  · exact h
  · rename_i hk
    rw [h.seen_iff] at hk
    constructor
    · rw [List.map_append, List.nodup_append]
      refine ⟨h.nodup, by simp, ?_⟩
      rintro a ha b hb rfl
      simp only [List.map_cons, List.map_nil, List.mem_singleton] at hb
      exact hk (hb ▸ ha)
    · intro k
      simp only [List.mem_cons, h.seen_iff, List.map_append, List.mem_append, List.map_cons,
        List.map_nil, List.not_mem_nil, or_false]
      tauto

theorem Sound.level_pushRow (h : f.Sound c) (row : UndoRow) :
    (f.pushRow (row.key c) row).level c =
      above (f.level c) (fun k => if k = row.key c then some row.prior else none) := by
  unfold UndoFrame.pushRow
  split
  · rename_i hk
    rw [h.seen_iff] at hk
    funext k
    unfold above
    by_cases he : k = row.key c
    · subst he
      have hs : (f.level c (row.key c)).isSome := (firsts_isSome _ _ _ _).mpr hk
      obtain ⟨v, hv⟩ := Option.isSome_iff_exists.mp hs
      simp [hv]
    · simp [he]
  · show firsts _ _ (f.rows ++ [row]) = _
    rw [firsts_append, firsts_cons, firsts_nil, above_empty]
    rfl

theorem pushCollection_rows (u : UndoCollection) :
    (f.pushCollection u).rows = f.rows ∧ (f.pushCollection u).seen = f.seen ∧
      (f.pushCollection u).id = f.id := by
  unfold UndoFrame.pushCollection
  split <;> exact ⟨rfl, rfl, rfl⟩

theorem pushRow_id (k : RowKey) (row : UndoRow) : (f.pushRow k row).id = f.id := by
  unfold UndoFrame.pushRow
  split <;> rfl

/-- Collection records leave a frame's rows alone. -/
theorem foldl_pushCollection (us : List UndoCollection) :
    (us.foldl UndoFrame.pushCollection f).rows = f.rows ∧
      (us.foldl UndoFrame.pushCollection f).seen = f.seen ∧
      (us.foldl UndoFrame.pushCollection f).id = f.id := by
  induction us generalizing f with
  | nil => exact ⟨rfl, rfl, rfl⟩
  | cons u us ih =>
    obtain ⟨h1, h2, h3⟩ := @ih (f.pushCollection u)
    obtain ⟨e1, e2, e3⟩ := @pushCollection_rows f u
    exact ⟨h1.trans e1, h2.trans e2, h3.trans e3⟩

theorem Sound.congr {g : UndoFrame} (h : f.Sound c) (hr : g.rows = f.rows) (hs : g.seen = f.seen) :
    g.Sound c := by
  constructor
  · rw [hr]; exact h.nodup
  · rw [hr, hs]; exact h.seen_iff

theorem level_congr {g : UndoFrame} (hr : g.rows = f.rows) : g.level c = f.level c := by
  unfold level
  rw [hr]

/-- The row loop of `absorb`. -/
theorem Sound.foldl_pushRow (h : f.Sound c) (rows : List UndoRow) :
    (rows.foldl (fun f row => f.pushRow (row.key c) row) f).Sound c ∧
      (rows.foldl (fun f row => f.pushRow (row.key c) row) f).level c =
        above (f.level c) (firsts (UndoRow.key c) UndoRow.prior rows) ∧
      (rows.foldl (fun f row => f.pushRow (row.key c) row) f).id = f.id := by
  induction rows generalizing f with
  | nil => exact ⟨h, by rw [firsts_nil, above_empty]; rfl, rfl⟩
  | cons row rows ih =>
    obtain ⟨h1, h2, h3⟩ := ih (h.pushRow row)
    refine ⟨h1, ?_, h3.trans (pushRow_id _ _)⟩
    rw [List.foldl_cons, h2, h.level_pushRow, firsts_cons, above_assoc]

theorem Sound.absorb (h : f.Sound c) (other : UndoFrame) :
    (f.absorb c other).Sound c ∧ (f.absorb c other).level c = above (f.level c) (other.level c) ∧
      (f.absorb c other).id = f.id := by
  obtain ⟨h1, h2, h3⟩ := h.foldl_pushRow other.rows
  obtain ⟨e1, e2, e3⟩ := @foldl_pushCollection
    (other.rows.foldl (fun f row => f.pushRow (row.key c) row) f) other.collections
  exact ⟨h1.congr e1 e2, (level_congr e1).trans h2, e3.trans h3⟩

/-- Absorbing frames from the outermost on keeps the oldest record of each row. -/
theorem Sound.foldl_absorb (h : f.Sound c) (gs : List UndoFrame) :
    (gs.foldl (·.absorb c ·) f).Sound c ∧
      (gs.foldl (·.absorb c ·) f).level c = above (f.level c) (oldest (gs.map (·.level c))) ∧
      (gs.foldl (·.absorb c ·) f).id = f.id := by
  induction gs generalizing f with
  | nil => exact ⟨h, by simp, rfl⟩
  | cons g gs ih =>
    obtain ⟨h1, h2, h3⟩ := h.absorb g
    obtain ⟨i1, i2, i3⟩ := ih h1
    refine ⟨i1, ?_, i3.trans h3⟩
    rw [List.foldl_cons, i2, h2, above_assoc, List.map_cons, oldest_cons]

end UndoFrame

/-! ## The invariant -/

/-- The transaction `t` refines the savepoints `σ`. -/
structure Inv (c : Codec) (t : Txn) (σ : Spec) : Prop where
  store : t.store = σ.store
  ids : t.undo.frames.map (·.id) = σ.stack.map (·.id)
  restores : Restores (t.undo.frames.map (·.level c)) σ.stack t.store
  sound : ∀ f ∈ t.undo.frames, f.Sound c
  keyed : c.KeyedStore t.store
  savedKeyed : ∀ p ∈ σ.stack, c.KeyedStore p.saved
  recording : t.undo.paused = 0

theorem inv_new {c : Codec} {s : RowKey → Option Bytes} (h : c.KeyedStore s) :
    Inv c ⟨s, .new⟩ ⟨s, []⟩ where
  store := rfl
  ids := rfl
  restores := trivial
  sound := by intro f hf; cases hf
  keyed := h
  savedKeyed := by intro p hp; cases hp
  recording := rfl

section Steps

variable {c : Codec} {t : Txn} {σ : Spec}

theorem Inv.findIdx_eq (h : Inv c t σ) (id : UInt64) :
    t.undo.frames.findIdx? (·.id == id) = σ.stack.findIdx? (·.id == id) := by
  have hf : (t.undo.frames.map (·.id)).findIdx? (· == id) = _ := List.findIdx?_map
  have hs : (σ.stack.map (·.id)).findIdx? (· == id) = _ := List.findIdx?_map
  rw [h.ids] at hf
  exact hf.symm.trans hs

theorem Inv.length_eq (h : Inv c t σ) : t.undo.frames.length = σ.stack.length := by
  simpa using h.restores.length_eq

theorem Inv.openFrame (h : Inv c t σ) (id : UInt64) :
    Inv c { t with undo := t.undo.openFrame id } (σ.openAt id) where
  store := h.store
  ids := by simp [UndoJournal.openFrame, Session.openAt, h.ids, UndoFrame.new]
  restores := by
    have hr := h.restores.opened id
    simp only [UndoJournal.openFrame, Session.openAt, List.map_append, List.map_cons, List.map_nil,
      UndoFrame.level_new, ← h.store]
    exact hr
  sound := by
    intro f hf
    rcases List.mem_append.mp hf with hf | hf
    · exact h.sound f hf
    · rw [List.mem_singleton.mp hf]
      exact UndoFrame.sound_new id
  keyed := h.keyed
  savedKeyed := by
    intro p hp
    rcases List.mem_append.mp hp with hp | hp
    · exact h.savedKeyed p hp
    · rw [List.mem_singleton.mp hp, ← h.store]
      exact h.keyed
  recording := h.recording

theorem Inv.reset (h : Inv c t σ) :
    Inv c { t with undo := t.undo.reset } { σ with stack := [] } where
  store := h.store
  ids := rfl
  restores := trivial
  sound := by intro f hf; cases hf
  keyed := h.keyed
  savedKeyed := by intro p hp; cases hp
  recording := h.recording

/-! ### Writes -/

/-- Noting a row of a recording journal, when its source document is under its own key. -/
theorem noteRow_keyed {j : UndoJournal} {fs : List UndoFrame} {f : UndoFrame}
    (hj : j.frames = fs ++ [f]) (hp : j.paused = 0) (r : RowKey) (prior : Option Bytes)
    (idSrc : Bytes) (hk : c.Keyed r (prior.getD idSrc)) :
    ∃ row : UndoRow, row.key c = r ∧ row.prior = prior ∧
      j.noteRow c r.1 r.2.1 r.2.2 prior idSrc = .ok { j with frames := fs ++ [f.pushRow r row] } := by
  obtain ⟨id, hid, hkey⟩ := hk
  have hrec : j.recording = true := by simp [UndoJournal.recording, hp, hj]
  refine ⟨⟨r.1, r.2.1, id, prior⟩, ?_, rfl, ?_⟩
  · simp [UndoRow.key, hkey]
  · unfold UndoJournal.noteRow
    simp only [hrec, Bool.not_true, Bool.false_eq_true, if_false, hj, List.getLast?_append,
      List.getLast?_singleton, Option.some_or, List.dropLast_concat, hid, hkey]
    split
    · rename_i hs
      have : f.pushRow r ⟨r.1, r.2.1, id, prior⟩ = f := by
        unfold UndoFrame.pushRow
        exact if_pos hs
      rw [this, ← hj]
    · rfl

/-- A write of a keyed row always goes through, and notes the row in the innermost frame. -/
theorem Inv.writeRow (h : Inv c t σ) {r : RowKey} {next : Option Bytes}
    (hn : ∀ doc, next = some doc → c.Keyed r doc) (hw : ¬(t.store r = none ∧ next = none)) :
    (t.undo.frames = [] ∧ t.write c r next = ⟨Function.update t.store r next, t.undo⟩) ∨
    ∃ fs f row, t.undo.frames = fs ++ [f] ∧ row.key c = r ∧ row.prior = t.store r ∧
      t.write c r next =
        ⟨Function.update t.store r next, { t.undo with frames := fs ++ [f.pushRow r row] }⟩ := by
  -- the document the key is read from is keyed, whether it is the old one or the new one
  have key : ∀ prior idSrc, prior = t.store r → c.Keyed r (prior.getD idSrc) →
      (t.undo.frames = [] ∧ t.undo.noteRow c r.1 r.2.1 r.2.2 prior idSrc = .ok t.undo) ∨
      ∃ fs f row, t.undo.frames = fs ++ [f] ∧ UndoRow.key c row = r ∧ row.prior = t.store r ∧
        t.undo.noteRow c r.1 r.2.1 r.2.2 prior idSrc =
          .ok { t.undo with frames := fs ++ [f.pushRow r row] } := by
    intro prior idSrc hprior hk
    obtain hnil | ⟨fs, f, hfs⟩ := t.undo.frames.eq_nil_or_concat'
    · left
      refine ⟨hnil, ?_⟩
      simp [UndoJournal.noteRow, UndoJournal.recording, hnil]
    · right
      obtain ⟨row, h1, h2, h3⟩ := noteRow_keyed hfs h.recording r prior idSrc hk
      exact ⟨fs, f, row, hfs, h1, h2.trans hprior, h3⟩
  unfold Txn.write Txn.writeRow
  cases hs : t.store r with
  | none =>
    cases next with
    | none => exact absurd ⟨hs, rfl⟩ hw
    | some new =>
      obtain ⟨hnil, hno⟩ | ⟨fs, f, row, hfs, h1, h2, hno⟩ := key none new hs.symm (hn new rfl)
      · left
        refine ⟨hnil, ?_⟩
        simp only [hno]
        rfl
      · right
        refine ⟨fs, f, row, hfs, h1, h2.trans hs, ?_⟩
        simp only [hno]
        rfl
  | some old =>
    obtain ⟨hnil, hno⟩ | ⟨fs, f, row, hfs, h1, h2, hno⟩ :=
      key (some old) old hs.symm (h.keyed r old hs)
    · left
      refine ⟨hnil, ?_⟩
      simp only [hno]
      rfl
    · right
      refine ⟨fs, f, row, hfs, h1, h2.trans hs, ?_⟩
      simp only [hno]
      rfl

theorem addWritten_saved (ks : Set RowKey) (ps : List (Savepoint UInt64 RowKey (Option Bytes)))
    {p : Savepoint UInt64 RowKey (Option Bytes)} (hp : p ∈ addWritten ks ps) :
    ∃ q ∈ ps, p.saved = q.saved := by
  obtain rfl | ⟨qs, q, rfl⟩ := ps.eq_nil_or_concat'
  · cases hp
  · rw [addWritten_concat] at hp
    rcases List.mem_append.mp hp with hp | hp
    · exact ⟨p, by simp [hp], rfl⟩
    · rw [List.mem_singleton.mp hp]
      exact ⟨q, by simp, rfl⟩

theorem Inv.write (h : Inv c t σ) {r : RowKey} {next : Option Bytes}
    (hn : ∀ doc, next = some doc → c.Keyed r doc) (hw : ¬(t.store r = none ∧ next = none)) :
    Inv c (t.write c r next) (σ.write r next) := by
  have hstore : Function.update t.store r next = (σ.write r next).store := by
    unfold Session.write
    rw [h.store]
  have hsaved : ∀ p ∈ (σ.write r next).stack, c.KeyedStore p.saved := by
    intro p hp
    obtain ⟨q, hq, he⟩ := addWritten_saved {r} σ.stack hp
    rw [he]
    exact h.savedKeyed q hq
  have hids : σ.stack.map (·.id) = (σ.write r next).stack.map (·.id) :=
    (map_id_addWritten {r} σ.stack).symm
  obtain ⟨hnil, he⟩ | ⟨fs, f, row, hfs, hkey, hprior, he⟩ := h.writeRow hn hw
  · have hst : σ.stack = [] := by
      have := h.length_eq
      rw [hnil] at this
      exact List.length_eq_zero_iff.mp this.symm
    rw [he]
    refine ⟨hstore, h.ids.trans hids, ?_, h.sound, h.keyed.update hn, hsaved, h.recording⟩
    show Restores (t.undo.frames.map _) (addWritten {r} σ.stack) _
    rw [hnil, hst]
    trivial
  · have hf : f.Sound c := h.sound f (by simp [hfs])
    have hr := h.restores
    rw [hfs, List.map_append, List.map_cons, List.map_nil] at hr
    rw [he]
    refine ⟨hstore, ?_, ?_, ?_, h.keyed.update hn, hsaved, h.recording⟩
    · show (fs ++ [f.pushRow r row]).map (·.id) = _
      rw [← hids, ← h.ids, hfs]
      simp [UndoFrame.pushRow_id]
    · show Restores ((fs ++ [f.pushRow r row]).map (·.level c)) (addWritten {r} σ.stack)
        (Function.update t.store r next)
      rw [List.map_append, List.map_cons, List.map_nil, ← hkey, hf.level_pushRow, hprior, hkey]
      exact hr.written r next
    · intro g hg
      rcases List.mem_append.mp hg with hg | hg
      · exact h.sound g (by simp [hfs, hg])
      · rw [List.mem_singleton.mp hg, ← hkey]
        exact hf.pushRow row

theorem Inv.noteCollection (h : Inv c t σ) (db coll : String) (existed : Bool) :
    Inv c { t with undo := t.undo.noteCollection db coll existed } σ := by
  unfold UndoJournal.noteCollection
  split
  · exact h
  · split
    · exact h
    · rename_i f hlast
      obtain ⟨fs, hfs⟩ := List.getLast?_eq_some_iff.mp hlast
      obtain ⟨hrows, hseen, hid⟩ := @UndoFrame.pushCollection_rows f ⟨db, coll, existed⟩
      have hlev : (f.pushCollection ⟨db, coll, existed⟩).level c = f.level c :=
        UndoFrame.level_congr hrows
      refine ⟨h.store, ?_, ?_, ?_, h.keyed, h.savedKeyed, h.recording⟩
      · simp only [hfs, List.dropLast_concat, List.map_append, List.map_cons, List.map_nil, hid]
        simpa [hfs] using h.ids
      · simp only [hfs, List.dropLast_concat, List.map_append, List.map_cons, List.map_nil, hlev]
        simpa [hfs] using h.restores
      · intro g hg
        simp only [hfs, List.dropLast_concat] at hg
        rcases List.mem_append.mp hg with hg | hg
        · exact h.sound g (by simp [hfs, hg])
        · rw [List.mem_singleton.mp hg]
          exact (h.sound f (by simp [hfs])).congr hrows hseen

/-! ### Releasing and rolling back -/

/-- The frame and the savepoint of one position, each between the outer and the inner ones. -/
theorem Inv.at_position (h : Inv c t σ) {n : Nat} {f : UndoFrame} (hf : t.undo.frames[n]? = some f) :
    ∃ p, σ.stack[n]? = some p ∧ f.id = p.id ∧
      t.undo.frames = t.undo.frames.take n ++ f :: t.undo.frames.drop (n + 1) ∧
      σ.stack = σ.stack.take n ++ p :: σ.stack.drop (n + 1) := by
  obtain ⟨hn, hfn⟩ := List.getElem?_eq_some_iff.mp hf
  have hn' : n < σ.stack.length := by rw [← h.length_eq]; exact hn
  have hid : (t.undo.frames.map (·.id))[n]? = (σ.stack.map (·.id))[n]? := by rw [h.ids]
  refine ⟨σ.stack[n], List.getElem?_eq_getElem hn', ?_, ?_, ?_⟩
  · simpa [List.getElem?_map, hf, List.getElem?_eq_getElem hn'] using hid
  · rw [← hfn, ← List.drop_eq_getElem_cons hn, List.take_append_drop]
  · rw [← List.drop_eq_getElem_cons hn', List.take_append_drop]

theorem Inv.release (h : Inv c t σ) (id : UInt64) :
    Inv c { t with undo := (t.undo.release c id).1 } (σ.release id) := by
  unfold UndoJournal.release Session.release
  rw [← h.findIdx_eq id]
  cases hfind : t.undo.frames.findIdx? (·.id == id) with
  | none => exact h
  | some n =>
    have hkept : (t.undo.frames.take n).length = (σ.stack.take n).length := by
      simp [h.length_eq]
    obtain hnil | ⟨fs, outer, hfs⟩ := (t.undo.frames.take n).eq_nil_or_concat'
    · -- the outermost savepoint: nothing is left open
      have hst : σ.stack.take n = [] := by
        rw [hnil] at hkept
        exact List.length_eq_zero_iff.mp hkept.symm
      simp only [hnil, hst, List.getLast?_nil, addWritten]
      exact h.reset
    · obtain hnil | ⟨ps, p, hps⟩ := (σ.stack.take n).eq_nil_or_concat'
      · rw [hfs, hnil] at hkept
        simp at hkept
      have hl : fs.length = ps.length := by simpa [hfs, hps] using hkept
      have hframes : t.undo.frames = fs ++ outer :: t.undo.frames.drop n := by
        rw [List.append_cons, ← hfs, List.take_append_drop]
      have hstack : σ.stack = ps ++ p :: σ.stack.drop n := by
        rw [List.append_cons, ← hps, List.take_append_drop]
      have houter : outer.Sound c := h.sound outer (by rw [hframes]; simp)
      obtain ⟨hsound, hlevel, hid⟩ := houter.foldl_absorb (t.undo.frames.drop n)
      simp only [hfs, hps, List.getLast?_append, List.getLast?_singleton, Option.some_or,
        List.dropLast_concat]
      have hids : fs.map (·.id) = ps.map (·.id) ∧ outer.id = p.id := by
        have := h.ids
        rw [hframes, hstack, List.map_append, List.map_append] at this
        have := List.append_inj this (by simp [hl])
        simp only [List.map_cons, List.cons.injEq] at this
        exact ⟨this.1, this.2.1⟩
      refine ⟨h.store, ?_, ?_, ?_, h.keyed, ?_, h.recording⟩
      · simp [hid, hids]
      · have hr := h.restores
        rw [hframes, hstack, List.map_append, List.map_cons] at hr
        have hm := hr.merged (by simp [hl])
        simp only [List.map_append, List.map_cons, List.map_nil, hlevel]
        exact hm
      · intro f hf
        rcases List.mem_append.mp hf with hf | hf
        · exact h.sound f (by rw [hframes]; simp [hf])
        · rw [List.mem_singleton.mp hf]
          exact hsound
      · intro q hq
        obtain ⟨q', hq', he⟩ := addWritten_saved _ _ hq
        rw [he]
        refine h.savedKeyed q' ?_
        rw [hstack]
        rcases List.mem_append.mp hq' with hq' | hq'
        · exact List.mem_append_left _ hq'
        · rw [List.mem_singleton.mp hq']
          simp

theorem write_of_not_recording (hj : t.undo.recording = false) (r : RowKey) (next : Option Bytes) :
    t.write c r next = ⟨Function.update t.store r next, t.undo⟩ := by
  have hno : ∀ prior idSrc, t.undo.noteRow c r.1 r.2.1 r.2.2 prior idSrc = .ok t.undo := by
    intro prior idSrc
    simp [UndoJournal.noteRow, hj]
  unfold Txn.write Txn.writeRow
  cases hs : t.store r with
  | none =>
    cases next with
    | none => simp [← hs]
    | some new =>
      simp only [hno]
      rfl
  | some old =>
    simp only [hno]
    rfl

theorem applyUndo_eq {frame : UndoFrame} (hf : frame.Sound c) :
    t.applyUndo c frame = ⟨restore (frame.level c) t.store, t.undo⟩ := by
  have hfold : ∀ (rows : List UndoRow) (u : Txn), u.undo.recording = false →
      rows.foldl (fun t row => t.write c (row.key c) row.prior) u =
        ⟨rows.foldl (fun s row => Function.update s (row.key c) row.prior) u.store, u.undo⟩ := by
    intro rows
    induction rows with
    | nil => intro u _; rfl
    | cons row rows ih =>
      intro u hu
      rw [List.foldl_cons, write_of_not_recording hu]
      exact ih ⟨Function.update u.store (row.key c) row.prior, u.undo⟩ hu
  unfold Txn.applyUndo
  rw [hfold frame.rows { t with undo := t.undo.pause }
    (by simp [UndoJournal.pause, UndoJournal.recording])]
  rw [foldl_update_eq_restore (UndoRow.key c) UndoRow.prior frame.rows hf.nodup]
  rfl

/-- What `rollback_to` returns: the records of the savepoint's level and the ones inside it. -/
theorem Inv.rollbackTo_some (h : Inv c t σ) {id : UInt64} {frame : UndoFrame} {undo : UndoJournal}
    (hr : t.undo.rollbackTo c id = some (frame, undo)) :
    ∃ n p, σ.stack.findIdx? (·.id == id) = some n ∧ σ.stack[n]? = some p ∧ p.id = id ∧
      σ.stack = σ.stack.take n ++ p :: σ.stack.drop (n + 1) ∧
      undo = { t.undo with frames := t.undo.frames.take n ++ [.new id] } ∧ frame.Sound c ∧
      ∃ l ls, Restores (l :: ls) (p :: σ.stack.drop (n + 1)) t.store ∧
        frame.level c = oldest (l :: ls) ∧
        Restores ((t.undo.frames.take n).map (·.level c) ++ [empty])
          (σ.stack.take n ++ [{ p with written := ∅ }]) p.saved := by
  unfold UndoJournal.rollbackTo at hr
  cases hfind : t.undo.frames.findIdx? (·.id == id) with
  | none => rw [hfind] at hr; cases hr
  | some n =>
    simp only [hfind] at hr
    cases hget : t.undo.frames[n]? with
    | none => rw [hget] at hr; cases hr
    | some f =>
      simp only [hget, Option.some.injEq, Prod.mk.injEq] at hr
      obtain ⟨hframe, hundo⟩ := hr
      obtain ⟨p, hp, hid, hframes, hstack⟩ := h.at_position hget
      have hl : ((t.undo.frames.take n).map (·.level c)).length = (σ.stack.take n).length := by
        simp [h.length_eq]
      have hrs := h.restores
      rw [hframes, hstack, List.map_append, List.map_cons] at hrs
      have hfid : f.id = id := by
        obtain ⟨hn, hpn, -⟩ := List.findIdx?_eq_some_iff_getElem.mp hfind
        rw [(List.getElem?_eq_some_iff.mp hget).2] at hpn
        simpa using hpn
      have hf : f.Sound c := h.sound f (List.mem_of_getElem? hget)
      obtain ⟨hsound, hlevel, -⟩ := hf.foldl_absorb (t.undo.frames.drop (n + 1))
      rw [hframe] at hsound hlevel
      refine ⟨n, p, (h.findIdx_eq id).symm.trans hfind, hp, hid.symm.trans hfid, hstack, hundo.symm,
        hsound, _, _, (hrs.split hl).2, hlevel, hrs.rolledBack hl⟩

theorem Inv.rollbackTo_none (h : Inv c t σ) {id : UInt64} (hr : t.undo.rollbackTo c id = none) :
    σ.stack.findIdx? (·.id == id) = none := by
  rw [← h.findIdx_eq id]
  unfold UndoJournal.rollbackTo at hr
  cases hfind : t.undo.frames.findIdx? (·.id == id) with
  | none => rfl
  | some n =>
    obtain ⟨hn, -, -⟩ := List.findIdx?_eq_some_iff_getElem.mp hfind
    simp [hfind, List.getElem?_eq_getElem hn] at hr

theorem Inv.rollbackTo (h : Inv c t σ) (id : UInt64) :
    Inv c (step c t (.rollbackTo id)) (σ.rollbackTo id) := by
  unfold Session.rollbackTo step
  cases hr : t.undo.rollbackTo c id with
  | none =>
    simp only [h.rollbackTo_none hr, hr]
    exact h
  | some res =>
    obtain ⟨frame, undo⟩ := res
    obtain ⟨n, p, hn, hp, hid, hstack, hundo, hsound, l, ls, hin, hlevel, hout⟩ :=
      h.rollbackTo_some hr
    have hsaved : restore (frame.level c) t.store = p.saved := by rw [hlevel]; exact hin.1.1
    have hmem : p ∈ σ.stack := List.mem_of_getElem? hp
    have hids : (t.undo.frames.take n).map (·.id) = (σ.stack.take n).map (·.id) := by
      rw [List.map_take, List.map_take, h.ids]
    simp only [hr, hn, hp, applyUndo_eq hsound, hsaved, hundo]
    refine ⟨rfl, ?_, ?_, ?_, h.savedKeyed p hmem, ?_, h.recording⟩
    · simp [hids, hid, UndoFrame.new]
    · simpa [UndoFrame.level_new] using hout
    · intro f hf
      rcases List.mem_append.mp hf with hf | hf
      · exact h.sound f (List.mem_of_mem_take hf)
      · rw [List.mem_singleton.mp hf]
        exact UndoFrame.sound_new id
    · intro q hq
      rcases List.mem_append.mp hq with hq | hq
      · exact h.savedKeyed q (List.mem_of_mem_take hq)
      · rw [List.mem_singleton.mp hq]
        exact h.savedKeyed p hmem

end Steps

/-! ## Runs -/

theorem step_inv {c : Codec} {t : Txn} {σ : Spec} (h : Inv c t σ) (op : Op) (hop : op.Keyed c) :
    Inv c (step c t op) (specStep σ op) := by
  cases op with
  | openFrame id => exact h.openFrame id
  | write r next =>
    have hn : ∀ doc, next = some doc → c.Keyed r doc := by
      rintro doc rfl
      exact hop
    show Inv c (t.write c r next) (if σ.store r = none ∧ next = none then σ else σ.write r next)
    by_cases hw : t.store r = none ∧ next = none
    · have he : t.write c r next = t := by simp [Txn.write, Txn.writeRow, hw.1, hw.2]
      rw [← h.store, if_pos hw, he]
      exact h
    · rw [← h.store, if_neg hw]
      exact h.write hn hw
  | noteCollection db coll existed => exact h.noteCollection db coll existed
  | release id => exact h.release id
  | rollbackTo id => exact h.rollbackTo id
  | reset => exact h.reset

theorem run_inv {c : Codec} {t : Txn} {σ : Spec} (h : Inv c t σ) (ops : List Op)
    (hops : ∀ op ∈ ops, op.Keyed c) : Inv c (run c t ops) (specRun σ ops) := by
  induction ops generalizing t σ with
  | nil => exact h
  | cons op ops ih =>
    exact ih (step_inv h op (hops op List.mem_cons_self))
      (fun o ho => hops o (List.mem_cons_of_mem _ ho))

/-- Savepoint `id` of `σ`: the outermost open one of that id, with the ones inside it. -/
def AtSavepoint (σ : Spec) (id : UInt64) (p : Savepoint UInt64 RowKey (Option Bytes))
    (inner : List (Savepoint UInt64 RowKey (Option Bytes))) : Prop :=
  ∃ outer, σ.stack = outer ++ p :: inner ∧ p.id = id ∧ ∀ q ∈ outer, q.id ≠ id

theorem atSavepoint_iff {σ : Spec} {id : UInt64} {p : Savepoint UInt64 RowKey (Option Bytes)}
    {inner : List (Savepoint UInt64 RowKey (Option Bytes))} :
    AtSavepoint σ id p inner ↔
      ∃ n, σ.stack.findIdx? (·.id == id) = some n ∧ σ.stack[n]? = some p ∧
        inner = σ.stack.drop (n + 1) := by
  constructor
  · rintro ⟨outer, hstack, hid, houter⟩
    have hnone : outer.findIdx? (·.id == id) = none := by
      rw [List.findIdx?_eq_none_iff]
      intro q hq
      simpa using houter q hq
    refine ⟨outer.length, ?_, ?_, ?_⟩
    · rw [hstack, List.findIdx?_append, hnone]
      simp [List.findIdx?_cons, hid]
    · rw [hstack]
      simp
    · rw [hstack, ← List.drop_drop]
      simp
  · rintro ⟨n, hfind, hp, rfl⟩
    obtain ⟨hn, hpn, hlt⟩ := List.findIdx?_eq_some_iff_getElem.mp hfind
    have hget := (List.getElem?_eq_some_iff.mp hp).2
    refine ⟨σ.stack.take n, ?_, ?_, ?_⟩
    · rw [← hget, ← List.drop_eq_getElem_cons hn, List.take_append_drop]
    · rw [hget] at hpn
      simpa using hpn
    · intro q hq
      obtain ⟨i, hi, rfl⟩ := List.mem_iff_getElem.mp hq
      have hin : i < n := by
        rw [List.length_take] at hi
        omega
      simpa using hlt i hin

/-- In every run of a transaction whose documents are all stored under the key of their `_id`,
    the store is what the savepoints say it is; and where the run stands, `rollback_to(id)`
    returns records exactly when savepoint `id` is open. They are one record of each row written
    since it was opened or last rolled back to, holding the row as it was then; putting them
    back restores the whole store of that moment, and the rows without a record are as they
    were. -/
theorem rollbackTo_restores (c : Codec) (s : RowKey → Option Bytes) (ops : List Op)
    (hs : c.KeyedStore s) (hops : ∀ op ∈ ops, op.Keyed c) :
    (run c ⟨s, .new⟩ ops).store = (specRun ⟨s, []⟩ ops).store ∧
    ∀ id, (((run c ⟨s, .new⟩ ops).undo.hasFrame id = true ↔
        ∃ p inner, AtSavepoint (specRun ⟨s, []⟩ ops) id p inner)) ∧
      ∀ p inner, AtSavepoint (specRun ⟨s, []⟩ ops) id p inner →
        ∃ frame undo, (run c ⟨s, .new⟩ ops).undo.rollbackTo c id = some (frame, undo) ∧
          (Txn.applyUndo c ⟨(run c ⟨s, .new⟩ ops).store, undo⟩ frame).store = p.saved ∧
          (frame.rows.map (UndoRow.key c)).Nodup ∧
          (∀ r, r ∈ frame.rows.map (UndoRow.key c) ↔ r ∈ since (p :: inner)) ∧
          (∀ row ∈ frame.rows, row.prior = p.saved (row.key c)) ∧
          ∀ r, r ∉ since (p :: inner) → (run c ⟨s, .new⟩ ops).store r = p.saved r := by
  have h := run_inv (inv_new hs) ops hops
  refine ⟨h.store, fun id => ⟨?_, ?_⟩⟩
  · unfold UndoJournal.hasFrame
    rw [← List.findIdx?_isSome, h.findIdx_eq id, Option.isSome_iff_exists]
    constructor
    · rintro ⟨n, hn⟩
      obtain ⟨hlt, -, -⟩ := List.findIdx?_eq_some_iff_getElem.mp hn
      exact ⟨_, _, atSavepoint_iff.mpr ⟨n, hn, List.getElem?_eq_getElem hlt, rfl⟩⟩
    · rintro ⟨p, inner, hat⟩
      obtain ⟨n, hn, -, -⟩ := atSavepoint_iff.mp hat
      exact ⟨n, hn⟩
  · intro p inner hat
    obtain ⟨n, hn, hp, rfl⟩ := atSavepoint_iff.mp hat
    cases hr : (run c ⟨s, .new⟩ ops).undo.rollbackTo c id with
    | none =>
      rw [h.rollbackTo_none hr] at hn
      cases hn
    | some res =>
      obtain ⟨frame, undo⟩ := res
      obtain ⟨n', p', hn', hp', -, -, -, hsound, l, ls, hin, hlevel, -⟩ := h.rollbackTo_some hr
      obtain rfl : n' = n := by
        rw [hn] at hn'
        exact (Option.some.inj hn').symm
      obtain rfl : p' = p := by
        rw [hp] at hp'
        exact (Option.some.inj hp').symm
      have hsaved : restore (frame.level c) (run c ⟨s, .new⟩ ops).store = p'.saved := by
        rw [hlevel]
        exact hin.1.1
      refine ⟨frame, undo, rfl, ?_, hsound.nodup, ?_, ?_, ?_⟩
      · rw [applyUndo_eq hsound]
        exact hsaved
      · intro r
        rw [← hin.mem_since r, ← hlevel]
        exact (firsts_isSome _ _ _ _).symm
      · intro row hrow
        have hf : frame.level c (row.key c) = some row.prior :=
          firsts_of_mem _ _ hsound.nodup hrow
        rw [← hsaved]
        simp [restore, hf]
      · intro r hr
        exact hin.untouched hr

/-! ## A run, and two rows of one `_id` -/

/-- The `bson` crate on documents that lead with an `Int32` `_id` of one byte. -/
def int32Codec : Codec where
  rowId doc :=
    match doc.drop 4 with
    | 0x10 :: 0x5f :: 0x69 :: 0x64 :: 0x00 :: n :: 0x00 :: 0x00 :: 0x00 :: _ =>
      .ok (some (.int32 (Int32.ofNat n.toNat)))
    | _ => .error "not a document"
  debug _ := []

/-- The bytes of `{_id: 1, v: n}`. -/
def docV (n : UInt8) : Bytes :=
  [0x15, 0, 0, 0, 0x10, 0x5f, 0x69, 0x64, 0, 1, 0, 0, 0, 0x10, 0x76, 0, n, 0, 0, 0, 0]

/-- The row of `_id: 1` in `app.c`; a time-series row's key ends in its insertion time and a
    counter. -/
def rowOne (suffix : Bytes) : RowKey :=
  ("app", "c", undoIdKey int32Codec (.int32 1) ++ suffix)

def tsSuffix (n : UInt8) : Bytes := [0x18, 0x6a, 0x2f, 0x40, 0x11, 0x5c, 0x93, 0x00, 0, n]

/-- The row is written, then through an inner savepoint that is released, and deleted. -/
def releasedOps : List Op :=
  [.write (rowOne []) (some (docV 1)), .openFrame 7, .openFrame 8,
    .write (rowOne []) (some (docV 2)), .release 8, .write (rowOne []) none]

theorem docV_keyed (n : UInt8) : int32Codec.Keyed (rowOne []) (docV n) :=
  ⟨.int32 1, rfl, by simp [rowOne]⟩

/-- The outer savepoint has the row's first value after the inner one is released. -/
theorem rollbackTo_restores_released :
    int32Codec.KeyedStore (fun _ => none) ∧ (∀ op ∈ releasedOps, op.Keyed int32Codec) ∧
    ∃ frame undo,
      (run int32Codec ⟨fun _ => none, .new⟩ releasedOps).undo.rollbackTo int32Codec 7 =
        some (frame, undo) ∧
      (Txn.applyUndo int32Codec
        ⟨(run int32Codec ⟨fun _ => none, .new⟩ releasedOps).store, undo⟩ frame).store =
        Function.update (fun _ => none) (rowOne []) (some (docV 1)) := by
  have hs : int32Codec.KeyedStore (fun _ => none) := by
    intro r doc h
    cases h
  have hops : ∀ op ∈ releasedOps, op.Keyed int32Codec := by
    simp [releasedOps, Op.Keyed, docV_keyed]
  have hat : AtSavepoint (specRun ⟨fun _ => none, []⟩ releasedOps) 7
      ⟨7, Function.update (fun _ => none) (rowOne []) (some (docV 1)), _⟩ [] :=
    ⟨[], rfl, rfl, by simp⟩
  obtain ⟨frame, undo, hr, hu, -⟩ :=
    ((rollbackTo_restores int32Codec (fun _ => none) releasedOps hs hops).2 7).2 _ _ hat
  exact ⟨hs, hops, frame, undo, hr, hu⟩

/-- Two measurements of a time-series collection, of one `_id`. -/
def measurements : RowKey → Option Bytes := fun r =>
  if r = rowOne (tsSuffix 1) then some (docV 1)
  else if r = rowOne (tsSuffix 2) then some (docV 2)
  else none

/-- Both are deleted after a savepoint. The journal knows them by their `_id` alone and takes
    the second for the first, so rolling back does not bring it back. -/
theorem rollbackTo_loses_duplicate :
    measurements (rowOne (tsSuffix 2)) = some (docV 2) ∧
    (((run int32Codec ⟨measurements, .new⟩
      [.openFrame 7, .write (rowOne (tsSuffix 1)) none,
        .write (rowOne (tsSuffix 2)) none]).undo.rollbackTo int32Codec 7).map
          (fun res => res.1.rows.map UndoRow.prior)) = some [some (docV 1)] ∧
    (run int32Codec ⟨measurements, .new⟩
      [.openFrame 7, .write (rowOne (tsSuffix 1)) none, .write (rowOne (tsSuffix 2)) none,
        .rollbackTo 7]).store (rowOne (tsSuffix 2)) = none := by
  decide

end Secantus.Undo
