/-
  Oplog segments (pitr_archive.rs): the rows a prune is about to drop, each a BSON document behind its
  length.

  What `write_segment` wrote, `read_segment_file` reads, up to where a file is cut off
  (`readSegmentFile_cut`).

  Replaying oplog rows into a target database up to a target time (replay.rs).

  The rows replayed are those before the first one past the bound (`replayEntries_spec`).
-/
import Secantus.Wire.RoundTrip

namespace Secantus.Pitr

open Secantus Secantus.Library Secantus.Wire

/-! ## Segments -/

/-- The `StorageError`s of a restore. -/
inductive StorageError where
  | internal (text : String)
  | bson (e : Wire.Error)
  | bsonWrite (e : CrateError)
  deriving DecidableEq

/-- An archived oplog row. -/
structure Row where
  seq : Int64
  entry : Document
  pre : Option Document

def getDocument (d : Document) (k : String) : Option Document :=
  match Document.get d k with
  | some (.document d) => some d
  | _ => none

/-- `u32::to_be_bytes` of a length. -/
def be32 (n : ℕ) : Bytes := (leBytes 4 n).reverse

/-- The document of a row (`write_segment`). -/
def Row.toDoc (row : Row) : Document :=
  let d : Document := [("s", .int64 row.seq), ("e", .document row.entry)]
  match row.pre with
  | some p => d ++ [("p", .document p)]
  | none => d

/-- The row of a document (`read_segment_file`). -/
def Row.ofDoc (d : Document) : Row where
  seq :=
    match Document.get d "s" with
    | some (.int64 n) => n
    | some (.int32 n) => n.toInt64
    | _ => 0
  entry := (getDocument d "e").getD []
  pre := getDocument d "p"

/-- The contents of a segment file (`write_segment`). -/
def segmentBytes (C : Crate) : List Row → Except StorageError Bytes
  | [] => .ok []
  | row :: rows =>
    match write C row.toDoc with
    | .error e => .error (.bsonWrite e)
    | .ok blob => (segmentBytes C rows).map fun rest => be32 blob.length ++ (blob ++ rest)

/-- `read_segment_file`, from the bytes left. -/
def readSegmentFile (C : Crate) (data : Bytes) : Except StorageError (List Row) :=
  if data.length < 4 then .ok []
  else
    let len := ofLeBytes (data.take 4).reverse
    let rest := data.drop 4
    if rest.length < len then .ok []
    else
      match fromBytes C (rest.take len) with
      | .error e => .error (.bson e)
      | .ok d => (readSegmentFile C (rest.drop len)).map (Row.ofDoc d :: ·)
termination_by data.length
decreasing_by
  simp only [List.length_drop]
  omega

/-- `iter_archived_oplog`: the segment files are in the order of their names. -/
def iterArchivedOplog (C : Crate) : List Bytes → Except StorageError (List Row)
  | [] => .ok []
  | file :: files =>
    match readSegmentFile C file with
    | .error e => .error e
    | .ok rows => (iterArchivedOplog C files).map (rows ++ ·)

/-! ## What was written is read -/

theorem Row.ofDoc_toDoc (row : Row) : Row.ofDoc row.toDoc = row := by
  obtain ⟨seq, entry, pre⟩ := row
  cases pre <;> rfl

theorem length_be32 (n : ℕ) : (be32 n).length = 4 := by simp [be32]

theorem ofLeBytes_be32 {n : ℕ} (h : n < 2 ^ 32) : ofLeBytes (be32 n).reverse = n := by
  rw [be32, List.reverse_reverse]
  exact ofLeBytes_leBytes (by omega)

/-- One row of a file, whatever follows it. -/
theorem readSegmentFile_row {C : Crate} {blob : Bytes} {d : Document} (hlen : blob.length < 2 ^ 32)
    (hread : fromBytes C blob = .ok d) (rest : Bytes) :
    readSegmentFile C (be32 blob.length ++ (blob ++ rest)) =
      (readSegmentFile C rest).map (Row.ofDoc d :: ·) := by
  have hlong : ¬ (be32 blob.length ++ (blob ++ rest)).length < 4 := by
    simp [length_be32]
  have hfits : ¬ (blob ++ rest).length < blob.length := by simp
  rw [readSegmentFile]
  simp only [if_neg hlong, List.take_left' (length_be32 _), List.drop_left' (length_be32 _),
    ofLeBytes_be32 hlen, if_neg hfits, List.take_left, List.drop_left, hread]

theorem readSegmentFile_short {C : Crate} {blob rest : Bytes} (hlen : blob.length < 2 ^ 32) {n : ℕ}
    (hn : n < 4 + blob.length) :
    readSegmentFile C ((be32 blob.length ++ (blob ++ rest)).take n) = .ok [] := by
  rw [readSegmentFile]
  by_cases hfour : n < 4
  · rw [if_pos (by rw [List.length_take]; omega)]
  · obtain ⟨m, rfl⟩ : ∃ m, n = (be32 blob.length).length + m := ⟨n - 4, by rw [length_be32]; omega⟩
    rw [length_be32] at hn
    rw [List.take_length_add_append]
    split
    · rfl
    · dsimp only
      rw [List.take_left' (length_be32 _), List.drop_left' (length_be32 _), ofLeBytes_be32 hlen,
        if_pos (by rw [List.length_take]; omega)]

/-- A row as the codec has it: its document stands for well-formed bytes, which the crate reads and writes. -/
def Row.Held (C : Crate) (row : Row) : Prop :=
  ∃ fields, WellFormed fields ∧ C.Documented fields ∧ row.toDoc = carryFields fields

theorem Row.Held.blob {C : Crate} {row : Row} (h : row.Held C) :
    ∃ blob, write C row.toDoc = .ok blob ∧ blob.length < 2 ^ 32 ∧ fromBytes C blob = .ok row.toDoc := by
  obtain ⟨fields, hwf, hC, heq⟩ := h
  have hsize := hwf.size
  rw [heq]
  exact ⟨docBytes fields, write_carryFields hwf hC, by omega, fromBytes_eq_carryFields hwf hC⟩

/-- A segment file cut off at any byte reads as the rows that were wholly written before it. -/
theorem readSegmentFile_cut {C : Crate} {rows : List Row} (hrows : ∀ row ∈ rows, row.Held C) :
    ∃ data, segmentBytes C rows = .ok data ∧ ∀ n, ∃ k ≤ rows.length,
      readSegmentFile C (data.take n) = .ok (rows.take k) ∧
        ∀ j ≤ rows.length, ∃ bytes, segmentBytes C (rows.take j) = .ok bytes ∧ (j ≤ k ↔ bytes.length ≤ n) := by
  induction rows with
  | nil =>
    refine ⟨[], rfl, fun n => ⟨0, Nat.le_refl 0, ?_, fun j hj => ⟨[], by rw [List.take_nil]; rfl, ?_⟩⟩⟩
    · rw [List.take_nil, readSegmentFile]
      rfl
    · exact iff_of_true hj (Nat.zero_le n)
  | cons row rows ih =>
    obtain ⟨hrow, hrows⟩ := List.forall_mem_cons.mp hrows
    obtain ⟨blob, hblob, hlen, hread⟩ := hrow.blob
    obtain ⟨rest, hrest, ih⟩ := ih hrows
    have hwrite : ∀ {rows rest}, segmentBytes C rows = .ok rest →
        segmentBytes C (row :: rows) = .ok (be32 blob.length ++ (blob ++ rest)) := by
      intro rows rest hrest
      simp only [segmentBytes, hblob, hrest]
      rfl
    have hsize : ∀ rest, (be32 blob.length ++ (blob ++ rest)).length = 4 + blob.length + rest.length := by
      intro rest
      rw [List.length_append, List.length_append, length_be32, Nat.add_assoc]
    refine ⟨_, hwrite hrest, fun n => ?_⟩
    by_cases hn : n < 4 + blob.length
    · -- the row's own bytes are cut
      refine ⟨0, Nat.zero_le _, readSegmentFile_short hlen hn, fun j hj => ?_⟩
      obtain _ | j := j
      · exact ⟨[], rfl, iff_of_true (Nat.le_refl 0) (Nat.zero_le n)⟩
      · obtain ⟨_, _, _, hwritten⟩ := ih 0
        obtain ⟨bytes, hbytes, -⟩ := hwritten j (Nat.le_of_succ_le_succ hj)
        exact ⟨_, hwrite hbytes, iff_of_false (by omega) (by rw [hsize]; omega)⟩
    · obtain ⟨m, rfl⟩ := Nat.exists_eq_add_of_le (Nat.le_of_not_lt hn)
      obtain ⟨k, hk, hreads, hwritten⟩ := ih m
      have hcut : (be32 blob.length ++ (blob ++ rest)).take (4 + blob.length + m) =
          be32 blob.length ++ (blob ++ rest.take m) := by
        rw [← length_be32 blob.length, Nat.add_assoc, List.take_length_add_append, List.take_length_add_append]
      refine ⟨k + 1, Nat.succ_le_succ hk, ?_, fun j hj => ?_⟩
      · rw [hcut, readSegmentFile_row hlen hread, hreads, Row.ofDoc_toDoc]
        rfl
      · obtain _ | j := j
        · exact ⟨[], rfl, iff_of_true (Nat.zero_le _) (Nat.zero_le _)⟩
        · obtain ⟨bytes, hbytes, hiff⟩ := hwritten j (Nat.le_of_succ_le_succ hj)
          refine ⟨_, hwrite hbytes, ?_⟩
          rw [hsize]
          omega

/-- `{s: 7, e: {}}`. -/
def emptyEntry : Fields := [([0x73], .int64 7), ([0x65], .document [])]

/-- The crate on `emptyEntry` and its values. -/
def emptyEntryCrate : Crate where
  decode bytes :=
    if bytes = docBytes emptyEntry then .ok [("s", .int64 7), ("e", .document [])]
    else if bytes = docBytes [([], .int64 7)] then .ok [("", .int64 7)]
    else .error .utf8Encoding
  encode d :=
    match d with
    | [("s", .int64 _), ("e", .document [])] => .ok (docBytes emptyEntry)
    | [("", .int64 _)] => .ok (docBytes [([], .int64 7)])
    | _ => .error (.invalidCString "\x00")

theorem held_emptyEntry : Row.Held emptyEntryCrate ⟨7, [], none⟩ := by
  have hcarry : carryFields emptyEntry = [("s", .int64 7), ("e", .document [])] := by
    simp only [emptyEntry, carryFields, Item.carry, show nameOf [0x73] = "s" by decide,
      show nameOf [0x65] = "e" by decide]
  have hleaf : carryFields [([], .int64 7)] = [("", .int64 7)] := by simp only [carryFields, Item.carry, nameOf_nil]
  refine ⟨emptyEntry, ⟨by decide, by simp [emptyEntry, FieldsShaped, Item.Shaped], by decide⟩,
    ⟨⟨fun _ => ?_, fun h => absurd h (by decide), fun _ => by rw [hcarry]; rfl, fun h => absurd h (by decide)⟩,
      fun v hv => ?_⟩, hcarry.symm⟩
  · rw [hcarry]
    rfl
  · rw [List.mem_singleton.mp (show v ∈ [.int64 7] from hv)]
    refine ⟨fun _ => ?_, fun h => absurd h (by decide), fun _ => by rw [hleaf]; rfl, fun h => absurd h (by decide)⟩
    rw [hleaf]
    rfl

theorem readSegmentFile_cut_one :
    ∃ data, segmentBytes emptyEntryCrate [⟨7, [], none⟩] = .ok data ∧ ∀ n, ∃ k ≤ 1,
      readSegmentFile emptyEntryCrate (data.take n) = .ok ([⟨7, [], none⟩].take k) ∧
        ∀ j ≤ 1, ∃ bytes, segmentBytes emptyEntryCrate ([⟨7, [], none⟩].take j) = .ok bytes ∧
          (j ≤ k ↔ bytes.length ≤ n) :=
  readSegmentFile_cut (List.forall_mem_singleton.mpr held_emptyEntry)

/-! ## Rows replayed -/

/-- The target of a restore: a timestamp, a wall-clock time, either or neither ("latest"). -/
structure Bound where
  toTs : Option Timestamp
  toWallMs : Option Int64
  deriving DecidableEq

/-- The order of timestamps, as that of `(time, increment)`. -/
def tsLe (a b : Timestamp) : Bool :=
  a.time < b.time || (a.time == b.time && a.increment ≤ b.increment)

/-- `within_bound`: an entry without the time the bound is on is within it. -/
def withinBound (bound : Bound) (entry : Document) : Bool :=
  let ts :=
    match bound.toTs, Document.get entry "ts" with
    | some b, some (.timestamp ts) => tsLe ts b
    | _, _ => true
  let wall :=
    match bound.toWallMs, Document.get entry "wall" with
    | some b, some (.dateTime ms) => decide (ms ≤ b)
    | _, _ => true
  ts && wall

structure ReplayStats where
  opsApplied : ℕ
  entriesSeen : ℕ
  lastSeq : ℤ
  deriving DecidableEq

/-- The storage engine a restore drives: `β` is a base snapshot, `σ` the state of the target. -/
structure Engine (β σ : Type) where
  /-- The target directory, from a base's archive or empty (`extract_backup_archive`). -/
  extract : Option β → Except StorageError σ
  /-- `Storage::open`, with the oplog disabled. -/
  openStore : σ → Except StorageError σ
  /-- `apply_entry`: the state after the entry, and whether it changed anything. -/
  applyEntry : σ → Document → Except StorageError (σ × Bool)
  importOplogSegment : σ → List (ℤ × Document) → List (ℤ × Bytes) → Except StorageError σ
  checkpoint : σ → Except StorageError σ

/-- The target, with the rows replayed into it so far. -/
structure Target (σ : Type) where
  store : σ
  replayed : List (ℤ × Document)

variable {β σ : Type}

/-- `replay_entries`, from the counters and the rows carried so far. -/
def replayEntries (E : Engine β σ) (bound : Bound) (carry : Bool) :
    List (ℤ × Document) → ReplayStats → List (ℤ × Document) → Target σ →
      Except StorageError (ReplayStats × List (ℤ × Document) × Target σ)
  | [], stats, carried, target => .ok (stats, carried, target)
  | (seq, entry) :: rows, stats, carried, target =>
    if withinBound bound entry then
      let carried := if carry then carried ++ [(seq, entry)] else carried
      match E.applyEntry target.store entry with
      | .error e => .error e
      | .ok (store, applied) =>
        let stats : ReplayStats :=
          { opsApplied := stats.opsApplied + if applied then 1 else 0
            entriesSeen := stats.entriesSeen + 1
            lastSeq := seq }
        replayEntries E bound carry rows stats carried ⟨store, target.replayed ++ [(seq, entry)]⟩
    else .ok (stats, carried, target)

/-- The rows of `rows` that a replay gets to. -/
def upToBound (bound : Bound) (rows : List (ℤ × Document)) : List (ℤ × Document) :=
  rows.takeWhile fun row => withinBound bound row.2

theorem replayEntries_spec {E : Engine β σ} {bound : Bound} {carry : Bool} {rows carried carried' : List (ℤ × Document)}
    {stats stats' : ReplayStats} {target target' : Target σ}
    (h : replayEntries E bound carry rows stats carried target = .ok (stats', carried', target')) :
    target'.replayed = target.replayed ++ upToBound bound rows ∧
      stats'.entriesSeen = stats.entriesSeen + (upToBound bound rows).length := by
  induction rows generalizing stats carried target with
  | nil =>
    cases h
    simp [upToBound]
  | cons row rows ih =>
    obtain ⟨seq, entry⟩ := row
    rw [replayEntries] at h
    cases hbound : withinBound bound entry with
    | false =>
      rw [hbound] at h
      cases h
      simp [upToBound, hbound]
    | true =>
      rw [hbound, if_pos rfl] at h
      cases happly : E.applyEntry target.store entry with
      | error e =>
        simp only [happly] at h
        cases h
      | ok out =>
        simp only [happly] at h
        obtain ⟨hreplayed, hseen⟩ := ih h
        have hup : upToBound bound ((seq, entry) :: rows) = (seq, entry) :: upToBound bound rows := by
          simp [upToBound, hbound]
        rw [hup, hreplayed, hseen, List.append_assoc, List.length_cons]
        refine ⟨rfl, ?_⟩
        show stats.entriesSeen + 1 + (upToBound bound rows).length = _
        omega

end Secantus.Pitr
