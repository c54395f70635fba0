/-
  Restoring to a target time from an archive of base snapshots and oplog segments (pitr_archive.rs).

  The rows after the chosen base are gathered from the segments and the newest snapshot's live oplog, the
  first of each sequence number kept (`gather_rows`), and only the run of consecutive numbers after the
  base is replayed.
-/
import Secantus.Library.SortedMap
import Secantus.Pitr.Replay

namespace Secantus.Pitr

open Secantus Secantus.Library Secantus.Wire

/-- What `pitr-manifest.json` says of a base's head. -/
structure Manifest where
  headTs : Option Timestamp
  headWallMs : Option Int64
  deriving DecidableEq

/-- A base snapshot: its head, its manifest if it has a readable one, and its live oplog with the
    pre-images. -/
structure Base where
  head : ℤ
  manifest : Option Manifest
  oplog : SortedMap ℤ Bytes
  preimage : ℤ → Option Bytes

/-- An archive directory: the segment files in the order of their names, the bases in that of their heads
    (`list_base_snapshots`). -/
structure Archive where
  segments : List Bytes
  bases : List Base
  ascending : bases.Pairwise fun a b => a.head < b.head

/-- `head_within_bound`. A base without a manifest has neither time. -/
def headWithinBound (manifest : Option Manifest) (bound : Bound) : Bool :=
  match bound.toTs, bound.toWallMs with
  | some b, _ =>
    match manifest.bind (·.headTs) with
    | some h => tsLe h b
    | none => false
  | none, some b =>
    match manifest.bind (·.headWallMs) with
    | some h => decide (h ≤ b)
    | none => false
  | none, none => true

/-- `select_base`: the newest base that is within the bound. -/
def selectBase (archive : Archive) (bound : Bound) : Option Base :=
  (archive.bases.filter fun base => headWithinBound base.manifest bound).getLast?

/-- The head of the base a restore starts from. -/
def baseHead (archive : Archive) (bound : Bound) : ℤ :=
  match selectBase archive bound with
  | some base => base.head
  | none => 0

/-- Rows by sequence number, and the encoded pre-images. -/
structure Gathered where
  rows : SortedMap ℤ Document
  pre : SortedMap ℤ Bytes

/-- The loop over the archived rows. -/
def gatherArchived (C : Crate) (head : ℤ) : List Row → Gathered → Except StorageError Gathered
  | [], g => .ok g
  | row :: rows, g =>
    let seq := row.seq.toInt
    if head < seq then
      let rowMap := g.rows.orInsert seq row.entry
      match row.pre with
      | none => gatherArchived C head rows ⟨rowMap, g.pre⟩
      | some p =>
        match write C p with
        | .error e => .error (.bsonWrite e)
        | .ok buf => gatherArchived C head rows ⟨rowMap, g.pre.orInsert seq buf⟩
    else gatherArchived C head rows g

/-- `read_oplog` of a database nothing writes to. -/
def readOplog (oplog : SortedMap ℤ Bytes) (start : ℤ) (limit : ℕ) : List (ℤ × Bytes) :=
  (oplog.entries.filter fun row => start ≤ row.1).take limit

theorem length_filter_lt {oplog : SortedMap ℤ Bytes} {start : ℤ} {last : ℤ × Bytes}
    (h : (readOplog oplog start 2000).getLast? = some last) :
    (oplog.entries.filter fun row => decide (last.1 + 1 ≤ row.1)).length <
      (oplog.entries.filter fun row => decide (start ≤ row.1)).length := by
  have hmem : last ∈ oplog.entries.filter fun row => decide (start ≤ row.1) :=
    List.mem_of_mem_take (List.mem_of_getLast? h)
  have hstart : start ≤ last.1 := by simpa using (List.mem_filter.mp hmem).2
  have hsub : oplog.entries.filter (fun row => decide (last.1 + 1 ≤ row.1)) =
      (oplog.entries.filter fun row => decide (start ≤ row.1)).filter
        fun row => decide (last.1 + 1 ≤ row.1) := by
    rw [List.filter_filter]
    refine List.filter_congr fun row _ => ?_
    by_cases hrow : last.1 + 1 ≤ row.1
    · simp [hrow, show start ≤ row.1 by omega]
    · simp [hrow]
  rw [hsub]
  exact List.length_filter_lt_length_iff_exists.mpr ⟨last, hmem, by simp⟩

/-- The loop over a base's live oplog, a batch at a time. -/
def gatherLive (C : Crate) (base : Base) (head : ℤ) (carryOplog : Bool) (start : ℤ) (g : Gathered) :
    Except StorageError Gathered :=
  match _h : (readOplog base.oplog start 2000).getLast? with
  | none => .ok g
  | some last =>
    match gatherBatch (readOplog base.oplog start 2000) g with
    | .error e => .error e
    | .ok g => gatherLive C base head carryOplog (last.1 + 1) g
termination_by (base.oplog.entries.filter fun row => decide (start ≤ row.1)).length
decreasing_by exact length_filter_lt _h
where
  /-- The rows of one batch. -/
  gatherBatch : List (ℤ × Bytes) → Gathered → Except StorageError Gathered
    | [], g => .ok g
    | (seq, blob) :: batch, g =>
      if head < seq then
        match fromBytes C blob with
        | .error e => .error (.bson e)
        | .ok entry =>
          let pre :=
            match base.preimage seq with
            | some p => if carryOplog then g.pre.orInsert seq p else g.pre
            | none => g.pre
          gatherBatch batch ⟨g.rows.orInsert seq entry, pre⟩
      else gatherBatch batch g

/-- The rows after the base: of the segments, then of the newest snapshot's live oplog. -/
def gather (C : Crate) (archive : Archive) (head : ℤ) (carryOplog : Bool) :
    Except StorageError Gathered :=
  match iterArchivedOplog C archive.segments with
  | .error e => .error e
  | .ok archived =>
    match gatherArchived C head archived ⟨SortedMap.empty, SortedMap.empty⟩ with
    | .error e => .error e
    | .ok g =>
      match archive.bases.getLast? with
      | some newest => if head < newest.head then gatherLive C newest head carryOplog (head + 1) g else .ok g
      | none => .ok g

/-- The rows of consecutive numbers from `expected` on. -/
def contiguous : ℤ → List (ℤ × Document) → List (ℤ × Document)
  | _, [] => []
  | expected, (seq, entry) :: rows =>
    if seq ≠ expected then [] else (seq, entry) :: contiguous (expected + 1) rows

/-- The import of the carried rows with their pre-images. -/
def importCarried {σ : Type} (E : Engine Base σ) (g : Gathered) (carryOplog : Bool)
    (carried : List (ℤ × Document)) (store : σ) : Except StorageError σ :=
  if carryOplog && !carried.isEmpty then
    E.importOplogSegment store carried (carried.filterMap fun row => (g.pre.get row.1).map (row.1, ·))
  else .ok store

def restoreFromArchiveDir {σ : Type} (C : Crate) (E : Engine Base σ) (archive : Archive) (bound : Bound)
    (carryOplog : Bool) : Except StorageError (ReplayStats × Target σ) := do
  let base := selectBase archive bound
  let head := baseHead archive bound
  let dir ← E.extract base
  let g ← gather C archive head carryOplog
  let run := contiguous (head + 1) g.rows.entries
  let gapAfter := head + run.length
  let hasMorePastGap := g.rows.keys.getLast?.any (gapAfter < ·)
  let store ← E.openStore dir
  let (stats, carried, target) ← replayEntries E bound carryOplog run ⟨0, 0, 0⟩ [] ⟨store, []⟩
  let imported ← importCarried E g carryOplog carried target.store
  let checkpointed ← E.checkpoint imported
  let boundSet := bound.toTs.isSome || bound.toWallMs.isSome
  let reached := decide (stats.entriesSeen < run.length) || !boundSet
  if boundSet && !reached && hasMorePastGap then
    .error (.internal ("archived oplog has a gap after seq " ++ toString gapAfter ++
      ": cannot reach the requested recovery time — take more frequent base snapshots"))
  else .ok (stats, ⟨checkpointed, target.replayed⟩)

/-! ## What a restore was given -/

/-- Rows of an oplog, decoded. -/
def decodeRows (C : Crate) : List (ℤ × Bytes) → Except StorageError (List (ℤ × Document))
  | [] => .ok []
  | (seq, blob) :: rows =>
    match fromBytes C blob with
    | .error e => .error (.bson e)
    | .ok entry => (decodeRows C rows).map ((seq, entry) :: ·)

/-- The archived rows after `head`. -/
def afterHead (head : ℤ) (rows : List Row) : List (ℤ × Document) :=
  (rows.filter fun row => head < row.seq.toInt).map fun row => (row.seq.toInt, row.entry)

/-- The rows after `head` in a live oplog. -/
def liveAfter (head : ℤ) (oplog : SortedMap ℤ Bytes) : List (ℤ × Bytes) :=
  oplog.entries.filter fun row => head + 1 ≤ row.1

/-- All rows after the chosen base that the archive holds: those of the segments, and those of the newest
    snapshot's live oplog when it is a later one. -/
def archivedRows (C : Crate) (archive : Archive) (head : ℤ) :
    Except StorageError (List (ℤ × Document)) :=
  match iterArchivedOplog C archive.segments with
  | .error e => .error e
  | .ok archived =>
    match archive.bases.getLast? with
    | some newest =>
      if head < newest.head then
        (decodeRows C (liveAfter head newest.oplog)).map (afterHead head archived ++ ·)
      else .ok (afterHead head archived)
    | none => .ok (afterHead head archived)

theorem gatherArchived_rows {C : Crate} {head : ℤ} {rows : List Row} {g g' : Gathered}
    (h : gatherArchived C head rows g = .ok g') (q : ℤ) :
    g'.rows.get q = (g.rows.get q).or ((afterHead head rows).lookup q) := by
  induction rows generalizing g with
  | nil =>
    cases h
    simp [afterHead]
  | cons row rows ih =>
    rw [gatherArchived] at h
    by_cases hseq : head < row.seq.toInt
    · have hafter : afterHead head (row :: rows) =
          (row.seq.toInt, row.entry) :: afterHead head rows := by
        simp [afterHead, hseq]
      have hstep : ∀ pre, gatherArchived C head rows ⟨g.rows.orInsert row.seq.toInt row.entry, pre⟩ =
          .ok g' → g'.rows.get q = (g.rows.get q).or ((afterHead head (row :: rows)).lookup q) := by
        intro pre hrest
        rw [ih hrest, SortedMap.get_orInsert, hafter, SortedMap.lookup_cons_eq]
        by_cases hq : q = row.seq.toInt
        · subst hq
          cases g.rows.get row.seq.toInt <;> simp
        · simp [Ne.symm hq]
      rw [if_pos hseq] at h
      cases hpre : row.pre with
      | none =>
        simp only [hpre] at h
        exact hstep _ h
      | some p =>
        simp only [hpre] at h
        cases hwrite : write C p with
        | error e =>
          simp only [hwrite] at h
          cases h
        | ok buf =>
          simp only [hwrite] at h
          exact hstep _ h
    · rw [if_neg hseq] at h
      have hafter : afterHead head (row :: rows) = afterHead head rows := by
        simp [afterHead, hseq]
      rw [ih h, hafter]

theorem gatherBatch_rows {C : Crate} {base : Base} {head : ℤ} {carryOplog : Bool}
    {batch : List (ℤ × Bytes)} (hbatch : ∀ row ∈ batch, head < row.1) {g g' : Gathered}
    (h : gatherLive.gatherBatch C base head carryOplog batch g = .ok g') :
    ∃ live, decodeRows C batch = .ok live ∧ ∀ q, g'.rows.get q = (g.rows.get q).or (live.lookup q) := by
  induction batch generalizing g with
  | nil =>
    cases h
    exact ⟨[], rfl, fun q => by simp⟩
  | cons row batch ih =>
    obtain ⟨seq, blob⟩ := row
    rw [gatherLive.gatherBatch, if_pos (hbatch (seq, blob) List.mem_cons_self)] at h
    cases hread : fromBytes C blob with
    | error e =>
      simp only [hread] at h
      cases h
    | ok entry =>
      simp only [hread] at h
      obtain ⟨live, hlive, hget⟩ := ih (fun row hrow => hbatch row (List.mem_cons_of_mem _ hrow)) h
      refine ⟨(seq, entry) :: live, ?_, fun q => ?_⟩
      · rw [decodeRows]
        simp only [hread, hlive]
        rfl
      · rw [hget, SortedMap.get_orInsert, SortedMap.lookup_cons_eq]
        by_cases hq : seq = q
        · subst hq
          cases g.rows.get seq <;> simp
        · simp [hq]

theorem decodeRows_append {C : Crate} {rows rows' : List (ℤ × Bytes)} {live live' : List (ℤ × Document)}
    (h : decodeRows C rows = .ok live) (h' : decodeRows C rows' = .ok live') :
    decodeRows C (rows ++ rows') = .ok (live ++ live') := by
  induction rows generalizing live with
  | nil =>
    cases h
    exact h'
  | cons row rows ih =>
    obtain ⟨seq, blob⟩ := row
    rw [decodeRows] at h
    rw [List.cons_append, decodeRows]
    cases hread : fromBytes C blob with
    | error e =>
      simp only [hread] at h
      cases h
    | ok entry =>
      simp only [hread] at h ⊢
      cases hrest : decodeRows C rows with
      | error e =>
        rw [hrest] at h
        cases h
      | ok rest =>
        rw [hrest] at h
        cases h
        rw [ih hrest]
        rfl

/-- A batch and what is read after it are all rows from `start` on. -/
theorem readOplog_append {oplog : SortedMap ℤ Bytes} {start : ℤ} {limit : ℕ} {last : ℤ × Bytes}
    (h : (readOplog oplog start limit).getLast? = some last) :
    oplog.entries.filter (fun row => start ≤ row.1) =
      readOplog oplog start limit ++ oplog.entries.filter (fun row => last.1 + 1 ≤ row.1) := by
  have hsorted := oplog.sorted.filter fun row => decide (start ≤ row.1)
  have hstart : start ≤ last.1 := by
    have hmem := List.mem_of_mem_take (List.mem_of_getLast? h)
    simpa using (List.mem_filter.mp hmem).2
  have hsub : oplog.entries.filter (fun row => last.1 + 1 ≤ row.1) =
      (oplog.entries.filter fun row => start ≤ row.1).filter fun row => last.1 + 1 ≤ row.1 := by
    rw [List.filter_filter]
    refine List.filter_congr fun row _ => ?_
    by_cases hrow : last.1 + 1 ≤ row.1
    · simp [hrow, show start ≤ row.1 by omega]
    · simp [hrow]
  rw [hsub]
  unfold readOplog at h ⊢
  generalize oplog.entries.filter (fun row => decide (start ≤ row.1)) = rows at h hsorted ⊢
  rw [← List.take_append_drop limit rows, List.pairwise_append] at hsorted
  obtain ⟨htake, -, hcross⟩ := hsorted
  obtain ⟨init, hinit⟩ := List.getLast?_eq_some_iff.mp h
  have hbefore : (rows.take limit).filter (fun row => decide (last.1 + 1 ≤ row.1)) = [] := by
    rw [hinit, List.pairwise_append] at htake
    rw [List.filter_eq_nil_iff, hinit]
    intro row hrow
    rcases List.mem_append.mp hrow with hrow | hrow
    · have := htake.2.2 row hrow last List.mem_cons_self
      simp only [decide_eq_true_eq]
      omega
    · rw [List.mem_singleton.mp hrow]
      simp
  have hafter : (rows.drop limit).filter (fun row => decide (last.1 + 1 ≤ row.1)) = rows.drop limit := by
    rw [List.filter_eq_self]
    intro row hrow
    have := hcross last (List.mem_of_getLast? h) row hrow
    simp only [decide_eq_true_eq]
    omega
  have hrest : rows.filter (fun row => decide (last.1 + 1 ≤ row.1)) = rows.drop limit := by
    conv_lhs => rw [← List.take_append_drop limit rows]
    rw [List.filter_append, hbefore, hafter, List.nil_append]
  rw [hrest, List.take_append_drop]

/-- The loop over a live oplog gathers its rows from `start` on. -/
theorem gatherLive_rows {C : Crate} {base : Base} {head : ℤ} {carryOplog : Bool} {start : ℤ}
    (hstart : head < start) {g g' : Gathered}
    (h : gatherLive C base head carryOplog start g = .ok g') :
    ∃ live, decodeRows C (base.oplog.entries.filter fun row => start ≤ row.1) = .ok live ∧
      ∀ q, g'.rows.get q = (g.rows.get q).or (live.lookup q) := by
  induction hn : (base.oplog.entries.filter fun row => decide (start ≤ row.1)).length using
    Nat.strong_induction_on generalizing start g with
  | _ n ih =>
    subst hn
    rw [gatherLive] at h
    split at h
    · rename_i hlast
      cases h
      have hnil : base.oplog.entries.filter (fun row => decide (start ≤ row.1)) = [] := by
        rw [List.getLast?_eq_none_iff, readOplog, List.take_eq_nil_iff] at hlast
        exact hlast.resolve_left (by decide)
      rw [hnil]
      exact ⟨[], rfl, fun q => by simp⟩
    · rename_i last hlast
      have hmem := List.mem_of_mem_take (List.mem_of_getLast? hlast)
      have hle : start ≤ last.1 := by simpa using (List.mem_filter.mp hmem).2
      have hbatch : ∀ row ∈ readOplog base.oplog start 2000, head < row.1 := by
        intro row hrow
        have hrow := (List.mem_filter.mp (List.mem_of_mem_take hrow)).2
        simp only [decide_eq_true_eq] at hrow
        omega
      split at h
      · cases h
      · rename_i g₁ hg₁
        obtain ⟨live, hlive, hget⟩ := gatherBatch_rows hbatch hg₁
        obtain ⟨live', hlive', hget'⟩ := ih _ (length_filter_lt hlast) (by omega) h rfl
        refine ⟨live ++ live', ?_, fun q => ?_⟩
        · rw [readOplog_append hlast]
          exact decodeRows_append hlive hlive'
        · rw [hget', hget, List.lookup_append, Option.or_assoc]

/-- What is gathered is, for each number, the first row that was given. -/
theorem gather_rows {C : Crate} {archive : Archive} {head : ℤ} {carryOplog : Bool} {g : Gathered}
    (h : gather C archive head carryOplog = .ok g) :
    ∃ given, archivedRows C archive head = .ok given ∧ ∀ q, g.rows.get q = given.lookup q := by
  unfold gather at h
  unfold archivedRows
  cases harchived : iterArchivedOplog C archive.segments with
  | error e =>
    simp only [harchived] at h
    cases h
  | ok archived =>
    simp only [harchived] at h ⊢
    cases hsegments : gatherArchived C head archived ⟨SortedMap.empty, SortedMap.empty⟩ with
    | error e =>
      simp only [hsegments] at h
      cases h
    | ok g₁ =>
      simp only [hsegments] at h
      have hget := gatherArchived_rows hsegments
      simp only [SortedMap.get_empty, Option.none_or] at hget
      cases hnewest : archive.bases.getLast? with
      | none =>
        simp only [hnewest] at h ⊢
        cases h
        exact ⟨_, rfl, hget⟩
      | some newest =>
        simp only [hnewest] at h ⊢
        by_cases hlater : head < newest.head
        · rw [if_pos hlater] at h ⊢
          obtain ⟨live, hlive, hget'⟩ := gatherLive_rows (by omega) h
          refine ⟨afterHead head archived ++ live, ?_, fun q => ?_⟩
          · rw [liveAfter, hlive]
            rfl
          · rw [hget', hget, List.lookup_append]
        · rw [if_neg hlater] at h ⊢
          cases h
          exact ⟨_, rfl, hget⟩

theorem decodeRows_gt {C : Crate} {rows : List (ℤ × Bytes)} {live : List (ℤ × Document)}
    (h : decodeRows C rows = .ok live) {head : ℤ} (hrows : ∀ row ∈ rows, head < row.1) :
    ∀ row ∈ live, head < row.1 := by
  induction rows generalizing live with
  | nil =>
    cases h
    exact fun _ hrow => absurd hrow List.not_mem_nil
  | cons row rows ih =>
    obtain ⟨seq, blob⟩ := row
    rw [decodeRows] at h
    cases hread : fromBytes C blob with
    | error e =>
      simp only [hread] at h
      cases h
    | ok entry =>
      simp only [hread] at h
      cases hrest : decodeRows C rows with
      | error e =>
        rw [hrest] at h
        cases h
      | ok rest =>
        rw [hrest] at h
        cases h
        intro row hrow
        rcases List.mem_cons.mp hrow with rfl | hrow
        · exact hrows (seq, blob) List.mem_cons_self
        · exact ih hrest (fun row hrow => hrows row (List.mem_cons_of_mem _ hrow)) row hrow

theorem archivedRows_gt {C : Crate} {archive : Archive} {head : ℤ} {given : List (ℤ × Document)}
    (h : archivedRows C archive head = .ok given) : ∀ row ∈ given, head < row.1 := by
  have hafter : ∀ rows, ∀ row ∈ afterHead head rows, head < row.1 := by
    intro rows row hrow
    obtain ⟨r, hr, rfl⟩ := List.mem_map.mp hrow
    simpa using (List.mem_filter.mp hr).2
  unfold archivedRows at h
  split at h
  · cases h
  · split at h
    · rename_i newest _
      split at h
      · cases hlive : decodeRows C (liveAfter head newest.oplog) with
        | error e =>
          rw [hlive] at h
          cases h
        | ok live =>
          rw [hlive] at h
          cases h
          intro row hrow
          rcases List.mem_append.mp hrow with hrow | hrow
          · exact hafter _ row hrow
          · refine decodeRows_gt hlive (fun row hrow => ?_) row hrow
            have hle := (List.mem_filter.mp hrow).2
            simp only [decide_eq_true_eq] at hle
            omega
      · cases h
        exact hafter _
    · cases h
      exact hafter _

end Secantus.Pitr
