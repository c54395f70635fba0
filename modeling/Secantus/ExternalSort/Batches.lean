/-
  external_sort: rows gathered into runs of about `RUN_BYTES`, each sorted as it fills up and written out, and
  the merge of the runs, ties going to the earlier run. A run that never fills stays in memory.

  Runs are sorted by PostgreSQL's quicksort, of which only this matters here: it permutes its rows and leaves
  them in order (`RunSort`). Where it puts rows that tie is not said.

  `Sorted`: the rows going out of a sort a batch at a time, past OFFSET and LIMIT, a row that is the same as the
  last one kept left out.

  Whatever the batches, what they hand out is a prefix of the rows that were pending (`handedOut_eq`). Where rows
  that are the same are next to each other, the rows kept are those that are the first of their kind
  (`distinct_eq_firsts`).
-/
import Secantus.Library.Merge

namespace Secantus.ExternalSort

open Secantus.Library

variable {ρ : Type*} (le : ρ → ρ → Bool)

/-- A sort of one run. -/
structure RunSort where
  sort : List ρ → List ρ
  perm : ∀ rows, (sort rows).Perm rows
  pairwise : ∀ rows, (sort rows).Pairwise (le · · = true)

/-- The bytes of rows sorted in memory before a run is written out. -/
def RUN_BYTES : ℕ := 16 <<< 20

structure RunBuilder (ρ : Type*) where
  chunk : List ρ
  bytes : ℕ
  runs : List (List ρ)

def RunBuilder.new : RunBuilder ρ := ⟨[], 0, []⟩

/-- The sorted rows going out: one run in memory, or the merge of runs read back. -/
structure Sorted (ρ : Type*) where
  mem : List ρ
  readers : List (List ρ)

def Sorted.rows (s : Sorted ρ) : List ρ := if s.readers.isEmpty then s.mem else mergeRuns le s.readers

variable {le} (sorter : RunSort le)

/-- Add one row of about `bytes` bytes. -/
def RunBuilder.push (b : RunBuilder ρ) (d : ρ) (bytes : ℕ) : RunBuilder ρ :=
  let chunk := b.chunk ++ [d]
  let bytes := b.bytes + bytes
  if bytes ≥ RUN_BYTES then ⟨[], 0, b.runs ++ [sorter.sort chunk]⟩ else ⟨chunk, bytes, b.runs⟩

/-- The merge of the runs. -/
def RunBuilder.finish (b : RunBuilder ρ) : Sorted ρ :=
  let chunk := sorter.sort b.chunk
  if b.runs.isEmpty then ⟨chunk, []⟩
  else ⟨[], if chunk.isEmpty then b.runs else b.runs ++ [chunk]⟩

/-! ## What the builder holds -/

/-- The runs written out are in order, and with the rows not written yet they are the rows pushed. -/
structure RunBuilder.Holds (b : RunBuilder ρ) (le : ρ → ρ → Bool) (rows : List ρ) : Prop where
  perm : (b.runs.flatten ++ b.chunk).Perm rows
  pairwise : ∀ run ∈ b.runs, run.Pairwise (le · · = true)

theorem RunBuilder.holds_new : (new : RunBuilder ρ).Holds le [] := ⟨.refl _, fun _ h => absurd h List.not_mem_nil⟩

theorem RunBuilder.Holds.push {b : RunBuilder ρ} {rows : List ρ} (h : b.Holds le rows) (d : ρ) (bytes : ℕ) :
    (b.push sorter d bytes).Holds le (rows ++ [d]) := by
  have hperm : (b.runs.flatten ++ (b.chunk ++ [d])).Perm (rows ++ [d]) := by
    rw [← List.append_assoc]
    exact h.perm.append_right [d]
  unfold RunBuilder.push
  dsimp only
  split
  · refine ⟨?_, ?_⟩
    · rw [List.flatten_append, List.flatten_singleton, List.append_nil]
      exact ((sorter.perm _).append_left _).trans hperm
    · intro run hrun
      rcases List.mem_append.mp hrun with hrun | hrun
      · exact h.pairwise run hrun
      · rw [List.mem_singleton.mp hrun]
        exact sorter.pairwise _
  · exact ⟨hperm, h.pairwise⟩

theorem RunBuilder.Holds.rows_perm {b : RunBuilder ρ} {rows : List ρ} (h : b.Holds le rows) :
    ((b.finish sorter).rows le).Perm rows := by
  have hchunk := sorter.perm b.chunk
  unfold RunBuilder.finish
  dsimp only
  by_cases hruns : b.runs.isEmpty
  · have hnil : b.runs = [] := List.isEmpty_iff.mp hruns
    rw [if_pos hruns]
    refine hchunk.trans ?_
    simpa [hnil] using h.perm
  · rw [if_neg hruns]
    have hne : ¬ (if (sorter.sort b.chunk).isEmpty then b.runs else b.runs ++ [sorter.sort b.chunk]).isEmpty := by
      split
      · exact hruns
      · simp
    rw [Sorted.rows, if_neg hne]
    refine (mergeRuns_perm le _).trans (.trans ?_ h.perm)
    split
    · next hempty =>
      have hnil : b.chunk = [] := List.Perm.nil_eq (List.isEmpty_iff.mp hempty ▸ hchunk) |>.symm
      rw [hnil, List.append_nil]
    · rw [List.flatten_append, List.flatten_singleton]
      exact hchunk.append_left _

theorem RunBuilder.Holds.finish {b : RunBuilder ρ} {rows : List ρ} (h : b.Holds le rows) :
    (b.finish sorter).mem.Pairwise (le · · = true) ∧
      ∀ run ∈ (b.finish sorter).readers, run.Pairwise (le · · = true) := by
  unfold RunBuilder.finish
  dsimp only
  split
  · exact ⟨sorter.pairwise _, fun _ hrun => absurd hrun List.not_mem_nil⟩
  · refine ⟨.nil, fun run hrun => ?_⟩
    dsimp only at hrun
    split at hrun
    · exact h.pairwise run hrun
    · rcases List.mem_append.mp hrun with hrun | hrun
      · exact h.pairwise run hrun
      · rw [List.mem_singleton.mp hrun]
        exact sorter.pairwise _

theorem RunBuilder.Holds.rows_pairwise (htotal : ∀ x y, le x y = true ∨ le y x = true)
    (htrans : ∀ x y z, le x y = true → le y z = true → le x z = true) {b : RunBuilder ρ} {rows : List ρ}
    (h : b.Holds le rows) : ((b.finish sorter).rows le).Pairwise (le · · = true) := by
  obtain ⟨hmem, hruns⟩ := h.finish sorter
  unfold Sorted.rows
  split
  · exact hmem
  · exact mergeRuns_pairwise htotal htrans hruns

variable {ρ κ : Type*} (le : ρ → ρ → Bool) (eq : κ → κ → Bool)

def Sorted.nextRow (s : Sorted ρ) : Option (ρ × Sorted ρ) :=
  if s.readers.isEmpty then
    match s.mem with
    | [] => none
    | d :: mem => some (d, { s with mem := mem })
  else
    match popLeast le s.readers with
    | none => none
    | some (d, readers) => some (d, { s with readers := readers })

/-- The rows of the sort not handed out yet. -/
def Sorted.size (s : Sorted ρ) : ℕ := s.mem.length + s.readers.flatten.length

theorem Sorted.size_nextRow {s s' : Sorted ρ} {d : ρ} (h : s.nextRow le = some (d, s')) : s'.size < s.size := by
  unfold Sorted.nextRow at h
  split at h
  · split at h
    · cases h
    · rename_i mem hmem
      cases h
      simp [Sorted.size, hmem]
  · split at h
    · cases h
    · rename_i readers hpop
      cases h
      have hlen := length_of_popLeast le hpop
      simp only [Sorted.size]
      omega

/-- The sorted rows going out, with OFFSET, LIMIT and the identity of the last row kept. -/
structure Outgoing (ρ κ : Type*) where
  merge : Sorted ρ
  skip : ℕ
  left : Option ℕ
  batch : ℕ
  dedup : Option (ρ → κ)
  last : Option κ

/-- A row taken out of the merge: whether it is handed out. -/
def Outgoing.admitRow (o : Outgoing ρ κ) (d : ρ) : Bool × Outgoing ρ κ :=
  match o.dedup with
  | none => past o
  | some ident =>
    if o.last.any (fun l => eq l (ident d)) then (false, o) else past { o with last := some (ident d) }
where
  past (o : Outgoing ρ κ) : Bool × Outgoing ρ κ :=
    if o.skip > 0 then (false, { o with skip := o.skip - 1 })
    else (true, { o with left := o.left.map (· - 1) })

theorem Outgoing.merge_admitRow (o : Outgoing ρ κ) (d : ρ) : (o.admitRow eq d).2.merge = o.merge := by
  have hpast : ∀ o : Outgoing ρ κ, (Outgoing.admitRow.past o).2.merge = o.merge := by
    intro o
    unfold Outgoing.admitRow.past
    split <;> rfl
  unfold Outgoing.admitRow
  split
  · exact hpast o
  · split
    · rfl
    · exact hpast _

/-- The loop of `next_batch`, with the rows of the batch so far. -/
def Outgoing.fill (o : Outgoing ρ κ) (docs : List ρ) : List ρ × Outgoing ρ κ :=
  if docs.length < o.batch ∧ o.left ≠ some 0 then
    match _h : o.merge.nextRow le with
    | none => (docs, o)
    | some (d, merge) =>
      let p := { o with merge := merge }.admitRow eq d
      p.2.fill (if p.1 then docs ++ [d] else docs)
  else (docs, o)
termination_by o.merge.size
decreasing_by
  have hmerge := Outgoing.merge_admitRow eq { o with merge := merge } d
  rw [hmerge]
  exact Sorted.size_nextRow le _h

/-- `Sorted::next_batch`. -/
def Outgoing.nextBatch (o : Outgoing ρ κ) : List ρ × Outgoing ρ κ := o.fill le eq []

/-- The rows of the first `n` calls of `next_batch`. -/
def Outgoing.handedOut : ℕ → Outgoing ρ κ → List ρ
  | 0, _ => []
  | n + 1, o => (o.nextBatch le eq).1 ++ (o.nextBatch le eq).2.handedOut n

/-! ## What is pending -/

/-- At most `left` rows. -/
def limited (left : Option ℕ) (rows : List ρ) : List ρ :=
  match left with
  | none => rows
  | some n => rows.take n

/-- The rows whose identity is not that of the last one kept. -/
def distinct (ident : ρ → κ) : Option κ → List ρ → List ρ
  | _, [] => []
  | last, d :: ds =>
    if last.any (fun l => eq l (ident d)) then distinct ident last ds else d :: distinct ident (some (ident d)) ds

/-- The rows of the merge that are kept. -/
def Outgoing.kept (o : Outgoing ρ κ) (rows : List ρ) : List ρ :=
  match o.dedup with
  | none => rows
  | some ident => distinct eq ident o.last rows

/-- The rows still to be handed out. -/
def Outgoing.pending (o : Outgoing ρ κ) : List ρ :=
  limited o.left ((o.kept eq (o.merge.rows le)).drop o.skip)

theorem Sorted.rows_nextRow (s : Sorted ρ) : s.rows le = match s.nextRow le with
    | none => []
    | some (d, s') => d :: s'.rows le := by
  unfold Sorted.nextRow Sorted.rows
  by_cases hr : s.readers.isEmpty = true
  · rw [if_pos hr, if_pos hr]
    cases s.mem with
    | nil => rfl
    | cons d mem =>
      show d :: mem = d :: if s.readers.isEmpty = true then mem else mergeRuns le s.readers
      rw [if_pos hr]
  · rw [if_neg hr, if_neg hr, mergeRuns]
    split
    · rename_i hpop
      rw [hpop]
    · rename_i d readers hpop
      have hne : ¬ readers.isEmpty = true := by
        rw [List.isEmpty_iff_length_eq_zero, length_rest_of_popLeast le hpop,
          ← List.isEmpty_iff_length_eq_zero]
        exact hr
      rw [hpop]
      simp only [if_neg hne]

theorem pending_past {o : Outgoing ρ κ} {d : ρ} {rows : List ρ} (hleft : o.left ≠ some 0) :
    limited o.left ((d :: rows).drop o.skip) = (if (Outgoing.admitRow.past o).1 then [d] else []) ++
      limited (Outgoing.admitRow.past o).2.left (rows.drop (Outgoing.admitRow.past o).2.skip) := by
  unfold Outgoing.admitRow.past
  cases hs : o.skip with
  | zero =>
    simp only [lt_irrefl, if_false, if_true, List.drop_zero]
    cases hl : o.left with
    | none => rfl
    | some n =>
      have hn : n ≠ 0 := fun h => hleft (by rw [hl, h])
      obtain ⟨m, rfl⟩ := Nat.exists_eq_succ_of_ne_zero hn
      rfl
  | succ n => simp

/-- A row taken out of the merge is handed out before what is pending then, or left out. -/
theorem pending_admitRow {o : Outgoing ρ κ} {d : ρ} {rows : List ρ} (hleft : o.left ≠ some 0) :
    limited o.left ((o.kept eq (d :: rows)).drop o.skip) = (if (o.admitRow eq d).1 then [d] else []) ++
      limited (o.admitRow eq d).2.left (((o.admitRow eq d).2.kept eq rows).drop (o.admitRow eq d).2.skip) := by
  have hkept : ∀ (o : Outgoing ρ κ) rows, (Outgoing.admitRow.past o).2.kept eq rows = o.kept eq rows := by
    intro o rows
    unfold Outgoing.admitRow.past
    split <;> rfl
  unfold Outgoing.admitRow
  split
  · rename_i hd
    have hall : ∀ rows, o.kept eq rows = rows := by
      intro rows
      unfold Outgoing.kept
      rw [hd]
    rw [hkept, hall, hall]
    exact pending_past hleft
  · rename_i ident hd
    have hdist : ∀ rows, o.kept eq rows = distinct eq ident o.last rows := by
      intro rows
      unfold Outgoing.kept
      rw [hd]
    rw [hdist, distinct]
    split
    · rename_i hsame
      rw [hdist]
      rfl
    · have hnext : ({ o with last := some (ident d) } : Outgoing ρ κ).kept eq rows =
          distinct eq ident (some (ident d)) rows := by
        unfold Outgoing.kept
        rw [hd]
      rw [hkept, hnext]
      exact pending_past (o := { o with last := some (ident d) }) hleft

theorem batch_admitRow (o : Outgoing ρ κ) (d : ρ) : (o.admitRow eq d).2.batch = o.batch := by
  have hpast : ∀ o : Outgoing ρ κ, (Outgoing.admitRow.past o).2.batch = o.batch := by
    intro o
    unfold Outgoing.admitRow.past
    split <;> rfl
  unfold Outgoing.admitRow
  split
  · exact hpast o
  · split
    · rfl
    · exact hpast _

/-- A batch is filled with the rows pending. -/
theorem fill_spec (o : Outgoing ρ κ) (docs : List ρ) :
    (o.fill le eq docs).1 = docs ++ (o.pending le eq).take (o.batch - docs.length) ∧
      (o.fill le eq docs).2.pending le eq = (o.pending le eq).drop (o.batch - docs.length) ∧
      (o.fill le eq docs).2.batch = o.batch := by
  fun_induction Outgoing.fill le eq o docs with
  | case1 o docs hroom hnone =>
    have hrows : o.merge.rows le = [] := by rw [Sorted.rows_nextRow, hnone]
    have hkept : o.kept eq [] = [] := by
      unfold Outgoing.kept
      split <;> rfl
    have hpending : o.pending le eq = [] := by
      unfold Outgoing.pending limited
      rw [hrows, hkept, List.drop_nil]
      split
      · rfl
      · exact List.take_nil
    simp [hpending]
  | case2 o docs hroom d merge hnext p ih =>
    obtain ⟨hroom, hleft⟩ := hroom
    have hrows : o.merge.rows le = d :: merge.rows le := by rw [Sorted.rows_nextRow, hnext]
    have hpending : o.pending le eq = (if p.1 then [d] else []) ++ p.2.pending le eq := by
      have hmerge : p.2.merge = merge := Outgoing.merge_admitRow eq { o with merge := merge } d
      unfold Outgoing.pending
      rw [hrows, hmerge]
      exact pending_admitRow eq (o := { o with merge := merge }) hleft
    have hbatch : p.2.batch = o.batch := batch_admitRow eq { o with merge := merge } d
    simp only [dite_eq_ite] at ih
    obtain ⟨hdocs, hrest, hb⟩ := ih
    rw [hbatch] at hdocs hrest hb
    have hsub : o.batch - docs.length = o.batch - (docs ++ [d]).length + 1 := by
      rw [List.length_append, List.length_singleton]
      omega
    refine ⟨?_, ?_, hb⟩
    · rw [hdocs, hpending]
      cases hp : p.1 with
      | false => simp
      | true =>
        simp only [if_true]
        rw [hsub, List.singleton_append, List.take_succ_cons, List.append_assoc, List.singleton_append]
    · rw [hrest, hpending]
      cases hp : p.1 with
      | false => simp
      | true =>
        simp only [if_true]
        rw [hsub, List.singleton_append, List.drop_succ_cons]
  | case3 o docs hfull =>
    by_cases hleft : o.left = some 0
    · have hpending : o.pending le eq = [] := by
        unfold Outgoing.pending limited
        rw [hleft]
        rfl
      simp [hpending]
    · have hlen : o.batch - docs.length = 0 := by
        by_contra hne
        exact hfull ⟨by omega, hleft⟩
      simp [hlen]

/-- The first `n` calls hand out the first rows pending, `batch` a call. -/
theorem handedOut_eq (n : ℕ) (o : Outgoing ρ κ) :
    o.handedOut le eq n = (o.pending le eq).take (n * o.batch) := by
  induction n generalizing o with
  | zero => simp [Outgoing.handedOut]
  | succ n ih =>
    obtain ⟨hdocs, hrest, hbatch⟩ := fill_spec le eq o []
    show (o.fill le eq []).1 ++ (o.fill le eq []).2.handedOut le eq n = _
    rw [hdocs, ih, hrest, hbatch, List.nil_append, List.length_nil, Nat.sub_zero, Nat.succ_mul,
      Nat.add_comm, List.take_add]

/-! ## The first of each kind -/

/-- The rows that no row before them is the same as. -/
def firsts (same : ρ → ρ → Bool) : List ρ → List ρ → List ρ
  | _, [] => []
  | before, d :: ds =>
    if before.any (fun b => same b d) then firsts same (before ++ [d]) ds
    else d :: firsts same (before ++ [d]) ds

theorem firsts_sublist (same : ρ → ρ → Bool) (before ds : List ρ) : (firsts same before ds).Sublist ds := by
  induction ds generalizing before with
  | nil => exact .slnil
  | cons d ds ih =>
    rw [firsts]
    split
    · exact (ih _).cons d
    · exact (ih _).cons_cons d

variable {le eq}

/-- Where the rows that are the same are next to each other, those kept are the first of their kind. -/
theorem distinct_eq_firsts (hrefl : ∀ a, le a a = true)
    (hle : ∀ a b c, le a b = true → le b c = true → le a c = true) {ident : ρ → κ}
    (hsymm : ∀ a b, eq a b = true → eq b a = true)
    (htrans : ∀ a b c, eq a b = true → eq b c = true → eq a c = true)
    (hnext : ∀ a b c, le a b = true → le b c = true → eq (ident a) (ident c) = true →
      eq (ident a) (ident b) = true) {rows : List ρ} (hrows : rows.Pairwise (le · · = true)) :
    distinct eq ident none rows = firsts (fun a b => eq (ident a) (ident b)) [] rows := by
  -- the last row kept before a row is the last row before it, or the same as that one
  have hgen : ∀ (rows before : List ρ) (z k : ρ), (∀ b ∈ before, le b z = true) →
      (∀ d ∈ rows, le z d = true) → rows.Pairwise (le · · = true) →
      (k = z ∨ eq (ident k) (ident z) = true) → k ∈ before →
      distinct eq ident (some (ident k)) rows = firsts (fun a b => eq (ident a) (ident b)) before rows := by
    intro rows
    induction rows with
    | nil => exact fun _ _ _ _ _ _ _ _ => rfl
    | cons d rows ih =>
      intro before z k hbefore hafter hpair hk hkb
      obtain ⟨hd, hpair⟩ := List.pairwise_cons.mp hpair
      have hzd := hafter d List.mem_cons_self
      have hsame : before.any (fun b => eq (ident b) (ident d)) = eq (ident k) (ident d) := by
        rw [Bool.eq_iff_iff, List.any_eq_true]
        constructor
        · rintro ⟨b, hb, hbd⟩
          have hbz := hnext b z d (hbefore b hb) hzd hbd
          have hzd' := htrans _ _ _ (hsymm _ _ hbz) hbd
          rcases hk with rfl | hk
          · exact hzd'
          · exact htrans _ _ _ hk hzd'
        · exact fun h => ⟨k, hkb, h⟩
      have hbefore' : ∀ b ∈ before ++ [d], le b d = true := by
        intro b hb
        rcases List.mem_append.mp hb with hb | hb
        · exact hle _ _ _ (hbefore b hb) hzd
        · rw [List.mem_singleton.mp hb]
          exact hrefl d
      rw [distinct, firsts, hsame, Option.any_some]
      split
      · rename_i hsame'
        exact ih (before ++ [d]) d k hbefore' hd hpair (.inr hsame') (List.mem_append_left _ hkb)
      · rw [ih (before ++ [d]) d d hbefore' hd hpair (.inl rfl) (List.mem_append_right _ List.mem_cons_self)]
  cases rows with
  | nil => rfl
  | cons d rows =>
    obtain ⟨hd, hpair⟩ := List.pairwise_cons.mp hrows
    show d :: distinct eq ident (some (ident d)) rows = d :: firsts _ [d] rows
    rw [hgen rows [d] d d (fun b hb => List.mem_singleton.mp hb ▸ hrefl d) hd hpair (.inl rfl)
      List.mem_cons_self]

/-! ## Stable sorts -/

/-- A sort that leaves rows that tie as they came. -/
structure StableSort (le : ρ → ρ → Bool) (sorted rows : List ρ) : Prop where
  perm : sorted.Perm rows
  pairwise : sorted.Pairwise (le · · = true)
  ties : ∀ c, sorted.filter (ties le c) = rows.filter (ties le c)

/-- The first of each kind among rows that tie. -/
theorem filter_firsts {same : ρ → ρ → Bool} (hle : ∀ a b c, le a b = true → le b c = true → le a c = true)
    (hsame : ∀ a b, same a b = true → Library.ties le a b = true) (c : ρ) (before ds : List ρ) :
    (firsts same before ds).filter (Library.ties le c) =
      firsts same (before.filter (Library.ties le c)) (ds.filter (Library.ties le c)) := by
  induction ds generalizing before with
  | nil => rfl
  | cons d ds ih =>
    by_cases hc : Library.ties le c d = true
    · have hany : (before.filter (Library.ties le c)).any (fun b => same b d) = before.any fun b => same b d := by
        rw [Bool.eq_iff_iff, List.any_eq_true, List.any_eq_true]
        constructor
        · rintro ⟨b, hb, hbd⟩
          exact ⟨b, List.mem_of_mem_filter hb, hbd⟩
        · rintro ⟨b, hb, hbd⟩
          have hcb : Library.ties le c b = true := by
            have hties := hsame b d hbd
            rw [Library.ties, Bool.and_eq_true] at hc hties ⊢
            exact ⟨hle _ _ _ hc.1 hties.2, hle _ _ _ hties.1 hc.2⟩
          exact ⟨b, List.mem_filter.mpr ⟨hb, hcb⟩, hbd⟩
      have hbefore : (before ++ [d]).filter (Library.ties le c) = before.filter (Library.ties le c) ++ [d] := by
        rw [List.filter_append, List.filter_cons_of_pos hc, List.filter_nil]
      rw [List.filter_cons_of_pos hc, firsts, firsts, hany]
      split
      · rw [ih, hbefore]
      · rw [List.filter_cons_of_pos hc, ih, hbefore]
    · have hbefore : (before ++ [d]).filter (Library.ties le c) = before.filter (Library.ties le c) := by
        rw [List.filter_append, List.filter_cons_of_neg hc, List.filter_nil, List.append_nil]
      rw [List.filter_cons_of_neg hc, firsts]
      split
      · rw [ih, hbefore]
      · rw [List.filter_cons_of_neg hc, ih, hbefore]

/-- Where rows that are the same tie, the first of each kind in order are the first of each kind as they came, in
    order. -/
theorem StableSort.firsts {same : ρ → ρ → Bool} (hrefl : ∀ a, le a a = true)
    (hle : ∀ a b c, le a b = true → le b c = true → le a c = true)
    (hsame : ∀ a b, same a b = true → Library.ties le a b = true) {sorted rows : List ρ}
    (h : StableSort le sorted rows) :
    StableSort le (ExternalSort.firsts same [] sorted) (ExternalSort.firsts same [] rows) := by
  classical
  have hties : ∀ c, (ExternalSort.firsts same [] sorted).filter (Library.ties le c) =
      (ExternalSort.firsts same [] rows).filter (Library.ties le c) := by
    intro c
    rw [filter_firsts hle hsame, filter_firsts hle hsame, h.ties]
  refine ⟨?_, h.pairwise.sublist (firsts_sublist same [] sorted), hties⟩
  rw [List.perm_iff_count]
  intro a
  have haa : Library.ties le a a = true := by simp [Library.ties, hrefl]
  rw [← List.count_filter haa, hties, List.count_filter haa]

end Secantus.ExternalSort
