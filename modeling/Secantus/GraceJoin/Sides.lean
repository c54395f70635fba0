/-
  grace_join and left_built_join: the join of a right side past the bound. The right side is split while it is
  read (`GraceRight.add`), the left side as it arrives, and each partition joined on its own; a left side that
  fits is held instead, and the right side joined with it a chunk at a time.

  What the two sides hold as they are read: every row once, under its number and its key class.
-/
import Secantus.GraceJoin.Spilled

namespace Secantus.GraceJoin

open Secantus.Library

variable {α β γ ρ : Type*} (h : Handler β γ) (ops : GraceOps α β γ)

/-! ## The right side, split while it is read -/

structure GraceRight (β : Type*) where
  parts : Spools (Numbered β)
  /-- Rows with a NULL key: they match nothing, but a RIGHT / FULL join still returns each. -/
  nullKeys : List (Numbered β)
  nextSeq : ℕ
  /-- The bytes one partition may hold in memory. -/
  budget : ℕ

def GraceRight.new (budget : ℕ) : GraceRight β := ⟨.empty, [], 0, budget⟩

def GraceRight.addRow (rightKey : β → KeyClass) (g : GraceRight β) (row : β) : Option (GraceRight β) :=
  let d : Numbered β := ⟨g.nextSeq, row⟩
  let nextSeq := g.nextSeq + 1
  match rightKey row with
  | .key k => some { g with parts := g.parts.push (h.partitionOf k 0) d, nextSeq }
  | .null => some { g with nullKeys := g.nullKeys ++ [d], nextSeq }
  | .other => none

/-- Add the next right rows; `none` where a row's key is one the hash does not model. -/
def GraceRight.add (rightKey : β → KeyClass) (g : GraceRight β) (rows : List β) : Option (GraceRight β) :=
  rows.foldlM (GraceRight.addRow h rightKey) g

def readRight (rightKey : β → KeyClass) (budget : ℕ) (feedRight : List (List β)) : Option (GraceRight β) :=
  feedRight.foldlM (GraceRight.add h rightKey) (.new budget)

/-! ## The left side -/

/-- The left side, numbered and partitioned; a row with no key is in `every`. -/
structure LeftRead (α γ : Type*) where
  lparts : Spools (Numbered α)
  every : List (Numbered α)
  everySeqs : Finset ℕ
  lseq : ℕ
  out : List (List (Joined γ))

def LeftRead.init : LeftRead α γ := ⟨.empty, [], ∅, 0, []⟩

def readLeftRow (s : LeftRead α γ × List (Numbered α)) (row : α) : LeftRead α γ × List (Numbered α) :=
  let (l, nulls) := s
  let d : Numbered α := ⟨l.lseq, row⟩
  let lseq := l.lseq + 1
  match ops.leftKey row with
  | .key k => ({ l with lparts := l.lparts.push (h.partitionOf k 0) d, lseq }, nulls)
  | .null => ({ l with lseq }, if ops.outerLeft then nulls ++ [d] else nulls)
  | .other => ({ l with everySeqs := insert l.lseq l.everySeqs, every := l.every ++ [d], lseq }, nulls)

/-- A batch of left rows; those with a NULL key a LEFT / FULL join NULL-extends at once. -/
def readLeftBatch (l : LeftRead α γ) (docs : List α) : LeftRead α γ :=
  let (l, nulls) := docs.foldl (readLeftRow h ops) (l, [])
  if nulls.isEmpty then l else { l with out := l.out ++ ops.join [] [nulls] false }

/-- The left rows no right row matched, NULL-extended. -/
def nullExtendUnmatched (rows : List (Numbered α)) (matched : Finset ℕ) : List (List (Joined γ)) :=
  let unmatched := rows.filter fun d => d.seq ∉ matched
  if unmatched.isEmpty then [] else ops.join [] [unmatched] true

/-- The joined rows, in the order the partitions give them. -/
def graceBody (right : GraceRight β) (feedLeft : List (List α)) : List (List (Joined γ)) :=
  let l := feedLeft.foldl (readLeftBatch h ops) .init
  let s := (List.finRange PARTITIONS).foldl (fun s p =>
    joinSpilled h ops l.every l.everySeqs right.budget 0 (right.parts p) (l.lparts p) s) ⟨∅, l.out⟩
  s.out ++ (if ops.outerLeft then nullExtendUnmatched ops l.every s.matched else []) ++
    if ops.outerRight then (batches right.nullKeys).flatMap fun rows => ops.join rows [] false else []

def graceJoin (right : GraceRight β) (feedLeft : List (List α)) : List (List γ) :=
  orderedJoin h right.budget (graceBody h ops right feedLeft)

/-! ## A left side held in memory -/

structure RightRead (β γ : Type*) where
  chunk : List (Numbered β)
  chunkBytes : ℕ
  rseq : ℕ
  progress : Progress γ

def RightRead.init : RightRead β γ := ⟨[], 0, 0, ⟨∅, []⟩⟩

/-- One chunk of right rows joined with every left row; every left row's NULL extension is decided later. -/
def flush (left : List (Numbered α)) (chunk : List (Numbered β)) (s : Progress γ) : Progress γ :=
  takeJoined (fun _ => true) s (ops.join chunk (batches left) false)

def readRightRow (c : RightRead β γ) (row : β) : RightRead β γ :=
  let d : Numbered β := ⟨c.rseq, row⟩
  { c with rseq := c.rseq + 1, chunkBytes := c.chunkBytes + h.docBytes d, chunk := c.chunk ++ [d] }

def readRightBatch (left : List (Numbered α)) (budget : ℕ) (c : RightRead β γ) (docs : List β) : RightRead β γ :=
  let c := docs.foldl (readRightRow h) c
  if c.chunkBytes > budget then
    { c with chunkBytes := 0, chunk := [], progress := flush ops left c.chunk c.progress }
  else c

def leftBuiltBody (left : List α) (budget : ℕ) (feedRight : List (List β)) : List (List (Joined γ)) :=
  let left := numbered 0 left
  let c := feedRight.foldl (readRightBatch h ops left budget) .init
  let s := if c.chunk.isEmpty then c.progress else flush ops left c.chunk c.progress
  s.out ++ if ops.outerLeft then nullExtendUnmatched ops left s.matched else []

def leftBuiltJoin (left : List α) (budget : ℕ) (feedRight : List (List β)) : List (List γ) :=
  orderedJoin h budget (leftBuiltBody h ops left budget feedRight)

/-! ## What the sides hold -/

variable {α β γ ρ : Type*} {h : Handler β γ} {ops : GraceOps α β γ}

/-! ## The right rows -/

/-- The right rows read so far, by the class of their key. -/
structure GraceRight.Holds (h : Handler β γ) (rightKey : β → KeyClass) (g : GraceRight β) (rows : List β) : Prop where
  total : g.parts.total + g.nullKeys = (numbered 0 rows : Multiset (Numbered β))
  seq : g.nextSeq = rows.length
  keys : ∀ p, ∀ d ∈ g.parts p, ∃ k, rightKey d.row = .key k ∧ h.partitionOf k 0 = p
  nulls : ∀ d ∈ g.nullKeys, rightKey d.row = .null

theorem GraceRight.Holds.addRow {rightKey : β → KeyClass} {g g' : GraceRight β} {rows : List β} {row : β}
    (hg : g.Holds h rightKey rows) (hadd : g.addRow h rightKey row = some g') :
    g'.Holds h rightKey (rows ++ [row]) ∧ g'.budget = g.budget := by
  have hrows : (numbered 0 (rows ++ [row]) : Multiset (Numbered β)) =
      (numbered 0 rows : Multiset (Numbered β)) + {⟨g.nextSeq, row⟩} := by
    rw [numbered_append, ← Multiset.coe_add, Nat.zero_add, hg.seq]
    rfl
  have hseq : g.nextSeq + 1 = (rows ++ [row]).length := by rw [hg.seq, List.length_append, List.length_singleton]
  unfold GraceRight.addRow at hadd
  split at hadd
  · next k hk =>
    cases hadd
    refine ⟨⟨?_, hseq, fun p d hd => ?_, hg.nulls⟩, rfl⟩
    · rw [hrows, Spools.total_push, ← hg.total]
      ac_rfl
    · rcases Spools.mem_push hd with hd | ⟨rfl, rfl⟩
      · exact hg.keys p d hd
      · exact ⟨k, hk, rfl⟩
  · next hk =>
    cases hadd
    refine ⟨⟨?_, hseq, hg.keys, fun d hd => ?_⟩, rfl⟩
    · rw [hrows, ← hg.total, ← Multiset.coe_add, Multiset.coe_singleton, add_assoc]
    · rcases List.mem_append.mp hd with hd | hd
      · exact hg.nulls d hd
      · rw [List.mem_singleton.mp hd]
        exact hk
  · cases hadd

theorem GraceRight.Holds.add {rightKey : β → KeyClass} {docs : List β} {g g' : GraceRight β} {rows : List β}
    (hg : g.Holds h rightKey rows) (hadd : g.add h rightKey docs = some g') :
    g'.Holds h rightKey (rows ++ docs) ∧ g'.budget = g.budget := by
  unfold GraceRight.add at hadd
  induction docs generalizing g rows with
  | nil =>
    cases hadd
    exact ⟨(List.append_nil rows).symm ▸ hg, rfl⟩
  | cons row docs ih =>
    rw [List.foldlM_cons] at hadd
    obtain ⟨g₁, hrow, hrest⟩ := Option.bind_eq_some_iff.mp hadd
    obtain ⟨hg₁, hbudget⟩ := hg.addRow hrow
    have hres := ih hg₁ hrest
    rw [List.append_assoc] at hres
    exact ⟨hres.1, hres.2.trans hbudget⟩

theorem holds_readRight {rightKey : β → KeyClass} {budget : ℕ} {feedRight : List (List β)} {g : GraceRight β}
    (hread : readRight h rightKey budget feedRight = some g) :
    g.Holds h rightKey feedRight.flatten ∧ g.budget = budget := by
  have hnew : (GraceRight.new budget : GraceRight β).Holds h rightKey [] :=
    ⟨by rw [GraceRight.new, Spools.total_empty]; rfl, rfl, fun p d hd => absurd hd List.not_mem_nil,
      fun d hd => absurd hd List.not_mem_nil⟩
  have hall : ∀ (feed : List (List β)) (g₀ : GraceRight β) (rows : List β), g₀.Holds h rightKey rows →
      feed.foldlM (GraceRight.add h rightKey) g₀ = some g →
      g.Holds h rightKey (rows ++ feed.flatten) ∧ g.budget = g₀.budget := by
    intro feed
    induction feed with
    | nil =>
      intro g₀ rows hg₀ hfold
      cases hfold
      exact ⟨(List.append_nil rows).symm ▸ hg₀, rfl⟩
    | cons docs feed ih =>
      intro g₀ rows hg₀ hfold
      rw [List.foldlM_cons] at hfold
      obtain ⟨g₁, hadd, hrest⟩ := Option.bind_eq_some_iff.mp hfold
      obtain ⟨hg₁, hbudget⟩ := hg₀.add hadd
      have hres := ih g₁ _ hg₁ hrest
      rw [List.append_assoc] at hres
      exact ⟨hres.1, hres.2.trans hbudget⟩
  exact hall feedRight _ [] hnew hread

/-! ## The left rows -/

/-- The left rows read so far: in the partitions, in `every`, or (`N`) with a NULL key, `nulls` of them still to
be handed on. -/
structure LeftRead.Holds (h : Handler β γ) (ops : GraceOps α β γ) (P : Plain α β γ) (l : LeftRead α γ)
    (nulls : List (Numbered α)) (N : Multiset (Numbered α)) (rows : List α) : Prop where
  total : l.lparts.total + N + l.every = (numbered 0 rows : Multiset (Numbered α))
  seq : l.lseq = rows.length
  keys : ∀ p, ∀ d ∈ l.lparts p, ∃ k, ops.leftKey d.row = .key k ∧ h.partitionOf k 0 = p
  nullKeys : ∀ d ∈ N, ops.leftKey d.row = .null
  every : ∀ n, n ∈ l.everySeqs ↔ ∃ e ∈ l.every, e.seq = n
  out : (l.out.flatten : Multiset (Joined γ)) + (nulls.map P.withNumbers.leftOnly : List (Joined γ)) =
    P.withNumbers.leftAlone ops.outerLeft N 0

variable {P : Plain α β γ}

theorem LeftRead.holds_init : (LeftRead.init : LeftRead α γ).Holds h ops P [] 0 [] where
  total := by
    rw [LeftRead.init, Spools.total_empty]
    rfl
  seq := rfl
  keys p d hd := absurd hd List.not_mem_nil
  nullKeys d hd := absurd hd (Multiset.notMem_zero d)
  every n := by simp [LeftRead.init]
  out := by
    unfold Plain.leftAlone
    rw [dangling_zero_left, Multiset.map_zero, ite_self]
    rfl

theorem LeftRead.Holds.row {l : LeftRead α γ} {nulls : List (Numbered α)} {N : Multiset (Numbered α)}
    {rows : List α} (hl : l.Holds h ops P nulls N rows) (row : α) :
    ∃ N', (readLeftRow h ops (l, nulls) row).1.Holds h ops P (readLeftRow h ops (l, nulls) row).2 N'
      (rows ++ [row]) := by
  have hrows : (numbered 0 (rows ++ [row]) : Multiset (Numbered α)) =
      (numbered 0 rows : Multiset (Numbered α)) + {⟨l.lseq, row⟩} := by
    rw [numbered_append, ← Multiset.coe_add, Nat.zero_add, hl.seq]
    rfl
  have hseq : l.lseq + 1 = (rows ++ [row]).length := by rw [hl.seq, List.length_append, List.length_singleton]
  unfold readLeftRow
  dsimp only
  cases hk : ops.leftKey row with
  | key k =>
    refine ⟨N, ?_, hseq, fun p d hd => ?_, hl.nullKeys, hl.every, hl.out⟩
    · rw [hrows, Spools.total_push, ← hl.total]
      ac_rfl
    · rcases Spools.mem_push hd with hd | ⟨rfl, rfl⟩
      · exact hl.keys p d hd
      · exact ⟨k, hk, rfl⟩
  | null =>
    refine ⟨N + {⟨l.lseq, row⟩}, ?_, hseq, hl.keys, fun d hd => ?_, hl.every, ?_⟩
    · rw [hrows, ← hl.total]
      ac_rfl
    · rcases Multiset.mem_add.mp hd with hd | hd
      · exact hl.nullKeys d hd
      · rw [Multiset.mem_singleton.mp hd]
        exact hk
    · have hout := hl.out
      unfold Plain.leftAlone at hout ⊢
      cases hol : ops.outerLeft with
      | false =>
        rw [hol] at hout
        exact hout
      | true =>
        simp only [hol, if_true, dangling_zero_right] at hout ⊢
        rw [List.map_append, ← Multiset.coe_add, ← add_assoc, hout, Multiset.map_add]
        rfl
  | other =>
    refine ⟨N, ?_, hseq, hl.keys, hl.nullKeys, fun n => ?_, hl.out⟩
    · rw [hrows, ← Multiset.coe_add, Multiset.coe_singleton, ← hl.total]
      ac_rfl
    · simp only [Finset.mem_insert, hl.every, List.mem_append, List.mem_singleton, or_and_right, exists_or,
        exists_eq_left]
      rw [or_comm, eq_comm]

theorem LeftRead.Holds.rows {l : LeftRead α γ} {nulls : List (Numbered α)} {N : Multiset (Numbered α)}
    {rows : List α} (hl : l.Holds h ops P nulls N rows) (docs : List α) :
    ∃ N', (docs.foldl (readLeftRow h ops) (l, nulls)).1.Holds h ops P
      (docs.foldl (readLeftRow h ops) (l, nulls)).2 N' (rows ++ docs) := by
  induction docs generalizing l nulls N rows with
  | nil => exact ⟨N, (List.append_nil rows).symm ▸ hl⟩
  | cons row docs ih =>
    obtain ⟨N₁, hrow⟩ := hl.row row
    obtain ⟨N', hrest⟩ := ih hrow
    rw [List.append_assoc] at hrest
    exact ⟨N', hrest⟩

theorem LeftRead.Holds.batch (hops : ops.Joins P) {l : LeftRead α γ} {N : Multiset (Numbered α)} {rows : List α}
    (hl : l.Holds h ops P [] N rows) (docs : List α) :
    ∃ N', (readLeftBatch h ops l docs).Holds h ops P [] N' (rows ++ docs) := by
  obtain ⟨N', hdocs⟩ := hl.rows docs
  refine ⟨N', ?_⟩
  unfold readLeftBatch
  dsimp only
  split
  · next hempty =>
    rwa [List.isEmpty_iff.mp hempty] at hdocs
  · next hne =>
    have hout := hdocs.out
    have hol : ops.outerLeft = true := by
      by_contra hno
      unfold Plain.leftAlone at hout
      rw [if_neg hno, Multiset.coe_add, Multiset.coe_eq_zero, List.append_eq_nil_iff, List.map_eq_nil_iff] at hout
      exact hne (List.isEmpty_iff.mpr hout.2)
    refine ⟨hdocs.total, hdocs.seq, hdocs.keys, hdocs.nullKeys, hdocs.every, ?_⟩
    rw [← hout]
    have hnulls : ∀ nulls : List (Numbered α), ((ops.join [] [nulls] false).flatten : Multiset (Joined γ)) =
        (nulls.map P.withNumbers.leftOnly : List (Joined γ)) := by
      intro nulls
      rw [Multiset.coe_eq_coe.mpr (hops.join _ _), Plain.coe_join]
      unfold Plain.inner Plain.leftAlone Plain.rightAlone
      simp [hol]
    rw [List.flatten_append, ← Multiset.coe_add, hnulls]
    exact add_zero _

theorem holds_readLeft (hops : ops.Joins P) (feedLeft : List (List α)) :
    ∃ N, (feedLeft.foldl (readLeftBatch h ops) .init).Holds h ops P [] N feedLeft.flatten := by
  have hall : ∀ (feed : List (List α)) (l : LeftRead α γ) (N : Multiset (Numbered α)) (rows : List α),
      l.Holds h ops P [] N rows →
      ∃ N', (feed.foldl (readLeftBatch h ops) l).Holds h ops P [] N' (rows ++ feed.flatten) := by
    intro feed
    induction feed with
    | nil => exact fun l N rows hl => ⟨N, (List.append_nil rows).symm ▸ hl⟩
    | cons docs feed ih =>
      intro l N rows hl
      obtain ⟨N₁, hbatch⟩ := hl.batch hops docs
      obtain ⟨N', hrest⟩ := ih _ N₁ _ hbatch
      rw [List.append_assoc] at hrest
      exact ⟨N', hrest⟩
  exact hall feedLeft _ 0 [] LeftRead.holds_init

end Secantus.GraceJoin
