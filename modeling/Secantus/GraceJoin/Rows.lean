/-
  grace_join: the rows of a join and what a grace join needs of the join it runs.

  The two hidden keys that number the rows are fields here: a row going in has its number (`Numbered`), a joined
  row has those of the rows it was made of, none where a side is NULL-extended (`Joined`). Temporary files are
  the lists of the rows written to them.

  `Plain.join` is the join itself, all right rows with all left rows at once; `GraceOps.Joins` says that the
  join passed in is that join, and that its key classes are sound.

  ordered_join: joined rows in any order handed on in the order of their two numbers, which are removed. The
  index of the spooled rows alone is sorted; past the budget of index the rows move to the external sort.
-/
import Secantus.Library.OuterJoin
import Secantus.ExternalSort.Batches
import Mathlib.Data.Prod.Lex
import Mathlib.Data.ENat.Basic

namespace Secantus.GraceJoin

open Secantus.Library

variable {α β γ ρ : Type*}

/-- The files a side is split into, at each level. -/
def PARTITIONS : ℕ := 32

/-- How many times a partition past the bound is split again. -/
def MAX_DEPTH : ℕ := 3

def BATCH : ℕ := 256

/-- How a row's join key partitions it. -/
inductive KeyClass
  | key (k : List String)
  /-- NULL: it matches nothing. -/
  | null
  /-- A value the hash does not model: it is compared with every row of the other side. -/
  | other
  deriving DecidableEq, Repr

structure Numbered (ρ : Type*) where
  seq : ℕ
  row : ρ
  deriving DecidableEq, Repr

structure Joined (γ : Type*) where
  lseq : Option ℕ
  rseq : Option ℕ
  row : γ
  deriving DecidableEq, Repr

/--
  The two sides' keys, the in-memory join of one set of right rows with a left side fed a batch at a time (its
  last argument asks for a LEFT join's NULL extension whatever the join's own kind), which hands its rows on a
  batch at a time, and which sides an outer join keeps.
-/
structure GraceOps (α β γ : Type*) where
  leftKey : α → KeyClass
  rightKey : β → KeyClass
  join : List (Numbered β) → List (List (Numbered α)) → Bool → List (List (Joined γ))
  outerLeft : Bool
  outerRight : Bool

/-- The rows numbered in their order. -/
def numbered : ℕ → List ρ → List (Numbered ρ)
  | _, [] => []
  | n, d :: docs => ⟨n, d⟩ :: numbered (n + 1) docs

/-- The rows read back `BATCH` at a time. -/
def batches (rows : List ρ) : List (List ρ) :=
  if rows = [] then [] else rows.take BATCH :: batches (rows.drop BATCH)
termination_by rows.length
decreasing_by
  rename_i hne
  have hpos : 0 < rows.length := List.length_pos_iff.mpr hne
  rw [List.length_drop, BATCH]
  omega

@[simp] theorem flatten_batches (rows : List ρ) : (batches rows).flatten = rows := by
  fun_induction batches rows with
  | case1 => rfl
  | case2 rows hne ih => rw [List.flatten_cons, ih, List.take_append_drop]

theorem numbered_append (n : ℕ) (xs ys : List ρ) :
    numbered n (xs ++ ys) = numbered n xs ++ numbered (n + xs.length) ys := by
  induction xs generalizing n with
  | nil => rfl
  | cons x xs ih =>
    rw [List.cons_append, numbered, ih, numbered, List.cons_append, List.length_cons]
    congr 3
    omega

theorem le_seq_of_mem {n : ℕ} {rows : List ρ} {d : Numbered ρ} (h : d ∈ numbered n rows) : n ≤ d.seq := by
  induction rows generalizing n with
  | nil => cases h
  | cons x xs ih =>
    rcases List.mem_cons.mp h with rfl | h
    · exact le_refl _
    · exact (Nat.le_succ n).trans (ih h)

theorem numbered_pairwise (n : ℕ) (rows : List ρ) :
    (numbered n rows).Pairwise fun a b => a.seq < b.seq := by
  induction rows generalizing n with
  | nil => exact .nil
  | cons x xs ih => exact List.pairwise_cons.mpr ⟨fun d hd => le_seq_of_mem hd, ih (n + 1)⟩

@[simp] theorem map_row_numbered (n : ℕ) (rows : List ρ) : (numbered n rows).map Numbered.row = rows := by
  induction rows generalizing n with
  | nil => rfl
  | cons x xs ih => rw [numbered, List.map_cons, ih]

/-! ## The join all at once -/

/-- Which rows match, and the joined row made of two rows, or of one NULL-extended. -/
structure Plain (α β γ : Type*) where
  pairs : α → β → Bool
  both : α → β → γ
  leftOnly : α → γ
  rightOnly : β → γ

namespace Plain

/-- What one left row becomes. -/
def leftRow (P : Plain α β γ) (outerLeft : Bool) (right : List β) (l : α) : List γ :=
  match right.filter (P.pairs l) with
  | [] => if outerLeft then [P.leftOnly l] else []
  | matches_ => matches_.map (P.both l)

/-- Each left row in turn with its matching right rows in their order, then the right rows nothing matched. -/
def join (P : Plain α β γ) (outerLeft outerRight : Bool) (right : List β) (left : List α) : List γ :=
  left.flatMap (P.leftRow outerLeft right) ++
    if outerRight then (right.filter fun r => !left.any (P.pairs · r)).map P.rightOnly else []

/-- The join of the rows numbered, the numbers riding through. -/
def withNumbers (P : Plain α β γ) : Plain (Numbered α) (Numbered β) (Joined γ) where
  pairs l r := P.pairs l.row r.row
  both l r := ⟨some l.seq, some r.seq, P.both l.row r.row⟩
  leftOnly l := ⟨some l.seq, none, P.leftOnly l.row⟩
  rightOnly r := ⟨none, some r.seq, P.rightOnly r.row⟩

/-- Two rows match. -/
abbrev Pairs (P : Plain α β γ) (l : α) (r : β) : Prop := P.pairs l r = true

theorem not_pairs {P : Plain α β γ} {l : Numbered α} {r : Numbered β} (h : P.pairs l.row r.row = false) :
    ¬ P.withNumbers.Pairs l r := by
  show ¬ P.pairs l.row r.row = true
  rw [h]
  exact Bool.false_ne_true

/-- The joined rows of two rows each. -/
def inner (P : Plain α β γ) (L : Multiset α) (R : Multiset β) : Multiset γ :=
  (matched P.Pairs L R).map fun p => P.both p.1 p.2

/-- The left rows nothing matched, NULL-extended. -/
def leftAlone (P : Plain α β γ) (outerLeft : Bool) (L : Multiset α) (R : Multiset β) : Multiset γ :=
  if outerLeft then (dangling P.Pairs L R).map P.leftOnly else 0

/-- The right rows nothing matched, NULL-extended. -/
def rightAlone (P : Plain α β γ) (outerRight : Bool) (L : Multiset α) (R : Multiset β) : Multiset γ :=
  if outerRight then (dangling (fun r l => P.Pairs l r) R L).map P.rightOnly else 0

theorem coe_leftRow (P : Plain α β γ) (outerLeft : Bool) (right : List β) (l : α) :
    (P.leftRow outerLeft right l : Multiset γ) = P.inner {l} right + P.leftAlone outerLeft {l} right := by
  have hinner : P.inner {l} right = ((right.filter (P.pairs l)).map (P.both l) : List γ) := by
    rw [inner, matched_singleton, Multiset.filter_coe, Multiset.map_coe, Multiset.map_coe, List.map_map]
    simp only [Bool.decide_eq_true]
    rfl
  unfold leftRow
  rw [hinner, leftAlone]
  split
  · next hnone =>
    have hall : Unrelated P.Pairs {l} (right : Multiset β) := by
      intro a ha b hb
      rw [Multiset.mem_singleton.mp ha]
      exact List.filter_eq_nil_iff.mp hnone b (Multiset.mem_coe.mp hb)
    rw [hnone, dangling_eq_self _ hall]
    cases outerLeft <;> rfl
  · next ms hne =>
    have hsome : ∃ r ∈ right, P.pairs l r = true := by
      by_contra hno
      refine hne (List.filter_eq_nil_iff.mpr fun r hr hp => hno ⟨r, hr, hp⟩)
    have hzero : dangling P.Pairs {l} (right : Multiset β) = 0 := by
      refine Multiset.filter_eq_nil.mpr fun a ha hall => ?_
      obtain ⟨r, hr, hp⟩ := hsome
      rw [Multiset.mem_singleton.mp ha] at hall
      exact hall r (Multiset.mem_coe.mpr hr) hp
    rw [hzero, Multiset.map_zero, ite_self, add_zero]

theorem coe_join (P : Plain α β γ) (outerLeft outerRight : Bool) (right : List β) (left : List α) :
    (P.join outerLeft outerRight right left : Multiset γ) =
      P.inner left right + P.leftAlone outerLeft left right + P.rightAlone outerRight left right := by
  have hleft : (left.flatMap (P.leftRow outerLeft right) : Multiset γ) =
      P.inner left right + P.leftAlone outerLeft left right := by
    induction left with
    | nil => cases outerLeft <;> rfl
    | cons l left ih =>
      have hcons : ((l :: left : List α) : Multiset α) = {l} + (left : Multiset α) := rfl
      rw [List.flatMap_cons, ← Multiset.coe_add, ih, coe_leftRow, hcons]
      unfold inner leftAlone
      rw [matched_add_left, dangling_add_left, Multiset.map_add]
      cases outerLeft
      · simp
      · simp only [if_true, Multiset.map_add]
        ac_rfl
  have hright : ((if outerRight then (right.filter fun r => !left.any (P.pairs · r)).map P.rightOnly else [] :
      List γ) : Multiset γ) = P.rightAlone outerRight left right := by
    unfold rightAlone
    cases outerRight
    · rfl
    · simp only [if_true, dangling, Multiset.filter_coe, Multiset.map_coe, Multiset.mem_coe]
      congr 3
      funext r
      rw [Bool.eq_iff_iff]
      simp
  rw [join, ← Multiset.coe_add, hleft, hright]

end Plain

/-! ## What the join passed in must be -/

/-- The join passed in gives the rows of `P`'s, in any order, and rows whose key classes keep them apart do not
match. -/
structure GraceOps.Joins (ops : GraceOps α β γ) (P : Plain α β γ) : Prop where
  join : ∀ right feed, (ops.join right feed false).flatten.Perm
    (P.withNumbers.join ops.outerLeft ops.outerRight right feed.flatten)
  asLeft : ops.outerLeft = true → ∀ right feed, (ops.join right feed true).flatten.Perm
    (P.withNumbers.join true false right feed.flatten)
  keys : ∀ l r k k', ops.leftKey l = .key k → ops.rightKey r = .key k' → k ≠ k' → P.pairs l r = false
  leftNull : ∀ l r, ops.leftKey l = .null → P.pairs l r = false
  rightNull : ∀ l r, ops.rightKey r = .null → P.pairs l r = false

open Secantus.ExternalSort

/-! ## Joined rows in order -/

variable {α β γ : Type*}

/-- A row's number in the order; a NULL number sorts last. -/
def seqKey : Option ℕ → WithTop ℕ
  | some n => n
  | none => ⊤

def Joined.key (d : Joined γ) : WithTop ℕ ×ₗ WithTop ℕ := toLex (seqKey d.lseq, seqKey d.rseq)

/-- One ascending order key, NULLs last. -/
def compareSeq : Option ℕ → Option ℕ → Ordering
  | none, none => .eq
  | none, some _ => .gt
  | some _, none => .lt
  | some a, some b => compare a b

/-- Two rows compared by the two hidden keys. -/
def compareRows (a b : Joined γ) : Ordering := (compareSeq a.lseq b.lseq).then (compareSeq a.rseq b.rseq)

def rowLe (a b : Joined γ) : Bool := (compareRows a b).isLE

/-- The partitioning hash, the sizes of rows, and the sort of one run. -/
structure Handler (β γ : Type*) where
  partitionOf : List String → ℕ → Fin PARTITIONS
  spoolBytes : Numbered β → ℕ
  docBytes : Numbered β → ℕ
  joinedBytes : Joined γ → ℕ
  sorter : RunSort (@rowLe γ)

/-- The bytes of one index entry. -/
def INDEX_ENTRY : ℕ := 32

structure OrderState (γ : Type*) where
  spool : List (Joined γ)
  out : RunBuilder (Joined γ)
  sorting : Bool

def OrderState.init : OrderState γ := ⟨[], .new, false⟩

def sortRows (h : Handler β γ) (out : RunBuilder (Joined γ)) (docs : List (Joined γ)) : RunBuilder (Joined γ) :=
  docs.foldl (fun out d => out.push h.sorter d (h.joinedBytes d)) out

/-- Past `indexCap` the rows spooled so far go to the external sort, and every later row too. -/
def pushOut (h : Handler β γ) (indexCap : ℕ) (s : OrderState γ) (docs : List (Joined γ)) : OrderState γ :=
  let s := if !s.sorting && decide (s.spool.length + docs.length > indexCap) then
    ⟨[], sortRows h s.out s.spool, true⟩ else s
  if s.sorting then { s with out := sortRows h s.out docs } else { s with spool := s.spool ++ docs }

/-- The rows `body` pushes, in the order of their numbers. -/
def orderedJoin (h : Handler β γ) (budget : ℕ) (body : List (List (Joined γ))) : List (List γ) :=
  let indexCap := max (budget / INDEX_ENTRY) (1 <<< 16)
  let s := body.foldl (pushOut h indexCap) .init
  if !s.sorting then batches ((s.spool.mergeSort fun a b => a.key ≤ b.key).map Joined.row)
  else batches (((s.out.finish h.sorter).rows rowLe).map Joined.row)

/-! ## The order -/

theorem compareSeq_isLE (a b : Option ℕ) : (compareSeq a b).isLE = true ↔ seqKey a ≤ seqKey b := by
  cases a <;> cases b <;> simp [compareSeq, seqKey, compare, compareOfLessAndEq, Ordering.isLE]
  grind

theorem compareSeq_eq (a b : Option ℕ) : compareSeq a b = .eq ↔ seqKey a = seqKey b := by
  cases a <;> cases b <;> simp [compareSeq, seqKey]

theorem rowLe_iff (a b : Joined γ) : rowLe a b = true ↔ a.key ≤ b.key := by
  unfold rowLe compareRows Joined.key
  rw [Prod.Lex.toLex_le_toLex]
  have hle := compareSeq_isLE a.lseq b.lseq
  have heq := compareSeq_eq a.lseq b.lseq
  have hle' := compareSeq_isLE a.rseq b.rseq
  cases h : compareSeq a.lseq b.lseq with
  | eq =>
    have hkey := heq.mp h
    simp only [Ordering.eq_then, hle', hkey, lt_self_iff_false, true_and, false_or]
  | lt =>
    rw [h] at hle heq
    have hlt := lt_of_le_of_ne (hle.mp rfl) fun hk => by simpa using heq.mpr hk
    simp [hlt]
  | gt =>
    rw [h] at hle
    have hgt : ¬ seqKey a.lseq ≤ seqKey b.lseq := fun hk => by simpa using hle.mpr hk
    simp [not_lt_of_ge (le_of_not_ge hgt), (lt_of_not_ge hgt).ne']

theorem rowLe_total (a b : Joined γ) : rowLe a b = true ∨ rowLe b a = true := by
  rw [rowLe_iff, rowLe_iff]
  exact le_total _ _

theorem rowLe_trans (a b c : Joined γ) (hab : rowLe a b = true) (hbc : rowLe b c = true) :
    rowLe a c = true := by
  rw [rowLe_iff] at *
  exact hab.trans hbc

theorem eq_of_key_order {rows joined : List (Joined γ)} (hrows : rows.Pairwise fun a b => a.key ≤ b.key)
    (hjoined : joined.Pairwise fun a b => a.key < b.key) (hperm : rows.Perm joined) : rows = joined := by
  have hinj : ∀ a ∈ joined, ∀ b ∈ joined, a.key = b.key → a = b := by
    have hnodup : (joined.map Joined.key).Nodup := List.pairwise_map.mpr (hjoined.imp ne_of_lt)
    exact fun a ha b hb => List.inj_on_of_nodup_map hnodup ha hb
  refine List.Perm.eq_of_pairwise ?_ hrows (hjoined.imp le_of_lt) hperm
  intro a b ha hb hab hba
  exact hinj a (hperm.mem_iff.mp ha) b hb (le_antisymm hab hba)

/-! ## The rows pushed -/

/-- The rows pushed so far are all spooled, or all in the external sort. -/
def OrderState.Holds (s : OrderState γ) (rows : List (Joined γ)) : Prop :=
  s.sorting = false ∧ s.spool = rows ∧ s.out = .new ∨ s.sorting = true ∧ s.out.Holds rowLe rows

theorem holds_sortRows (h : Handler β γ) {out : RunBuilder (Joined γ)} {rows : List (Joined γ)}
    (hout : out.Holds rowLe rows) (docs : List (Joined γ)) :
    (sortRows h out docs).Holds rowLe (rows ++ docs) := by
  unfold sortRows
  induction docs generalizing out rows with
  | nil => exact (List.append_nil rows).symm ▸ hout
  | cons d docs ih =>
    have hpush := ih (hout.push h.sorter d (h.joinedBytes d))
    rwa [List.append_assoc] at hpush

theorem holds_pushOut (h : Handler β γ) (indexCap : ℕ) {s : OrderState γ} {rows : List (Joined γ)}
    (hs : s.Holds rows) (docs : List (Joined γ)) : (pushOut h indexCap s docs).Holds (rows ++ docs) := by
  obtain ⟨hsort, hspool, hout⟩ | ⟨hsort, hout⟩ := hs
  · have hnew : (sortRows h s.out s.spool).Holds rowLe rows := by
      rw [hout, hspool]
      exact holds_sortRows h RunBuilder.holds_new rows
    unfold pushOut
    by_cases hcap : s.spool.length + docs.length > indexCap
    · right
      simp only [hsort, hcap, Bool.not_false, decide_true, Bool.and_self, if_true, true_and]
      exact holds_sortRows h hnew docs
    · left
      simp only [hsort, hcap, Bool.not_false, decide_false, Bool.and_false, Bool.false_eq_true, if_false,
        true_and]
      exact ⟨congrArg (· ++ docs) hspool, hout⟩
  · right
    unfold pushOut
    simp only [hsort, Bool.not_true, Bool.false_and, Bool.false_eq_true, if_false, if_true, true_and]
    exact holds_sortRows h hout docs

theorem holds_pushAll (h : Handler β γ) (indexCap : ℕ) (body : List (List (Joined γ))) {s : OrderState γ}
    {rows : List (Joined γ)} (hs : s.Holds rows) :
    (body.foldl (pushOut h indexCap) s).Holds (rows ++ body.flatten) := by
  induction body generalizing s rows with
  | nil => exact (List.append_nil rows).symm ▸ hs
  | cons docs body ih =>
    rw [List.flatten_cons, ← List.append_assoc]
    exact ih (holds_pushOut h indexCap hs docs)

/-- Whatever order the rows are pushed in, they are handed on in the order of their numbers. -/
theorem orderedJoin_eq (h : Handler β γ) (budget : ℕ) {body : List (List (Joined γ))} {joined : List (Joined γ)}
    (hjoined : joined.Pairwise fun a b => a.key < b.key) (hperm : body.flatten.Perm joined) :
    (orderedJoin h budget body).flatten = joined.map Joined.row := by
  have hinit : (OrderState.init : OrderState γ).Holds [] := .inl ⟨rfl, rfl, rfl⟩
  have hpushed := holds_pushAll h (max (budget / INDEX_ENTRY) (1 <<< 16)) body hinit
  rw [List.nil_append] at hpushed
  unfold orderedJoin
  obtain ⟨hsort, hspool, _⟩ | ⟨hsort, hout⟩ := hpushed
  · simp only [hsort, Bool.not_false, if_true, flatten_batches]
    rw [hspool]
    refine congrArg _ (eq_of_key_order ?_ hjoined ((List.mergeSort_perm _ _).trans hperm))
    have hsorted : (body.flatten.mergeSort fun a b => decide (a.key ≤ b.key)).Pairwise
        fun a b => decide (a.key ≤ b.key) = true := by
      refine List.pairwise_mergeSort ?_ ?_ _
      · exact fun a b c hab hbc => decide_eq_true ((of_decide_eq_true hab).trans (of_decide_eq_true hbc))
      · exact fun a b => by simpa using le_total a.key b.key
    exact hsorted.imp of_decide_eq_true
  · simp only [hsort, Bool.not_true, Bool.false_eq_true, if_false, flatten_batches]
    refine congrArg _ (eq_of_key_order ?_ hjoined ((hout.rows_perm h.sorter).trans hperm))
    exact (hout.rows_pairwise h.sorter rowLe_total rowLe_trans).imp fun hle => (rowLe_iff _ _).mp hle

end Secantus.GraceJoin
