/-
  Reading the oplog's shards in one sequence (`read_oplog_shards_tagged`): a cursor a table at the
  first row at or above the start, then the row of the least head, over and over, up to a limit.

  WiredTiger is a parameter: a table is its rows in key order, and `search_near` lands on the key or
  next to it (`SearchNear`). A storage error ends the read with that error and is left out.

  * `seek_eq`: a cursor starts at the rows from the start on;
  * `merge_eq`: the loop gives the rows in ascending order, but for one at `i64::MAX`, whose sequence
    is not below the best so far to begin with;
  * `readOplogShardsTagged_iff`: so what is read is the smallest rows exactly when such a row is not
    among them.

  The clock of the oplog's timestamps, and what the two checkpoint points are by it.

  Timestamps are minted from seconds and an ordinal that only grow, but each half is cut to 32 bits.
  While both fit (`ClockFits`), a timestamp is the clock's reading and the next is later.
-/
import Secantus.Library.Merge
import Secantus.Library.Selection
import Secantus.Oplog.Routing
import Mathlib.Data.List.TakeWhile

namespace Secantus.Oplog

open Secantus Secantus.Library

/-- An `i64` sequence number. -/
abbrev Seq := {n : ℤ // -2 ^ 63 ≤ n ∧ n < 2 ^ 63}

instance (a b : Seq) : Decidable (a < b) := Int.decLt a.val b.val

instance (a b : Seq) : Decidable (a ≤ b) := Int.decLe a.val b.val

/-- `i64::MAX`. -/
def Seq.max : Seq := ⟨2 ^ 63 - 1, by decide⟩

theorem Seq.le_max (s : Seq) : s ≤ Seq.max := by
  have h := s.property.2
  show s.val ≤ 2 ^ 63 - 1
  omega

/-- A row of a table; an empty blob marks a sequence that was given up. -/
abbrev OplogRow := Seq × Bytes

abbrev OplogTable := SortedMap Seq Bytes

/-- A row with the index of its table in `oplog_all_tables`. -/
structure TaggedRow where
  seq : Seq
  table : ℕ
  blob : Bytes
  deriving DecidableEq

def oplogTableAbsent (existing i : ℕ) : Bool := i < oplogShards.toNat && existing &&& 1 <<< i == 0

/-! ## Cursors -/

/-- `search_near`: how the row it lands on compares with the key, and the rows from there on. -/
abbrev Near := OplogTable → Seq → Option (ℤ × List OplogRow)

/-- What WiredTiger documents of `search_near`: it finds the key, or lands on a neighbour and says on which
    side; in an empty table it finds nothing. -/
structure SearchNear (near : Near) : Prop where
  not_found : ∀ t k, near t k = none → t.entries = []
  suffix : ∀ t k c pos, near t k = some (c, pos) → ∃ pre, t.entries = pre ++ pos
  exact : ∀ t k c pos, near t k = some (c, pos) → c = 0 → ∃ v rest, pos = (k, v) :: rest
  below : ∀ t k c pos, near t k = some (c, pos) → c < 0 →
    ∃ e rest, pos = e :: rest ∧ e.1 < k ∧ ∀ f ∈ rest, k < f.1
  above : ∀ t k c pos, near t k = some (c, pos) → 0 < c →
    (∀ e ∈ pos, k < e.1) ∧ ∀ pre, t.entries = pre ++ pos → ∀ e ∈ pre, e.1 < k

/-- The rows from a cursor's first position on: `search_near`, and a step when it landed below. -/
def seek (near : Near) (t : OplogTable) (start : Seq) : List OplogRow :=
  match near t start with
  | none => []
  | some (c, pos) => if c < 0 then pos.tail else pos

/-- The rows a table's cursor goes over; a table that is absent reads as empty. -/
def openCursor (near : Near) (existing : ℕ) (start : Seq) (i : ℕ) (table : Option OplogTable) : List OplogRow :=
  if oplogTableAbsent existing i then []
  else
    match table with
    | none => []
    | some t => seek near t start

/-! ## The merge -/

/-- The key of a cursor's row. -/
def head (cursor : List OplogRow) : Option Seq := cursor.head?.map Prod.fst

/-- The scan of the heads from index `i` on, with the best so far. -/
def pickFrom (i : ℕ) (best : Option ℕ) (bestSeq : Seq) : List (Option Seq) → Option ℕ
  | [] => best
  | none :: heads => pickFrom (i + 1) best bestSeq heads
  | some seq :: heads =>
    if seq < bestSeq then pickFrom (i + 1) (some i) seq heads else pickFrom (i + 1) best bestSeq heads

/-- The table with the smallest head. -/
def pick (cursors : List (List OplogRow)) : Option ℕ := pickFrom 0 none Seq.max (cursors.map head)

theorem sum_set_lt {cursors : List (List OplogRow)} {i : ℕ} {row : OplogRow} {rest : List OplogRow}
    (h : cursors[i]? = some (row :: rest)) :
    ((cursors.set i rest).map List.length).sum < (cursors.map List.length).sum := by
  induction cursors generalizing i with
  | nil => cases h
  | cons c cursors ih =>
    cases i with
    | zero =>
      obtain rfl : c = row :: rest := Option.some.inj h
      simp
    | succ i =>
      have hlt := ih h
      simp only [List.set_cons_succ, List.map_cons, List.sum_cons]
      omega

/-- The loop. -/
def merge (limit : ℕ) (out : List TaggedRow) (cursors : List (List OplogRow)) : List TaggedRow :=
  if limit ≤ out.length then out
  else
    match pick cursors with
    | none => out
    | some i =>
      match h : cursors[i]? with
      | some ((seq, blob) :: rest) =>
        merge limit (if blob.isEmpty then out else out ++ [⟨seq, i, blob⟩]) (cursors.set i rest)
      | _ => out -- a picked table has a row
termination_by (cursors.map List.length).sum
decreasing_by exact sum_set_lt h

/-- The tables of the oplog, the shards and then the legacy one. -/
structure Shards where
  tables : List (Option OplogTable)
  /-- Bit `i` is set once shard `i` exists. -/
  existing : ℕ
  length_eq : tables.length = oplogShards.toNat + 1
  known : ∀ i t, tables[i]? = some (some t) → oplogTableAbsent existing i = false
  /-- The sequences of different tables are apart. -/
  apart : tables.Pairwise fun t u => ∀ x ∈ t, ∀ y ∈ u, ∀ e ∈ x.entries, ∀ f ∈ y.entries, e.1 ≠ f.1

def readOplogShardsTagged (near : Near) (s : Shards) (start : Seq) (limit : ℕ) : List TaggedRow :=
  merge limit [] (s.tables.mapIdx (openCursor near s.existing start))

/-! ## What is to be read -/

def tag (i : ℕ) (row : OplogRow) : TaggedRow := ⟨row.1, i, row.2⟩

/-- The rows of tables numbered from `n` on. -/
def tagFrom (n : ℕ) : List (List OplogRow) → List TaggedRow
  | [] => []
  | c :: cs => c.map (tag n) ++ tagFrom (n + 1) cs

def rowsOf : Option OplogTable → List OplogRow
  | none => []
  | some t => t.entries

/-- The rows at or above the start that are no markers. -/
def rowsFrom (s : Shards) (start : Seq) : List TaggedRow :=
  (tagFrom 0 (s.tables.map rowsOf)).filter fun r => start ≤ r.seq && !r.blob.isEmpty

/-! ## Cursors -/

theorem filter_split {α : Type*} {p : α → Bool} {pre pos : List α} (hpre : ∀ e ∈ pre, p e = false)
    (hpos : ∀ e ∈ pos, p e = true) : (pre ++ pos).filter p = pos := by
  rw [List.filter_append, List.filter_eq_nil_iff.mpr fun e he => by simp [hpre e he],
    List.filter_eq_self.mpr hpos, List.nil_append]

theorem seek_eq {near : Near} (hnear : SearchNear near) (t : OplogTable) (start : Seq) :
    seek near t start = t.entries.filter fun e => start ≤ e.1 := by
  unfold seek
  cases h : near t start with
  | none =>
    rw [hnear.not_found t start h]
    rfl
  | some r =>
    obtain ⟨c, pos⟩ := r
    obtain ⟨pre, hpre⟩ := hnear.suffix t start c pos h
    have hsorted := t.sorted
    rw [hpre, List.pairwise_append] at hsorted
    dsimp only
    rw [hpre]
    rcases lt_trichotomy c 0 with hc | hc | hc
    · -- landed below: one step on
      obtain ⟨e, rest, rfl, he, hrest⟩ := hnear.below t start c pos h hc
      rw [if_pos hc, List.tail_cons, List.append_cons, filter_split]
      · intro f hf
        rw [decide_eq_false_iff_not, not_le]
        rcases List.mem_append.mp hf with hf | hf
        · exact (hsorted.2.2 f hf e List.mem_cons_self).trans he
        · rw [List.mem_singleton.mp hf]
          exact he
      · intro f hf
        exact decide_eq_true (hrest f hf).le
    · obtain ⟨v, rest, rfl⟩ := hnear.exact t start c pos h hc
      rw [if_neg (by omega), filter_split]
      · intro f hf
        rw [decide_eq_false_iff_not, not_le]
        exact hsorted.2.2 f hf (start, v) List.mem_cons_self
      · intro f hf
        rw [decide_eq_true_eq]
        rcases List.mem_cons.mp hf with rfl | hf
        · exact le_rfl
        · exact ((List.pairwise_cons.mp hsorted.2.1).1 f hf).le
    · obtain ⟨hpos, hbefore⟩ := hnear.above t start c pos h hc
      rw [if_neg (by omega), filter_split]
      · intro f hf
        rw [decide_eq_false_iff_not, not_le]
        exact hbefore pre hpre f hf
      · intro f hf
        exact decide_eq_true (hpos f hf).le

theorem tagFrom_filter (p : Seq → Bool) (n : ℕ) (cs : List (List OplogRow)) :
    tagFrom n (cs.map fun c => c.filter fun e => p e.1) = (tagFrom n cs).filter fun r => p r.seq := by
  induction cs generalizing n with
  | nil => rfl
  | cons c cs ih =>
    rw [List.map_cons, tagFrom, tagFrom, ih, List.filter_append, List.filter_map]
    rfl

theorem cursors_eq {near : Near} (hnear : SearchNear near) (s : Shards) (start : Seq) :
    s.tables.mapIdx (openCursor near s.existing start) =
      (s.tables.map rowsOf).map fun c => c.filter fun e => start ≤ e.1 := by
  apply List.ext_getElem
  · simp
  · intro i hi hi'
    rw [List.getElem_mapIdx, List.getElem_map, List.getElem_map]
    have hlt : i < s.tables.length := by simpa using hi
    cases h : s.tables[i] with
    | none =>
      unfold openCursor
      rw [ite_self]
      rfl
    | some t =>
      have hknown := s.known i t (by rw [List.getElem?_eq_getElem hlt, h])
      unfold openCursor
      rw [hknown, if_neg (by decide)]
      exact seek_eq hnear t start

/-! ## The loop -/

theorem pickFrom_spec (i : ℕ) (best : Option ℕ) (bestSeq : Seq) (heads : List (Option Seq)) :
    (pickFrom i best bestSeq heads = best ∧ ∀ s, some s ∈ heads → bestSeq ≤ s) ∨
      ∃ k s, pickFrom i best bestSeq heads = some (i + k) ∧ heads[k]? = some (some s) ∧ s < bestSeq ∧
        ∀ s', some s' ∈ heads → s ≤ s' := by
  induction heads generalizing i best bestSeq with
  | nil => exact Or.inl ⟨rfl, fun s hs => absurd hs List.not_mem_nil⟩
  | cons h heads ih =>
    cases h with
    | none =>
      rw [pickFrom]
      rcases ih (i + 1) best bestSeq with ⟨hpick, hall⟩ | ⟨k, s, hpick, hk, hlt, hall⟩
      · exact Or.inl ⟨hpick, fun s hs => hall s (by simpa using hs)⟩
      · refine Or.inr ⟨k + 1, s, by rw [hpick]; congr 1; omega, by simpa using hk, hlt, ?_⟩
        intro s' hs'
        exact hall s' (by simpa using hs')
    | some seq =>
      rw [pickFrom]
      by_cases hseq : seq < bestSeq
      · rw [if_pos hseq]
        rcases ih (i + 1) (some i) seq with ⟨hpick, hall⟩ | ⟨k, s, hpick, hk, hlt, hall⟩
        · refine Or.inr ⟨0, seq, hpick, rfl, hseq, fun s' hs' => ?_⟩
          rcases List.mem_cons.mp hs' with heq | hs'
          · rw [Option.some.inj heq]
          · exact hall s' hs'
        · refine Or.inr ⟨k + 1, s, by rw [hpick]; congr 1; omega, by simpa using hk, hlt.trans hseq, ?_⟩
          intro s' hs'
          rcases List.mem_cons.mp hs' with heq | hs'
          · rw [Option.some.inj heq]
            exact hlt.le
          · exact hall s' hs'
      · rw [if_neg hseq]
        rcases ih (i + 1) best bestSeq with ⟨hpick, hall⟩ | ⟨k, s, hpick, hk, hlt, hall⟩
        · refine Or.inl ⟨hpick, fun s' hs' => ?_⟩
          rcases List.mem_cons.mp hs' with heq | hs'
          · rw [Option.some.inj heq]
            exact not_lt.mp hseq
          · exact hall s' hs'
        · refine Or.inr ⟨k + 1, s, by rw [hpick]; congr 1; omega, by simpa using hk, hlt, ?_⟩
          intro s' hs'
          rcases List.mem_cons.mp hs' with heq | hs'
          · rw [Option.some.inj heq]
            exact (hlt.trans_le (not_lt.mp hseq)).le
          · exact hall s' hs'

theorem mem_heads {cursors : List (List OplogRow)} {c : List OplogRow} (hc : c ∈ cursors) {e : OplogRow}
    (he : c.head? = some e) : some e.1 ∈ cursors.map head := by
  refine List.mem_map.mpr ⟨c, hc, ?_⟩
  unfold head
  rw [he]
  rfl

theorem pick_none {cursors : List (List OplogRow)} (h : pick cursors = none) {c : List OplogRow}
    (hc : c ∈ cursors) {e : OplogRow} (he : c.head? = some e) : e.1 = Seq.max := by
  rcases pickFrom_spec 0 none Seq.max (cursors.map head) with ⟨-, hall⟩ | ⟨k, s, hpick, -⟩
  · exact le_antisymm e.1.le_max (hall e.1 (mem_heads hc he))
  · rw [pick, hpick] at h
    cases h

theorem pick_some {cursors : List (List OplogRow)} {i : ℕ} (h : pick cursors = some i) :
    ∃ e rest, cursors[i]? = some (e :: rest) ∧ e.1 < Seq.max ∧
      ∀ c ∈ cursors, ∀ f, c.head? = some f → e.1 ≤ f.1 := by
  rcases pickFrom_spec 0 none Seq.max (cursors.map head) with ⟨hpick, -⟩ | ⟨k, s, hpick, hk, hlt, hall⟩
  · rw [pick, hpick] at h
    cases h
  · rw [pick, hpick, Option.some.injEq, Nat.zero_add] at h
    subst h
    rw [List.getElem?_map, Option.map_eq_some_iff] at hk
    obtain ⟨c, hc, hhead⟩ := hk
    cases c with
    | nil => cases hhead
    | cons e rest =>
      obtain rfl : e.1 = s := Option.some.inj hhead
      exact ⟨e, rest, hc, hlt, fun c hc f hf => hall f.1 (mem_heads hc hf)⟩

theorem mem_tagFrom {n : ℕ} {cs : List (List OplogRow)} {r : TaggedRow} (h : r ∈ tagFrom n cs) :
    ∃ c ∈ cs, ∃ e ∈ c, e.1 = r.seq := by
  induction cs generalizing n with
  | nil => cases h
  | cons c cs ih =>
    rw [tagFrom, List.mem_append] at h
    rcases h with h | h
    · obtain ⟨e, he, rfl⟩ := List.mem_map.mp h
      exact ⟨c, List.mem_cons_self, e, he, rfl⟩
    · obtain ⟨c', hc', e, he, hr⟩ := ih h
      exact ⟨c', List.mem_cons_of_mem c hc', e, he, hr⟩

theorem perm_tagFrom {n i : ℕ} {cs : List (List OplogRow)} {e : OplogRow} {rest : List OplogRow}
    (h : cs[i]? = some (e :: rest)) : (tagFrom n cs).Perm (tag (n + i) e :: tagFrom n (cs.set i rest)) := by
  induction cs generalizing n i with
  | nil => cases h
  | cons c cs ih =>
    cases i with
    | zero =>
      obtain rfl : c = e :: rest := Option.some.inj h
      exact .refl _
    | succ i =>
      have hperm := ih (n := n + 1) (i := i) h
      rw [List.set_cons_succ, tagFrom, tagFrom, show n + (i + 1) = n + 1 + i by omega]
      exact (hperm.append_left (c.map (tag n))).trans List.perm_middle

theorem ascending_set {cs : List (List OplogRow)} {i : ℕ} {e : OplogRow} {rest : List OplogRow}
    (h : ∀ c ∈ cs, c.Pairwise fun e f => e.1 < f.1) (hi : cs[i]? = some (e :: rest)) :
    ∀ c ∈ cs.set i rest, c.Pairwise fun e f => e.1 < f.1 := by
  intro c hc
  rcases List.mem_or_eq_of_mem_set hc with hc | rfl
  · exact h c hc
  · exact (List.pairwise_cons.mp (h _ (List.mem_of_getElem? hi))).2

theorem head_le {cs : List (List OplogRow)} {s : Seq} (hasc : ∀ c ∈ cs, c.Pairwise fun e f => e.1 < f.1)
    (hs : ∀ c ∈ cs, ∀ f, c.head? = some f → s ≤ f.1) {r : TaggedRow} {n : ℕ} (hr : r ∈ tagFrom n cs) :
    s ≤ r.seq := by
  obtain ⟨c, hc, e, he, hseq⟩ := mem_tagFrom hr
  cases c with
  | nil => cases he
  | cons f c =>
    have hf := hs _ hc f rfl
    rw [← hseq]
    rcases List.mem_cons.mp he with rfl | he
    · exact hf
    · exact hf.trans ((List.pairwise_cons.mp (hasc _ hc)).1 e he).le

/-- The rows the loop gives out: no markers, and none at `i64::MAX`. -/
def given (r : TaggedRow) : Bool := r.seq ≠ Seq.max && !r.blob.isEmpty

/-- The loop takes the rows in ascending order. -/
theorem merge_eq {limit : ℕ} {out : List TaggedRow} {cursors : List (List OplogRow)}
    (hasc : ∀ c ∈ cursors, c.Pairwise fun e f => e.1 < f.1) {sorted : List TaggedRow}
    (hsorted : sorted.Pairwise fun r q => r.seq < q.seq) (hperm : sorted.Perm (tagFrom 0 cursors)) :
    merge limit out cursors = out ++ (sorted.filter given).take (limit - out.length) := by
  fun_induction merge limit out cursors generalizing sorted with
  | case1 out cursors hfull =>
    rw [Nat.sub_eq_zero_of_le hfull, List.take_zero, List.append_nil]
  | case2 out cursors hroom hpick =>
    -- every head is at the end of the sequences
    have hnone : sorted.filter given = [] := by
      refine List.filter_eq_nil_iff.mpr fun r hr => ?_
      have hmax := head_le hasc (fun c hc f hf => (pick_none hpick hc hf).ge) (hperm.mem_iff.mp hr)
      have hseq : r.seq = Seq.max := le_antisymm r.seq.le_max hmax
      simp [given, hseq]
    rw [hnone, List.take_nil, List.append_nil]
  | case3 out cursors hroom i hpick seq blob rest hi ih =>
    obtain ⟨e, rest', hi', hlt, hleast⟩ := pick_some hpick
    rw [hi] at hi'
    cases hi'
    have htaken := perm_tagFrom (n := 0) hi
    rw [Nat.zero_add] at htaken
    -- the row taken is the first of the sorted ones
    have hfirst : ∃ tail, sorted = ⟨seq, i, blob⟩ :: tail := by
      have hmem : (⟨seq, i, blob⟩ : TaggedRow) ∈ sorted :=
        (hperm.trans htaken).mem_iff.mpr List.mem_cons_self
      cases sorted with
      | nil => cases hmem
      | cons r tail =>
        rcases List.mem_cons.mp hmem with heq | hin
        · exact ⟨tail, by rw [heq]⟩
        · have hle : seq ≤ r.seq := head_le hasc hleast (hperm.mem_iff.mp List.mem_cons_self)
          exact absurd ((List.pairwise_cons.mp hsorted).1 _ hin) (not_lt.mpr hle)
    obtain ⟨tail, rfl⟩ := hfirst
    have htail : tail.Perm (tagFrom 0 (cursors.set i rest)) :=
      (List.perm_cons _).mp (hperm.trans htaken)
    have hrest := ih (ascending_set hasc hi) (List.pairwise_cons.mp hsorted).2 htail
    rw [dite_eq_ite] at hrest
    rw [hrest]
    by_cases hblob : blob.isEmpty
    · -- a marker is passed over
      rw [if_pos hblob, List.filter_cons_of_neg (by simp [given, hblob])]
    · have hgiven : given ⟨seq, i, blob⟩ = true := by simp [given, hlt.ne, hblob]
      obtain ⟨room, hlen⟩ : ∃ room, limit - out.length = room + 1 := ⟨limit - out.length - 1, by omega⟩
      rw [if_neg hblob, List.filter_cons_of_pos hgiven, hlen, List.take_succ_cons, List.append_assoc,
        List.length_append, List.length_singleton, ← Nat.sub_sub, hlen, Nat.add_sub_cancel]
      rfl
  | case4 out cursors hroom i hpick hno =>
    obtain ⟨e, rest, hi, -⟩ := pick_some hpick
    exact (hno e.1 e.2 rest hi).elim

/-! ## The rows in order -/

theorem tagFrom_apart {n : ℕ} {cs : List (List OplogRow)}
    (hapart : cs.Pairwise fun c d => ∀ e ∈ c, ∀ f ∈ d, e.1 ≠ f.1)
    (hasc : ∀ c ∈ cs, c.Pairwise fun e f => e.1 < f.1) :
    (tagFrom n cs).Pairwise fun r q => r.seq ≠ q.seq := by
  induction cs generalizing n with
  | nil => exact .nil
  | cons c cs ih =>
    obtain ⟨hc, hcs⟩ := List.pairwise_cons.mp hapart
    rw [tagFrom, List.pairwise_append]
    refine ⟨?_, ih hcs fun d hd => hasc d (List.mem_cons_of_mem c hd), ?_⟩
    · exact List.pairwise_map.mpr ((hasc c List.mem_cons_self).imp fun hlt => hlt.ne)
    · intro r hr q hq
      obtain ⟨e, he, rfl⟩ := List.mem_map.mp hr
      obtain ⟨d, hd, f, hf, hseq⟩ := mem_tagFrom hq
      rw [← hseq]
      exact hc d hd e he f hf

theorem ascending_rowsOf (t : Option OplogTable) : (rowsOf t).Pairwise fun e f => e.1 < f.1 := by
  cases t with
  | none => exact .nil
  | some t => exact t.sorted

theorem Shards.rows_apart (s : Shards) :
    (tagFrom 0 (s.tables.map rowsOf)).Pairwise fun r q => r.seq ≠ q.seq := by
  refine tagFrom_apart (List.pairwise_map.mpr (s.apart.imp ?_)) ?_
  · intro t u h e he f hf
    cases t with
    | none => cases he
    | some t =>
      cases u with
      | none => cases hf
      | some u => exact h t rfl u rfl e he f hf
  · intro c hc
    obtain ⟨t, -, rfl⟩ := List.mem_map.mp hc
    exact ascending_rowsOf t

theorem exists_ascending {rows : List TaggedRow} (h : rows.Pairwise fun r q => r.seq ≠ q.seq) :
    ∃ sorted : List TaggedRow, sorted.Perm rows ∧ sorted.Pairwise fun r q : TaggedRow => r.seq < q.seq := by
  let le : TaggedRow → TaggedRow → Bool := fun r q => r.seq ≤ q.seq
  have hperm : (rows.mergeSort le).Perm rows := rows.mergeSort_perm le
  have hle : (rows.mergeSort le).Pairwise fun r q => r.seq ≤ q.seq := by
    have hsorted := @List.pairwise_mergeSort _ le
      (fun a b c hab hbc => decide_eq_true ((of_decide_eq_true hab).trans (of_decide_eq_true hbc)))
      (fun a b => by simpa [le] using le_total a.seq b.seq) rows
    exact hsorted.imp fun h => of_decide_eq_true h
  have hne := (hperm.pairwise_iff (R := fun r q : TaggedRow => r.seq ≠ q.seq) fun h => h.symm).mpr h
  exact ⟨_, hperm, (hle.and hne).imp fun h => lt_of_le_of_ne h.1 h.2⟩

/-- A read gives the rows in order, up to the limit, but for one at `i64::MAX`. -/
theorem readOplogShardsTagged_eq {near : Near} (hnear : SearchNear near) (s : Shards) (start : Seq) (limit : ℕ) :
    ∃ sorted : List TaggedRow, sorted.Perm (rowsFrom s start) ∧ (sorted.Pairwise fun r q : TaggedRow => r.seq < q.seq) ∧
      readOplogShardsTagged near s start limit = (sorted.filter (·.seq ≠ Seq.max)).take limit := by
  have hcursors := cursors_eq hnear s start
  have hasc : ∀ c ∈ s.tables.mapIdx (openCursor near s.existing start), c.Pairwise fun e f => e.1 < f.1 := by
    rw [hcursors]
    intro c hc
    obtain ⟨d, hd, rfl⟩ := List.mem_map.mp hc
    obtain ⟨t, -, rfl⟩ := List.mem_map.mp hd
    exact (ascending_rowsOf t).filter _
  have hrows : tagFrom 0 (s.tables.mapIdx (openCursor near s.existing start)) =
      (tagFrom 0 (s.tables.map rowsOf)).filter fun r => start ≤ r.seq := by
    rw [hcursors]
    exact tagFrom_filter (fun seq => start ≤ seq) 0 _
  obtain ⟨sorted, hperm, hsorted⟩ := exists_ascending (s.rows_apart.filter fun r => start ≤ r.seq)
  refine ⟨sorted.filter fun r => !r.blob.isEmpty, ?_, hsorted.filter _, ?_⟩
  · have hfilter := hperm.filter fun r => !r.blob.isEmpty
    rw [List.filter_filter] at hfilter
    unfold rowsFrom
    simpa only [Bool.and_comm] using hfilter
  · unfold readOplogShardsTagged
    rw [merge_eq hasc hsorted (hperm.trans (.of_eq hrows.symm)), List.filter_filter]
    rfl

theorem filter_ne_max {sorted : List TaggedRow} (hsorted : sorted.Pairwise fun r q => r.seq < q.seq)
    {r : TaggedRow} (hr : r ∈ sorted) (hmax : r.seq = Seq.max) :
    sorted = sorted.filter (·.seq ≠ Seq.max) ++ [r] := by
  obtain ⟨pre, post, rfl⟩ := List.append_of_mem hr
  obtain ⟨-, hpost, hpre⟩ := List.pairwise_append.mp hsorted
  have hlast : post = [] := by
    refine List.eq_nil_iff_forall_not_mem.mpr fun q hq => ?_
    have hlt := (List.pairwise_cons.mp hpost).1 q hq
    rw [hmax] at hlt
    exact not_lt.mpr q.seq.le_max hlt
  subst hlast
  have hbelow : ∀ q ∈ pre, decide (q.seq ≠ Seq.max) = true := by
    intro q hq
    have hlt := hpre q hq r List.mem_cons_self
    rw [hmax] at hlt
    exact decide_eq_true hlt.ne
  rw [List.filter_append, List.filter_eq_self.mpr hbelow, List.filter_cons_of_neg (by simp [hmax]),
    List.filter_nil, List.append_nil]

/-- What is read is the smallest rows exactly when a row at `i64::MAX` is left out by the limit. -/
theorem readOplogShardsTagged_iff {near : Near} (hnear : SearchNear near) (s : Shards) (start : Seq) (limit : ℕ) :
    Smallest TaggedRow.seq (rowsFrom s start) limit (readOplogShardsTagged near s start limit) ↔
      ∀ r ∈ rowsFrom s start, r.seq = Seq.max → limit < (rowsFrom s start).length := by
  obtain ⟨sorted, hperm, hsorted, hread⟩ := readOplogShardsTagged_eq hnear s start limit
  rw [hread]
  constructor
  · intro h r hr hmax
    have hlast := congrArg List.length (filter_ne_max hsorted (hperm.mem_iff.mpr hr) hmax)
    have hcount := h.count
    rw [List.length_append, List.length_singleton, hperm.length_eq] at hlast
    rw [List.length_take] at hcount
    omega
  · intro h
    suffices hsame : (sorted.filter (·.seq ≠ Seq.max)).take limit = sorted.take limit by
      rw [hsame]
      exact smallest_take hperm hsorted limit
    by_cases hex : ∃ r ∈ sorted, r.seq = Seq.max
    · obtain ⟨r, hr, hmax⟩ := hex
      have hlt := h r (hperm.mem_iff.mp hr) hmax
      have hlast := filter_ne_max hsorted hr hmax
      have hlen := congrArg List.length hlast
      rw [List.length_append, List.length_singleton, hperm.length_eq] at hlen
      conv_rhs => rw [hlast]
      rw [List.take_append_of_le_length (by omega)]
    · push Not at hex
      rw [List.filter_eq_self.mpr fun r hr => decide_eq_true (hex r hr)]

/-! ## A read -/

/-- A search that lands on the key or above it, and below it only past the last row. -/
def nearAbove : Near := fun t key =>
  match t.entries.dropWhile fun e => e.1 < key with
  | [] => t.entries.getLast?.map fun e => (-1, [e])
  | e :: rest => some (if e.1 = key then 0 else 1, e :: rest)

theorem nearAbove_cases (t : OplogTable) (key : Seq) :
    t.entries = [] ∧ nearAbove t key = none ∨
      (∃ pre e, t.entries = pre ++ [e] ∧ e.1 < key ∧ nearAbove t key = some (-1, [e])) ∨
      ∃ pre e rest, t.entries = pre ++ e :: rest ∧ key ≤ e.1 ∧ (∀ f ∈ pre, f.1 < key) ∧
        nearAbove t key = some (if e.1 = key then 0 else 1, e :: rest) := by
  have hsplit := t.entries.takeWhile_append_dropWhile (p := fun e => decide (e.1 < key))
  have hbelow : ∀ f ∈ t.entries.takeWhile fun e => e.1 < key, f.1 < key := fun f hf =>
    of_decide_eq_true (List.mem_takeWhile_imp (p := fun e : OplogRow => decide (e.1 < key)) hf)
  unfold nearAbove
  cases hdrop : t.entries.dropWhile fun e => e.1 < key with
  | nil =>
    rw [hdrop, List.append_nil] at hsplit
    rcases t.entries.eq_nil_or_concat with hnil | ⟨pre, e, hlast⟩
    · exact Or.inl ⟨hnil, by rw [hnil]; rfl⟩
    · rw [List.concat_eq_append] at hlast
      rw [hsplit, hlast] at hbelow
      exact Or.inr (Or.inl ⟨pre, e, hlast, hbelow e (by simp), by simp [hlast]⟩)
  | cons e rest =>
    have he : ¬ e.1 < key := by
      have hnot := List.head?_dropWhile_not (fun e : OplogRow => decide (e.1 < key)) t.entries
      rw [hdrop] at hnot
      simpa using hnot
    rw [hdrop] at hsplit
    exact Or.inr (Or.inr ⟨_, e, rest, hsplit.symm, not_lt.mp he, hbelow, rfl⟩)

theorem searchNear_nearAbove : SearchNear nearAbove where
  not_found t k h := by
    rcases nearAbove_cases t k with ⟨hnil, -⟩ | ⟨pre, e, -, -, hnear⟩ | ⟨pre, e, rest, -, -, -, hnear⟩
    · exact hnil
    · rw [hnear] at h; cases h
    · rw [hnear] at h; cases h
  suffix t k c pos h := by
    rcases nearAbove_cases t k with ⟨-, hnear⟩ | ⟨pre, e, hpre, -, hnear⟩ | ⟨pre, e, rest, hpre, -, -, hnear⟩
    · rw [hnear] at h; cases h
    · rw [hnear] at h; cases h
      exact ⟨pre, hpre⟩
    · rw [hnear] at h; cases h
      exact ⟨pre, hpre⟩
  exact t k c pos h hc := by
    rcases nearAbove_cases t k with ⟨-, hnear⟩ | ⟨pre, e, -, -, hnear⟩ | ⟨pre, e, rest, -, -, -, hnear⟩
    · rw [hnear] at h; cases h
    · rw [hnear] at h; cases h; cases hc
    · rw [hnear] at h; cases h
      by_cases heq : e.1 = k
      · exact ⟨e.2, rest, by rw [← heq]⟩
      · rw [if_neg heq] at hc; cases hc
  below t k c pos h hc := by
    rcases nearAbove_cases t k with ⟨-, hnear⟩ | ⟨pre, e, -, he, hnear⟩ | ⟨pre, e, rest, -, -, -, hnear⟩
    · rw [hnear] at h; cases h
    · rw [hnear] at h; cases h
      exact ⟨e, [], rfl, he, fun f hf => absurd hf List.not_mem_nil⟩
    · rw [hnear] at h; cases h
      split at hc <;> omega
  above t k c pos h hc := by
    rcases nearAbove_cases t k with ⟨-, hnear⟩ | ⟨pre, e, -, -, hnear⟩ | ⟨pre, e, rest, hpre, he, hbelow, hnear⟩
    · rw [hnear] at h; cases h
    · rw [hnear] at h; cases h; cases hc
    · rw [hnear] at h; cases h
      have hne : k ≠ e.1 := by
        rintro rfl
        rw [if_pos rfl] at hc
        cases hc
      have hlt := lt_of_le_of_ne he hne
      have hsorted := t.sorted
      rw [hpre, List.pairwise_append] at hsorted
      refine ⟨fun f hf => ?_, fun pre' hpre' => ?_⟩
      · rcases List.mem_cons.mp hf with rfl | hf
        · exact hlt
        · exact hlt.trans ((List.pairwise_cons.mp hsorted.2.1).1 f hf)
      · rw [hpre] at hpre'
        rw [← List.append_cancel_right hpre']
        exact hbelow

/-- One table, with a row at `seq`. -/
def oneRow (seq : Seq) : Shards where
  tables := List.replicate oplogShards.toNat none ++ [some ⟨[(seq, [1])], List.pairwise_singleton _ _⟩]
  existing := 0
  length_eq := rfl
  known i t h := by
    have hi : i = oplogShards.toNat := by
      rw [List.getElem?_append] at h
      split at h
      · rw [List.getElem?_replicate] at h
        split at h <;> cases h
      · rw [List.length_replicate, List.getElem?_singleton] at h
        split at h
        · rename_i hge hzero
          rw [List.length_replicate] at hge
          exact Nat.le_antisymm (Nat.le_of_sub_eq_zero hzero) (Nat.le_of_not_lt hge)
        · cases h
    rw [hi]
    rfl
  apart := by
    rw [List.pairwise_append]
    refine ⟨List.pairwise_replicate.mpr (Or.inr fun x hx => nomatch hx), List.pairwise_singleton _ _, ?_⟩
    intro t ht u _ x hx
    rw [List.eq_of_mem_replicate ht] at hx
    cases hx

/-- A row below `i64::MAX` is read. -/
theorem readOplogShardsTagged_iff_five :
    Smallest TaggedRow.seq (rowsFrom (oneRow ⟨5, by decide⟩) ⟨3, by decide⟩) 1
      (readOplogShardsTagged nearAbove (oneRow ⟨5, by decide⟩) ⟨3, by decide⟩ 1) := by
  refine (readOplogShardsTagged_iff searchNear_nearAbove (oneRow ⟨5, by decide⟩) ⟨3, by decide⟩ 1).mpr ?_
  decide

/-- A row at `i64::MAX` is never read. -/
theorem readOplogShardsTagged_max :
    rowsFrom (oneRow Seq.max) Seq.max = [⟨Seq.max, 16, [1]⟩] ∧
      readOplogShardsTagged nearAbove (oneRow Seq.max) Seq.max 1 = [] ∧
      ¬ Smallest TaggedRow.seq (rowsFrom (oneRow Seq.max) Seq.max) 1
        (readOplogShardsTagged nearAbove (oneRow Seq.max) Seq.max 1) := by
  have hrows : rowsFrom (oneRow Seq.max) Seq.max = [⟨Seq.max, 16, [1]⟩] := by decide
  have hread : readOplogShardsTagged nearAbove (oneRow Seq.max) Seq.max 1 = [] := by
    unfold readOplogShardsTagged
    rw [merge]
    decide
  refine ⟨hrows, hread, fun h => ?_⟩
  have hcount := h.count
  rw [hrows, hread] at hcount
  cases hcount

open Secantus

/-! ## The clock -/

/-- The clock's reading as one number. -/
def clock (st : OplogState) : ℕ := st.lastTsSecs.toNat * 2 ^ 32 + st.lastTsOrd.toNat

structure InRange (st : OplogState) : Prop where
  secs_nonneg : 0 ≤ st.lastTsSecs
  secs_lt : st.lastTsSecs < 2 ^ 32
  ord_nonneg : 0 ≤ st.lastTsOrd
  ord_lt : st.lastTsOrd < 2 ^ 32

/-- The timestamps minted from `secs` and `ord` at these clock readings all have seconds and an
    ordinal below `2 ^ 32`. -/
def ClockFits : ℤ → ℤ → List ℤ → Prop
  | _, _, [] => True
  | secs, ord, now :: nows =>
    if secs < now then now < 2 ^ 32 ∧ ClockFits now 1 nows
    else ord + 1 < 2 ^ 32 ∧ ClockFits secs (ord + 1) nows

instance ClockFits.decide : ∀ (secs ord : ℤ) (nows : List ℤ), Decidable (ClockFits secs ord nows)
  | _, _, [] => inferInstanceAs (Decidable True)
  | secs, ord, now :: nows =>
    have := ClockFits.decide now 1 nows
    have := ClockFits.decide secs (ord + 1) nows
    inferInstanceAs (Decidable (if secs < now then now < 2 ^ 32 ∧ ClockFits now 1 nows
      else ord + 1 < 2 ^ 32 ∧ ClockFits secs (ord + 1) nows))

theorem asU32_toNat {n : ℤ} (h : 0 ≤ n) (hlt : n < 2 ^ 32) : (asU32 n).toNat = n.toNat := by
  have hmod : n % 2 ^ 32 = n := Int.emod_eq_of_lt h hlt
  rw [asU32, hmod, UInt32.toNat_ofNat']
  exact Nat.mod_eq_of_lt (by omega)

theorem tsU64_clock {st : OplogState} (h : InRange st) :
    tsU64 ⟨asU32 st.lastTsSecs, asU32 st.lastTsOrd⟩ = clock st := by
  obtain ⟨h1, h2, h3, h4⟩ := h
  have hord : st.lastTsOrd.toNat < 2 ^ 32 := by omega
  show (asU32 st.lastTsSecs).toNat <<< 32 ||| (asU32 st.lastTsOrd).toNat = clock st
  rw [asU32_toNat h1 h2, asU32_toNat h3 h4, ← Nat.shiftLeft_add_eq_or_of_lt hord,
    Nat.shiftLeft_eq]
  rfl

/-- Minting a timestamp moves the clock on, and the timestamp is its new reading. -/
theorem mintTs_clock {st : OplogState} {now : ℤ} {nows : List ℤ} (h : InRange st)
    (hfits : ClockFits st.lastTsSecs st.lastTsOrd (now :: nows)) :
    InRange (mintTs st now).1 ∧ clock st < clock (mintTs st now).1 ∧
      tsU64 (mintTs st now).2 = clock (mintTs st now).1 ∧
      ClockFits (mintTs st now).1.lastTsSecs (mintTs st now).1.lastTsOrd nows := by
  have hts : (mintTs st now).2 =
      ⟨asU32 (mintTs st now).1.lastTsSecs, asU32 (mintTs st now).1.lastTsOrd⟩ := rfl
  obtain ⟨h1, h2, h3, h4⟩ := h
  rw [ClockFits] at hfits
  by_cases hnow : st.lastTsSecs < now
  · rw [if_pos hnow] at hfits
    have hst : (mintTs st now).1 = { st with lastTsSecs := now, lastTsOrd := 1 } := by
      simp only [mintTs, if_pos hnow]
    have hrange : InRange (mintTs st now).1 := by
      rw [hst]
      exact ⟨by simp only; omega, hfits.1, by simp only; omega, by simp only; omega⟩
    refine ⟨hrange, ?_, hts ▸ tsU64_clock hrange, by rw [hst]; exact hfits.2⟩
    rw [hst]
    show st.lastTsSecs.toNat * 2 ^ 32 + st.lastTsOrd.toNat < now.toNat * 2 ^ 32 + (1 : ℤ).toNat
    omega
  · rw [if_neg hnow] at hfits
    have hst : (mintTs st now).1 = { st with lastTsOrd := st.lastTsOrd + 1 } := by
      simp only [mintTs, if_neg hnow]
    have hrange : InRange (mintTs st now).1 := by
      rw [hst]
      exact ⟨h1, h2, by simp only; omega, hfits.1⟩
    refine ⟨hrange, ?_, hts ▸ tsU64_clock hrange, by rw [hst]; exact hfits.2⟩
    rw [hst]
    show st.lastTsSecs.toNat * 2 ^ 32 + st.lastTsOrd.toNat <
      st.lastTsSecs.toNat * 2 ^ 32 + (st.lastTsOrd + 1).toNat
    omega

/-- So do the timestamps of a mint, each after the last. -/
theorem mintAll_clock (nows : List ℤ) (st : OplogState) (h : InRange st)
    (hfits : ClockFits st.lastTsSecs st.lastTsOrd nows) :
    InRange (mintAll st nows).1 ∧ clock st ≤ clock (mintAll st nows).1 ∧
      ∀ t ∈ (mintAll st nows).2, clock st < tsU64 t ∧ tsU64 t ≤ clock (mintAll st nows).1 := by
  induction nows generalizing st with
  | nil => exact ⟨h, le_rfl, fun _ ht => absurd ht List.not_mem_nil⟩
  | cons now nows ih =>
    obtain ⟨hrange, hlt, hts, hrest⟩ := mintTs_clock h hfits
    obtain ⟨hrange', hle, hall⟩ := ih (mintTs st now).1 hrange hrest
    refine ⟨hrange', hlt.le.trans hle, fun t ht => ?_⟩
    change t ∈ (mintTs st now).2 :: (mintAll (mintTs st now).1 nows).2 at ht
    rcases List.mem_cons.mp ht with heq | ht
    · rw [heq, hts]
      exact ⟨hlt, hle⟩
    · exact ⟨hlt.trans (hall t ht).1, (hall t ht).2⟩

/-! ## The two points -/

/-- The window and the reservations against the clock. -/
structure Clocked (st : OplogState) : Prop where
  range : InRange st
  minted : ∀ k r, st.inFlight.get k = some r → 1 ≤ r.firstTs ∧ r.firstTs ≤ clock st
  ascending : ∀ k r k' r', st.inFlight.get k = some r → st.inFlight.get k' = some r' → k < k' →
    r.firstTs < r'.firstTs
  reserved : ∀ c floor, st.tsReserved.get c = some floor → 1 ≤ c ∧ c ≤ clock st

theorem asU64_eq {n : ℤ} (h : 0 ≤ n) (hlt : n < 2 ^ 32) : asU64 n = n.toNat := by
  rw [asU64, Int.emod_eq_of_lt h (by omega)]

/-- The timestamp is below every run in flight and every reservation, no later than the clock, and
    no lower than it must be. -/
theorem Clocked.le_allCommittedTs_iff {st : OplogState} (h : Clocked st) (q : ℕ) :
    q ≤ allCommittedTs st ↔ q ≤ clock st ∧
      (∀ k r, st.inFlight.get k = some r → q < r.firstTs) ∧
      (∀ c floor, st.tsReserved.get c = some floor → q < c) := by
  -- each of the two sets is as good as its least member
  have hflight : (∀ k r, st.inFlight.get k = some r → q < r.firstTs) ↔
      ∀ f ∈ st.inFlight.first?.map (·.2.firstTs), q < f := by
    cases hf : st.inFlight.first? with
    | none =>
      have hnone := (SortedMap.first?_eq_none_iff _).mp hf
      simp [hnone]
    | some e =>
      obtain ⟨hget, hle⟩ := (SortedMap.first?_eq_some_iff _ e.1 e.2).mp hf
      constructor
      · intro hall f hmem
        obtain rfl : e.2.firstTs = f := by simpa using hmem
        exact hall e.1 e.2 hget
      · intro hall k r hk
        have hq : q < e.2.firstTs := hall _ (by simp)
        rcases lt_or_eq_of_le (hle k r hk) with hlt | heq
        · exact hq.trans (h.ascending _ _ _ _ hget hk hlt)
        · rw [← heq, hget] at hk
          exact (Option.some.inj hk) ▸ hq
  have hreserved : (∀ c floor, st.tsReserved.get c = some floor → q < c) ↔
      ∀ c ∈ st.tsReserved.first?.map (·.1), q < c := by
    cases hf : st.tsReserved.first? with
    | none =>
      have hnone := (SortedMap.first?_eq_none_iff _).mp hf
      simp [hnone]
    | some e =>
      obtain ⟨hget, hle⟩ := (SortedMap.first?_eq_some_iff _ e.1 e.2).mp hf
      constructor
      · intro hall c hmem
        obtain rfl : e.1 = c := by simpa using hmem
        exact hall e.1 e.2 hget
      · intro hall c floor hc
        have hq : q < e.1 := hall _ (by simp)
        exact lt_of_lt_of_le hq (hle c floor hc)
  have hfirst : ∀ f ∈ st.inFlight.first?.map (·.2.firstTs), 1 ≤ f ∧ f ≤ clock st := by
    intro f hmem
    obtain ⟨e, he, rfl⟩ := Option.mem_map.mp hmem
    exact h.minted e.1 e.2 ((SortedMap.first?_eq_some_iff _ e.1 e.2).mp he).1
  have hleast : ∀ c ∈ st.tsReserved.first?.map (·.1), 1 ≤ c ∧ c ≤ clock st := by
    intro c hmem
    obtain ⟨e, he, rfl⟩ := Option.mem_map.mp hmem
    exact h.reserved e.1 e.2 ((SortedMap.first?_eq_some_iff _ e.1 e.2).mp he).1
  have hnone : asU64 st.lastTsSecs <<< 32 % 2 ^ 64 ||| asU64 st.lastTsOrd = clock st := by
    obtain ⟨h1, h2, h3, h4⟩ := h.range
    rw [asU64_eq h1 h2, asU64_eq h3 h4, Nat.shiftLeft_eq, Nat.mod_eq_of_lt (by omega),
      ← Nat.shiftLeft_eq, ← Nat.shiftLeft_add_eq_or_of_lt (by omega), Nat.shiftLeft_eq]
    rfl
  rw [hflight, hreserved]
  unfold allCommittedTs
  rw [hnone]
  clear hflight hreserved
  revert hfirst hleast
  cases st.inFlight.first?.map (·.2.firstTs) with
  | none =>
    cases st.tsReserved.first?.map (·.1) with
    | none => simp
    | some c =>
      simp only [Option.toList_none, Option.toList_some, List.nil_append, List.min?_singleton,
        Option.mem_def, Option.some.injEq, forall_eq', reduceCtorEq, false_implies, implies_true,
        true_and]
      omega
  | some f =>
    cases st.tsReserved.first?.map (·.1) with
    | none =>
      simp only [Option.toList_none, Option.toList_some, List.append_nil, List.min?_singleton,
        Option.mem_def, Option.some.injEq, forall_eq', reduceCtorEq, false_implies, implies_true,
        and_true]
      omega
    | some c =>
      have hmin : (([f] ++ [c] : List ℕ)).min? = some (min f c) := rfl
      simp only [Option.toList_some, hmin, Option.mem_def, Option.some.injEq, forall_eq']
      omega

/-- The sequence is no higher than the visible tail and below the floor of every reservation. -/
theorem le_allCommittedSeq_iff (st : OplogState) (q : ℤ) :
    q ≤ allCommittedSeq st ↔ q ≤ visibleTail st ∧
      ∀ c floor, st.tsReserved.get c = some floor → q < floor := by
  have hvalues : (∀ c floor, st.tsReserved.get c = some floor → q < floor) ↔
      ∀ floor ∈ st.tsReserved.values, q < floor := by
    constructor
    · intro hall floor hmem
      obtain ⟨c, hc⟩ := (SortedMap.mem_values_iff _ _).mp hmem
      exact hall c floor hc
    · exact fun hall c floor hc => hall floor ((SortedMap.mem_values_iff _ _).mpr ⟨c, hc⟩)
  rw [hvalues]
  unfold allCommittedSeq
  cases hmin : st.tsReserved.values.min? with
  | none =>
    rw [List.min?_eq_none_iff] at hmin
    simp [hmin]
  | some floor =>
    obtain ⟨hmem, hle⟩ := List.min?_eq_some_iff.mp hmin
    simp only [le_min_iff]
    refine and_congr_right fun _ => ⟨fun hq f hf => ?_, fun hall => ?_⟩
    · have := hle f hf
      omega
    · have := hall floor hmem
      omega

end Secantus.Oplog
