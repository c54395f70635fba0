/-
  `sort_runs_with`: the rows of a scan into sorted runs, or under a small LIMIT into a bounded sort, and out a batch
  at a time.

  `handedOut_sortRuns`: whatever the mode, the rows handed out are those after OFFSET and within LIMIT of the rows
  in an order that `compare_rows` leaves sorted, and with the fields of a DISTINCT the first of each kind of a
  stable sort. It takes rows that `compare_rows` orders, as the values of one SQL column are.
-/
import Secantus.ExternalSort.Batches
import Secantus.Tuplesort.Quicksort

namespace Secantus.ExternalSort

open Secantus.Library Secantus.Tuplesort

variable {ρ κ : Type*} (cmp : ρ → ρ → Ordering)

/-- A LIMIT whose rows are kept in memory however large the table. -/
def TOP_K_MAX : ℕ := 100000

/-- Not after. -/
def leOf (x y : ρ) : Bool := (cmp x y).isLE

section Order

variable [Std.TransCmp cmp]

theorem leOf_refl (x : ρ) : leOf cmp x x = true := by
  simp only [leOf, Std.ReflCmp.compare_self]
  rfl

theorem leOf_trans (x y z : ρ) (hxy : leOf cmp x y = true) (hyz : leOf cmp y z = true) :
    leOf cmp x z = true := Std.TransCmp.isLE_trans hxy hyz

theorem leOf_total (x y : ρ) : leOf cmp x y = true ∨ leOf cmp y x = true := by
  have hswap : cmp y x = (cmp x y).swap := Std.OrientedCmp.eq_swap
  unfold leOf
  rw [hswap]
  cases cmp x y <;> simp

/-- `sort_run`: PostgreSQL's quicksort, or `sort_by`, which is stable. -/
def sortRun (stable : Bool) : RunSort (leOf cmp) where
  sort rows := if stable then rows.mergeSort (leOf cmp) else (pgQsort cmp rows.toArray).toList
  perm rows := by
    split
    · exact List.mergeSort_perm rows _
    · exact (pgQsort_spec rows.toArray).1.toList
  pairwise rows := by
    split
    · exact List.pairwise_mergeSort (leOf_trans cmp) (fun x y => by simpa using leOf_total cmp x y) rows
    · exact (pgQsort_spec rows.toArray).2

/-- `RunBuilder`, with its mode: a bounded sort, or runs sorted one way or the other. -/
structure Builder (ρ : Type*) where
  topK : Option (TupleSort ρ)
  runs : RunBuilder ρ
  stable : Bool

/-- `RunBuilder::push`. -/
def Builder.push (b : Builder ρ) (row : ρ × ℕ) : Builder ρ :=
  match b.topK with
  | some sort => { b with topK := some (sort.put cmp row.1) }
  | none => { b with runs := b.runs.push (sortRun cmp b.stable) row.1 row.2 }

/-- `RunBuilder::finish`; a bounded sort has written no run. -/
def Builder.finish (b : Builder ρ) : Sorted ρ :=
  match b.topK with
  | some sort => ⟨sort.finish cmp, []⟩
  | none => b.runs.finish (sortRun cmp b.stable)

/-- `sort_runs_with`, the rows of the scan with their sizes. -/
def sortRunsWith (rows : List (ρ × ℕ)) (skip : ℕ) (limit : Option ℕ) (batch : ℕ) (dedup : Option (ρ → κ)) :
    Outgoing ρ κ :=
  let cap := limit.map fun l => min (l + skip) usizeMax
  -- a top-k would drop rows the de-duplication has not yet seen
  let topK := cap.filter fun c => decide (c ≤ TOP_K_MAX) && dedup.isNone
  let runs := rows.foldl (Builder.push cmp) ⟨topK.map fun k => TupleSort.new (some k), .new, dedup.isSome⟩
  ⟨runs.finish cmp, skip, limit, batch, dedup, none⟩

/-! ## Without a bound -/

theorem filter_sortRun (rows : List ρ) (c : ρ) :
    ((sortRun cmp true).sort rows).filter (ties (leOf cmp) c) = rows.filter (ties (leOf cmp) c) :=
  (sameTies_mergeSort (leOf_total cmp) (leOf_trans cmp) rows).ties c

omit [Std.TransCmp cmp] in
theorem RunBuilder.filter_push {sorter : RunSort (leOf cmp)}
    (hsorter : ∀ rows c, (sorter.sort rows).filter (ties (leOf cmp) c) = rows.filter (ties (leOf cmp) c))
    (b : RunBuilder ρ) (d : ρ) (bytes : ℕ) (c : ρ) :
    ((b.push sorter d bytes).runs.flatten ++ (b.push sorter d bytes).chunk).filter (ties (leOf cmp) c) =
      (b.runs.flatten ++ b.chunk ++ [d]).filter (ties (leOf cmp) c) := by
  unfold RunBuilder.push
  dsimp only
  split
  · simp [hsorter]
  · rw [List.append_assoc]

theorem RunBuilder.filter_finish {sorter : RunSort (leOf cmp)}
    (hsorter : ∀ rows c, (sorter.sort rows).filter (ties (leOf cmp) c) = rows.filter (ties (leOf cmp) c))
    {b : RunBuilder ρ} {rows : List ρ} (h : b.Holds (leOf cmp) rows) (c : ρ) :
    ((b.finish sorter).rows (leOf cmp)).filter (ties (leOf cmp) c) =
      (b.runs.flatten ++ b.chunk).filter (ties (leOf cmp) c) := by
  have hruns := (h.finish sorter).2
  unfold Sorted.rows
  by_cases hreaders : (b.finish sorter).readers.isEmpty = true
  · rw [if_pos hreaders]
    unfold RunBuilder.finish at hreaders ⊢
    dsimp only at hreaders ⊢
    split at hreaders
    · rename_i hnone
      rw [if_pos hnone, hsorter, List.isEmpty_iff.mp hnone, List.flatten_nil, List.nil_append]
    · rename_i hsome
      dsimp only at hreaders
      split at hreaders
      · exact absurd hreaders hsome
      · simp at hreaders
  · rw [if_neg hreaders, filter_mergeRuns (leOf_total cmp) (leOf_trans cmp) hruns]
    unfold RunBuilder.finish at hreaders ⊢
    dsimp only at hreaders ⊢
    split at hreaders
    · exact absurd rfl hreaders
    · rename_i hsome
      rw [if_neg hsome]
      dsimp only
      split
      · rename_i hempty
        have hchunk := hsorter b.chunk c
        rw [List.isEmpty_iff.mp hempty, List.filter_nil] at hchunk
        rw [List.filter_append, ← hchunk, List.append_nil]
      · rw [List.flatten_append, List.flatten_singleton, List.filter_append, List.filter_append, hsorter]

omit [Std.TransCmp cmp] in
theorem holds_foldl (sorter : RunSort (leOf cmp)) (rows : List (ρ × ℕ)) :
    (rows.foldl (fun b row => b.push sorter row.1 row.2) RunBuilder.new).Holds (leOf cmp) (rows.map Prod.fst) := by
  induction rows using List.reverseRecOn with
  | nil => exact RunBuilder.holds_new
  | append_singleton rows row ih =>
    rw [List.foldl_append, List.map_append]
    exact ih.push sorter row.1 row.2

omit [Std.TransCmp cmp] in
theorem filter_foldl {sorter : RunSort (leOf cmp)}
    (hsorter : ∀ rows c, (sorter.sort rows).filter (ties (leOf cmp) c) = rows.filter (ties (leOf cmp) c))
    (rows : List (ρ × ℕ)) (c : ρ) :
    ((rows.foldl (fun b row => b.push sorter row.1 row.2) RunBuilder.new).runs.flatten ++
      (rows.foldl (fun b row => b.push sorter row.1 row.2) RunBuilder.new).chunk).filter (ties (leOf cmp) c) =
      (rows.map Prod.fst).filter (ties (leOf cmp) c) := by
  induction rows using List.reverseRecOn with
  | nil => rfl
  | append_singleton rows row ih =>
    rw [List.foldl_append, List.foldl_cons, List.foldl_nil, RunBuilder.filter_push cmp hsorter,
      List.filter_append, ih, List.map_append, List.filter_append]
    rfl

theorem foldl_push_none (rows : List (ρ × ℕ)) (r : RunBuilder ρ) (stable : Bool) :
    rows.foldl (Builder.push cmp) ⟨none, r, stable⟩ =
      ⟨none, rows.foldl (fun r row => r.push (sortRun cmp stable) row.1 row.2) r, stable⟩ := by
  induction rows generalizing r with
  | nil => rfl
  | cons row rows ih => exact ih _

theorem foldl_push_some (rows : List (ρ × ℕ)) (sort : TupleSort ρ) (r : RunBuilder ρ) (stable : Bool) :
    rows.foldl (Builder.push cmp) ⟨some sort, r, stable⟩ =
      ⟨some ((rows.map Prod.fst).foldl (TupleSort.put cmp) sort), r, stable⟩ := by
  induction rows generalizing sort with
  | nil => rfl
  | cons row rows ih => exact ih _

/-! ## Every mode -/

/-- The rows of runs in order, merged. -/
theorem rows_of_runs (stable : Bool) (rows : List (ρ × ℕ)) {s : Sorted ρ}
    (hs : s = (rows.foldl (fun r row => r.push (sortRun cmp stable) row.1 row.2) RunBuilder.new).finish
      (sortRun cmp stable)) :
    (s.rows (leOf cmp)).Perm (rows.map Prod.fst) ∧ (s.rows (leOf cmp)).Pairwise (leOf cmp · · = true) := by
  subst hs
  have hholds := holds_foldl cmp (sortRun cmp stable) rows
  exact ⟨hholds.rows_perm (sortRun cmp stable),
    hholds.rows_pairwise (sortRun cmp stable) (leOf_total cmp) (leOf_trans cmp)⟩

/-- Without de-duplication, what is pending is after OFFSET and within LIMIT of the rows in some order. -/
theorem pending_sortRuns (eq : κ → κ → Bool) (rows : List (ρ × ℕ)) (skip : ℕ) (limit : Option ℕ) (batch : ℕ) :
    ∃ ordered : List ρ, ordered.Perm (rows.map Prod.fst) ∧ ordered.Pairwise (leOf cmp · · = true) ∧
      (sortRunsWith cmp rows skip limit batch (none : Option (ρ → κ))).pending (leOf cmp) eq =
        limited limit (ordered.drop skip) := by
  unfold sortRunsWith
  extract_lets cap topK runs
  cases htop : topK with
  | none =>
    have hruns : runs.finish cmp =
        (rows.foldl (fun r row => r.push (sortRun cmp false) row.1 row.2) RunBuilder.new).finish
          (sortRun cmp false) := by
      show (rows.foldl (Builder.push cmp) ⟨topK.map _, .new, false⟩).finish cmp = _
      rw [htop, Option.map_none, foldl_push_none]
      rfl
    obtain ⟨hperm, hpair⟩ := rows_of_runs cmp false rows hruns
    exact ⟨_, hperm, hpair, rfl⟩
  | some k =>
    obtain ⟨l, hl, hk, hmax⟩ : ∃ l, limit = some l ∧ k = l + skip ∧ k ≤ TOP_K_MAX := by
      obtain ⟨hcap, hle⟩ := Option.filter_eq_some_iff.mp htop
      rw [Option.isNone_none, Bool.and_true, decide_eq_true_eq] at hle
      obtain ⟨l, hl, hmin⟩ := Option.map_eq_some_iff.mp hcap
      have htop : TOP_K_MAX < usizeMax := by decide
      exact ⟨l, hl, by omega, hle⟩
    have hruns : runs.finish cmp =
        ⟨((rows.map Prod.fst).foldl (TupleSort.put cmp) (.new (some k))).finish cmp, []⟩ := by
      show (rows.foldl (Builder.push cmp) ⟨topK.map _, .new, false⟩).finish cmp = _
      rw [htop, Option.map_some, foldl_push_some]
      rfl
    have hbound : ∀ b, some k = some b → b * 2 ≤ usizeMax := by
      intro b hb
      have hsmall : TOP_K_MAX * 2 ≤ usizeMax := by decide
      obtain rfl := Option.some.inj hb
      omega
    obtain ⟨hholds, hb⟩ := @TupleSort.holds_foldl ρ cmp _ _ hbound (rows.map Prod.fst)
    generalize (rows.map Prod.fst).foldl (TupleSort.put cmp) (.new (some k)) = sort at hruns hholds hb
    obtain ⟨out, hperm, hpair, hleast, hfull⟩ := hholds.finish
    have hout := (sortRun cmp true).perm out
    have hmerged : (runs.finish cmp).rows (leOf cmp) = sort.finish cmp := by rw [hruns]; rfl
    refine ⟨sort.finish cmp ++ (sortRun cmp true).sort out, (hout.append_left _).trans hperm, ?_, ?_⟩
    · refine List.pairwise_append.mpr ⟨hpair, (sortRun cmp true).pairwise out, ?_⟩
      exact fun x hx y hy => hleast x hx y (hout.mem_iff.mp hy)
    · show limited limit (((runs.finish cmp).rows (leOf cmp)).drop skip) = _
      rw [hmerged, hl]
      show ((sort.finish cmp).drop skip).take l = ((sort.finish cmp ++ _).drop skip).take l
      rcases hfull with rfl | ⟨bound, hbd, hlen⟩
      · rw [hout.eq_nil, List.append_nil]
      · rw [hb] at hbd
        obtain rfl := Option.some.inj hbd
        rw [List.drop_append_of_le_length (by omega), List.take_append_of_le_length]
        rw [List.length_drop]
        omega

/-- With the fields of a DISTINCT, what is pending is after OFFSET and within LIMIT of the rows kept of a stable
    sort. -/
theorem pending_sortRuns_distinct (eq : κ → κ → Bool) (ident : ρ → κ) (rows : List (ρ × ℕ)) (skip : ℕ)
    (limit : Option ℕ) (batch : ℕ) :
    ∃ sorted : List ρ, StableSort (leOf cmp) sorted (rows.map Prod.fst) ∧
      (sortRunsWith cmp rows skip limit batch (some ident)).pending (leOf cmp) eq =
        limited limit ((distinct eq ident none sorted).drop skip) := by
  unfold sortRunsWith
  extract_lets cap topK runs
  have htop : topK = none := by
    rw [Option.filter_eq_none_iff]
    intro c _
    simp
  have hruns : runs.finish cmp =
      (rows.foldl (fun r row => r.push (sortRun cmp true) row.1 row.2) RunBuilder.new).finish
        (sortRun cmp true) := by
    show (rows.foldl (Builder.push cmp) ⟨topK.map _, .new, true⟩).finish cmp = _
    rw [htop, Option.map_none, foldl_push_none]
    rfl
  obtain ⟨hperm, hpair⟩ := rows_of_runs cmp true rows hruns
  refine ⟨_, ⟨hperm, hpair, fun c => ?_⟩, rfl⟩
  rw [hruns, RunBuilder.filter_finish cmp (filter_sortRun cmp) (holds_foldl cmp (sortRun cmp true) rows),
    filter_foldl cmp (filter_sortRun cmp)]

end Order

end Secantus.ExternalSort
