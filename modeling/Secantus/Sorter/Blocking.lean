/-
  The blocking sort (sorter.rs): items held up to a budget, sorted and written out as a run past it, the runs merged
  `parallel` at a time once there are many of them, and the last ones as they are read.

  `mergeRuns_eq` says that the scan for the least head is the library's merge, `mergePass_spec` what one pass does to
  the runs and `mergeSpills_spec` all of them. However the items were cut and merged, what comes out is their stable
  sort (`blockingSort_stable`).

  A disk on which a run written reads back unchanged is a parameter, so are the sizes of the items. The counters of
  the server's report and its deadline are left out.
-/
import Secantus.Bson.Equality
import Secantus.ExternalSort.Whole
import Secantus.Library.Outcome

namespace Secantus.Sorter

open Secantus.Library Secantus.ExternalSort

variable {α : Type}

/-! ## Runs -/

/-- What the sort may fail with. `running` is no failure of the source's: a loop has not ended in its turns. -/
inductive SortError where
  | fallback (e : Fallback)
  | running
  deriving DecidableEq

/-- Where runs are written: what is read back is what was written. -/
structure Disk (α : Type) where
  Run : Type
  write : List α → Except Fallback Run
  read : Run → Except Fallback (List α)
  reads_back : ∀ items run, write items = .ok run → read run = .ok items

def Disk.writeRun (D : Disk α) (items : List α) : Except SortError D.Run := (D.write items).mapError .fallback

/-- `Reader`, to its end. -/
def Disk.readRun (D : Disk α) (run : D.Run) : Except SortError (List α) := (D.read run).mapError .fallback

/-- The scan for the least of the heads: the first of those no head is less than. -/
def leastFrom (cmp : α → α → Ordering) : (i : ℕ) → (least : Option (ℕ × α)) → List (List α) → Option (ℕ × α)
  | _, least, [] => least
  | i, least, [] :: readers => leastFrom cmp (i + 1) least readers
  | i, none, (x :: _) :: readers => leastFrom cmp (i + 1) (some (i, x)) readers
  | i, some (l, y), (x :: _) :: readers =>
    leastFrom cmp (i + 1) (if cmp x y = .lt then some (i, x) else some (l, y)) readers

/-- The least head is one of the readers' heads, unless it is the one given. -/
theorem leastFrom_head {cmp : α → α → Ordering} : ∀ {readers : List (List α)} {i : ℕ} {least : Option (ℕ × α)}
    {j : ℕ} {x : α}, leastFrom cmp i least readers = some (j, x) →
      least = some (j, x) ∨ ∃ k xs, j = i + k ∧ readers[k]? = some (x :: xs) := by
  intro readers
  induction readers with
  | nil => exact fun h => .inl h
  | cons run readers ih =>
    intro i least j x h
    have hstep : ∀ {least'}, leastFrom cmp (i + 1) least' readers = some (j, x) →
        least' = some (j, x) ∨ ∃ k xs, j = i + k ∧ (run :: readers)[k]? = some (x :: xs) := by
      intro least' h'
      refine (ih h').imp_right ?_
      rintro ⟨k, xs, rfl, hk⟩
      exact ⟨k + 1, xs, by omega, hk⟩
    cases run with
    | nil => exact hstep h
    | cons y ys =>
      have hown : ∀ {i' : ℕ} {y' : α}, some (i', y') = some (j, x) → i' = i → y' = y →
          ∃ k xs, j = i + k ∧ ((y :: ys) :: readers)[k]? = some (x :: xs) := by
        rintro _ _ heq rfl rfl
        obtain ⟨rfl, rfl⟩ := Prod.mk.inj (Option.some.inj heq)
        exact ⟨0, ys, rfl, rfl⟩
      cases least with
      | none => exact (hstep h).elim (fun heq => .inr (hown heq rfl rfl)) .inr
      | some p =>
        obtain ⟨l, z⟩ := p
        rw [leastFrom] at h
        split at h
        · exact (hstep h).elim (fun heq => .inr (hown heq rfl rfl)) .inr
        · exact hstep h

theorem length_flatten_modify {readers : List (List α)} : ∀ {k : ℕ} {x : α} {xs : List α},
    readers[k]? = some (x :: xs) → (readers.modify k List.tail).flatten.length < readers.flatten.length := by
  induction readers with
  | nil => nofun
  | cons run readers ih =>
    intro k x xs h
    cases k with
    | zero =>
      obtain rfl := Option.some.inj h
      simp
    | succ k =>
      have h' := ih h
      simp only [List.modify_succ_cons, List.flatten_cons, List.length_append]
      omega

/-- `merge_runs`: the least head is handed on and its reader moved, until every reader is at its end. -/
def mergeReaders (cmp : α → α → Ordering) (readers : List (List α)) : List α :=
  match _h : leastFrom cmp 0 none readers with
  | none => []
  | some (i, x) => x :: mergeReaders cmp (readers.modify i List.tail)
termination_by readers.flatten.length
decreasing_by
  obtain ⟨k, xs, rfl, hk⟩ := (leastFrom_head _h).resolve_left nofun
  rw [Nat.zero_add]
  exact length_flatten_modify hk

/-- `merge_runs`, from the runs. -/
def mergeRunsOf (D : Disk α) (cmp : α → α → Ordering) (runs : List D.Run) : Except SortError (List α) := do
  let readers ← runs.mapM D.readRun
  .ok (mergeReaders cmp readers)

/-- `slice::chunks`: `n` at a time, the last ones fewer. -/
def chunks {β : Type} (n : ℕ) (l : List β) : List (List β) :=
  if _h : l = [] ∨ n = 0 then [] else l.take n :: chunks n (l.drop n)
termination_by l.length
decreasing_by
  have hpos := List.length_pos_of_ne_nil fun hl => _h (.inl hl)
  rw [List.length_drop]
  omega

/-- A chunk merged into a run. -/
def mergeChunk (D : Disk α) (cmp : α → α → Ordering) (chunk : List D.Run) : Except SortError D.Run := do
  let merged ← mergeRunsOf D cmp chunk
  D.writeRun merged

/-- One pass: each chunk of runs merged into a run. -/
def mergePass (D : Disk α) (cmp : α → α → Ordering) (parallel : ℕ) (runs : List D.Run) :
    Except SortError (List D.Run) := (chunks parallel runs).mapM (mergeChunk D cmp)

/-- `merge_spills`, in at most so many passes. -/
def mergeSpills (D : Disk α) (cmp : α → α → Ordering) (target parallel : ℕ) :
    (fuel : ℕ) → List D.Run → Except SortError (List D.Run)
  | fuel, runs =>
    if max target 1 < runs.length then
      match fuel with
      | 0 => .error .running
      | fuel + 1 => do
        let next ← mergePass D cmp parallel runs
        mergeSpills D cmp target parallel fuel next
    else .ok runs

/-! ## The sort -/

inductive SortSource where
  | queryLayer
  | stored
  | modified
  | unwound
  | bucketAuto
  | sbe
  deriving DecidableEq, Repr

def SortSource.fileIterator : SortSource → ℕ
  | .sbe => 152
  | _ => 136

/-- `kSortedFileBufferSize`. -/
def SORTED_FILE_BUFFER : ℕ := 64 <<< 10

/-- How a sort counts its items, and whether it may write to the disk. -/
structure Sizing (α : Type) where
  source : SortSource
  budget : ℕ
  /-- A tenth of the budget, a product of floats cut off. -/
  tenth : ℕ
  size : α → ℕ
  diskAllowed : Bool

def Sizing.reserved (s : Sizing α) : ℕ :=
  let iterator := s.source.fileIterator
  let bytes := if s.tenth < 1 <<< 20 then max s.tenth iterator else 1 <<< 20
  iterator * (bytes / iterator)

def Sizing.effective (s : Sizing α) : ℕ := s.budget - s.reserved

def Sizing.iterators (s : Sizing α) : ℕ := max (s.reserved / s.source.fileIterator) 1

def Sizing.parallel (s : Sizing α) : ℕ := max (s.budget / SORTED_FILE_BUFFER) 2

def refused (budget : ℕ) : SortError :=
  .fallback (.mongo 292 ("Sort exceeded memory limit of " ++ toString budget ++
    " bytes, but did not opt in to external sorting."))

/-- What is held, the runs written and the bytes counted since the last one. -/
structure Held (D : Disk α) where
  held : List α
  runs : List D.Run
  used : ℕ

/-- `spill`: what is held, sorted and written as a run. -/
def spill (D : Disk α) (cmp : α → α → Ordering) (s : Sizing α) (held : List α) (runs : List D.Run) :
    Except SortError (List D.Run) :=
  if held.isEmpty then .ok runs
  else if !s.diskAllowed then .error (refused s.budget)
  else do
    let run ← D.writeRun (held.mergeSort (leOf cmp))
    let runs := runs ++ [run]
    if runs.length ≥ s.iterators then mergeSpills D cmp (s.iterators / 2) s.parallel runs.length runs
    else .ok runs

/-- One item more. -/
def Held.push (D : Disk α) (cmp : α → α → Ordering) (s : Sizing α) (h : Held D) (item : α) :
    Except SortError (Held D) :=
  let used := h.used + s.size item
  let held := h.held ++ [item]
  if used > s.effective then do
    let runs ← spill D cmp s held h.runs
    .ok ⟨[], runs, 0⟩
  else .ok ⟨held, h.runs, used⟩

def blockingSort (D : Disk α) (cmp : α → α → Ordering) (s : Sizing α) (items : List α) (limit : Option ℕ) :
    Except SortError (List α) :=
  match limit with
  | some k =>
    let items := (items.mergeSort (leOf cmp)).take k
    let held := (items.map s.size).sum
    if 1 < k ∧ s.effective < held ∧ s.diskAllowed = false then .error (refused s.budget) else .ok items
  | none => do
    let h ← items.foldlM (Held.push D cmp s) ⟨[], [], 0⟩
    if h.runs.isEmpty then .ok (h.held.mergeSort (leOf cmp))
    else do
      let runs ← spill D cmp s h.held h.runs
      let runs ← mergeSpills D cmp s.parallel s.parallel runs.length runs
      mergeRunsOf D cmp runs

/-! ## The least head -/

section least

variable {cmp : α → α → Ordering} [Std.TransCmp cmp]

theorem lt_iff_not_le {x y : α} : cmp y x = .lt ↔ ¬leOf cmp x y = true := by
  have hswap : cmp y x = (cmp x y).swap := Std.OrientedCmp.eq_swap
  unfold leOf
  rw [hswap]
  cases cmp x y <;> simp

/-- The scan from the front and the library's from the back find the same head. -/
theorem leastFrom_eq : ∀ (readers : List (List α)) (i : ℕ) (least : Option (ℕ × α)),
    match popLeast (leOf cmp) readers with
    | none => leastFrom cmp i least readers = least
    | some (y, rest) => ∃ k, rest = readers.modify k List.tail ∧ leastFrom cmp i least readers =
        match least with
        | none => some (i + k, y)
        | some (l, z) => if cmp y z = .lt then some (i + k, y) else some (l, z)
  | [], i, least => rfl
  | [] :: readers, i, least => by
    have ih := leastFrom_eq readers (i + 1) least
    rw [popLeast]
    cases hp : popLeast (leOf cmp) readers with
    | none =>
      rw [hp] at ih
      exact ih
    | some p =>
      obtain ⟨y, rest⟩ := p
      rw [hp] at ih
      obtain ⟨k, hrest, heq⟩ := ih
      refine ⟨k + 1, by rw [hrest]; rfl, ?_⟩
      rw [leastFrom, heq, Nat.add_assoc, Nat.add_comm 1 k]
  | (x :: xs) :: readers, i, none => by
    have ih := leastFrom_eq readers (i + 1) (some (i, x))
    rw [popLeast]
    cases hp : popLeast (leOf cmp) readers with
    | none =>
      rw [hp] at ih
      exact ⟨0, rfl, ih⟩
    | some p =>
      obtain ⟨y, rest⟩ := p
      rw [hp] at ih
      obtain ⟨k, hrest, heq⟩ := ih
      dsimp only at heq ⊢
      by_cases hxy : leOf cmp x y = true
      · rw [if_pos hxy]
        refine ⟨0, rfl, ?_⟩
        rw [leastFrom, heq, if_neg (fun hlt => lt_iff_not_le.mp hlt hxy)]
        rfl
      · rw [if_neg hxy]
        refine ⟨k + 1, by rw [hrest]; rfl, ?_⟩
        rw [leastFrom, heq, if_pos (lt_iff_not_le.mpr hxy), Nat.add_assoc, Nat.add_comm 1 k]
  | (x :: xs) :: readers, i, some (l, z) => by
    have ih := leastFrom_eq readers (i + 1) (if cmp x z = .lt then some (i, x) else some (l, z))
    rw [popLeast]
    cases hp : popLeast (leOf cmp) readers with
    | none =>
      rw [hp] at ih
      exact ⟨0, rfl, ih⟩
    | some p =>
      obtain ⟨y, rest⟩ := p
      rw [hp] at ih
      obtain ⟨k, hrest, heq⟩ := ih
      dsimp only at heq ⊢
      by_cases hxy : leOf cmp x y = true
      · rw [if_pos hxy]
        refine ⟨0, rfl, ?_⟩
        rw [leastFrom, heq]
        by_cases hxz : cmp x z = .lt
        · rw [if_pos hxz]
          dsimp only
          rw [if_neg (fun hlt => lt_iff_not_le.mp hlt hxy), if_pos hxz]
          rfl
        · rw [if_neg hxz]
          dsimp only
          rw [if_neg hxz, if_neg fun hyz => hxz (Std.TransCmp.lt_of_isLE_of_lt hxy hyz)]
      · rw [if_neg hxy]
        have hyx : cmp y x = .lt := lt_iff_not_le.mpr hxy
        refine ⟨k + 1, by rw [hrest]; rfl, ?_⟩
        rw [leastFrom, heq, Nat.add_assoc, Nat.add_comm 1 k]
        by_cases hxz : cmp x z = .lt
        · rw [if_pos hxz]
          dsimp only
          rw [if_pos hyx, if_pos (Std.TransCmp.lt_trans hyx hxz)]
        · rw [if_neg hxz]

theorem mergeReaders_eq (readers : List (List α)) : mergeReaders cmp readers = mergeRuns (leOf cmp) readers := by
  induction h : readers.flatten.length using Nat.strong_induction_on generalizing readers with
  | h n ih =>
    have hleast := @leastFrom_eq _ cmp _ readers 0 none
    rw [mergeReaders, mergeRuns]
    cases hp : popLeast (leOf cmp) readers with
    | none =>
      rw [hp] at hleast
      dsimp only at hleast
      split
      · rfl
      · rename_i heq
        rw [hleast] at heq
        cases heq
    | some p =>
      obtain ⟨y, rest⟩ := p
      rw [hp] at hleast
      obtain ⟨k, hrest, heq⟩ := hleast
      dsimp only at heq
      split
      · rename_i hnone
        rw [heq] at hnone
        cases hnone
      · rename_i i x hsome
        rw [heq, Nat.zero_add] at hsome
        obtain ⟨rfl, rfl⟩ := Prod.mk.inj (Option.some.inj hsome)
        dsimp only
        rw [← hrest, ih _ (h ▸ length_of_popLeast _ hp) rest rfl]

end least

/-! ## Chunks -/

theorem chunks_flatten {β : Type} {n : ℕ} (hn : 0 < n) (l : List β) : (chunks n l).flatten = l := by
  fun_induction chunks n l with
  | case1 l h =>
    rw [h.resolve_right (by omega)]
    rfl
  | case2 l h ih => rw [List.flatten_cons, ih, List.take_append_drop]

/-- Two at a time or more, there are about half as many chunks. -/
theorem chunks_length {β : Type} {n : ℕ} (hn : 2 ≤ n) (l : List β) : 2 * (chunks n l).length ≤ l.length + 1 := by
  fun_induction chunks n l with
  | case1 l h => exact Nat.zero_le _
  | case2 l h ih =>
    have hpos := List.length_pos_of_ne_nil fun hl => h (.inl hl)
    rw [List.length_drop] at ih
    rw [List.length_cons]
    by_cases hshort : l.length ≤ n
    · have hnil : chunks n (l.drop n) = [] := by
        rw [List.drop_eq_nil_of_le hshort, chunks, dif_pos (.inl rfl)]
      rw [hnil, List.length_nil]
      omega
    · omega

/-! ## What the runs hold -/

/-- The runs are sorted, and one after the other hold `items`, the unequal ones in any order. -/
def Disk.Holds (D : Disk α) (cmp : α → α → Ordering) (runs : List D.Run) (items : List α) : Prop :=
  ∃ ls, List.Forall₂ (fun run l => D.readRun run = .ok l) runs ls ∧
    (∀ l ∈ ls, l.Pairwise (leOf cmp · · = true)) ∧ SameTies (leOf cmp) ls.flatten items

theorem Disk.readRun_ok {D : Disk α} {items : List α} {run : D.Run} (h : D.writeRun items = .ok run) :
    D.readRun run = .ok items := by
  unfold writeRun at h
  cases hw : D.write items with
  | error e =>
    rw [hw] at h
    cases h
  | ok run' =>
    rw [hw] at h
    obtain rfl : run' = run := Except.ok.inj h
    unfold readRun
    rw [D.reads_back items run' hw]
    rfl

theorem Disk.writeRun_ne_running (D : Disk α) (items : List α) : D.writeRun items ≠ .error .running := by
  unfold writeRun
  cases D.write items <;> nofun

section spec

variable {D : Disk α} {cmp : α → α → Ordering}

theorem Disk.Holds.nil : D.Holds cmp [] [] := ⟨[], .nil, nofun, .refl _⟩

theorem Disk.Holds.congr {runs : List D.Run} {xs ys : List α} (h : D.Holds cmp runs xs)
    (hs : SameTies (leOf cmp) xs ys) : D.Holds cmp runs ys := by
  obtain ⟨ls, hread, hpair, hties⟩ := h
  exact ⟨ls, hread, hpair, hties.trans hs⟩

theorem Disk.Holds.append {runs runs' : List D.Run} {xs ys : List α} (h : D.Holds cmp runs xs)
    (h' : D.Holds cmp runs' ys) : D.Holds cmp (runs ++ runs') (xs ++ ys) := by
  obtain ⟨ls, hread, hpair, hties⟩ := h
  obtain ⟨ls', hread', hpair', hties'⟩ := h'
  refine ⟨ls ++ ls', List.rel_append hread hread', ?_, ?_⟩
  · intro l hl
    exact (List.mem_append.mp hl).elim (hpair l) (hpair' l)
  · rw [List.flatten_append]
    exact hties.append hties'

theorem Disk.Holds.split {runs runs' : List D.Run} {items : List α} (h : D.Holds cmp (runs ++ runs') items) :
    ∃ xs ys, D.Holds cmp runs xs ∧ D.Holds cmp runs' ys ∧ SameTies (leOf cmp) (xs ++ ys) items := by
  obtain ⟨ls, hread, hpair, hties⟩ := h
  have hcut : ls.take runs.length ++ ls.drop runs.length = ls := List.take_append_drop _ _
  refine ⟨(ls.take runs.length).flatten, (ls.drop runs.length).flatten,
    ⟨_, (List.forall₂_take_append ls runs runs' hread.flip).flip, ?_, .refl _⟩,
    ⟨_, (List.forall₂_drop_append ls runs runs' hread.flip).flip, ?_, .refl _⟩, ?_⟩
  · exact fun l hl => hpair l (List.mem_of_mem_take hl)
  · exact fun l hl => hpair l (List.mem_of_mem_drop hl)
  · rw [← List.flatten_append, hcut]
    exact hties

theorem Disk.Holds.single {l : List α} {run : D.Run} (hw : D.writeRun l = .ok run)
    (hl : l.Pairwise (leOf cmp · · = true)) : D.Holds cmp [run] l := by
  refine ⟨[l], .cons (D.readRun_ok hw) .nil, fun l' hl' => ?_, ?_⟩
  · rw [List.mem_singleton.mp hl']
    exact hl
  · rw [List.flatten_singleton]
    exact .refl _

theorem Disk.Holds.eq_nil {items : List α} (h : D.Holds cmp [] items) : items = [] := by
  obtain ⟨ls, hread, -, hties⟩ := h
  cases hread
  exact hties.perm.nil_eq.symm

variable [Std.TransCmp cmp]

theorem sameTies_sorted (items : List α) : SameTies (leOf cmp) (items.mergeSort (leOf cmp)) items :=
  sameTies_mergeSort (leOf_total cmp) (leOf_trans cmp) items

theorem pairwise_sorted (items : List α) : (items.mergeSort (leOf cmp)).Pairwise (leOf cmp · · = true) :=
  List.pairwise_mergeSort (leOf_trans cmp) (fun x y => by simpa using leOf_total cmp x y) items

/-- Lists that differ in the order of unequal elements alone have one stable sort. -/
theorem sorted_congr {xs ys : List α} (h : SameTies (leOf cmp) xs ys) :
    xs.mergeSort (leOf cmp) = ys.mergeSort (leOf cmp) :=
  (((sameTies_sorted xs).trans h).trans (sameTies_sorted ys).symm).eq (leOf_total cmp) (pairwise_sorted xs)
    (pairwise_sorted ys)

/-- The merge of the runs is the stable sort of what they hold. -/
theorem mergeRunsOf_eq {runs : List D.Run} {items : List α} (h : D.Holds cmp runs items) :
    mergeRunsOf D cmp runs = .ok (items.mergeSort (leOf cmp)) := by
  obtain ⟨ls, hread, hpair, hties⟩ := h
  unfold mergeRunsOf
  rw [Outcome.mapM_of_forall₂ hread]
  have hmerge := (sameTies_mergeRuns (leOf_total cmp) (leOf_trans cmp) hpair).trans hties
  have heq := (hmerge.trans (sameTies_sorted items).symm).eq
    (leOf_total cmp) (mergeRuns_pairwise (leOf_total cmp) (leOf_trans cmp) hpair) (pairwise_sorted items)
  change Except.ok (mergeReaders cmp ls) = _
  rw [mergeReaders_eq, heq]

theorem mapM_mergeChunk : ∀ {cs : List (List D.Run)} {next : List D.Run} {items : List α},
    D.Holds cmp cs.flatten items → cs.mapM (mergeChunk D cmp) = .ok next →
      D.Holds cmp next items ∧ next.length = cs.length := by
  intro cs
  induction cs with
  | nil =>
    intro next items h hnext
    obtain rfl : [] = next := Except.ok.inj hnext
    exact ⟨h, rfl⟩
  | cons chunk cs ih =>
    intro next items h hnext
    rw [List.mapM_cons] at hnext
    obtain ⟨run, hrun, hnext⟩ := Outcome.bind_eq_ok.mp hnext
    obtain ⟨runs, hruns, hnext⟩ := Outcome.bind_eq_ok.mp hnext
    obtain rfl : run :: runs = next := Except.ok.inj hnext
    obtain ⟨xs, ys, hxs, hys, hties⟩ := h.split
    obtain ⟨hrest, hlen⟩ := ih hys hruns
    obtain ⟨merged, hmerged, hrun⟩ := Outcome.bind_eq_ok.mp hrun
    rw [mergeRunsOf_eq hxs] at hmerged
    obtain rfl := Except.ok.inj hmerged
    have hone : D.Holds cmp [run] xs :=
      (Disk.Holds.single hrun (pairwise_sorted xs)).congr (sameTies_sorted xs)
    refine ⟨(hone.append hrest).congr hties, ?_⟩
    rw [List.length_cons, List.length_cons, hlen]

/-- One pass leaves what the runs hold, in about half as many runs at most. -/
theorem mergePass_spec {parallel : ℕ} (hp : 2 ≤ parallel) {runs next : List D.Run} {items : List α}
    (h : D.Holds cmp runs items) (hnext : mergePass D cmp parallel runs = .ok next) :
    D.Holds cmp next items ∧ 2 * next.length ≤ runs.length + 1 := by
  have hflat := chunks_flatten (by omega : 0 < parallel) runs
  obtain ⟨hholds, hlen⟩ := mapM_mergeChunk (hflat ▸ h) hnext
  refine ⟨hholds, ?_⟩
  rw [hlen]
  exact chunks_length hp runs

/-- The passes end with at most `target` runs that hold what the runs did. -/
theorem mergeSpills_spec {target parallel : ℕ} (hp : 2 ≤ parallel) :
    ∀ {fuel : ℕ} {runs out : List D.Run} {items : List α}, D.Holds cmp runs items →
      mergeSpills D cmp target parallel fuel runs = .ok out →
      D.Holds cmp out items ∧ out.length ≤ max target 1 := by
  intro fuel
  induction fuel with
  | zero =>
    intro runs out items h hout
    rw [mergeSpills] at hout
    split at hout
    · cases hout
    · obtain rfl := Except.ok.inj hout
      exact ⟨h, by omega⟩
  | succ fuel ih =>
    intro runs out items h hout
    rw [mergeSpills] at hout
    split at hout
    · obtain ⟨next, hnext, hout⟩ := Outcome.bind_eq_ok.mp hout
      exact ih (mergePass_spec hp h hnext).1 hout
    · obtain rfl := Except.ok.inj hout
      exact ⟨h, by omega⟩

omit [Std.TransCmp cmp] in
theorem mergePass_error {parallel : ℕ} (hp : 2 ≤ parallel) {runs : List D.Run} {items : List α} {e : SortError}
    (h : D.Holds cmp runs items) (he : mergePass D cmp parallel runs = .error e) : ∃ l, D.writeRun l = .error e := by
  obtain ⟨ls, hread, -, -⟩ := h
  have hall : ∀ run ∈ runs, D.readRun run ≠ .error e := by
    refine Outcome.forall_mem_of_forall₂ (fun l run hl hbad => ?_) hread.flip
    rw [show D.readRun run = .ok l from hl] at hbad
    cases hbad
  obtain ⟨chunk, hchunk, he⟩ := Outcome.mapM_eq_error he
  rcases Outcome.bind_eq_error he with he | ⟨merged, -, he⟩
  · rcases Outcome.bind_eq_error he with he | ⟨readers, -, he⟩
    · obtain ⟨run, hrun, he⟩ := Outcome.mapM_eq_error he
      have hmem : run ∈ (chunks parallel runs).flatten := List.mem_flatten.mpr ⟨chunk, hchunk, hrun⟩
      rw [chunks_flatten (by omega)] at hmem
      exact absurd he (hall run hmem)
    · cases he
  · exact ⟨merged, he⟩

/-- The passes end, there being fewer of them than runs, and fail only where a run cannot be written. -/
theorem mergeSpills_error {target parallel : ℕ} (hp : 2 ≤ parallel) :
    ∀ {fuel : ℕ} {runs : List D.Run} {items : List α} {e : SortError}, D.Holds cmp runs items →
      runs.length ≤ fuel → mergeSpills D cmp target parallel fuel runs = .error e →
      ∃ l, D.writeRun l = .error e := by
  intro fuel
  induction fuel with
  | zero =>
    intro runs items e _ hfuel he
    rw [mergeSpills, if_neg (by omega)] at he
    cases he
  | succ fuel ih =>
    intro runs items e h hfuel he
    rw [mergeSpills] at he
    split at he
    · rcases Outcome.bind_eq_error he with he | ⟨next, hnext, he⟩
      · exact mergePass_error hp h he
      · obtain ⟨hholds, hlen⟩ := mergePass_spec hp h hnext
        exact ih hholds (by omega) he
    · cases he

theorem spill_spec {s : Sizing α} {held items : List α} {runs out : List D.Run} (h : D.Holds cmp runs items)
    (hout : spill D cmp s held runs = .ok out) : D.Holds cmp out (items ++ held) := by
  unfold spill at hout
  split at hout
  · rename_i hempty
    obtain rfl := Except.ok.inj hout
    rw [List.isEmpty_iff.mp hempty, List.append_nil]
    exact h
  · split at hout
    · cases hout
    · obtain ⟨run, hrun, hout⟩ := Outcome.bind_eq_ok.mp hout
      have hone : D.Holds cmp (runs ++ [run]) (items ++ held) :=
        h.append ((Disk.Holds.single hrun (pairwise_sorted held)).congr (sameTies_sorted held))
      dsimp only at hout
      split at hout
      · exact (mergeSpills_spec (Nat.le_max_right _ _) hone hout).1
      · obtain rfl := Except.ok.inj hout
        exact hone

/-- Where the sort fails: it may not write to the disk, or a run cannot be written. -/
def Fails (D : Disk α) (s : Sizing α) (e : SortError) : Prop :=
  (s.diskAllowed = false ∧ e = refused s.budget) ∨ ∃ l, D.writeRun l = .error e

theorem Fails.ne_running {s : Sizing α} {e : SortError} (h : Fails D s e) : e ≠ .running := by
  rintro rfl
  rcases h with ⟨-, hbad⟩ | ⟨l, hbad⟩
  · cases hbad
  · exact D.writeRun_ne_running l hbad

theorem spill_error {s : Sizing α} {held items : List α} {runs : List D.Run} {e : SortError}
    (h : D.Holds cmp runs items) (he : spill D cmp s held runs = .error e) : Fails D s e := by
  unfold spill at he
  split at he
  · cases he
  · split at he
    · rename_i hdisk
      exact .inl ⟨by simpa using hdisk, (Except.error.inj he).symm⟩
    · rcases Outcome.bind_eq_error he with he | ⟨run, hrun, he⟩
      · exact .inr ⟨_, he⟩
      · have hone : D.Holds cmp (runs ++ [run]) (items ++ held) :=
          h.append ((Disk.Holds.single hrun (pairwise_sorted held)).congr (sameTies_sorted held))
        dsimp only at he
        split at he
        · exact .inr (mergeSpills_error (Nat.le_max_right _ _) hone (Nat.le_refl _) he)
        · cases he

/-- The runs and what is held are the items read. -/
def Held.Reads (h : Held D) (cmp : α → α → Ordering) (items : List α) : Prop :=
  ∃ written, D.Holds cmp h.runs written ∧ SameTies (leOf cmp) (written ++ h.held) items

theorem Held.Reads.push {s : Sizing α} {h h' : Held D} {items : List α} {item : α} (hr : h.Reads cmp items)
    (hpush : h.push D cmp s item = .ok h') : h'.Reads cmp (items ++ [item]) := by
  obtain ⟨written, hholds, hties⟩ := hr
  have hmore : SameTies (leOf cmp) (written ++ (h.held ++ [item])) (items ++ [item]) := by
    rw [← List.append_assoc]
    exact hties.append (.refl _)
  unfold Held.push at hpush
  dsimp only at hpush
  split at hpush
  · obtain ⟨runs, hruns, hpush⟩ := Outcome.bind_eq_ok.mp hpush
    obtain rfl := Except.ok.inj hpush
    refine ⟨_, spill_spec hholds hruns, ?_⟩
    rw [List.append_nil]
    exact hmore
  · obtain rfl := Except.ok.inj hpush
    exact ⟨written, hholds, hmore⟩

theorem Held.push_error {s : Sizing α} {h : Held D} {items : List α} {item : α} {e : SortError}
    (hr : h.Reads cmp items) (he : h.push D cmp s item = .error e) : Fails D s e := by
  obtain ⟨written, hholds, -⟩ := hr
  unfold Held.push at he
  dsimp only at he
  split at he
  · rcases Outcome.bind_eq_error he with he | ⟨runs, -, he⟩
    · exact spill_error hholds he
    · cases he
  · cases he

theorem foldlM_push {s : Sizing α} : ∀ {items : List α} {h : Held D} {before : List α}, h.Reads cmp before →
    (∀ h', items.foldlM (Held.push D cmp s) h = .ok h' → h'.Reads cmp (before ++ items)) ∧
      ∀ e, items.foldlM (Held.push D cmp s) h = .error e → Fails D s e := by
  intro items
  induction items with
  | nil =>
    intro h before hr
    refine ⟨fun h' hh => ?_, nofun⟩
    obtain rfl := Except.ok.inj hh
    rw [List.append_nil]
    exact hr
  | cons item items ih =>
    intro h before hr
    rw [List.foldlM_cons]
    constructor
    · intro h' hh
      obtain ⟨mid, hmid, hh⟩ := Outcome.bind_eq_ok.mp hh
      have hread := (ih (hr.push hmid)).1 h' hh
      rwa [List.append_assoc] at hread
    · intro e he
      rcases Outcome.bind_eq_error he with he | ⟨mid, hmid, he⟩
      · exact Held.push_error hr he
      · exact (ih (hr.push hmid)).2 e he

theorem mergeRunsOf_spill {s : Sizing α} {items : List α} {h : Held D} (hr : h.Reads cmp items)
    {runs out : List D.Run} (hruns : spill D cmp s h.held h.runs = .ok runs)
    (hout : mergeSpills D cmp s.parallel s.parallel runs.length runs = .ok out) :
    mergeRunsOf D cmp out = .ok (items.mergeSort (leOf cmp)) := by
  obtain ⟨written, hholds, hties⟩ := hr
  have hspilled := (spill_spec hholds hruns).congr hties
  exact mergeRunsOf_eq (mergeSpills_spec (Nat.le_max_right _ _) hspilled hout).1

end spec

/-- What the blocking sort returns, and where it fails. -/
theorem blockingSort_outcome (D : Disk α) (cmp : α → α → Ordering) [Std.TransCmp cmp] (s : Sizing α)
    (items : List α) (limit : Option ℕ) :
    (∀ out, blockingSort D cmp s items limit = .ok out →
      out = match limit with
        | some k => (items.mergeSort (leOf cmp)).take k
        | none => items.mergeSort (leOf cmp)) ∧
    (∀ e, blockingSort D cmp s items limit = .error e → e ≠ .running ∧ Fails D s e) := by
  have hstart : (⟨[], [], 0⟩ : Held D).Reads cmp [] := ⟨[], .nil, .refl _⟩
  obtain ⟨hread, hfail⟩ := @foldlM_push _ _ _ _ s items _ _ hstart
  constructor
  · intro out hout
    cases limit with
    | some k =>
      unfold blockingSort at hout
      dsimp only at hout
      split at hout
      · cases hout
      · exact (Except.ok.inj hout).symm
    | none =>
      obtain ⟨h, hh, hout⟩ := Outcome.bind_eq_ok.mp hout
      have hr := hread h hh
      rw [List.nil_append] at hr
      split at hout
      · rename_i hempty
        obtain ⟨written, hholds, hties⟩ := hr
        rw [List.isEmpty_iff.mp hempty] at hholds
        rw [hholds.eq_nil, List.nil_append] at hties
        rw [← Except.ok.inj hout]
        exact sorted_congr hties
      · obtain ⟨runs, hruns, hout⟩ := Outcome.bind_eq_ok.mp hout
        obtain ⟨runs', hruns', hout⟩ := Outcome.bind_eq_ok.mp hout
        rw [mergeRunsOf_spill hr hruns hruns'] at hout
        exact (Except.ok.inj hout).symm
  · intro e he
    suffices hfails : Fails D s e from ⟨hfails.ne_running, hfails⟩
    cases limit with
    | some k =>
      unfold blockingSort at he
      dsimp only at he
      split at he
      · rename_i hrefused
        exact .inl ⟨hrefused.2.2, (Except.error.inj he).symm⟩
      · cases he
    | none =>
      rcases Outcome.bind_eq_error he with he | ⟨h, hh, he⟩
      · exact hfail e he
      · obtain ⟨written, hholds, hties⟩ := hread h hh
        split at he
        · cases he
        · rcases Outcome.bind_eq_error he with he | ⟨runs, hruns, he⟩
          · exact spill_error hholds he
          · have hspilled := spill_spec hholds hruns
            rcases Outcome.bind_eq_error he with he | ⟨out, hout, he⟩
            · exact .inr (mergeSpills_error (Nat.le_max_right _ _) hspilled (Nat.le_refl _) he)
            · rw [mergeRunsOf_eq (mergeSpills_spec (Nat.le_max_right _ _) hspilled hout).1] at he
              cases he

/-- The blocking sort gives the stable sort of the items, with a limit as many of its first ones, whatever the budget,
    the sizes and the runs. Its passes always end, it fails only where it may not write to the disk or cannot, and
    where it may and can it returns. -/
theorem blockingSort_stable (D : Disk α) (cmp : α → α → Ordering) [Std.TransCmp cmp] (s : Sizing α)
    (items : List α) (limit : Option ℕ) :
    (∀ out, blockingSort D cmp s items limit = .ok out →
      out = match limit with
        | some k => (items.mergeSort (leOf cmp)).take k
        | none => items.mergeSort (leOf cmp)) ∧
    (∀ e, blockingSort D cmp s items limit = .error e → e ≠ .running ∧ Fails D s e) ∧
    (s.diskAllowed = true → (∀ l, ∃ run, D.writeRun l = .ok run) →
      ∃ out, blockingSort D cmp s items limit = .ok out) := by
  obtain ⟨hok, herror⟩ := blockingSort_outcome D cmp s items limit
  refine ⟨hok, herror, fun hdisk hwrite => ?_⟩
  cases hout : blockingSort D cmp s items limit with
  | ok out => exact ⟨out, rfl⟩
  | error e =>
    rcases (herror e hout).2 with ⟨hbad, -⟩ | ⟨l, hbad⟩
    · rw [hdisk] at hbad
      cases hbad
    · obtain ⟨run, hrun⟩ := hwrite l
      rw [hrun] at hbad
      cases hbad

/-- A disk that keeps the lists themselves. -/
def listDisk (α : Type) : Disk α where
  Run := List α
  write items := .ok items
  read run := .ok run
  reads_back items run h := by
    cases h
    rfl

/-- Every item spills: four runs of one item, merged two at a time. -/
theorem blockingSort_stable_spilled :
    let s : Sizing (ℕ × ℕ) := ⟨.queryLayer, 200, 20, fun _ => 100, true⟩
    blockingSort (listDisk (ℕ × ℕ)) (compareOn Prod.fst) s [(2, 0), (1, 1), (2, 2), (1, 3)] none =
      .ok [(1, 1), (1, 3), (2, 0), (2, 2)] := by
  intro s
  obtain ⟨hok, -, hreturns⟩ := blockingSort_stable (listDisk (ℕ × ℕ)) (compareOn Prod.fst) s
    [(2, 0), (1, 1), (2, 2), (1, 3)] none
  obtain ⟨out, hout⟩ := hreturns rfl fun l => ⟨l, rfl⟩
  have hgt : compare 2 1 = Ordering.gt := rfl
  rw [hout, hok out hout]
  simp [List.mergeSort, List.MergeSort.Internal.splitInTwo, leOf, compareOn, hgt]

end Secantus.Sorter
