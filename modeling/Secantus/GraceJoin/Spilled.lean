/-
  join_spilled: one partition joined, split again while its right rows are past the budget.

  Rows of different partitions never match, so what a partition adds to the output (`contribution`) is the sum
  of what its parts add. The left rows of `every` meet each partition; which of them matched is carried along,
  and their NULL extensions are dropped until the last partition has been joined.
-/
import Mathlib.Algebra.BigOperators.Fin
import Secantus.GraceJoin.Rows

namespace Secantus.GraceJoin

open Secantus.Library

variable {α β γ ρ : Type*}

/-- One side's rows, split into files. -/
abbrev Spools (ρ : Type*) := Fin PARTITIONS → List ρ

namespace Spools

def empty : Spools ρ := fun _ => []

def push (parts : Spools ρ) (p : Fin PARTITIONS) (d : ρ) : Spools ρ := Function.update parts p (parts p ++ [d])

/-- The rows of all the files. -/
def total (parts : Spools ρ) : Multiset ρ := ∑ p, (parts p : Multiset ρ)

@[simp] theorem total_empty : (empty : Spools ρ).total = 0 := Finset.sum_const_zero

theorem total_push (parts : Spools ρ) (p : Fin PARTITIONS) (d : ρ) :
    (parts.push p d).total = parts.total + {d} := by
  have hrest : ∑ q ∈ Finset.univ.erase p, (parts.push p d q : Multiset ρ) =
      ∑ q ∈ Finset.univ.erase p, (parts q : Multiset ρ) := by
    refine Finset.sum_congr rfl fun q hq => ?_
    rw [push, Function.update_of_ne (Finset.ne_of_mem_erase hq)]
  unfold total
  rw [← Finset.add_sum_erase _ _ (Finset.mem_univ p), hrest, ← Finset.add_sum_erase _ _ (Finset.mem_univ p),
    push, Function.update_self, ← Multiset.coe_add, Multiset.coe_singleton]
  ac_rfl

theorem mem_push {parts : Spools ρ} {p q : Fin PARTITIONS} {d e : ρ} (h : e ∈ parts.push p d q) :
    e ∈ parts q ∨ e = d ∧ q = p := by
  unfold push at h
  by_cases hq : q = p
  · subst hq
    rw [Function.update_self, List.mem_append, List.mem_singleton] at h
    exact h.imp_right fun he => ⟨he, rfl⟩
  · rw [Function.update_of_ne hq] at h
    exact .inl h

end Spools

/-- A row's hash key; a row without one has the empty key. -/
def hashKey (key : ρ → KeyClass) (d : ρ) : List String :=
  match key d with
  | .key k => k
  | _ => []

def split (h : Handler β γ) (key : ρ → KeyClass) (rows : List (Numbered ρ)) (depth : ℕ) : Spools (Numbered ρ) :=
  rows.foldl (fun parts d => parts.push (h.partitionOf (hashKey key d.row) depth) d) .empty

/-- What the joins so far have handed on, and the `every` rows they matched. -/
structure Progress (γ : Type*) where
  matched : Finset ℕ
  out : List (List (Joined γ))

/-- One batch of joined rows, without the NULL extensions of `every` rows: they are decided after all of them. -/
def keepJoined (every : ℕ → Bool) : Finset ℕ → List (Joined γ) → Finset ℕ × List (Joined γ)
  | matched, [] => (matched, [])
  | matched, d :: docs =>
    match d.lseq.filter every, d.rseq with
    | some _, none => keepJoined every matched docs
    | some n, some _ =>
      let (matched, kept) := keepJoined every (insert n matched) docs
      (matched, d :: kept)
    | none, _ =>
      let (matched, kept) := keepJoined every matched docs
      (matched, d :: kept)

def takeJoined (every : ℕ → Bool) (s : Progress γ) (emitted : List (List (Joined γ))) : Progress γ :=
  emitted.foldl (fun s docs =>
    let (matched, kept) := keepJoined every s.matched docs
    ⟨matched, s.out ++ [kept]⟩) s

variable (h : Handler β γ) (ops : GraceOps α β γ) (every : List (Numbered α)) (everySeqs : Finset ℕ)

/-- One partition's right rows joined in memory with its left rows, and with `every`. -/
def joinPartition (right : List (Numbered β)) (left : List (Numbered α)) (s : Progress γ) : Progress γ :=
  let feedEvery := !right.isEmpty && !every.isEmpty
  let feed := batches left ++ if feedEvery then [every] else []
  takeJoined (· ∈ everySeqs) s (ops.join right feed false)

def joinSpilled (budget depth : ℕ) (right : List (Numbered β)) (left : List (Numbered α)) (s : Progress γ) :
    Progress γ :=
  if (right.length = 0 ∧ (left.length = 0 ∨ ops.outerLeft = false)) ∨
      (left.length = 0 ∧ every = [] ∧ ops.outerRight = false) then s
  else if _h : (right.map h.spoolBytes).sum > budget ∧ right.length > 1 ∧ depth < MAX_DEPTH then
    let rparts := split h ops.rightKey right (depth + 1)
    let lparts := split h ops.leftKey left (depth + 1)
    -- one key's rows cannot be split
    let deeper := if ∃ p, (rparts p).length = right.length then MAX_DEPTH else depth + 1
    (List.finRange PARTITIONS).foldl (fun s p => joinSpilled budget deeper (rparts p) (lparts p) s) s
  else joinPartition ops every everySeqs right left s
termination_by MAX_DEPTH - depth
decreasing_by
  obtain ⟨_, _, hdepth⟩ := _h
  split
  · omega
  · omega

/-! ## Splitting -/

theorem split_spec (key : ρ → KeyClass) (rows : List (Numbered ρ)) (depth : ℕ) :
    (split h key rows depth).total = rows ∧
      ∀ p, ∀ d ∈ split h key rows depth p, d ∈ rows ∧ h.partitionOf (hashKey key d.row) depth = p := by
  unfold split
  induction rows using List.reverseRecOn with
  | nil => exact ⟨Spools.total_empty, fun p d hd => absurd hd List.not_mem_nil⟩
  | append_singleton rows d ih =>
    rw [List.foldl_append, List.foldl_cons, List.foldl_nil]
    refine ⟨?_, fun p e he => ?_⟩
    · rw [Spools.total_push, ih.1, ← Multiset.coe_singleton, Multiset.coe_add]
    · rcases Spools.mem_push he with he | ⟨rfl, rfl⟩
      · exact ⟨List.mem_append_left _ (ih.2 p e he).1, (ih.2 p e he).2⟩
      · exact ⟨List.mem_append_right _ List.mem_cons_self, rfl⟩

/-! ## What the joined rows add -/

/-- A joined row that is handed on at once. -/
def kept (every : ℕ → Bool) (d : Joined γ) : Bool := (d.lseq.filter every).isNone || d.rseq.isSome

theorem keepJoined_spec (every : ℕ → Bool) (m : Finset ℕ) (docs : List (Joined γ)) :
    (keepJoined every m docs).2 = docs.filter (kept every) ∧
      ∀ n, n ∈ (keepJoined every m docs).1 ↔
        n ∈ m ∨ every n = true ∧ ∃ d ∈ docs, d.lseq = some n ∧ d.rseq.isSome = true := by
  fun_induction keepJoined every m docs with
  | case1 m => simp
  | case2 m d docs x hr hx ih =>
    refine ⟨by rw [List.filter_cons, ih.1]; simp [kept, hx, hr], fun n => ?_⟩
    rw [ih.2]
    simp [hr]
  | case3 m d docs n x hr hx m' kept' heq ih =>
    obtain ⟨hl, hev⟩ := Option.filter_eq_some_iff.mp hx
    rw [heq] at ih
    have hk : kept every d = true := by simp [kept, hx, hr]
    refine ⟨?_, fun k => ?_⟩
    · rw [List.filter_cons_of_pos hk]
      exact congrArg _ ih.1
    rw [ih.2]
    simp only [Finset.mem_insert, List.mem_cons, exists_eq_or_imp, hl, hr, Option.some.injEq,
      Option.isSome_some, and_true]
    grind
  | case4 m d docs hx m' kept' heq ih =>
    rw [heq] at ih
    have hk : kept every d = true := by simp [kept, hx]
    refine ⟨?_, fun k => ?_⟩
    · rw [List.filter_cons_of_pos hk]
      exact congrArg _ ih.1
    rw [ih.2]
    have hnot : every k = true → d.lseq ≠ some k := by
      intro hk hl
      rw [hl, Option.filter_some_pos hk] at hx
      cases hx
    simp only [List.mem_cons, exists_eq_or_imp]
    grind

theorem takeJoined_spec (every : ℕ → Bool) (s : Progress γ) (emitted : List (List (Joined γ))) :
    (takeJoined every s emitted).out.flatten = s.out.flatten ++ emitted.flatten.filter (kept every) ∧
      ∀ n, n ∈ (takeJoined every s emitted).matched ↔
        n ∈ s.matched ∨ every n = true ∧ ∃ d ∈ emitted.flatten, d.lseq = some n ∧ d.rseq.isSome = true := by
  unfold takeJoined
  induction emitted generalizing s with
  | nil => simp
  | cons docs emitted ih =>
    obtain ⟨hkept, hmatched⟩ := keepJoined_spec every s.matched docs
    rw [List.foldl_cons]
    obtain ⟨hout, hm⟩ := ih ⟨(keepJoined every s.matched docs).1, s.out ++ [(keepJoined every s.matched docs).2]⟩
    refine ⟨?_, fun n => ?_⟩
    · rw [hout, hkept]
      simp
    · rw [hm, hmatched, List.flatten_cons]
      simp only [List.mem_append, or_and_right, exists_or, and_or_left, or_assoc]

/-- A row of the join that has both its numbers is made of two rows that match. -/
theorem exists_paired_iff (P : Plain α β γ) (outerLeft outerRight : Bool) (right : List (Numbered β))
    (left : List (Numbered α)) (n : ℕ) :
    (∃ d ∈ P.withNumbers.join outerLeft outerRight right left, d.lseq = some n ∧ d.rseq.isSome = true) ↔
      ∃ l ∈ left, l.seq = n ∧ ∃ r ∈ right, P.pairs l.row r.row = true := by
  have hmem : ∀ d, d ∈ P.withNumbers.join outerLeft outerRight right left ↔ d ∈
      P.withNumbers.inner left right + P.withNumbers.leftAlone outerLeft left right +
        P.withNumbers.rightAlone outerRight left right := by
    intro d
    rw [← Plain.coe_join, Multiset.mem_coe]
  constructor
  · rintro ⟨d, hd, hl, hr⟩
    rw [hmem, Multiset.mem_add, Multiset.mem_add] at hd
    obtain (hd | hd) | hd := hd
    · obtain ⟨⟨l, r⟩, hp, rfl⟩ := Multiset.mem_map.mp hd
      obtain ⟨hprod, hpair⟩ := Multiset.mem_filter.mp hp
      obtain ⟨hleft, hright⟩ := Multiset.mem_product.mp hprod
      exact ⟨l, hleft, Option.some.inj hl, r, hright, hpair⟩
    · unfold Plain.leftAlone at hd
      split at hd
      · obtain ⟨l, _, rfl⟩ := Multiset.mem_map.mp hd
        cases hr
      · exact absurd hd (Multiset.notMem_zero d)
    · unfold Plain.rightAlone at hd
      split at hd
      · obtain ⟨r, _, rfl⟩ := Multiset.mem_map.mp hd
        cases hl
      · exact absurd hd (Multiset.notMem_zero d)
  · rintro ⟨l, hl, hn, r, hr, hpair⟩
    refine ⟨P.withNumbers.both l r, ?_, congrArg some hn, rfl⟩
    rw [hmem, Multiset.mem_add, Multiset.mem_add]
    refine .inl (.inl (Multiset.mem_map.mpr ⟨(l, r), ?_, rfl⟩))
    exact Multiset.mem_filter.mpr ⟨Multiset.mem_product.mpr ⟨hl, hr⟩, hpair⟩

/-- What the join of some right and left rows adds to the output while the `every` rows `E` are undecided. -/
def contribution (P : Plain α β γ) (E L : Multiset (Numbered α)) (R : Multiset (Numbered β)) :
    Multiset (Joined γ) :=
  P.withNumbers.inner (L + E) R + P.withNumbers.leftAlone ops.outerLeft L R +
    P.withNumbers.rightAlone ops.outerRight (L + E) R

/-- The joined rows and the matched `every` rows that the join of `R` with `L` and `E` adds. -/
structure Adds (P : Plain α β γ) (E L : Multiset (Numbered α)) (R : Multiset (Numbered β))
    (s s' : Progress γ) : Prop where
  out : (s'.out.flatten : Multiset (Joined γ)) = s.out.flatten + contribution ops P E L R
  matched : ∀ n, n ∈ s'.matched ↔
    n ∈ s.matched ∨ ∃ e ∈ E, e.seq = n ∧ ∃ r ∈ R, P.pairs e.row r.row = true

theorem filter_kept_join (P : Plain α β γ) (everyOf : ℕ → Bool) (right : List (Numbered β))
    {left rows : List (Numbered α)} (hleft : ∀ l ∈ left, everyOf l.seq = false)
    (hrows : ∀ e ∈ rows, everyOf e.seq = true) :
    (((P.withNumbers.join ops.outerLeft ops.outerRight right (left ++ rows)).filter (kept everyOf) :
      List (Joined γ)) : Multiset (Joined γ)) = contribution ops P rows left right := by
  have hinner : (P.withNumbers.inner (left + rows : Multiset (Numbered α)) right).filter
      (kept everyOf · = true) = P.withNumbers.inner (left + rows : Multiset (Numbered α)) right := by
    refine Multiset.filter_eq_self.mpr fun d hd => ?_
    obtain ⟨p, _, rfl⟩ := Multiset.mem_map.mp hd
    exact Bool.or_true _
  have hright : (P.withNumbers.rightAlone ops.outerRight (left + rows : Multiset (Numbered α)) right).filter
      (kept everyOf · = true) =
      P.withNumbers.rightAlone ops.outerRight (left + rows : Multiset (Numbered α)) right := by
    refine Multiset.filter_eq_self.mpr fun d hd => ?_
    unfold Plain.rightAlone at hd
    split at hd
    · obtain ⟨r, _, rfl⟩ := Multiset.mem_map.mp hd
      rfl
    · exact absurd hd (Multiset.notMem_zero d)
  have halone : (P.withNumbers.leftAlone ops.outerLeft (left + rows : Multiset (Numbered α)) right).filter
      (kept everyOf · = true) = P.withNumbers.leftAlone ops.outerLeft left right := by
    unfold Plain.leftAlone
    split
    · rw [dangling_add_left, Multiset.map_add, Multiset.filter_add, Multiset.filter_eq_self.mpr,
        Multiset.filter_eq_nil.mpr, add_zero]
      · intro d hd
        obtain ⟨e, he, rfl⟩ := Multiset.mem_map.mp hd
        have hev := hrows e (Multiset.mem_coe.mp (Multiset.mem_filter.mp he).1)
        simp [kept, Plain.withNumbers, hev]
      · intro d hd
        obtain ⟨l, hl, rfl⟩ := Multiset.mem_map.mp hd
        have hev := hleft l (Multiset.mem_coe.mp (Multiset.mem_filter.mp hl).1)
        simp [kept, Plain.withNumbers, hev]
    · rfl
  have hcoe : ∀ docs : List (Joined γ), ((docs.filter (kept everyOf) : List (Joined γ)) : Multiset (Joined γ)) =
      (docs : Multiset (Joined γ)).filter (kept everyOf · = true) := by
    intro docs
    rw [Multiset.filter_coe]
    simp only [Bool.decide_eq_true]
  rw [hcoe, Plain.coe_join, ← Multiset.coe_add, Multiset.filter_add, Multiset.filter_add, hinner, hright, halone]
  rfl

/-- Joining some rows in memory adds their contribution. -/
theorem adds_takeJoined (P : Plain α β γ) (everyOf : ℕ → Bool) {right : List (Numbered β)}
    {left rows : List (Numbered α)} (hleft : ∀ l ∈ left, everyOf l.seq = false)
    (hrows : ∀ e ∈ rows, everyOf e.seq = true) {emitted : List (List (Joined γ))}
    (hjoin : emitted.flatten.Perm (P.withNumbers.join ops.outerLeft ops.outerRight right (left ++ rows)))
    (s : Progress γ) : Adds ops P rows left right s (takeJoined everyOf s emitted) := by
  obtain ⟨hout, hmatched⟩ := takeJoined_spec everyOf s emitted
  refine ⟨?_, fun n => ?_⟩
  · rw [hout, ← Multiset.coe_add, Multiset.coe_eq_coe.mpr (hjoin.filter _),
      filter_kept_join ops P everyOf right hleft hrows]
  · rw [hmatched]
    simp only [hjoin.mem_iff]
    rw [exists_paired_iff]
    simp only [Multiset.mem_coe, List.mem_append]
    constructor
    · rintro (hn | ⟨hev, l, hl, rfl, hpair⟩)
      · exact .inl hn
      · rcases hl with hl | hl
        · exact absurd hev (by simp [hleft l hl])
        · exact .inr ⟨l, hl, rfl, hpair⟩
    · rintro (hn | ⟨e, he, rfl, hpair⟩)
      · exact .inl hn
      · exact .inr ⟨hrows e he, e, .inr he, rfl, hpair⟩

/-! ## Partitions -/

/-- Parts whose rows match within a part only add up to the whole. -/
theorem contribution_sum (P : Plain α β γ) (E : Multiset (Numbered α)) {L : Fin PARTITIONS → Multiset (Numbered α)}
    {R : Fin PARTITIONS → Multiset (Numbered β)} (hsep : Separated P.withNumbers.Pairs L R) :
    ∑ p, contribution ops P E (L p) (R p) = contribution ops P E (∑ p, L p) (∑ p, R p) := by
  have hinner : ∑ p, P.withNumbers.inner (L p + E) (R p) =
      P.withNumbers.inner ((∑ p, L p) + E) (∑ p, R p) := by
    unfold Plain.inner
    rw [matched_add_left, matched_sum _ hsep, matched_sum_right, ← Finset.sum_add_distrib, map_sum_multiset]
    simp only [matched_add_left]
  have hleft : ∑ p, P.withNumbers.leftAlone ops.outerLeft (L p) (R p) =
      P.withNumbers.leftAlone ops.outerLeft (∑ p, L p) (∑ p, R p) := by
    unfold Plain.leftAlone
    cases ops.outerLeft
    · exact Finset.sum_const_zero
    · rw [if_pos rfl, dangling_sum _ hsep, map_sum_multiset]
      rfl
  have hright : ∑ p, P.withNumbers.rightAlone ops.outerRight (L p + E) (R p) =
      P.withNumbers.rightAlone ops.outerRight ((∑ p, L p) + E) (∑ p, R p) := by
    have hflip : Separated (fun r l => P.withNumbers.Pairs l r) R L := fun i j hij => (hsep j i hij.symm).flip
    unfold Plain.rightAlone
    cases ops.outerRight
    · exact Finset.sum_const_zero
    · simp only [if_true, dangling_add]
      rw [dangling_sum _ hflip, dangling_sum_left, map_sum_multiset]
  unfold contribution
  rw [Finset.sum_add_distrib, Finset.sum_add_distrib, hinner, hleft, hright]

theorem adds_foldl (P : Plain α β γ) (E : Multiset (Numbered α)) {L : Fin PARTITIONS → Multiset (Numbered α)}
    {R : Fin PARTITIONS → Multiset (Numbered β)} {step : Progress γ → Fin PARTITIONS → Progress γ}
    (hstep : ∀ p s, Adds ops P E (L p) (R p) s (step s p)) (parts : List (Fin PARTITIONS)) (s : Progress γ) :
    ((parts.foldl step s).out.flatten : Multiset (Joined γ)) =
        s.out.flatten + (parts.map fun p => contribution ops P E (L p) (R p)).sum ∧
      ∀ n, n ∈ (parts.foldl step s).matched ↔ n ∈ s.matched ∨
        ∃ p ∈ parts, ∃ e ∈ E, e.seq = n ∧ ∃ r ∈ R p, P.pairs e.row r.row = true := by
  induction parts generalizing s with
  | nil => simp
  | cons p parts ih =>
    obtain ⟨hout, hmatched⟩ := ih (step s p)
    rw [List.foldl_cons]
    refine ⟨?_, fun n => ?_⟩
    · rw [hout, (hstep p s).out, List.map_cons, List.sum_cons, add_assoc]
    · rw [hmatched, (hstep p s).matched]
      simp only [List.mem_cons, or_and_right, exists_or, exists_eq_left, or_assoc]

/-- Joining every part adds what the join of the two sides adds. -/
theorem adds_parts (P : Plain α β γ) (E : Multiset (Numbered α)) {L : Fin PARTITIONS → Multiset (Numbered α)}
    {R : Fin PARTITIONS → Multiset (Numbered β)} {step : Progress γ → Fin PARTITIONS → Progress γ}
    (hsep : Separated P.withNumbers.Pairs L R) (hstep : ∀ p s, Adds ops P E (L p) (R p) s (step s p))
    (s : Progress γ) :
    Adds ops P E (∑ p, L p) (∑ p, R p) s ((List.finRange PARTITIONS).foldl step s) := by
  obtain ⟨hout, hmatched⟩ := adds_foldl ops P E hstep (List.finRange PARTITIONS) s
  refine ⟨?_, fun n => ?_⟩
  · rw [hout, ← Fin.sum_univ_def, contribution_sum ops P E hsep]
  · rw [hmatched]
    simp only [List.mem_finRange, true_and, Multiset.mem_sum, Finset.mem_univ]
    constructor
    · rintro (hn | ⟨p, e, he, hseq, r, hr, hpair⟩)
      · exact .inl hn
      · exact .inr ⟨e, he, hseq, r, ⟨p, hr⟩, hpair⟩
    · rintro (hn | ⟨e, he, hseq, r, ⟨p, hr⟩, hpair⟩)
      · exact .inl hn
      · exact .inr ⟨p, e, he, hseq, r, hr, hpair⟩

/-- Rows of different parts have different keys. -/
theorem separated_split {ops : GraceOps α β γ} {P : Plain α β γ} (hops : ops.Joins P) (depth : ℕ)
    {right : List (Numbered β)} {left : List (Numbered α)}
    (hright : ∀ r ∈ right, ∃ k, ops.rightKey r.row = .key k)
    (hleft : ∀ l ∈ left, ∃ k, ops.leftKey l.row = .key k) :
    Separated P.withNumbers.Pairs (fun p => (split h ops.leftKey left depth p : Multiset (Numbered α)))
      fun p => (split h ops.rightKey right depth p : Multiset (Numbered β)) := by
  intro p q hpq l hl r hr
  obtain ⟨hl, hpart⟩ := (split_spec h ops.leftKey left depth).2 p l hl
  obtain ⟨hr, hpart'⟩ := (split_spec h ops.rightKey right depth).2 q r hr
  obtain ⟨k, hk⟩ := hleft l hl
  obtain ⟨k', hk'⟩ := hright r hr
  have hne : k ≠ k' := by
    rintro rfl
    rw [hashKey, hk] at hpart
    rw [hashKey, hk'] at hpart'
    exact hpq (hpart.symm.trans hpart')
  exact Plain.not_pairs (hops.keys l.row r.row k k' hk hk' hne)

variable {ops every everySeqs}

theorem adds_joinPartition {P : Plain α β γ} (hops : ops.Joins P) (hevery : ∀ e ∈ every, e.seq ∈ everySeqs)
    (right : List (Numbered β)) {left : List (Numbered α)} (hleft : ∀ l ∈ left, l.seq ∉ everySeqs)
    (s : Progress γ) : Adds ops P every left right s (joinPartition ops every everySeqs right left s) := by
  have hleft' : ∀ l ∈ left, decide (l.seq ∈ everySeqs) = false := fun l hl => decide_eq_false (hleft l hl)
  have hevery' : ∀ e ∈ every, decide (e.seq ∈ everySeqs) = true := fun e he => decide_eq_true (hevery e he)
  unfold joinPartition
  dsimp only
  by_cases hfeed : (!right.isEmpty && !every.isEmpty) = true
  · refine adds_takeJoined ops P _ hleft' hevery' ?_ s
    refine (hops.join right _).trans ?_
    rw [if_pos hfeed, List.flatten_append, flatten_batches, List.flatten_singleton]
  · have halone := adds_takeJoined ops P (· ∈ everySeqs) hleft' (fun e he => absurd he List.not_mem_nil)
      (hops.join right (batches left ++ if (!right.isEmpty && !every.isEmpty) = true then [every] else []) |>.trans
        (by rw [if_neg hfeed, List.append_nil, flatten_batches, List.append_nil])) s
    by_cases hempty : every = []
    · rw [hempty] at halone ⊢
      exact halone
    · -- no right rows: the `every` rows are not fed, and would add nothing
      have hnil : right = [] := by
        cases right with
        | nil => rfl
        | cons r right => exact absurd (by simp [hempty]) hfeed
      subst hnil
      refine ⟨?_, fun n => ?_⟩
      · rw [halone.out]
        unfold contribution Plain.inner Plain.rightAlone
        simp only [Multiset.coe_nil, matched_zero_right, dangling_zero_left]
      · rw [halone.matched]
        simp

/-- With nothing to return nothing is added. -/
theorem adds_nothing (P : Plain α β γ) {right : List (Numbered β)} {left : List (Numbered α)}
    (hnone : (right.length = 0 ∧ (left.length = 0 ∨ ops.outerLeft = false)) ∨
      (left.length = 0 ∧ every = [] ∧ ops.outerRight = false)) (s : Progress γ) :
    Adds ops P every left right s s := by
  obtain ⟨hright, hleft⟩ | ⟨hleft, hevery, hright⟩ := hnone
  · have hnil : right = [] := List.length_eq_zero_iff.mp hright
    have halone : P.withNumbers.leftAlone ops.outerLeft (left : Multiset (Numbered α)) 0 = 0 := by
      unfold Plain.leftAlone
      rcases hleft with hleft | hleft
      · rw [List.length_eq_zero_iff.mp hleft]
        exact ite_self 0
      · rw [hleft]
        rfl
    subst hnil
    refine ⟨?_, fun n => by simp⟩
    unfold contribution Plain.inner Plain.rightAlone
    simp only [Multiset.coe_nil, matched_zero_right, dangling_zero_left, halone, Multiset.map_zero, ite_self,
      add_zero]
  · have hnil : left = [] := List.length_eq_zero_iff.mp hleft
    subst hnil hevery
    refine ⟨?_, fun n => by simp⟩
    unfold contribution Plain.inner Plain.leftAlone Plain.rightAlone
    simp [hright]

/-- One partition adds what the join of its rows adds, however often it is split. -/
theorem adds_joinSpilled {P : Plain α β γ} (hops : ops.Joins P) (hevery : ∀ e ∈ every, e.seq ∈ everySeqs)
    (budget depth : ℕ) (right : List (Numbered β)) (left : List (Numbered α))
    (hright : ∀ r ∈ right, ∃ k, ops.rightKey r.row = .key k)
    (hleft : ∀ l ∈ left, (∃ k, ops.leftKey l.row = .key k) ∧ l.seq ∉ everySeqs) (s : Progress γ) :
    Adds ops P every left right s (joinSpilled h ops every everySeqs budget depth right left s) := by
  induction hk : MAX_DEPTH - depth using Nat.strong_induction_on generalizing depth right left s with
  | _ k ih =>
    rw [joinSpilled]
    split
    · next hnone => exact adds_nothing P hnone s
    · split
      · next hsplit =>
        obtain ⟨_, _, hdepth⟩ := hsplit
        have hl : ∑ p, (split h ops.leftKey left (depth + 1) p : Multiset (Numbered α)) = left :=
          (split_spec h ops.leftKey left (depth + 1)).1
        have hr : ∑ p, (split h ops.rightKey right (depth + 1) p : Multiset (Numbered β)) = right :=
          (split_spec h ops.rightKey right (depth + 1)).1
        have hsep := separated_split h hops (depth + 1) hright fun l hl => (hleft l hl).1
        rw [← hl, ← hr]
        refine adds_parts ops P every hsep (fun p s => ?_) s
        refine ih _ ?_ _ _ _ (fun r hr => ?_) (fun l hl => ?_) s rfl
        · split <;> omega
        · exact hright r ((split_spec h ops.rightKey right (depth + 1)).2 p r hr).1
        · exact hleft l ((split_spec h ops.leftKey left (depth + 1)).2 p l hl).1
      · exact adds_joinPartition hops hevery right (fun l hl => (hleft l hl).2) s

end Secantus.GraceJoin
