/-
  Runs of a state machine given by a step function: a list of events folded over a state.

  An invariant of the steps is one of the runs; where the steps keep it only when each meets a
  condition in the state it starts from, the run has to meet that condition at every step.

  Merging sorted runs. `popLeast` takes the least of the runs' heads, of equal heads that of the earliest run,
  and `mergeRuns` takes heads until every run is empty. Over a total preorder the merge of sorted runs is a sorted
  permutation of all of them (`mergeRuns_perm`, `mergeRuns_pairwise`).
-/
import Mathlib.Data.List.Basic
import Mathlib.Data.List.Flatten
import Mathlib.Data.List.Sort

namespace Secantus.Library

variable {σ ε : Type*} (step : σ → ε → σ)

/-- What every step keeps, every run keeps. -/
theorem run_invariant {P : σ → Prop} (h : ∀ s e, P s → P (step s e)) (events : List ε) (s : σ)
    (hs : P s) : P (events.foldl step s) := by
  induction events generalizing s with
  | nil => exact hs
  | cons e events ih => exact ih (step s e) (h s e hs)

/-- Each event of a run meets `C` in the state it happens in. -/
def StepsMeet (C : σ → ε → Prop) : σ → List ε → Prop
  | _, [] => True
  | s, e :: events => C s e ∧ StepsMeet C (step s e) events

theorem stepsMeet_append (C : σ → ε → Prop) (es es' : List ε) (s : σ) :
    StepsMeet step C s (es ++ es') ↔
      StepsMeet step C s es ∧ StepsMeet step C (es.foldl step s) es' := by
  induction es generalizing s with
  | nil => simp [StepsMeet]
  | cons e es ih =>
    show C s e ∧ StepsMeet step C (step s e) (es ++ es') ↔
      (C s e ∧ StepsMeet step C (step s e) es) ∧ _
    rw [ih, and_assoc]
    rfl

/-- What every step that meets `C` keeps, every run of such steps keeps. -/
theorem run_invariant_of_meets {C : σ → ε → Prop} {P : σ → Prop}
    (h : ∀ s e, C s e → P s → P (step s e)) (events : List ε) (s : σ)
    (hmeets : StepsMeet step C s events) (hs : P s) : P (events.foldl step s) := by
  induction events generalizing s with
  | nil => exact hs
  | cons e events ih => exact ih (step s e) hmeets.2 (h s e hmeets.1 hs)

variable {α : Type*} (le : α → α → Bool)

/-- The least head of the runs, and the runs without it. -/
def popLeast : List (List α) → Option (α × List (List α))
  | [] => none
  | [] :: rest => (popLeast rest).map fun (y, rest') => (y, [] :: rest')
  | (x :: xs) :: rest =>
    match popLeast rest with
    | none => some (x, xs :: rest)
    | some (y, rest') => if le x y then some (x, xs :: rest) else some (y, (x :: xs) :: rest')

theorem popLeast_none {runs : List (List α)} (h : popLeast le runs = none) : runs.flatten = [] := by
  induction runs with
  | nil => rfl
  | cons run rest ih =>
    cases run with
    | nil =>
      rw [popLeast, Option.map_eq_none_iff] at h
      exact ih h
    | cons x xs =>
      rw [popLeast] at h
      split at h
      · cases h
      · split at h <;> cases h

/-- The head is taken from the first run, or from one behind it. -/
theorem popLeast_induction {motive : ∀ {runs rest : List (List α)} {x : α}, popLeast le runs = some (x, rest) → Prop}
    (skip : ∀ others x rest (hpop : popLeast le others = some (x, rest))
      (h : popLeast le ([] :: others) = some (x, [] :: rest)), motive hpop → motive h)
    (own : ∀ a as others (h : popLeast le ((a :: as) :: others) = some (a, as :: others)),
      (∀ y rest (hpop : popLeast le others = some (y, rest)), le a y = true ∧ motive hpop) → motive h)
    (later : ∀ a as others x rest (hpop : popLeast le others = some (x, rest))
      (h : popLeast le ((a :: as) :: others) = some (x, (a :: as) :: rest)), ¬le a x = true → motive hpop → motive h)
    {runs rest : List (List α)} {x : α} (h : popLeast le runs = some (x, rest)) : motive h := by
  induction runs generalizing x rest with
  | nil => cases h
  | cons run others ih =>
    cases run with
    | nil =>
      obtain ⟨⟨y, others'⟩, hpop, heq⟩ := Option.map_eq_some_iff.mp h
      cases heq
      exact skip others _ _ hpop h (ih hpop)
    | cons a as =>
      have hcases := h
      rw [popLeast] at hcases
      split at hcases
      · next hnone =>
        cases hcases
        exact own _ _ _ h fun y rest hpop => nomatch hnone.symm.trans hpop
      · next y others' hpop =>
        split at hcases
        · next hay =>
          cases hcases
          refine own _ _ _ h fun y rest hpop' => ?_
          cases hpop.symm.trans hpop'
          exact ⟨hay, ih hpop'⟩
        · next hay =>
          cases hcases
          exact later _ _ _ _ _ hpop h hay (ih hpop)

theorem popLeast_perm {runs rest : List (List α)} {x : α} (h : popLeast le runs = some (x, rest)) :
    runs.flatten.Perm (x :: rest.flatten) := by
  induction h using popLeast_induction with
  | skip others x rest _ _ ih => exact ih
  | own a as others _ _ => exact .refl _
  | later a as others x rest _ _ _ ih =>
    refine (ih.append_left (a :: as)).trans ?_
    exact List.perm_middle

theorem length_of_popLeast {runs rest : List (List α)} {x : α} (h : popLeast le runs = some (x, rest)) :
    rest.flatten.length < runs.flatten.length := by
  have hlen := (popLeast_perm le h).length_eq
  rw [List.length_cons] at hlen
  omega

theorem length_rest_of_popLeast {runs rest : List (List α)} {x : α} (h : popLeast le runs = some (x, rest)) :
    rest.length = runs.length := by
  induction h using popLeast_induction with
  | skip others x rest _ _ ih => rw [List.length_cons, List.length_cons, ih]
  | own a as others _ _ => rfl
  | later a as others x rest _ _ _ ih => rw [List.length_cons, List.length_cons, ih]

/-- The runs' elements, the least head first. -/
def mergeRuns (runs : List (List α)) : List α :=
  match _h : popLeast le runs with
  | none => []
  | some (x, rest) => x :: mergeRuns rest
termination_by runs.flatten.length
decreasing_by exact length_of_popLeast le _h

theorem mergeRuns_perm (runs : List (List α)) : (mergeRuns le runs).Perm runs.flatten := by
  fun_induction mergeRuns le runs with
  | case1 runs h => rw [popLeast_none le h]
  | case2 runs x rest h ih => exact (ih.cons x).trans (popLeast_perm le h).symm

/-- The runs that are left are the old ones, one of them without its head. -/
theorem pairwise_of_popLeast {runs rest : List (List α)} {x : α} {R : α → α → Prop}
    (h : popLeast le runs = some (x, rest)) (hruns : ∀ run ∈ runs, run.Pairwise R) :
    ∀ run ∈ rest, run.Pairwise R := by
  induction h using popLeast_induction with
  | skip others x rest _ _ ih =>
    exact List.forall_mem_cons.mpr ⟨.nil, ih (List.forall_mem_cons.mp hruns).2⟩
  | own a as others _ _ =>
    obtain ⟨hrun, hothers⟩ := List.forall_mem_cons.mp hruns
    exact List.forall_mem_cons.mpr ⟨(List.pairwise_cons.mp hrun).2, hothers⟩
  | later a as others x rest _ _ _ ih =>
    obtain ⟨hrun, hothers⟩ := List.forall_mem_cons.mp hruns
    exact List.forall_mem_cons.mpr ⟨hrun, ih hothers⟩

/-- Neither of two elements is before the other. -/
def ties (x y : α) : Bool := le x y && le y x

section Preorder

variable {le} (htotal : ∀ x y, le x y = true ∨ le y x = true)
  (htrans : ∀ x y z, le x y = true → le y z = true → le x z = true)

include htotal htrans

theorem popLeast_le {runs rest : List (List α)} {x : α} (h : popLeast le runs = some (x, rest))
    (hruns : ∀ run ∈ runs, run.Pairwise (le · · = true)) : ∀ y ∈ runs.flatten, le x y = true := by
  have hrefl : ∀ z, le z z = true := fun z => (htotal z z).elim id id
  induction h using popLeast_induction with
  | skip others x rest _ _ ih => exact ih (List.forall_mem_cons.mp hruns).2
  | own a as others _ hleast =>
    obtain ⟨hrun, hothers⟩ := List.forall_mem_cons.mp hruns
    have has : ∀ z ∈ a :: as, le a z = true := List.forall_mem_cons.mpr ⟨hrefl a, (List.pairwise_cons.mp hrun).1⟩
    intro z hz
    rw [List.flatten_cons, List.mem_append] at hz
    refine hz.elim (has z) fun hz => ?_
    cases hpop : popLeast le others with
    | none =>
      rw [popLeast_none le hpop] at hz
      exact absurd hz List.not_mem_nil
    | some p =>
      obtain ⟨hay, hy⟩ := hleast p.1 p.2 hpop
      exact htrans _ _ _ hay (hy hothers z hz)
  | later a as others x rest _ _ hax ih =>
    obtain ⟨hrun, hothers⟩ := List.forall_mem_cons.mp hruns
    have hxa : le x a = true := (htotal a x).resolve_left hax
    intro z hz
    rw [List.flatten_cons, List.mem_append] at hz
    refine hz.elim (fun hz => ?_) (ih hothers z)
    rcases List.mem_cons.mp hz with rfl | hz
    · exact hxa
    · exact htrans _ _ _ hxa ((List.pairwise_cons.mp hrun).1 z hz)

theorem mergeRuns_pairwise {runs : List (List α)} (hruns : ∀ run ∈ runs, run.Pairwise (le · · = true)) :
    (mergeRuns le runs).Pairwise (le · · = true) := by
  fun_induction mergeRuns le runs with
  | case1 runs h => exact .nil
  | case2 runs x rest h ih =>
    refine List.pairwise_cons.mpr ⟨?_, ih (pairwise_of_popLeast le h hruns)⟩
    intro y hy
    have hmem : y ∈ rest.flatten := (mergeRuns_perm le rest).mem_iff.mp hy
    exact popLeast_le htotal htrans h hruns y
      ((popLeast_perm le h).mem_iff.mpr (List.mem_cons_of_mem _ hmem))

/-- Of the elements that tie with `c` the least head comes first. -/
theorem filter_popLeast {runs rest : List (List α)} {x : α} (h : popLeast le runs = some (x, rest))
    (hruns : ∀ run ∈ runs, run.Pairwise (le · · = true)) (c : α) :
    runs.flatten.filter (ties le c) = [x].filter (ties le c) ++ rest.flatten.filter (ties le c) := by
  have hrefl : ∀ z, le z z = true := fun z => (htotal z z).elim id id
  induction h using popLeast_induction with
  | skip others x rest _ _ ih => exact ih (List.forall_mem_cons.mp hruns).2
  | own a as others _ _ => exact List.filter_append [a] (as ++ others.flatten)
  | later a as others x rest _ _ hax ih =>
    obtain ⟨hrun, hothers⟩ := List.forall_mem_cons.mp hruns
    have hnone : ties le c x = true → (a :: as).filter (ties le c) = [] := by
      intro hcx
      rw [List.filter_eq_nil_iff]
      intro z hz hcz
      have haz : le a z = true := by
        rcases List.mem_cons.mp hz with rfl | hz
        · exact hrefl z
        · exact (List.pairwise_cons.mp hrun).1 z hz
      rw [ties, Bool.and_eq_true] at hcx hcz
      exact hax (htrans _ _ _ haz (htrans _ _ _ hcz.2 hcx.1))
    rw [List.flatten_cons, List.flatten_cons, List.filter_append, List.filter_append, ih hothers]
    by_cases hcx : ties le c x = true
    · rw [hnone hcx, List.nil_append, List.nil_append]
    · have hx : [x].filter (ties le c) = [] := List.filter_eq_nil_iff.mpr (by simpa using hcx)
      rw [hx, List.nil_append, List.nil_append]

/-- The merge of sorted runs leaves elements that tie where the runs, one after the other, have them. -/
theorem filter_mergeRuns {runs : List (List α)} (hruns : ∀ run ∈ runs, run.Pairwise (le · · = true)) (c : α) :
    (mergeRuns le runs).filter (ties le c) = runs.flatten.filter (ties le c) := by
  fun_induction mergeRuns le runs with
  | case1 runs h => rw [popLeast_none le h]
  | case2 runs x rest h ih =>
    rw [filter_popLeast htotal htrans h hruns c, ← ih (pairwise_of_popLeast le h hruns)]
    exact List.filter_append [x] _

end Preorder

/-! ## Lists that differ in the order of unequal elements alone -/

/-- The same elements, those that tie in the same order. -/
structure SameTies (xs ys : List α) : Prop where
  perm : xs.Perm ys
  ties : ∀ c, xs.filter (ties le c) = ys.filter (ties le c)

variable {le}

theorem SameTies.refl (xs : List α) : SameTies le xs xs := ⟨.refl _, fun _ => rfl⟩

theorem SameTies.symm {xs ys : List α} (h : SameTies le xs ys) : SameTies le ys xs :=
  ⟨h.perm.symm, fun c => (h.ties c).symm⟩

theorem SameTies.trans {xs ys zs : List α} (h : SameTies le xs ys) (h' : SameTies le ys zs) :
    SameTies le xs zs := ⟨h.perm.trans h'.perm, fun c => (h.ties c).trans (h'.ties c)⟩

theorem SameTies.append {xs ys xs' ys' : List α} (h : SameTies le xs ys) (h' : SameTies le xs' ys') :
    SameTies le (xs ++ xs') (ys ++ ys') := by
  refine ⟨h.perm.append h'.perm, fun c => ?_⟩
  rw [List.filter_append, List.filter_append, h.ties, h'.ties]

section Preorder

variable (htotal : ∀ x y, le x y = true ∨ le y x = true)
  (htrans : ∀ x y z, le x y = true → le y z = true → le x z = true)

include htotal

/-- Of lists in order there is one of each kind. -/
theorem SameTies.eq {xs ys : List α} (h : SameTies le xs ys) (hx : xs.Pairwise (le · · = true))
    (hy : ys.Pairwise (le · · = true)) : xs = ys := by
  have hrefl : ∀ z, le z z = true := fun z => (htotal z z).elim id id
  induction xs generalizing ys with
  | nil => exact h.perm.nil_eq
  | cons x xs ih =>
    cases ys with
    | nil => exact absurd h.perm.eq_nil (List.cons_ne_nil _ _)
    | cons y ys =>
      have hxy : le x y = true := by
        rcases List.mem_cons.mp (h.perm.mem_iff.mpr List.mem_cons_self) with rfl | hmem
        · exact hrefl y
        · exact List.rel_of_pairwise_cons hx hmem
      have hyx : le y x = true := by
        rcases List.mem_cons.mp (h.perm.mem_iff.mp List.mem_cons_self) with rfl | hmem
        · exact hrefl x
        · exact List.rel_of_pairwise_cons hy hmem
      -- Both heads are among the least, so the list of these begins with both.
      have hties := h.ties x
      rw [List.filter_cons_of_pos (by simp [Library.ties, hrefl]),
        List.filter_cons_of_pos (by simp [Library.ties, hxy, hyx])] at hties
      obtain rfl := (List.cons.inj hties).1
      have htail : SameTies le xs ys := by
        refine ⟨h.perm.cons_inv, fun c => ?_⟩
        have hc := h.ties c
        rw [List.filter_cons, List.filter_cons] at hc
        split at hc
        · exact (List.cons.inj hc).2
        · exact hc
      rw [ih htail (List.pairwise_cons.mp hx).2 (List.pairwise_cons.mp hy).2]

include htrans

/-- A merge of sorted runs. -/
theorem sameTies_mergeRuns {runs : List (List α)} (hruns : ∀ run ∈ runs, run.Pairwise (le · · = true)) :
    SameTies le (mergeRuns le runs) runs.flatten :=
  ⟨mergeRuns_perm le runs, filter_mergeRuns htotal htrans hruns⟩

/-- The stable sort of a list. -/
theorem sameTies_mergeSort (xs : List α) : SameTies le (xs.mergeSort le) xs := by
  refine ⟨List.mergeSort_perm xs le, fun c => ?_⟩
  have hpair : (xs.filter (Library.ties le c)).Pairwise (le · · = true) := by
    refine List.pairwise_of_forall_mem_list fun x hx y hy => ?_
    have hcx := (List.mem_filter.mp hx).2
    have hcy := (List.mem_filter.mp hy).2
    rw [Library.ties, Bool.and_eq_true] at hcx hcy
    exact htrans _ _ _ hcx.2 hcy.1
  have hsub := (List.sublist_mergeSort htrans (fun x y => by simpa using htotal x y) hpair
    List.filter_sublist).filter (Library.ties le c)
  rw [List.filter_filter] at hsub
  simp only [Bool.and_self] at hsub
  have hlen := ((List.mergeSort_perm xs le).filter (Library.ties le c)).length_eq
  exact (hsub.eq_of_length hlen.symm).symm

end Preorder

end Secantus.Library
