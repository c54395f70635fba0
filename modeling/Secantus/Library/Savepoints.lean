/-
  Nested savepoints over a store, and undo records that restore them.

  `Session` is the specification: every savepoint keeps the whole store as it was. A level of
  undo records is a partial map from keys to old values; `restore l s` puts them back over `s`.
  `Restores ls ps s` says that the levels `ls`, outermost first, restore the savepoints `ps` from
  the store `s`. It splits over `++` (`restores_append`), and the rules for opening, writing,
  merging and rolling back all follow from that (`Restores.opened` .. `Restores.rolledBack`).
-/
import Mathlib.Data.Set.Lattice
import Mathlib.Logic.Function.Basic

namespace Savepoints

variable {ι κ ν : Type*}

/-! ## The specification: a savepoint keeps the store -/

/-- A savepoint: the store when it was taken, and the keys written while it was innermost. -/
structure Savepoint (ι κ ν : Type*) where
  id : ι
  saved : κ → ν
  written : Set κ

/-- A store and its open savepoints, outermost first. -/
structure Session (ι κ ν : Type*) where
  store : κ → ν
  stack : List (Savepoint ι κ ν)

/-- The keys written since the outermost of `ps`. -/
def since (ps : List (Savepoint ι κ ν)) : Set κ := {k | ∃ p ∈ ps, k ∈ p.written}

/-- The innermost savepoint also counts the keys of `ks`. -/
def addWritten (ks : Set κ) : List (Savepoint ι κ ν) → List (Savepoint ι κ ν)
  | [] => []
  | [p] => [{ p with written := p.written ∪ ks }]
  | p :: q :: ps => p :: addWritten ks (q :: ps)

namespace Session

def openAt (σ : Session ι κ ν) (id : ι) : Session ι κ ν :=
  { σ with stack := σ.stack ++ [⟨id, σ.store, ∅⟩] }

def write [DecidableEq κ] (σ : Session ι κ ν) (k : κ) (v : ν) : Session ι κ ν :=
  ⟨Function.update σ.store k v, addWritten {k} σ.stack⟩

/-- Savepoint `id` and the ones inside it are gone; what was written since counts for the
    savepoint around it. -/
def release [BEq ι] (σ : Session ι κ ν) (id : ι) : Session ι κ ν :=
  match σ.stack.findIdx? (·.id == id) with
  | none => σ
  | some n => { σ with stack := addWritten (since (σ.stack.drop n)) (σ.stack.take n) }

/-- The store as savepoint `id` keeps it; the savepoint stays, the ones inside it are gone. -/
def rollbackTo [BEq ι] (σ : Session ι κ ν) (id : ι) : Session ι κ ν :=
  match σ.stack.findIdx? (·.id == id) with
  | none => σ
  | some n =>
    match σ.stack[n]? with
    | none => σ
    | some p => ⟨p.saved, σ.stack.take n ++ [{ p with written := ∅ }]⟩

end Session

@[simp] theorem addWritten_concat (ks : Set κ) (ps : List (Savepoint ι κ ν))
    (p : Savepoint ι κ ν) :
    addWritten ks (ps ++ [p]) = ps ++ [{ p with written := p.written ∪ ks }] := by
  induction ps with
  | nil => rfl
  | cons q ps ih =>
    cases ps with
    | nil => rfl
    | cons q' ps =>
      show q :: addWritten ks ((q' :: ps) ++ [p]) = _
      rw [ih]; rfl

@[simp] theorem map_id_addWritten (ks : Set κ) (ps : List (Savepoint ι κ ν)) :
    (addWritten ks ps).map (·.id) = ps.map (·.id) := by
  obtain rfl | ⟨qs, p, rfl⟩ := ps.eq_nil_or_concat
  · rfl
  · simp

/-! ## Levels of undo records -/

/-- The store with the recorded values put back. -/
def restore (l : κ → Option ν) (s : κ → ν) : κ → ν := fun k => (l k).getD (s k)

/-- Two levels as one: a record of `l` is the older. -/
def above (l m : κ → Option ν) : κ → Option ν := fun k => (l k).or (m k)

/-- No record. -/
def empty : κ → Option ν := fun _ => none

/-- The oldest record of each key, the levels outermost first. -/
def oldest (ls : List (κ → Option ν)) : κ → Option ν := ls.foldr above empty

@[simp] theorem above_empty (l : κ → Option ν) : above l empty = l := by
  funext k
  simp [above, empty]

@[simp] theorem empty_above (l : κ → Option ν) : above empty l = l := by
  funext k
  simp [above, empty]

theorem above_assoc (l m n : κ → Option ν) : above (above l m) n = above l (above m n) := by
  funext k
  simp [above, Option.or_assoc]

@[simp] theorem restore_empty (s : κ → ν) : restore empty s = s := rfl

theorem restore_above (l m : κ → Option ν) (s : κ → ν) :
    restore (above l m) s = restore l (restore m s) := by
  funext k
  unfold restore above
  cases l k <;> simp

@[simp] theorem oldest_nil : oldest ([] : List (κ → Option ν)) = empty := rfl

@[simp] theorem oldest_cons (l : κ → Option ν) (ls : List (κ → Option ν)) :
    oldest (l :: ls) = above l (oldest ls) := rfl

theorem oldest_append (ls ms : List (κ → Option ν)) :
    oldest (ls ++ ms) = above (oldest ls) (oldest ms) := by
  induction ls with
  | nil => simp
  | cons l ls ih => simp only [List.cons_append, oldest_cons, ih, above_assoc]

/-- The records of a list, the first of a key the one that counts. -/
def firsts {ρ : Type*} [DecidableEq κ] (key : ρ → κ) (val : ρ → ν) (rs : List ρ) : κ → Option ν :=
  fun k => (rs.find? (fun r => key r = k)).map val

theorem firsts_nil {ρ : Type*} [DecidableEq κ] (key : ρ → κ) (val : ρ → ν) :
    firsts key val [] = empty := rfl

theorem firsts_cons {ρ : Type*} [DecidableEq κ] (key : ρ → κ) (val : ρ → ν) (r : ρ) (rs : List ρ) :
    firsts key val (r :: rs) =
      above (fun k => if k = key r then some (val r) else none) (firsts key val rs) := by
  funext k
  unfold firsts above
  by_cases hk : key r = k
  · simp [hk]
  · simp [hk, Ne.symm hk]

theorem firsts_append {ρ : Type*} [DecidableEq κ] (key : ρ → κ) (val : ρ → ν) (rs ts : List ρ) :
    firsts key val (rs ++ ts) = above (firsts key val rs) (firsts key val ts) := by
  induction rs with
  | nil => rw [List.nil_append, firsts_nil, empty_above]
  | cons r rs ih => rw [List.cons_append, firsts_cons, ih, firsts_cons, above_assoc]

theorem firsts_isSome {ρ : Type*} [DecidableEq κ] (key : ρ → κ) (val : ρ → ν) (rs : List ρ)
    (k : κ) : (firsts key val rs k).isSome ↔ k ∈ rs.map key := by
  simp [firsts]

theorem firsts_of_mem {ρ : Type*} [DecidableEq κ] (key : ρ → κ) (val : ρ → ν) {rs : List ρ}
    (hn : (rs.map key).Nodup) {r : ρ} (hr : r ∈ rs) : firsts key val rs (key r) = some (val r) := by
  induction rs with
  | nil => cases hr
  | cons q rs ih =>
    rw [List.map_cons, List.nodup_cons] at hn
    rw [firsts_cons]
    rcases List.mem_cons.mp hr with rfl | hr
    · simp [above]
    · have hne : key r ≠ key q := by
        intro h
        exact hn.1 (h ▸ List.mem_map_of_mem hr)
      simp [above, hne, ih hn.2 hr]

/-- Putting records of distinct keys back one by one. -/
theorem foldl_update_eq_restore {ρ : Type*} [DecidableEq κ] (key : ρ → κ) (val : ρ → ν)
    (rs : List ρ) (hn : (rs.map key).Nodup) (s : κ → ν) :
    rs.foldl (fun s r => Function.update s (key r) (val r)) s = restore (firsts key val rs) s := by
  induction rs generalizing s with
  | nil => rfl
  | cons r rs ih =>
    rw [List.map_cons, List.nodup_cons] at hn
    rw [List.foldl_cons, ih hn.2, firsts_cons]
    funext k
    unfold restore above
    by_cases hk : k = key r
    · subst hk
      have hnone : firsts key val rs (key r) = none := by
        rw [← Option.not_isSome_iff_eq_none, firsts_isSome]
        exact hn.1
      simp [hnone]
    · simp [hk]

/-- The levels `ls` restore the savepoints `ps` from the store `s`, each with a record for the
    keys written at its level and no other. -/
def Restores : List (κ → Option ν) → List (Savepoint ι κ ν) → (κ → ν) → Prop
  | [], [], _ => True
  | l :: ls, p :: ps, s =>
    (restore (oldest (l :: ls)) s = p.saved ∧ ∀ k, (l k).isSome ↔ k ∈ p.written) ∧
      Restores ls ps s
  | _, _, _ => False

theorem Restores.length_eq {ls : List (κ → Option ν)} {ps : List (Savepoint ι κ ν)} {s : κ → ν}
    (h : Restores ls ps s) : ls.length = ps.length := by
  induction ls generalizing ps with
  | nil =>
    cases ps with
    | nil => rfl
    | cons p ps => exact h.elim
  | cons l ls ih =>
    cases ps with
    | nil => exact h.elim
    | cons p ps => simp [ih h.2]

/-- The outer levels see the inner ones only through the store they restore. -/
theorem restores_append (ls ms : List (κ → Option ν)) (ps qs : List (Savepoint ι κ ν))
    (s : κ → ν) (hl : ls.length = ps.length) :
    Restores (ls ++ ms) (ps ++ qs) s ↔
      Restores ls ps (restore (oldest ms) s) ∧ Restores ms qs s := by
  induction ls generalizing ps with
  | nil =>
    obtain rfl : ps = [] := List.length_eq_zero_iff.mp hl.symm
    simp [Restores]
  | cons l ls ih =>
    obtain ⟨p, ps, rfl⟩ := List.exists_cons_of_length_eq_add_one hl.symm
    have hl' : ls.length = ps.length := by simpa using hl
    have e : oldest (l :: (ls ++ ms)) = above (oldest (l :: ls)) (oldest ms) := by
      rw [← List.cons_append, oldest_append]
    simp only [List.cons_append, Restores, ih ps hl', e, restore_above]
    tauto

/-- Split at one level. -/
theorem Restores.split {ls ms : List (κ → Option ν)} {ps qs : List (Savepoint ι κ ν)} {s : κ → ν}
    (h : Restores (ls ++ ms) (ps ++ qs) s) (hl : ls.length = ps.length) :
    Restores ls ps (restore (oldest ms) s) ∧ Restores ms qs s :=
  (restores_append ls ms ps qs s hl).mp h

theorem Restores.mem_since {ls : List (κ → Option ν)} {ps : List (Savepoint ι κ ν)} {s : κ → ν}
    (h : Restores ls ps s) (k : κ) : (oldest ls k).isSome ↔ k ∈ since ps := by
  induction ls generalizing ps with
  | nil =>
    obtain rfl : ps = [] := List.length_eq_zero_iff.mp h.length_eq.symm
    simp [since, empty]
  | cons l ls ih =>
    obtain ⟨p, ps, rfl⟩ := List.exists_cons_of_length_eq_add_one h.length_eq.symm
    have hrest := ih h.2
    have hhead := h.1.2 k
    simp only [since, Set.mem_ofPred_eq] at hrest
    simp only [oldest_cons, above, Option.isSome_or, Bool.or_eq_true, hhead, hrest, since,
      Set.mem_ofPred_eq, List.mem_cons, exists_eq_or_imp]

/-! ## The rules -/

/-- A level over the innermost savepoint's. -/
theorem restores_concat {ls : List (κ → Option ν)} {l : κ → Option ν}
    {ps : List (Savepoint ι κ ν)} {p : Savepoint ι κ ν} {s : κ → ν}
    (hl : ls.length = ps.length) :
    Restores (ls ++ [l]) (ps ++ [p]) s ↔
      Restores ls ps (restore l s) ∧ restore l s = p.saved ∧
        ∀ k, (l k).isSome ↔ k ∈ p.written := by
  rw [restores_append ls [l] ps [p] s hl]
  simp [Restores]

theorem Restores.opened {ls : List (κ → Option ν)} {ps : List (Savepoint ι κ ν)} {s : κ → ν}
    (h : Restores ls ps s) (id : ι) : Restores (ls ++ [empty]) (ps ++ [⟨id, s, ∅⟩]) s := by
  refine (restores_concat h.length_eq).mpr ⟨?_, rfl, ?_⟩
  · rw [restore_empty]; exact h
  · intro k
    simp [empty]

/-- A level that also records `k ↦ s k`, unless it has a record of `k`. -/
theorem Restores.written [DecidableEq κ] {ls : List (κ → Option ν)} {l : κ → Option ν}
    {ps : List (Savepoint ι κ ν)} {s : κ → ν} (h : Restores (ls ++ [l]) ps s) (k : κ) (v : ν) :
    Restores (ls ++ [above l (fun x => if x = k then some (s k) else none)])
      (addWritten {k} ps) (Function.update s k v) := by
  have hne : ps ≠ [] := by
    rintro rfl
    simpa using h.length_eq
  obtain ⟨qs, p, rfl⟩ : ∃ qs p, ps = qs ++ [p] :=
    ⟨ps.dropLast, ps.getLast hne, (List.dropLast_concat_getLast hne).symm⟩
  have hl : ls.length = qs.length := by simpa using h.length_eq
  -- the new record hides the write
  have hsame : restore (above l (fun x => if x = k then some (s k) else none))
      (Function.update s k v) = restore l s := by
    funext x
    unfold restore above
    by_cases hx : x = k
    · subst hx; cases l x <;> simp
    · cases l x <;> simp [hx]
  obtain ⟨houter, hsaved, hrec⟩ := (restores_concat hl).mp h
  rw [addWritten_concat]
  refine (restores_concat hl).mpr ⟨?_, ?_, ?_⟩
  · rw [hsame]; exact houter
  · rw [hsame]; exact hsaved
  · intro x
    rw [Set.mem_union, ← hrec x]
    by_cases hx : x = k <;> simp [above, hx]

/-- The innermost levels `m :: ms` merged into the level `l` around them. -/
theorem Restores.merged {ls ms : List (κ → Option ν)} {l : κ → Option ν}
    {ps qs : List (Savepoint ι κ ν)} {p : Savepoint ι κ ν} {s : κ → ν}
    (h : Restores (ls ++ l :: ms) (ps ++ p :: qs) s) (hl : ls.length = ps.length) :
    Restores (ls ++ [above l (oldest ms)]) (addWritten (since qs) (ps ++ [p])) s := by
  obtain ⟨houter, ⟨hsaved, hrec⟩, hin⟩ := h.split hl
  rw [addWritten_concat]
  refine (restores_concat hl).mpr ⟨houter, hsaved, ?_⟩
  intro k
  rw [Set.mem_union, ← hrec k, ← hin.mem_since k]
  simp [above, Option.isSome_or]

/-- The levels outside a savepoint, once the store is the savepoint's. -/
theorem Restores.rolledBack {ls ms : List (κ → Option ν)} {l : κ → Option ν}
    {ps qs : List (Savepoint ι κ ν)} {p : Savepoint ι κ ν} {s : κ → ν}
    (h : Restores (ls ++ l :: ms) (ps ++ p :: qs) s) (hl : ls.length = ps.length) :
    Restores (ls ++ [empty]) (ps ++ [{ p with written := ∅ }]) p.saved := by
  obtain ⟨houter, ⟨hsaved, -⟩, -⟩ := h.split hl
  refine (restores_concat hl).mpr ⟨?_, rfl, ?_⟩
  · rw [hsaved] at houter
    exact houter
  · intro k
    simp [empty]

/-- What is not written since a savepoint is as the savepoint keeps it. -/
theorem Restores.untouched {l : κ → Option ν} {ls : List (κ → Option ν)}
    {p : Savepoint ι κ ν} {ps : List (Savepoint ι κ ν)} {s : κ → ν}
    (h : Restores (l :: ls) (p :: ps) s) {k : κ} (hk : k ∉ since (p :: ps)) : s k = p.saved k := by
  have hnone : oldest (l :: ls) k = none := by
    rw [← Option.not_isSome_iff_eq_none, h.mem_since k]
    exact hk
  rw [← h.1.1]
  unfold restore
  rw [hnone, Option.getD_none]

end Savepoints
