/-
  Rows sorted by ORDER BY keys (`compare_rows`) and told apart by the fields of a DISTINCT.

  `compare_rows` takes the comparison of two stored values and of two jsonb texts from the planner. A pair the
  planner does not compare, which no SQL column can hold, ties; so rows are ordered only where the values of each
  key are (`rows_handed_out`).
-/
import Mathlib.Data.List.Permutation
import Secantus.Bson.Document
import Secantus.ExternalSort.Whole

namespace Secantus.ExternalSort

open Secantus Library Tuplesort

inductive Nulls where
  | first
  | last
  deriving DecidableEq, Repr

/-- `OrderKey`; a computed key is in the row under `field`. -/
structure OrderKey where
  field : String
  ascending : Bool
  nulls : Nulls
  jsonb : Bool

/-- What the planner compares. -/
structure Planner where
  compareValues : Bson → Bson → Option Ordering
  jsonbCompare : String → String → Option Ordering
  companionField : String → String

/-- A missing or null value. -/
def isNull : Option Bson → Bool
  | none | some .null => true
  | _ => false

/-- The hidden sub-millisecond part of a timestamp. -/
def remainder (planner : Planner) (d : Document) (field : String) : Int :=
  match d.get (planner.companionField field) with
  | some (.int32 v) => v.toInt
  | some (.int64 v) => v.toInt
  | _ => 0

/-- Two rows by one key. -/
def compareKey (planner : Planner) (key : OrderKey) (a b : Document) : Ordering :=
  match a.get key.field, b.get key.field with
  | l, r =>
    match isNull l, isNull r with
    | true, true => .eq
    | true, false => match key.nulls with
      | .first => .lt
      | .last => .gt
    | false, true => match key.nulls with
      | .first => .gt
      | .last => .lt
    | false, false =>
      let l := l.getD .null
      let r := r.getD .null
      let values := (planner.compareValues l r).getD .eq
      let cmp := match key.jsonb, l, r with
        | true, .string x, .string y => (planner.jsonbCompare x y).getD values
        | _, _, _ => values
      let cmp := match cmp, l, r with
        | .eq, .dateTime _, .dateTime _ =>
          compare (remainder planner a key.field) (remainder planner b key.field)
        | _, _, _ => cmp
      if key.ascending then cmp else cmp.swap

def compareRows (planner : Planner) (order : List OrderKey) (a b : Document) : Ordering :=
  match order with
  | [] => .eq
  | key :: order =>
    match compareKey planner key a b with
    | .eq => compareRows planner order a b
    | ord => ord

/-- The identity of a row: `group_key_ident` of each field. -/
def identity {κ : Type} (groupKeyIdent : Option Bson → κ) (fields : List String) (d : Document) : List κ :=
  fields.map fun f => groupKeyIdent (d.get f)

/-- `==` on identities, by `==` on what they hold. -/
def sameIdent {κ : Type} (eq : κ → κ → Bool) (a b : List κ) : Bool := a.isEqv b eq

section Equality

variable {κ : Type} {eq : κ → κ → Bool}

theorem sameIdent_symm (hsymm : ∀ a b, eq a b = true → eq b a = true) {a b : List κ}
    (h : sameIdent eq a b = true) : sameIdent eq b a = true := by
  induction a generalizing b with
  | nil =>
    cases b with
    | nil => rfl
    | cons y b => cases h
  | cons x a ih =>
    cases b with
    | nil => cases h
    | cons y b =>
      obtain ⟨hxy, hab⟩ := Bool.and_eq_true_iff.mp h
      exact Bool.and_eq_true_iff.mpr ⟨hsymm x y hxy, ih hab⟩

theorem sameIdent_trans (htrans : ∀ a b c, eq a b = true → eq b c = true → eq a c = true) {a b c : List κ}
    (hab : sameIdent eq a b = true) (hbc : sameIdent eq b c = true) : sameIdent eq a c = true := by
  induction a generalizing b c with
  | nil =>
    cases b with
    | nil => exact hbc
    | cons y b => cases hab
  | cons x a ih =>
    cases b with
    | nil => cases hab
    | cons y b =>
      cases c with
      | nil => cases hbc
      | cons z c =>
        obtain ⟨hxy, hab⟩ := Bool.and_eq_true_iff.mp hab
        obtain ⟨hyz, hbc⟩ := Bool.and_eq_true_iff.mp hbc
        exact Bool.and_eq_true_iff.mpr ⟨htrans x y z hxy hyz, ih hab hbc⟩

end Equality

/-! ## What is handed out -/

section HandedOut

variable {κ : Type} (planner : Planner) (order : List OrderKey) (X : Set Document)

/-- `compare_rows` on the rows of a table. -/
def compareIn (a b : X) : Ordering := compareRows planner order a b

/-- The rows `a` and `b` have one identity. -/
def sameRow (eq : κ → κ → Bool) (groupKeyIdent : Option Bson → κ) (fields : List String) (a b : X) : Bool :=
  sameIdent eq (identity groupKeyIdent fields a) (identity groupKeyIdent fields b)

/-- A sort of rows that `compare_rows` orders hands out, `batch` a call, the rows after OFFSET and within LIMIT of
    all of them in an order it leaves sorted. With the fields of a DISTINCT that the order makes adjacent, those are
    counted among the rows that are the first of their identity in a stable sort; and where rows of one identity
    tie, these are the rows that are the first of their identity in the scan, stably sorted. -/
theorem rows_handed_out [Std.TransCmp (compareIn planner order X)] (eq : κ → κ → Bool)
    (hsymm : ∀ a b, eq a b = true → eq b a = true)
    (htrans : ∀ a b c, eq a b = true → eq b c = true → eq a c = true) (groupKeyIdent : Option Bson → κ)
    (rows : List (X × ℕ)) (skip : ℕ) (limit : Option ℕ) (batch : ℕ) :
    (∃ ordered : List X, ordered.Perm (rows.map Prod.fst) ∧
      ordered.Pairwise (fun a b : X => compareRows planner order a b ≠ .gt) ∧
      ∀ n, (sortRunsWith (compareIn planner order X) rows skip limit batch none).handedOut
          (leOf (compareIn planner order X)) (sameIdent eq) n =
        (limited limit (ordered.drop skip)).take (n * batch)) ∧
    ∀ fields : List String,
      (∀ a b c : X, compareRows planner order a b ≠ .gt → compareRows planner order b c ≠ .gt →
        sameRow X eq groupKeyIdent fields a c = true → sameRow X eq groupKeyIdent fields a b = true) →
      ∃ sorted : List X, StableSort (leOf (compareIn planner order X)) sorted (rows.map Prod.fst) ∧
        (∀ n, (sortRunsWith (compareIn planner order X) rows skip limit batch
            (some fun d : X => identity groupKeyIdent fields d)).handedOut
            (leOf (compareIn planner order X)) (sameIdent eq) n =
          (limited limit ((firsts (sameRow X eq groupKeyIdent fields) [] sorted).drop skip)).take (n * batch)) ∧
        ((∀ a b : X, sameRow X eq groupKeyIdent fields a b = true → compareRows planner order a b = .eq) →
          StableSort (leOf (compareIn planner order X)) (firsts (sameRow X eq groupKeyIdent fields) [] sorted)
            (firsts (sameRow X eq groupKeyIdent fields) [] (rows.map Prod.fst))) := by
  have hle : ∀ a b : X, leOf (compareIn planner order X) a b = true ↔ compareRows planner order a b ≠ .gt :=
    fun a b => Ordering.isLE_iff_ne_gt
  constructor
  · obtain ⟨ordered, hperm, hpair, hpending⟩ := pending_sortRuns (compareIn planner order X) (sameIdent eq)
      rows skip limit batch
    refine ⟨ordered, hperm, hpair.imp fun h => (hle _ _).mp h, fun n => ?_⟩
    rw [handedOut_eq, hpending]
    rfl
  · intro fields hnext
    obtain ⟨sorted, hstable, hpending⟩ := pending_sortRuns_distinct (compareIn planner order X) (sameIdent eq)
      (fun d : X => identity groupKeyIdent fields d) rows skip limit batch
    have hkept : distinct (sameIdent eq) (fun d : X => identity groupKeyIdent fields d) none sorted =
        firsts (sameRow X eq groupKeyIdent fields) [] sorted := by
      have hs : ∀ a b : List κ, sameIdent eq a b = true → sameIdent eq b a = true :=
        fun _ _ => sameIdent_symm hsymm
      have ht : ∀ a b c : List κ, sameIdent eq a b = true → sameIdent eq b c = true → sameIdent eq a c = true :=
        fun _ _ _ => sameIdent_trans htrans
      refine distinct_eq_firsts (leOf_refl _) (leOf_trans _) hs ht ?_ hstable.pairwise
      exact fun a b c hab hbc hac => hnext a b c ((hle a b).mp hab) ((hle b c).mp hbc) hac
    refine ⟨sorted, hstable, fun n => ?_, fun htie => ?_⟩
    · rw [handedOut_eq, hpending, hkept]
      rfl
    · refine hstable.firsts (leOf_refl _) (leOf_trans _) fun a b hab => ?_
      have hba : sameRow X eq groupKeyIdent fields b a = true := sameIdent_symm hsymm hab
      rw [ties, Bool.and_eq_true, hle, hle, htie a b hab, htie b a hba]
      decide

end HandedOut

/-! ## Rows of two integers -/

/-- The planner on integers and texts. -/
def scalarPlanner : Planner where
  compareValues
    | .int32 x, .int32 y => some (compare x y)
    | .string x, .string y => some (compare x y)
    | _, _ => none
  jsonbCompare _ _ := none
  companionField f := "__us_" ++ f

/-- `{a, b}`. -/
def intRow (p : Int32 × Int32) : Document := [("a", .int32 p.1), ("b", .int32 p.2)]

def ascendingKey (field : String) : OrderKey := ⟨field, true, .last, false⟩

/-- `ORDER BY a, b`. -/
def byBoth : List OrderKey := [ascendingKey "a", ascendingKey "b"]

/-- The rows of a table of two integer columns. -/
def IntRows : Set Document := { d | ∃ p, d = intRow p }

def intRowIn (p : Int32 × Int32) : IntRows := ⟨intRow p, p, rfl⟩

theorem compareRows_intRow (p q : Int32 × Int32) : compareRows scalarPlanner byBoth (intRow p) (intRow q) =
    compareLex (compareOn Prod.fst) (compareOn Prod.snd) p q := by
  have ha : ∀ p : Int32 × Int32, (intRow p).get "a" = some (.int32 p.1) := fun _ => rfl
  have hb : ∀ p : Int32 × Int32, (intRow p).get "b" = some (.int32 p.2) := fun _ => rfl
  have hkey : compareKey scalarPlanner (ascendingKey "a") (intRow p) (intRow q) = compare p.1 q.1 := by
    simp [compareKey, ascendingKey, ha, isNull, scalarPlanner]
  have hkey' : compareKey scalarPlanner (ascendingKey "b") (intRow p) (intRow q) = compare p.2 q.2 := by
    simp [compareKey, ascendingKey, hb, isNull, scalarPlanner]
  simp only [byBoth, compareRows, hkey, hkey', compareLex, compareOn]
  cases compare p.1 q.1 <;> cases compare p.2 q.2 <;> rfl

instance : Std.TransCmp (compareIn scalarPlanner byBoth IntRows) where
  eq_swap := by
    rintro ⟨_, p, rfl⟩ ⟨_, q, rfl⟩
    simp only [compareIn, compareRows_intRow]
    exact Std.OrientedCmp.eq_swap
  isLE_trans := by
    rintro ⟨_, p, rfl⟩ ⟨_, q, rfl⟩ ⟨_, r, rfl⟩
    simp only [compareIn, compareRows_intRow]
    exact Std.TransCmp.isLE_trans

/-- `group_key_ident` of an integer. -/
def intIdent : Option Bson → Option Int32
  | some (.int32 n) => some n
  | _ => none

theorem sameRow_intRow (p q : Int32 × Int32) :
    sameRow IntRows (fun x y => decide (x = y)) intIdent ["a"] (intRowIn p) (intRowIn q) = decide (p.1 = q.1) := by
  have ha : ∀ p : Int32 × Int32, intIdent ((intRow p).get "a") = some p.1 := fun _ => rfl
  simp [sameRow, sameIdent, identity, intRowIn, ha, List.isEqv]

/-- `ORDER BY a, b` makes rows of one `a` adjacent. -/
theorem adjacent_a (x y z : IntRows) (hxy : compareRows scalarPlanner byBoth x y ≠ .gt)
    (hyz : compareRows scalarPlanner byBoth y z ≠ .gt)
    (hxz : sameRow IntRows (fun x y => decide (x = y)) intIdent ["a"] x z = true) :
    sameRow IntRows (fun x y => decide (x = y)) intIdent ["a"] x y = true := by
  obtain ⟨_, p, rfl⟩ := x
  obtain ⟨_, q, rfl⟩ := y
  obtain ⟨_, r, rfl⟩ := z
  have hle : ∀ p q : Int32 × Int32, compareRows scalarPlanner byBoth (intRow p) (intRow q) ≠ .gt →
      p.1 ≤ q.1 := by
    intro p q h
    rw [compareRows_intRow] at h
    by_contra hlt
    have hgt : compare p.1 q.1 = .gt := Std.compare_eq_gt.mpr (by simpa using hlt)
    exact h (by simp [compareLex, compareOn, hgt])
  have hpq := hle p q hxy
  have hqr := hle q r hyz
  have hpr := sameRow_intRow p r
  have hpq' := sameRow_intRow p q
  rw [intRowIn, intRowIn] at hpr hpq'
  rw [hpr, decide_eq_true_eq] at hxz
  rw [hpq', decide_eq_true_eq]
  exact Int32.le_antisymm hpq (hxz ▸ hqr)

theorem rows_handed_out_two : ∃ sorted : List IntRows, ∀ n,
    (sortRunsWith (compareIn scalarPlanner byBoth IntRows) [(intRowIn (1, 2), 30), (intRowIn (1, 1), 30)] 0 (some 5)
      256 (some fun d : IntRows => identity intIdent ["a"] d)).handedOut
      (leOf (compareIn scalarPlanner byBoth IntRows)) (sameIdent fun x y => decide (x = y)) n =
    (limited (some 5) ((firsts (sameRow IntRows (fun x y => decide (x = y)) intIdent ["a"]) [] sorted).drop 0)).take
      (n * 256) := by
  obtain ⟨sorted, -, hout, -⟩ := (rows_handed_out scalarPlanner byBoth IntRows (fun x y => decide (x = y))
    (by simp) (by simp) intIdent [(intRowIn (1, 2), 30), (intRowIn (1, 1), 30)] 0 (some 5) 256).2 ["a"] adjacent_a
  exact ⟨sorted, hout⟩

theorem sorted_of_stable {sorted : List IntRows}
    (h : StableSort (leOf (compareIn scalarPlanner byBoth IntRows)) sorted [intRowIn (1, 2), intRowIn (1, 1)]) :
    sorted = [intRowIn (1, 1), intRowIn (1, 2)] := by
  have hgt : leOf (compareIn scalarPlanner byBoth IntRows) (intRowIn (1, 2)) (intRowIn (1, 1)) = false := by
    show (compareRows scalarPlanner byBoth (intRow (1, 2)) (intRow (1, 1))).isLE = false
    rw [compareRows_intRow]
    decide
  rcases List.perm_pair.mp h.perm with hs | hs
  · have hpair := h.pairwise
    rw [hs, List.pairwise_cons] at hpair
    have hle := hpair.1 _ List.mem_cons_self
    rw [hgt] at hle
    cases hle
  · exact hs

/-- A DISTINCT ON `a` under ORDER BY `a, b` keeps of `(1, 2)` and `(1, 1)` the row `(1, 1)`, not the first in the
    scan; batches of no rows hand out none; and a row of a text between two integers keeps their order. -/
theorem distinct_on_not_scan_order :
    (∀ n, 0 < n → (sortRunsWith (compareIn scalarPlanner byBoth IntRows)
        [(intRowIn (1, 2), 30), (intRowIn (1, 1), 30)] 0 none 256
        (some fun d : IntRows => identity intIdent ["a"] d)).handedOut
        (leOf (compareIn scalarPlanner byBoth IntRows)) (sameIdent fun x y => decide (x = y)) n =
      [intRowIn (1, 1)]) ∧
    firsts (sameRow IntRows (fun x y => decide (x = y)) intIdent ["a"]) []
      [intRowIn (1, 2), intRowIn (1, 1)] = [intRowIn (1, 2)] ∧
    (∀ n, (sortRunsWith (compareIn scalarPlanner byBoth IntRows) [(intRowIn (1, 2), 30)] 0 none 0
        (none : Option (IntRows → List (Option Int32)))).handedOut
        (leOf (compareIn scalarPlanner byBoth IntRows)) (sameIdent fun x y => decide (x = y)) n = []) ∧
    pgQsort (compareRows scalarPlanner [ascendingKey "a"])
        #[[("a", .int32 2)], [("a", .string "x")], [("a", .int32 1)]] =
      #[[("a", .int32 2)], [("a", .string "x")], [("a", .int32 1)]] ∧
    compareRows scalarPlanner [ascendingKey "a"] [("a", .int32 2)] [("a", .int32 1)] = .gt := by
  have hfirsts : ∀ p q : Int32 × Int32, p.1 = q.1 →
      firsts (sameRow IntRows (fun x y => decide (x = y)) intIdent ["a"]) [] [intRowIn p, intRowIn q] =
        [intRowIn p] := by
    intro p q hpq
    simp [firsts, sameRow_intRow, hpq]
  refine ⟨?_, hfirsts _ _ rfl, ?_, ?_, ?_⟩
  · intro n hn
    obtain ⟨sorted, hstable, hpending⟩ := pending_sortRuns_distinct (compareIn scalarPlanner byBoth IntRows)
      (sameIdent fun x y => decide (x = y)) (fun d : IntRows => identity intIdent ["a"] d)
      [(intRowIn (1, 2), 30), (intRowIn (1, 1), 30)] 0 none 256
    rw [handedOut_eq, hpending, sorted_of_stable hstable]
    have hkept : distinct (sameIdent fun x y => decide (x = y)) (fun d : IntRows => identity intIdent ["a"] d) none
        [intRowIn (1, 1), intRowIn (1, 2)] = [intRowIn (1, 1)] := rfl
    rw [hkept]
    exact List.take_of_length_le (show 1 ≤ n * 256 by omega)
  · intro n
    rw [handedOut_eq]
    exact List.take_zero
  · rw [pgQsort]
    rfl
  · rfl

end Secantus.ExternalSort
