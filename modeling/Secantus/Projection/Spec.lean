/-
  Projection specs (`projection.rs`): what a spec's value asks for, and a spec as its leaves.

  A number or a boolean is a flag, `$slice`, `$elemMatch` and `$meta` are projection operators, and any
  other value is computed. A plain sub-document is one leaf for each of its fields, at a dotted path.

  * `flattenFields_cases`: the leaves are the fields themselves or together smaller than them, so that a
    spec is flattened once.
-/
import Secantus.Query.Match
import Secantus.Library.Outcome

namespace Secantus.Projection

open Secantus Bson BsonOrder

/-- The result of a projection's steps. -/
abbrev R (α : Type) := Except Fallback α

/-- What a projection hands to other engines. -/
structure Engines where
  query : Query.Engines
  order : BinDataOrder
  /-- `expressions::evaluate_or_missing` -/
  evaluateOrMissing : Document → Bson → Document → R Bson
  /-- `elem_match_key::elem_match_key` -/
  elemMatchKey : Document → Document → Document → R (Option Nat)
  /-- a Decimal128's text parsed as a double -/
  decimalF64 : Decimal128 → Option F64

/-- Engines that answer nothing. -/
def noEngines : Engines where
  query := Query.noEngines
  order := .mongod
  evaluateOrMissing _ _ _ := .ok .undefined
  elemMatchKey _ _ _ := .ok none
  decimalF64 _ := none

variable (E : Engines)

/-! ## Values -/

def elemMatchSpec : Bson → Option Bson
  | .document [(k, sub)] => if k = "$elemMatch" then some sub else none
  | _ => none

def metaSpec : Bson → Option String
  | .document [(k, .string arg)] => if k = "$meta" then some arg else none
  | _ => none

def isNumber : Bson → Bool
  | .int32 _ | .int64 _ | .double _ | .decimal128 _ => true
  | _ => false

/-- A `$slice` limit above zero. -/
def isPositive : Bson → Bool
  | .int32 n => 0 < n
  | .int64 n => 0 < n
  | .double d => d.partialCmp ⟨0⟩ == some .gt
  | .decimal128 d => (E.decimalF64 d).any fun l => l.partialCmp ⟨0⟩ == some .gt
  | _ => false

/-- `find_slice_problem`, by mongod's code. -/
def findSliceProblem (arg : Bson) : Option Nat :=
  match arg with
  | .array [skip, limit] =>
    if !isNumber skip then some 31257
    else if !isNumber limit then some 31258
    else if !isPositive E limit then some 31259
    else none
  | .array _ => some 31272
  | arg => if isNumber arg then none else some 31273

/-- `slice_spec`: the argument of a FIND `$slice`. -/
def sliceSpec : Bson → Option Bson
  | .document [(k, arg)] =>
    if k = "$slice" ∧ (findSliceProblem E arg).isNone then some arg else none
  | _ => none

/-- `d != 0.0`, which a NaN is. -/
def nonzero (d : F64) : Bool := !d.eqv ⟨0⟩

def specTruthy : Bson → R Bool
  | .int32 n => .ok (n ≠ 0)
  | .int64 n => .ok (n ≠ 0)
  | .boolean b => .ok b
  | .double d => .ok (nonzero d)
  | .decimal128 d => .ok (((E.decimalF64 d).map nonzero).getD true)
  | _ => .error .defer

def flagTruthy (v : Bson) : Bool :=
  match specTruthy E v with
  | .ok b => b
  | .error _ => true

def isDropId : Bson → Bool
  | .int32 n => n = 0
  | .int64 n => n = 0
  | .boolean b => !b
  | .double d => d.eqv ⟨0⟩
  | .decimal128 d => !flagTruthy E (.decimal128 d)
  | _ => false

def isFlagValue : Bson → Bool
  | .int32 _ | .int64 _ | .double _ | .boolean _ | .decimal128 _ => true
  | _ => false

def isComputedSpec (v : Bson) : Bool :=
  if isFlagValue v then false
  else if (asInvalidUtf8 v).isSome then true
  else
    match v with
    | .document d =>
      (sliceSpec E v).isNone && (elemMatchSpec v).isNone && (metaSpec v).isNone &&
        d.head?.any (fun f => f.1.toList.head? = some '$')
    | _ => true

/-! ## Slices -/

/-- `d as i64`: toward zero, the ends kept. -/
def asI64 (d : F64) : Int := max (-2 ^ 63) (min (d.scaled.tdiv (2 ^ 1074)) (2 ^ 63 - 1))

def asSliceInt : Bson → Option Int
  | .int32 n => some n.toInt
  | .int64 n => some n.toInt
  | .double d => if d.isFinite then some (asI64 d) else none
  | _ => none

/-- The limit `slice_bounds` gives a scalar argument. -/
def scalarLimit : Int := -2 ^ 63

def sliceBounds (arg : Bson) : Option (Int × Int) :=
  match asSliceInt arg with
  | some n => some (n, scalarLimit)
  | none =>
    match arg with
    | .array [skip, limit] =>
      match asSliceInt skip, asSliceInt limit with
      | some skip, some limit => if 0 < limit then some (skip, limit) else none
      | _, _ => none
    | _ => none

def applySlice (value arg : Bson) : R Bson :=
  match sliceBounds arg with
  | none => .error .defer
  | some (first, limit) =>
    match value with
    | .array a =>
      let len : Int := a.length
      if limit = scalarLimit then
        if 0 ≤ first then .ok (.array (a.take (max (min first len) 0).toNat))
        else .ok (.array (a.drop (max (len + first) 0).toNat))
      else
        let skip := if first < 0 then max (len + first) 0 else min first len
        .ok (.array ((a.drop skip.toNat).take limit.toNat))
    | value => .ok value

/-! ## Leaves -/

/-- `ALLOWED_DOLLAR_FIELDS`. -/
def allowedDollarFields : List String :=
  ["$id", "$ref", "$db", "$sortKey", "$recordId", "$searchSortValues", "$searchScore"]

def fieldNameProblem (name : String) : Option (Int × String) :=
  if name = "" then some (15998, "FieldPath field names may not be empty strings.")
  else if name.toList.head? = some '$' ∧ name ∉ allowedDollarFields then
    some (16410, "FieldPath field names may not start with '$', given '" ++ name ++ "'.")
  else if '\x00' ∈ name.toList then
    some (16411, "FieldPath field names may not contain '" ++ name ++ "'.")
  else if '.' ∈ name.toList then
    some (16412, "FieldPath field names may not contain '.', given '" ++ name ++ "'.")
  else none

/-- Whether a sub-document's first name is an operator. -/
def firstIsOp (d : Document) : Bool :=
  d.head?.any fun f => (fieldNameProblem f.1).isSome && decide (f.1.toList.head? = some '$')

/-- The last component of a path. -/
def leafName (key : String) : String := (Paths.splitDot key).getLast?.getD key

mutual

def flattenEntry (key : String) : Bson → R (List (String × Bson))
  | .document d =>
    if (carrierBytes d).isSome then .ok [(key, .document d)]
    else if d.isEmpty then .error (.mongo 51270 ("Invalid empty sub-projection: " ++ leafName key))
    else if firstIsOp d then .ok [(key, .document d)]
    else flattenFields (key ++ ".") d
  | v => .ok [(key, v)]

/-- Its loop over a sub-document's fields, their names behind `base`. -/
def flattenFields (base : String) : Document → R (List (String × Bson))
  | [] => .ok []
  | (k, v) :: d => do
    let leaves ← flattenEntry (base ++ k) v
    let rest ← flattenFields base d
    return leaves ++ rest

end

def flattenProjectionSpec (spec : Document) : R (List (String × Bson)) := flattenFields "" spec

/-- Fields collected into a document: the last value of a name, where the name came first. -/
def collect (fields : List (String × Bson)) : Document :=
  fields.foldl (fun d f => Document.insert d f.1 f.2) []

/-! ## Sizes -/

mutual

/-- The values a spec's value holds, itself among them. -/
def nodes : Bson → Nat
  | .document d => 1 + fieldNodes d
  | _ => 1

def fieldNodes : List (String × Bson) → Nat
  | [] => 0
  | (_, v) :: d => nodes v + fieldNodes d

end

theorem nodes_pos (v : Bson) : 0 < nodes v := by
  unfold nodes
  split <;> omega

theorem fieldNodes_append (d e : List (String × Bson)) :
    fieldNodes (d ++ e) = fieldNodes d + fieldNodes e := by
  induction d with
  | nil => simp [fieldNodes]
  | cons f d ih =>
    rw [List.cons_append, fieldNodes, fieldNodes, ih, Nat.add_assoc]

theorem fieldNodes_insert_le (d : Document) (k : String) (v : Bson) :
    fieldNodes (Document.insert d k v) ≤ fieldNodes d + nodes v := by
  induction d with
  | nil => simp [Document.insert, fieldNodes]
  | cons f d ih =>
    rw [Document.insert]
    split
    · rw [fieldNodes, fieldNodes]
      omega
    · rw [fieldNodes, fieldNodes]
      omega

theorem fieldNodes_collect_le (fields : List (String × Bson)) :
    fieldNodes (collect fields) ≤ fieldNodes fields := by
  have step : ∀ (l : List (String × Bson)) (d : Document),
      fieldNodes (l.foldl (fun d f => Document.insert d f.1 f.2) d) ≤ fieldNodes d + fieldNodes l := by
    intro l
    induction l with
    | nil => intro d; simp [fieldNodes]
    | cons f l ih =>
      intro d
      have hd := fieldNodes_insert_le d f.1 f.2
      have hl := ih (Document.insert d f.1 f.2)
      rw [List.foldl_cons, fieldNodes]
      omega
  simpa [collect, fieldNodes] using step fields []

theorem fieldNodes_filter_le (p : String × Bson → Bool) (l : List (String × Bson)) :
    fieldNodes (l.filter p) ≤ fieldNodes l := by
  induction l with
  | nil => simp
  | cons f l ih =>
    rw [List.filter_cons]
    split <;> simp only [fieldNodes] <;> omega

theorem fieldNodes_filter_lt {p : String × Bson → Bool} {l : List (String × Bson)}
    (h : ∃ f ∈ l, p f = false) : fieldNodes (l.filter p) < fieldNodes l := by
  induction l with
  | nil => simp at h
  | cons f l ih =>
    have hf := nodes_pos f.2
    have hle := fieldNodes_filter_le p l
    rw [List.filter_cons]
    split
    · rename_i hp
      have := ih (by simpa [hp] using h)
      simp only [fieldNodes]
      omega
    · rw [fieldNodes]
      omega

theorem fieldNodes_rename (base : String) (d : Document) :
    fieldNodes (d.map fun f => (base ++ f.1, f.2)) = fieldNodes d := by
  induction d with
  | nil => rfl
  | cons f d ih => rw [List.map_cons, fieldNodes, fieldNodes, ih]

mutual

theorem flattenEntry_cases {key : String} (v : Bson) {l : List (String × Bson)}
    (h : flattenEntry key v = .ok l) : l = [(key, v)] ∨ fieldNodes l < nodes v := by
  match v with
  | .document d =>
    rw [flattenEntry] at h
    split at h
    · exact .inl (Except.ok.inj h).symm
    · split at h
      · cases h
      · split at h
        · exact .inl (Except.ok.inj h).symm
        · -- the sub-document itself is gone
          have hle : fieldNodes l ≤ fieldNodes d := by
            rcases flattenFields_cases d h with rfl | hlt
            · rw [fieldNodes_rename]
            · exact hlt.le
          rw [nodes]
          exact .inr (by omega)
  | .double _ | .string _ | .array _ | .binary _ | .undefined | .objectId _ | .boolean _
  | .dateTime _ | .null | .regularExpression _ | .dbPointer _ _ | .javaScriptCode _ | .symbol _
  | .javaScriptCodeWithScope _ _ | .int32 _ | .timestamp _ | .int64 _ | .decimal128 _ | .minKey
  | .maxKey => exact .inl (Except.ok.inj h).symm

theorem flattenFields_cases {base : String} (d : Document) {l : List (String × Bson)}
    (h : flattenFields base d = .ok l) :
    l = d.map (fun f => (base ++ f.1, f.2)) ∨ fieldNodes l < fieldNodes d := by
  match d with
  | [] => exact .inl (Except.ok.inj h).symm
  | (k, v) :: d =>
    rw [flattenFields] at h
    obtain ⟨leaves, hv, h⟩ := Outcome.bind_eq_ok.mp h
    obtain ⟨rest, hd, h⟩ := Outcome.bind_eq_ok.mp h
    cases h
    have hv := flattenEntry_cases v hv
    have hd := flattenFields_cases d hd
    rw [fieldNodes_append, fieldNodes]
    rcases hv with rfl | hv
    · rcases hd with rfl | hd
      · exact .inl rfl
      · right
        simp only [fieldNodes]
        omega
    · right
      rcases hd with rfl | hd
      · rw [fieldNodes_rename]
        omega
      · omega

end

theorem flattenProjectionSpec_cases {spec : Document} {l : List (String × Bson)}
    (h : flattenProjectionSpec spec = .ok l) : l = spec ∨ fieldNodes l < fieldNodes spec := by
  rcases flattenFields_cases spec h with rfl | hlt
  · left
    simp
  · exact .inr hlt

end Secantus.Projection
