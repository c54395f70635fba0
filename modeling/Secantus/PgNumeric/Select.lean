/-
  Numeric predicates as filters (`numeric_filter`, `numeric_in_filter`), and what they select.

  The narrow arm compares a stored Decimal128 with the constant's bracket, the wide arm a stored sort key
  with the constant's. A column's value then matches exactly when PostgreSQL's comparison holds.

  What the clauses of a numeric filter select: on the field itself the stored Decimal128s, on the sort key
  the wide documents.
-/
import Secantus.PgNumeric.Stored
import Secantus.Query.Match

namespace Secantus.PgNumeric

open Secantus Bson BsonOrder Query

/-! ## The filters -/

/-- `{field: {op: arg}}`. -/
def clause (field op : String) (arg : Bson) : Document := [(field, .document [(op, arg)])]

/-- `{op: [arms]}`. -/
def combined (op : String) (arms : List Document) : Document := [(op, .array (arms.map .document))]

/-- One arm alone, or the `$or` of several. -/
def anyOf : List Document → Document
  | [arm] => arm
  | arms => combined "$or" arms

/-- Whether the bracket is exact, and its two ends. -/
def Bracket.ends : Bracket → Bool × Decimal128 × Decimal128
  | .exact d => (true, d, d)
  | .between lo hi => (false, lo, hi)

/-- The filters of a NaN constant. -/
def nanFilter (field mqlOp : String) (nan : Decimal128) : Option Document :=
  match mqlOp with
  | "$eq" | "$gte" => some [(field, .decimal128 nan)]
  | "$ne" => some (combined "$and" [clause field "$ne" (.decimal128 nan), clause field "$ne" .null])
  | "$gt" => some (clause field "$in" (.array []))
  | "$lt" => some (combined "$and" [clause field "$ne" (.decimal128 nan), clause field "$ne" .null])
  | "$lte" => some (clause field "$ne" .null)
  | _ => none

/-- The arm of the stored Decimal128s; `none` for an operator that is not lowered. -/
def narrowArm (field mqlOp : String) (exact : Bool) (lo hi : Decimal128) : Option (Option Document) :=
  match mqlOp with
  | "$eq" => some (if exact then some [(field, .decimal128 lo)] else none)
  | "$gt" => some (some (if exact then clause field "$gt" (.decimal128 lo) else clause field "$gte" (.decimal128 hi)))
  | "$gte" => some (some (clause field "$gte" (.decimal128 (if exact then lo else hi))))
  | "$lt" => some (some (if exact then clause field "$lt" (.decimal128 lo) else clause field "$lte" (.decimal128 lo)))
  | "$lte" => some (some (clause field "$lte" (.decimal128 lo)))
  | _ => none

/-- The arm of the wide documents: every document, then its sort key. -/
def wideArm (field : String) (op : String) (arg : Bson) : Document :=
  [(field, .document [("$gte", .document [])]),
    (field ++ "." ++ wideNumericSortKey, .document [(op, arg)])]

def numericFilter (fromStr : Text → Option Decimal128) (field mqlOp : String) (value : Bson) : Option Document := do
  let canonical ← numericOperandText value
  let key := Bson.string (keyString canonical)
  let wideField := field ++ "." ++ wideNumericSortKey
  let nan ← fromStr Canonical.nan.text
  if canonical = Canonical.nan.text then nanFilter field mqlOp nan
  else
    let (exact, lo, hi) := (← decimal128Bracket fromStr canonical).ends
    if mqlOp = "$ne" then
      return combined "$and" ((if exact then [clause field "$ne" (.decimal128 lo)] else []) ++
        [clause wideField "$ne" key, clause field "$ne" .null])
    let narrow ← narrowArm field mqlOp exact lo hi
    return anyOf (narrow.toList ++ [wideArm field mqlOp key] ++
      (if mqlOp = "$gt" ∨ mqlOp = "$gte" then [[(field, .decimal128 nan)]] else []))

/-- The lists of `numeric_in_filter`: a constant's decimal when it has one, and its key. -/
def inLists (fromStr : Text → Option Decimal128) : List Bson → Option (List Bson × List Bson)
  | [] => some ([], [])
  | v :: values => do
    let canonical ← numericOperandText v
    if canonical = Canonical.nan.text then
      let nan ← fromStr Canonical.nan.text
      let (narrow, keys) ← inLists fromStr values
      return (.decimal128 nan :: narrow, keys)
    else
      let bracket ← decimal128Bracket fromStr canonical
      let (narrow, keys) ← inLists fromStr values
      let key := Bson.string (keyString canonical)
      match bracket with
      | .exact d => return (.decimal128 d :: narrow, key :: keys)
      | .between _ _ => return (narrow, key :: keys)

def numericInFilter (fromStr : Text → Option Decimal128) (field : String) (values : List Bson) (negated : Bool) :
    Option Document := do
  let (narrow, keys) ← inLists fromStr values
  let wideField := field ++ "." ++ wideNumericSortKey
  if negated then
    return combined "$and"
      [clause field "$nin" (.array narrow), clause wideField "$nin" (.array keys), clause field "$ne" .null]
  else return combined "$or" [clause field "$in" (.array narrow), wideArm field "$in" (.array keys)]

/-! ## PostgreSQL's comparisons -/

/-- The comparison operators of SQL. -/
inductive Comparison where
  | eq
  | ne
  | lt
  | le
  | gt
  | ge
  deriving DecidableEq

namespace Comparison

/-- The MQL operator a comparison is lowered with. -/
def mql : Comparison → String
  | eq => "$eq"
  | ne => "$ne"
  | lt => "$lt"
  | le => "$lte"
  | gt => "$gt"
  | ge => "$gte"

def holds : Comparison → Ordering → Bool
  | eq, r => r == .eq
  | ne, r => r != .eq
  | lt, r => r == .lt
  | le, r => r != .gt
  | gt, r => r == .gt
  | ge, r => r != .lt

/-- A comparison with NULL is never true. -/
def test (op : Comparison) (stored : Option Quantity) (c : Quantity) : Bool :=
  match stored with
  | none => false
  | some q => op.holds (pgCmp q c)

end Comparison

/-! ## The stored forms, as the matcher sees them -/

/-- A test of the stored decimal; false for every other form. -/
def decimalTest (f : Quantity → Bool) : Option Bson → Bool
  | some (.decimal128 d) => f d.quantity
  | _ => false

/-- The stored sort key, for a wide document. -/
def wideKey : Option Bson → Option String
  | some (.document d) =>
    match Document.get d wideNumericSortKey with
    | some (.string s) => some s
    | _ => none
  | _ => none

/-- Missing or null. -/
def isSqlNull : Option Bson → Bool
  | none | some .null => true
  | _ => false

/-! ## Equality and order of single values -/

theorem eqScalar_decimal_null (d : Decimal128) : eqScalar (.decimal128 d) .null = .ok false := by
  have hplain : eqScalar (.decimal128 d) .null =
      if Numeric.isNanBson (.decimal128 d) && false then .ok true else .ok false := rfl
  rw [hplain, Bool.and_false]
  rfl

theorem classify_decimal (d : Decimal128) : ∃ x, Numeric.classify (.decimal128 d) = some x ∧ x.Wf ∧
    x.quantity = d.quantity :=
  ⟨_, rfl, Numeric.classify_spec (.decimal128 d)⟩

theorem eqScalar_decimal (d e : Decimal128) :
    eqScalar (.decimal128 d) (.decimal128 e) = .ok (d.quantity.cmp e.quantity == .eq) := by
  obtain ⟨x, hx, hxwf, hxq⟩ := classify_decimal d
  obtain ⟨y, hy, hywf, hyq⟩ := classify_decimal e
  have hnd := Numeric.isNanBson_spec (.decimal128 d)
  have hne := Numeric.isNanBson_spec (.decimal128 e)
  simp only [quantity, Option.some.injEq] at hnd hne
  have heq := Numeric.eq_spec hxwf hywf
  rw [Numeric.cmp_spec hxwf hywf, hxq, hyq] at heq
  unfold eqScalar
  unfold eqPlain
  dsimp only
  rw [hx, hy]
  dsimp only
  rw [heq]
  show (if Numeric.isNanBson (.decimal128 d) && Numeric.isNanBson (.decimal128 e) then Except.ok true
    else Except.ok (d.quantity.partialCmp e.quantity == some .eq)) = _
  by_cases hdn : d.quantity = .nan
  · by_cases hen : e.quantity = .nan
    · rw [if_pos (by rw [hnd.mpr hdn, hne.mpr hen]; rfl), hdn, hen]
      rfl
    · have hf : Numeric.isNanBson (.decimal128 e) = false := by simpa [← hne] using hen
      rw [hf, Bool.and_false, if_neg (by decide), hdn]
      cases hq : e.quantity with
      | nan => exact absurd hq hen
      | negInf => rfl
      | posInf => rfl
      | fin q => rfl
  · have hf : Numeric.isNanBson (.decimal128 d) = false := by simpa [← hnd] using hdn
    rw [hf, Bool.false_and, if_neg (by decide)]
    cases hq : d.quantity with
    | nan => exact absurd hq hdn
    | negInf => cases e.quantity <;> rfl
    | posInf => cases e.quantity <;> rfl
    | fin q => cases e.quantity <;> rfl

theorem compareValues_decimal (o : BinDataOrder) (d e : Decimal128) :
    compareValues o (.decimal128 d) (.decimal128 e) = .ok (d.quantity.partialCmp e.quantity) := by
  obtain ⟨x, hx, hxwf, hxq⟩ := classify_decimal d
  obtain ⟨y, hy, hywf, hyq⟩ := classify_decimal e
  unfold compareValues
  dsimp only
  rw [hx, hy]
  dsimp only
  rw [Numeric.cmp_spec hxwf hywf, hxq, hyq]
  rfl

theorem ltRank_wide (t : Text) : ltRank (.document (wideNumeric t)) = 50 := rfl

theorem compareValues_wide (o : BinDataOrder) (t : Text) :
    compareValues o (.document (wideNumeric t)) (.document []) = .ok (some .gt) := by
  have hempty : ltRank (.document []) = 50 := rfl
  have hlt : bsonLt o (.document (wideNumeric t)) (.document []) = some false := by
    rw [bsonLt, ltRank_wide, hempty, if_neg (by decide), if_neg (by decide)]
    · show bsonLtFields o (wideNumeric t) [] = some false
      unfold wideNumeric
      rw [bsonLtFields]
  have hgt : bsonLt o (.document []) (.document (wideNumeric t)) = some true := by
    rw [bsonLt, ltRank_wide, hempty, if_neg (by decide), if_neg (by decide)]
    · show bsonLtFields o [] (wideNumeric t) = some true
      rw [bsonLtFields]
      rfl
  show (bsonOrdering o (.document (wideNumeric t)) (.document [])).map some = _
  unfold bsonOrdering
  rw [hlt, hgt]
  rfl

/-! ## One candidate -/

section Candidate

variable {c : Cand} {descend : Bool}

theorem elements_of_not_array (h : ∀ a, c.value ≠ some (.array a)) : c.elements descend = none := by
  unfold Cand.elements
  split
  · rename_i a _ ha
    exact absurd ha (h a)
  · rfl

theorem cmpOp_single {o : BinDataOrder} {target : Bson} {pred : Ordering → Bool} {r : Option Ordering}
    (h : ∀ a, c.value ≠ some (.array a)) (hr : compareValues o (c.value.getD .null) target = .ok r) :
    cmpOp o target pred descend [c] = .ok (r.any pred) := by
  rw [cmpOp, hr, elements_of_not_array h]
  cases hp : r.any pred with
  | true => simp [bind, Except.bind, hp, pure, Except.pure]
  | false => simp [bind, Except.bind, hp, cmpOp, cmpOp.anyOrdered]

theorem eqWithArray_single {expected v : Bson} {b : Bool} (h : ∀ a, v ≠ .array a) (hv : c.value = some v)
    (hb : eqScalar v expected = .ok b) : eqWithArray descend expected [c] = .ok b := by
  unfold eqWithArray
  rw [hv]
  dsimp only
  rw [hb, elements_of_not_array (by rw [hv]; exact fun a ha => h a (Option.some.inj ha))]
  cases b <;> rfl

end Candidate

/-! ## Clauses on the field -/

section Clauses

variable {E : Engines} {o : BinDataOrder} {doc : Document} {field : String} {v : Option Bson} {q : Option Quantity}

theorem Stored.not_array (h : Stored v q) : ∀ a, v ≠ some (.array a) := by
  intro a ha
  subst ha
  cases h

/-- Equality with a decimal selects the stored decimals of its value. -/
theorem eqWithArray_decimal (h : Stored v q) (lo : Decimal128) :
    eqWithArray true (.decimal128 lo) [.plain v] = .ok (decimalTest (fun x => x.cmp lo.quantity == .eq) v) := by
  cases h with
  | missing => rfl
  | null => exact eqWithArray_single (fun _ => Bson.noConfusion) rfl rfl
  | decimal d => exact eqWithArray_single (fun _ => Bson.noConfusion) rfl (eqScalar_decimal d lo)
  | wide p => exact eqWithArray_single (fun _ => Bson.noConfusion) rfl rfl

theorem eqWithArray_null (h : Stored v q) : eqWithArray true .null [.plain v] = .ok (isSqlNull v) := by
  cases h with
  | missing => rfl
  | null => exact eqWithArray_single (fun _ => Bson.noConfusion) rfl rfl
  | decimal d => exact eqWithArray_single (fun _ => Bson.noConfusion) rfl (eqScalar_decimal_null d)
  | wide p => exact eqWithArray_single (fun _ => Bson.noConfusion) rfl rfl

theorem cmpOp_decimal (h : Stored v q) (lo : Decimal128) (pred : Ordering → Bool) :
    cmpOp o (.decimal128 lo) pred true [.plain v] =
      .ok (decimalTest (fun x => (x.partialCmp lo.quantity).any pred) v) := by
  have hne := h.not_array
  cases h with
  | missing => exact cmpOp_single (r := none) hne rfl
  | null => exact cmpOp_single (r := none) hne rfl
  | decimal d => exact cmpOp_single hne (compareValues_decimal o d lo)
  | wide p => exact cmpOp_single (r := none) hne rfl

/-- Being at least the empty document selects the wide documents. -/
theorem cmpOp_document (h : Stored v q) :
    cmpOp o (.document []) (· != .lt) true [.plain v] = .ok (wideKey v).isSome := by
  have hne := h.not_array
  cases h with
  | missing => exact cmpOp_single (r := none) hne rfl
  | null => exact cmpOp_single (r := none) hne rfl
  | decimal d => exact cmpOp_single (r := none) hne rfl
  | wide p => exact cmpOp_single (r := some .gt) hne (compareValues_wide o p.text)

theorem stepFrom_key (h : Stored v q) :
    stepFrom wideNumericSortKey true (.plain v) = [.plain ((wideKey v).map .string)] := by
  cases h with
  | missing => rfl
  | null => rfl
  | decimal d => rfl
  | wide p => rfl

theorem cmpOp_key (k : String) (pred : Ordering → Bool) (key : Option String) :
    cmpOp o (.string k) pred true [.plain (key.map .string)] =
      .ok (key.any fun s => pred (compare (utf8 s) (utf8 k))) := by
  cases key with
  | none => exact cmpOp_single (r := none) (fun _ h => nomatch h) rfl
  | some s =>
    refine cmpOp_single (r := some (compare (utf8 s) (utf8 k))) ?_ rfl
    exact fun _ h => nomatch h

theorem eqWithArray_key (k : String) (key : Option String) :
    eqWithArray true (.string k) [.plain (key.map .string)] = .ok (key.any fun s => s = k) := by
  cases key with
  | none => rfl
  | some s => exact eqWithArray_single (fun _ => Bson.noConfusion) rfl rfl

end Clauses

end Secantus.PgNumeric
