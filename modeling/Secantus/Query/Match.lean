/-
  The matcher (`query.rs`): paths, field conditions and whole filters, on a decoded document.

  A path reaches candidates, each a value or a missing field. A condition whose first key starts with
  `$` is operators, any other is a value to equal, and both look one array level down. What a filter
  hands to another engine (a regular expression, `$expr`, `$elemMatch`, a geometry) is `Engines`. There
  is no collation.

  The matcher on one field: a path through documents reaches one candidate, and a condition of one
  operator is that operator.
-/
import Secantus.Query.Compare

namespace Secantus.Query

open Secantus Bson BsonOrder

/-- `Cand`: a value a path reaches, and whether an array there is looked into. -/
structure Cand where
  value : Option Bson
  expandable : Bool

namespace Cand

def plain (value : Option Bson) : Cand := ⟨value, true⟩

def positional (value : Option Bson) : Cand := ⟨value, false⟩

/-- `elements`: the array to look into, if any. -/
def elements (c : Cand) (descend : Bool) : Option (List Bson) :=
  match descend && c.expandable, c.value with
  | true, some (.array a) => some a
  | _, _ => none

end Cand

/-! ## Paths -/

def isArrayIndex (part : String) : Bool :=
  Paths.isDigits part && (part = "0" || part.toList.head? ≠ some '0')

/-- One component after the first, from one candidate. -/
def stepFrom (part : String) (last : Bool) (c : Cand) : List Cand :=
  match c.value with
  | some (.document d) => [.plain (Document.get d part)]
  | some (.array a) =>
    -- a trailing empty component is no step
    if part = "" && last then [.plain (some (.array a))]
    else
      (if isArrayIndex part then [.positional ((Paths.parseUsize part).bind (a[·]?))] else []) ++
        a.filterMap fun
          | .document d => some (.plain (Document.get d part))
          | _ => none
  | _ => [.plain none]

/-- The components after the first. -/
def walk : List Cand → List String → List Cand
  | current, [] => current
  | current, part :: parts => walk (current.flatMap (stepFrom part parts.isEmpty)) parts

def resolvePath (doc : Document) (path : String) : List Cand :=
  match Paths.splitDot path with
  | [] => []
  | first :: parts => walk [.plain (Document.get doc first)] parts

/-! ## Operators -/

/-- `is_operator_dict`: the first key starts with `$` and is no part of a DBRef. -/
def isOperatorDict : Document → Bool
  | [] => false
  | (k, _) :: _ => k.toList.head? = some '$' && !(k ∈ ["$ref", "$id", "$db"])

/-- `KNOWN_FIELD_OPERATORS`. -/
def knownFieldOperators : List String :=
  ["$eq", "$ne", "$gt", "$gte", "$lt", "$lte", "$in", "$nin", "$exists", "$not", "$type", "$size",
    "$all", "$mod", "$elemMatch", "$regex", "$options", "$bitsAllSet", "$bitsAnySet", "$bitsAllClear",
    "$bitsAnyClear", "$geoWithin", "$within", "$geoIntersects", "$near", "$nearSphere",
    "$maxDistance", "$minDistance", "$comment"]

/-- What the matcher hands to other engines. -/
structure Engines where
  /-- `op_regex`, the sibling `$options` beside the pattern -/
  regex : List Cand → Bson → Option Bson → Bool → Except Fallback Bool
  /-- `near_condition` and its test, for a condition that names a `$near` -/
  near : List Cand → Document → Except Fallback Bool
  /-- the field operators not matched here -/
  operator : List Cand → String → Bson → String → Bool → Except Fallback Bool
  /-- the document operators other than the logical ones, `$where` and unknown names among them -/
  topLevel : Document → String → Bson → Except Fallback Bool
  /-- `truthy` of a Decimal128 through its double -/
  decimalTruthy : Decimal128 → Bool

/-- Engines that answer nothing. -/
def noEngines : Engines where
  regex _ _ _ _ := .ok false
  near _ _ := .ok false
  operator _ _ _ _ _ := .ok false
  topLevel _ _ _ := .ok false
  decimalTruthy _ := true

def isRegularExpression : Bson → Bool
  | .regularExpression _ => true
  | _ => false

def isUndefined : Bson → Bool
  | .undefined => true
  | _ => false

def eqWithArray (descend : Bool) (expected : Bson) : List Cand → Except Fallback Bool
  | [] => .ok false
  | c :: cs =>
    match c.value with
    | none =>
      match expected with
      | .null => .ok true
      | _ => eqWithArray descend expected cs
    | some v => do
      if ← eqScalar v expected then return true
      if ← anyEqual ((c.elements descend).getD []) then return true
      eqWithArray descend expected cs
where
  anyEqual : List Bson → Except Fallback Bool
    | [] => .ok false
    | e :: es => do
      if ← eqScalar e expected then return true
      anyEqual es

/-- `cmp_op`: an absent field compares as null. -/
def cmpOp (o : BinDataOrder) (target : Bson) (pred : Ordering → Bool) (descend : Bool) :
    List Cand → Except Fallback Bool
  | [] => .ok false
  | c :: cs => do
    if ((← compareValues o (c.value.getD .null) target).any pred) then return true
    if ← anyOrdered ((c.elements descend).getD []) then return true
    cmpOp o target pred descend cs
where
  anyOrdered : List Bson → Except Fallback Bool
    | [] => .ok false
    | e :: es => do
      if ((← compareValues o e target).any pred) then return true
      anyOrdered es

def isNanBound (v : Bson) : Bool := Numeric.isNanBson v

def isNull : Bson → Bool
  | .null => true
  | _ => false

/-- `$gte` and `$lte`: a NaN bound and a null one ask for equality. -/
def inclusiveOp (o : BinDataOrder) (arg : Bson) (pred : Ordering → Bool) (descend : Bool)
    (values : List Cand) : Except Fallback Bool :=
  if isNanBound arg || isNull arg then eqWithArray descend arg values else cmpOp o arg pred descend values

def truthy (E : Engines) : Bson → Bool
  | .boolean b => b
  | .int32 n => n ≠ 0
  | .int64 n => n ≠ 0
  | .double d => d.isNan || d.isInfinite || d.scaled ≠ 0
  | .null => false
  | .decimal128 d => E.decimalTruthy d
  | _ => true

def inElementsOk (arr : List Bson) : Except Fallback Unit :=
  if arr.any (fun | .document d => isOperatorDict d | _ => false) then
    .error (.mongo 2 "cannot nest $ under $in")
  else .ok ()

def inCandidateMatches (E : Engines) (values : List Cand) (cand : Bson) (descend : Bool) :
    Except Fallback Bool :=
  if isRegularExpression cand then E.regex values cand none descend
  else eqWithArray descend cand values

/-- Whether one of a `$in` or `$nin` list's elements matches. -/
def anyCandidate (E : Engines) (values : List Cand) (descend : Bool) : List Bson → Except Fallback Bool
  | [] => .ok false
  | cand :: arr => do
    if ← inCandidateMatches E values cand descend then return true
    anyCandidate E values descend arr

/-- What `op_matches` refuses before it looks at the operator. -/
def operandCheck (op : String) (arg : Bson) (field : String) : Except Fallback Unit :=
  if isRegularExpression arg && op ∈ ["$gt", "$gte", "$lt", "$lte"] then
    .error (.mongo 2 ("Can't have RegEx as arg to non-equality predicate over field '" ++ field ++ "'."))
  else if isRegularExpression arg && op = "$ne" then .error (.mongo 2 "Can't have regex as arg to $ne.")
  else if isUndefined arg && op ∈ ["$eq", "$ne", "$gt", "$gte", "$lt", "$lte"] then
    .error (.mongo 2 "cannot compare to undefined")
  else
    match arg with
    | .array a =>
      if op ∈ ["$in", "$nin"] && a.any isUndefined then
        .error (.mongo 2 "Cannot insert undefined into InListData")
      else .ok ()
    | _ => .ok ()

/-- The argument of a `$not`: a regular expression or a non-empty document of known operators. -/
def notArgument : Bson → Except Fallback Unit
  | .regularExpression _ => .ok ()
  | .document [] => .error (.mongo 2 "$not argument must be a non-empty object")
  | .document d =>
    match d.find? (fun f => f.1 ∉ knownFieldOperators) with
    | some (key, _) => .error (.mongo 2 ("unknown operator: " ++ key))
    | none => .ok ()
  | _ => .error (.mongo 2 "$not argument must be a regex or an object")

/-- A `$in` or `$nin` list, refused when it is no array. -/
def inList (E : Engines) (values : List Cand) (op : String) (arg : Bson) (descend : Bool) :
    Except Fallback Bool :=
  match arg with
  | .array arr => do
    inElementsOk arr
    anyCandidate E values descend arr
  | _ => .error (.mongo 2 (op ++ " needs an array"))

/-- `op_matches`; `inner` is the answer of the operand read as a condition, which `$not` negates. -/
def opMatches (E : Engines) (o : BinDataOrder) (values : List Cand) (op : String) (arg : Bson)
    (field : String) (descend : Bool) (inner : Except Fallback Bool) : Except Fallback Bool := do
  operandCheck op arg field
  match op with
  | "$eq" => eqWithArray descend arg values
  | "$ne" => return !(← eqWithArray descend arg values)
  | "$gt" => cmpOp o arg (· == .gt) descend values
  | "$gte" => inclusiveOp o arg (· != .lt) descend values
  | "$lt" => cmpOp o arg (· == .lt) descend values
  | "$lte" => inclusiveOp o arg (· != .gt) descend values
  | "$in" => inList E values op arg descend
  | "$nin" => return !(← inList E values op arg descend)
  | "$exists" => return (values.any (·.value.isSome) == truthy E arg)
  | "$not" =>
    notArgument arg
    return !(← inner)
  | op => E.operator values op arg field descend

/-- The flags of a regular expression: `regex_flags_ok`. -/
def regexFlagsOk (flags : String) : Except Fallback Unit :=
  match flags.toList.find? (fun c => c ∉ ['i', 'm', 's', 'x', 'u']) with
  | some bad => .error (.mongo 51108 (" invalid flag in regex options: " ++ bad.toString))
  | none => .ok ()

def regexOptionsOk : Bson → Except Fallback Unit
  | .string s => regexFlagsOk s
  | _ => .error (.mongo 2 "$options has to be a string")

/-- The `$regex` and `$options` pair, checked before any operator runs. -/
def regexPairCheck (d : Document) : Except Fallback Unit := do
  match Document.get d "$options", Document.get d "$regex" with
  | some _, none => .error (.mongo 2 "$options needs a $regex")
  | some opts, some regex =>
    regexOptionsOk opts
    match regex with
    | .regularExpression r =>
      if r.options ≠ "" then .error (.mongo 51075 "options set in both $regex and $options")
      regexFlagsOk r.options
    | _ => .ok ()
  | none, some (.regularExpression r) => regexFlagsOk r.options
  | none, _ => .ok ()

def isNear (k : String) : Bool := k ∈ ["$near", "$nearSphere", "$geoNear"]

mutual

/-- `field_matches_descend`. -/
def fieldMatches (E : Engines) (o : BinDataOrder) (values : List Cand) (field : String) (descend : Bool)
    (cond : Bson) : Except Fallback Bool :=
  match cond with
  | .undefined => .error (.mongo 2 "cannot compare to undefined")
  | .regularExpression r => do
    regexFlagsOk r.options
    E.regex values (.regularExpression r) none descend
  | .document d =>
    if isOperatorDict d then do
      regexPairCheck d
      if d.any (isNear ·.1) then E.near values d
      else everyOperator E o values field descend (Document.get d "$options") d
    else eqWithArray descend (.document d) values
  | cond => eqWithArray descend cond values

/-- The operators of a condition, in order; `$options` goes with its `$regex`. -/
def everyOperator (E : Engines) (o : BinDataOrder) (values : List Cand) (field : String) (descend : Bool)
    (options : Option Bson) : Document → Except Fallback Bool
  | [] => .ok true
  | (op, arg) :: rest => do
    let holds ←
      if op = "$options" then .ok true
      else if op = "$regex" then E.regex values arg options descend
      else opMatches E o values op arg field descend (fieldMatches E o values field descend arg)
    if holds then everyOperator E o values field descend options rest else return false

end

/-! ## Filters -/

/-- Whether the key is read by another engine: any other key that starts with `$`. -/
def isDocumentOperator (key : String) : Bool := key.toList.head? = some '$'

/-- `doc_op_array` refuses. -/
def notAnArray (key : String) : Fallback := .mongo 2 (key ++ " argument must be an array")

def emptyArray (key : String) : Fallback := .mongo 2 (key ++ " argument must be a non-empty array")

/-- `as_doc_entry` refuses. -/
def notAnObject (key : String) : Fallback := .mongo 2 (key ++ " argument's entries must be objects")

mutual

/-- `matches`: every clause of the filter. -/
def matchesFilter (E : Engines) (o : BinDataOrder) (doc : Document) : Document → Except Fallback Bool
  | [] => .ok true
  | (k, v) :: query => do
    if ← matchClause E o doc k v then matchesFilter E o doc query else return false

def matchClause (E : Engines) (o : BinDataOrder) (doc : Document) (key : String) (cond : Bson) :
    Except Fallback Bool :=
  if key ∈ ["$and", "$or", "$nor"] then
    match cond with
    | .array [] => .error (emptyArray key)
    | .array arr =>
      if key = "$and" then everyEntry E o doc key arr
      else do
        let hit ← anyEntry E o doc key arr
        return (hit == (key = "$or"))
    | _ => .error (notAnArray key)
  else if key = "$comment" then .ok true
  else if isDocumentOperator key then E.topLevel doc key cond
  else fieldMatches E o (resolvePath doc key) key true cond

/-- The entries of a `$and`. -/
def everyEntry (E : Engines) (o : BinDataOrder) (doc : Document) (key : String) :
    List Bson → Except Fallback Bool
  | [] => .ok true
  | .document query :: arr => do
    if ← matchesFilter E o doc query then everyEntry E o doc key arr else return false
  | _ :: _ => .error (notAnObject key)

/-- The entries of a `$or` or a `$nor`. -/
def anyEntry (E : Engines) (o : BinDataOrder) (doc : Document) (key : String) :
    List Bson → Except Fallback Bool
  | [] => .ok false
  | .document query :: arr => do
    if ← matchesFilter E o doc query then return true else anyEntry E o doc key arr
  | _ :: _ => .error (notAnObject key)

end

open Secantus Bson BsonOrder Paths

/-! ## A path through documents -/

/-- The path goes through documents only and ends in a field, or where there is none. -/
inductive Reaches : Document → List String → Option Bson → Prop where
  | field (d : Document) (k : String) : Reaches d [k] (Document.get d k)
  | down {d d' : Document} {k k' : String} {ks : List String} {v : Option Bson}
    (h : Document.get d k = some (.document d')) (hr : Reaches d' (k' :: ks) v) : Reaches d (k :: k' :: ks) v

theorem walk_of_reaches {d : Document} {path : List String} {v : Option Bson} (h : Reaches d path v) :
    ∃ k ks, path = k :: ks ∧ walk [.plain (Document.get d k)] ks = [.plain v] ∧
      ∀ key, walk [.plain (Document.get d k)] (ks ++ [key]) = stepFrom key true (.plain v) := by
  induction h with
  | field d k =>
    refine ⟨k, [], rfl, rfl, fun key => ?_⟩
    rw [List.nil_append, walk, walk, List.flatMap_singleton]
    rfl
  | @down d d' k k' ks v hget hr ih =>
    obtain ⟨_, _, heq, hwalk, hkey⟩ := ih
    cases heq
    have hstep : ∀ last, stepFrom k' last (.plain (some (.document d'))) = [.plain (Document.get d' k')] :=
      fun _ => rfl
    refine ⟨k, k' :: ks, rfl, ?_, fun key => ?_⟩
    · rw [walk, hget, List.flatMap_singleton, hstep, hwalk]
    · rw [List.cons_append, walk, hget, List.flatMap_singleton, hstep, hkey]

/-- A field that a filter may name: its path goes through documents and does not start with `$`. -/
structure Field (doc : Document) (field : String) (v : Option Bson) : Prop where
  named : field.toList.head? ≠ some '$'
  reaches : Reaches doc (splitDot field) v

section Field

variable {E : Engines} {o : BinDataOrder} {doc : Document} {field : String} {v : Option Bson}

theorem Field.resolvePath (h : Field doc field v) : resolvePath doc field = [.plain v] := by
  obtain ⟨k, ks, heq, hwalk, -⟩ := walk_of_reaches h.reaches
  unfold Query.resolvePath
  rw [heq]
  exact hwalk

theorem Field.resolvePath_child (h : Field doc field v) {key : String} (hkey : '.' ∉ key.toList) :
    Query.resolvePath doc (field ++ "." ++ key) = stepFrom key true (.plain v) := by
  obtain ⟨k, ks, heq, -, hwalk⟩ := walk_of_reaches h.reaches
  unfold Query.resolvePath
  rw [splitDot_append _ hkey, heq]
  exact hwalk key

theorem Field.child_named (h : Field doc field v) (key : String) :
    (field ++ "." ++ key).toList.head? ≠ some '$' := by
  have hlist : (field ++ "." ++ key).toList = field.toList ++ '.' :: key.toList := by simp
  have hnamed := h.named
  rw [hlist]
  cases hf : field.toList with
  | nil => simp
  | cons c cs =>
    rw [hf] at hnamed
    exact hnamed

theorem matchClause_of_named {key : String} (h : key.toList.head? ≠ some '$') (cond : Bson) :
    matchClause E o doc key cond = fieldMatches E o (Query.resolvePath doc key) key true cond := by
  have hne : ∀ {t : String}, t.toList.head? = some '$' → key ≠ t := by
    rintro t ht rfl
    exact h ht
  unfold matchClause
  rw [if_neg (by simp [hne (t := "$and") (by decide), hne (t := "$or") (by decide), hne (t := "$nor") (by decide)]),
    if_neg (hne (t := "$comment") (by decide)), if_neg (by simpa [isDocumentOperator] using h)]

theorem Field.matchClause (h : Field doc field v) (cond : Bson) :
    Query.matchClause E o doc field cond = fieldMatches E o [.plain v] field true cond := by
  rw [matchClause_of_named h.named, h.resolvePath]

theorem Field.matchClause_child (h : Field doc field v) {key : String} (hkey : '.' ∉ key.toList)
    (cond : Bson) : Query.matchClause E o doc (field ++ "." ++ key) cond =
      fieldMatches E o (stepFrom key true (.plain v)) (field ++ "." ++ key) true cond := by
  rw [matchClause_of_named (h.child_named key), h.resolvePath_child hkey]

end Field

/-! ## Conditions of one operator -/

section Operator

variable {E : Engines} {o : BinDataOrder} {values : List Cand} {field : String} {descend : Bool}

theorem bind_ite_true (x : Except Fallback Bool) :
    (x >>= fun b => if b then .ok true else return false) = x := by
  cases x with
  | error e => rfl
  | ok b => cases b <;> rfl

/-- An operator that is a whole condition of its own. -/
def isPlainOperator (op : String) : Bool :=
  op ∈ ["$eq", "$ne", "$gt", "$gte", "$lt", "$lte", "$in", "$nin", "$exists"]

theorem fieldMatches_operator {op : String} (h : isPlainOperator op = true) (arg : Bson) :
    fieldMatches E o values field descend (.document [(op, arg)]) =
      opMatches E o values op arg field descend (fieldMatches E o values field descend arg) := by
  have hdict : isOperatorDict [(op, arg)] = true ∧ isNear op = false ∧ op ≠ "$options" ∧ op ≠ "$regex" := by
    simp only [isPlainOperator, List.mem_cons, List.not_mem_nil, or_false, decide_eq_true_eq] at h
    rcases h with rfl | rfl | rfl | rfl | rfl | rfl | rfl | rfl | rfl <;>
      exact ⟨rfl, by decide, by decide, by decide⟩
  obtain ⟨hdict, hnear, hoptions, hregex⟩ := hdict
  have hpair : regexPairCheck [(op, arg)] = .ok () := by
    unfold regexPairCheck
    rw [Document.get_cons, if_neg hoptions, Document.get_cons, if_neg hregex]
    rfl
  rw [fieldMatches, if_pos hdict, hpair]
  show (if [(op, arg)].any (isNear ·.1) then _ else _) = _
  rw [if_neg (by simp [hnear]), everyOperator, if_neg hoptions, if_neg hregex]
  exact bind_ite_true _

theorem matchesFilter_single {doc : Document} (key : String) (cond : Bson) :
    matchesFilter E o doc [(key, cond)] = matchClause E o doc key cond := by
  rw [matchesFilter, matchesFilter]
  exact bind_ite_true _

/-! ## Logical operators -/

variable {doc : Document}

theorem everyEntry_eq {key : String} {arms : List Document} {bs : List Bool}
    (h : List.Forall₂ (fun arm b => matchesFilter E o doc arm = .ok b) arms bs) :
    everyEntry E o doc key (arms.map .document) = .ok (bs.all id) := by
  induction h with
  | nil => rfl
  | @cons arm b arms bs harm _ ih =>
    rw [List.map_cons, everyEntry, harm, ih]
    cases b <;> rfl

theorem anyEntry_eq {key : String} {arms : List Document} {bs : List Bool}
    (h : List.Forall₂ (fun arm b => matchesFilter E o doc arm = .ok b) arms bs) :
    anyEntry E o doc key (arms.map .document) = .ok (bs.any id) := by
  induction h with
  | nil => rfl
  | @cons arm b arms bs harm _ ih =>
    rw [List.map_cons, anyEntry, harm, ih]
    cases b <;> rfl

theorem matchesFilter_and {arms : List Document} {bs : List Bool} (hne : arms ≠ [])
    (h : List.Forall₂ (fun arm b => matchesFilter E o doc arm = .ok b) arms bs) :
    matchesFilter E o doc [("$and", .array (arms.map .document))] = .ok (bs.all id) := by
  obtain ⟨arm, rest, rfl⟩ := List.exists_cons_of_ne_nil hne
  rw [matchesFilter_single, ← everyEntry_eq h]
  rfl

theorem matchesFilter_or {arms : List Document} {bs : List Bool} (hne : arms ≠ [])
    (h : List.Forall₂ (fun arm b => matchesFilter E o doc arm = .ok b) arms bs) :
    matchesFilter E o doc [("$or", .array (arms.map .document))] = .ok (bs.any id) := by
  obtain ⟨arm, rest, rfl⟩ := List.exists_cons_of_ne_nil hne
  have hclause : matchClause E o doc "$or" (.array ((arm :: rest).map .document)) =
      (anyEntry E o doc "$or" ((arm :: rest).map .document) >>= fun hit => return (hit == true)) := rfl
  rw [matchesFilter_single, hclause, anyEntry_eq h]
  cases bs.any id <;> rfl

end Operator

end Secantus.Query
