/-
  Applying an operator update (`apply_update_with`): what is refused when the update is parsed, the writes
  in the order of their paths, and each write at the concrete paths it expands to in the document so far.

  `$set`, `$setOnInsert` and `$unset` are embedded. What the other operators do at one path, and what is
  refused of the finished document, is `Operators`.
-/
import Secantus.Update.Positional

namespace Secantus.Update

open Secantus Bson BsonOrder Query

/-! ## Writing at one path -/

/-- `path_block`: what is in the way, the key it is under and the component that cannot be made. -/
def pathBlockIn (key : String) (cur : Bson) : List String → Option (String × Bson × String)
  | [] => none
  | part :: rest =>
    match cur with
    | .document d =>
      match Document.get d part with
      | none => none
      | some child => if rest.isEmpty then none else pathBlockIn part child rest
    | .array a =>
      if !Paths.isDigits part then some (key, cur, part)
      else
        match Paths.parseUsize part with
        | none => some (key, cur, part)
        | some idx =>
          match a[idx]? with
          | none => none
          | some child => if rest.isEmpty then none else pathBlockIn part child rest
    | _ => some (key, cur, part)

def pathBlock (doc : Document) (path : String) : Option (String × Bson × String) :=
  match Paths.splitDot path with
  | [] => none
  | first :: rest => (Document.get doc first).bind (pathBlockIn first · rest)

/-- `open_array_slots`: room for an index past the end that the path goes through. -/
def openArraySlotsIn (cur : Bson) : List String → R Bson
  | [] => .ok cur
  | part :: rest =>
    match cur with
    | .document d =>
      match Document.get d part with
      | none => .ok cur
      | some child => do return .document (Document.insert d part (← openArraySlotsIn child rest))
    | .array a =>
      match Paths.position part with
      | none => .ok cur
      | some idx =>
        if rest.isEmpty then .ok cur
        else if Paths.maxListGrowIndex < idx then .error .defer
        else
          let a := if a.length ≤ idx then a ++ List.replicate (idx - a.length) .null ++ [.document []] else a
          match a[idx]? with
          | none => .ok cur
          | some child => do return .array (a.set idx (← openArraySlotsIn child rest))
    | _ => .ok cur

/-- `set_path` of an update. -/
def setPath (renderValue : Bson → String) (doc : Document) (path : String) (value : Bson) : R Document :=
  match pathBlock doc path with
  | some (key, container, field) =>
    .error (.mongo 28 ("Cannot create field '" ++ field ++ "' in element \x7b" ++ key ++ ": " ++
      renderValue container ++ "\x7d"))
  | none => do
    match ← openArraySlotsIn (.document doc) (Paths.splitDot path) with
    | .document opened =>
      match Paths.setPath opened path value with
      | .ok new => .ok new
      | .error _ => .error .defer
    | _ => .error .defer

/-! ## The operators -/

/-- What the update engine does beside placing its writes. -/
structure Operators where
  engines : Engines
  binData : BinDataOrder
  renderValue : Bson → String
  renderShell : Bson → String
  typeName : Bson → String
  pushModifierError : Document → Option String
  /-- what an operator refuses of its argument before it expands the path -/
  prepare : String → String → Bson → R Unit
  /-- what an operator does at one concrete path -/
  write : String → Bson → Document → String → R Document
  /-- the new name of a `$rename`, and the rename -/
  renameTo : String → Bson → R String
  rename : Document → String → String → R Document
  /-- what is refused of the new document -/
  finish : Document → Document → Bool → Document → R Unit
  /-- the update as a replacement -/
  replace : Document → Document → Bool → R Document

/-- `KNOWN_UPDATE_OPS`. -/
def knownUpdateOps : List String :=
  ["$set", "$setOnInsert", "$unset", "$currentDate", "$inc", "$mul", "$min", "$max", "$push", "$addToSet",
    "$pull", "$pullAll", "$pop", "$rename", "$bit"]

/-- One field of an operator: where it is placed, and what is written. -/
structure Write where
  order : List String
  op : String
  path : String
  value : Bson

section Apply

variable (X : Operators) (W : Walk)

/-- An operator at one concrete path. -/
def effect (op : String) (value : Bson) (doc : Document) (path : String) : R Document :=
  match op with
  | "$set" | "$setOnInsert" => setPath X.renderValue doc path value
  | "$unset" => .ok (Paths.unsetPath doc path)
  | op => X.write op value doc path

/-- What an operator asks of its argument first; nothing, where it only sets or unsets. -/
def prepareOp (w : Write) : R Unit :=
  if w.op ∈ ["$set", "$setOnInsert", "$unset"] then .ok () else X.prepare w.op w.path w.value

/-- An operator at concrete paths, one after the other. -/
def effects (w : Write) (doc : Document) (paths : List String) : R Document :=
  paths.foldlM (effect X w.op w.value) doc

/-- `apply_op`, of one field. -/
def applyOp (doc : Document) (w : Write) : R Document :=
  if w.op = "$rename" then do
    let dest ← X.renameTo w.path w.value
    if hasPositional w.path then .error (.mongo 2 ("The source field for $rename may not be dynamic: " ++ w.path))
    else if hasPositional dest then
      .error (.mongo 2 ("The destination field for $rename may not be dynamic: " ++ dest))
    else X.rename doc w.path dest
  else if w.op ∈ knownUpdateOps && w.op ≠ "$currentDate" then do
    prepareOp X w
    effects X w doc (← W.expandPath doc w.path)
  else .error .defer

/-- The writes, each on the document the ones before it left. -/
def applyWrites (doc : Document) (ws : List Write) : R Document := ws.foldlM (applyOp X W) doc

end Apply

/-! ## The writes of an update -/

/-- The writes of one operator. A `$rename` is placed by the field it creates. -/
def fieldWrites (op : String) (fields : Document) : List Write :=
  fields.map fun (path, value) =>
    let place :=
      match op, value with
      | "$rename", .string dest => dest
      | _, _ => path
    ⟨Paths.splitDot place, op, path, value⟩

def writesOf (isUpsert : Bool) : Document → R (List Write)
  | [] => .ok []
  | (op, payload) :: update =>
    if op = "$setOnInsert" && !isUpsert then writesOf isUpsert update
    else
      match payload with
      | .document fields => do return fieldWrites op fields ++ (← writesOf isUpsert update)
      | _ => .error .defer

/-- The writes in the order of their paths. -/
def sortedWrites (isUpsert : Bool) (update : Document) : R (List Write) := do
  let writes ← writesOf isUpsert update
  return writes.mergeSort fun a b => (compare (a.order.map utf8) (b.order.map utf8)).isLE

/-! ## What is refused when the update is parsed -/

inductive UpdatePathFault where
  | empty (message : String)
  | conflict (offending location : String)
  | unknownModifier (op : String)
  | invalid (code : Int) (message : String)

def renameSamePath (a b : String) : Bool :=
  let ap := Paths.splitDot a
  let bp := Paths.splitDot b
  let n := min ap.length bp.length
  ap.take n = bp.take n

section Faults

variable (X : Operators)

def operatorArgumentError (op field : String) (value : Bson) : Option String :=
  let parts := Paths.splitDot field
  let first := parts.headD ""
  if op ≠ "$rename" && first = "$" then
    some ("Cannot have positional (i.e. '$') element in the first position in path '" ++ field ++ "'")
  else if op ≠ "$rename" && isPositionalToken first then
    some ("Cannot have array filter identifier (i.e. '$[<id>]') element in the first position in path '" ++
      field ++ "'")
  else if op ≠ "$rename" && 1 < parts.countP (· = "$") then
    some ("Too many positional (i.e. '$') elements found in path '" ++ field ++ "'")
  else
    match op, value with
    | "$rename", .string dest =>
      if field ≠ "" && dest ≠ "" && field = dest then
        some ("The source and target field for $rename must differ: " ++ field ++ ": \"" ++ dest ++ "\"")
      else if field ≠ "" && dest ≠ "" && renameSamePath field dest then
        some ("The source and target field for $rename must not be on the same path: " ++ field ++ ": \"" ++
          dest ++ "\"")
      else none
    | "$push", .document m => if Document.containsKey m "$each" then X.pushModifierError m else none
    | "$addToSet", .document m =>
      match m with
      | ("$each", .array _) :: _ :: _ =>
        some ("Found unexpected fields after $each in $addToSet: " ++ X.renderValue (.document m))
      | _ => none
    | "$pullAll", .array _ => none
    | "$pullAll", other => some ("$pullAll requires an array argument but was given a " ++ X.typeName other)
    | _, _ => none

/-- One path against the paths claimed before it. -/
def claimPath (seen : List (List String)) (path : String) : Except UpdatePathFault (List String) :=
  let parts := Paths.splitDot path
  if path = "" then .error (.empty "An empty update path is not valid.")
  else if parts.any (· = "") then
    .error (.empty ("The update path '" ++ path ++ "' contains an empty field name, which is not allowed."))
  else
    match seen.find? fun prev =>
        parts.take (min parts.length prev.length) = prev.take (min parts.length prev.length) with
    | some prev => .error (.conflict path (joinDot (if prev.length ≤ parts.length then prev else parts)))
    | none => .ok parts

/-- The fields of one operator; the paths claimed with them. -/
def claimFields (op : String) : List (List String) → Document → Except UpdatePathFault (List (List String))
  | seen, [] => .ok seen
  | seen, (field, value) :: fields => do
    if let some problem := operatorArgumentError X op field value then throw (.invalid 2 problem)
    let claimed ← claimPath seen field
    let renamed ←
      match op, value with
      | "$rename", .string dest => if dest ≠ field then (claimPath seen dest).map ([·]) else .ok []
      | _, _ => .ok []
    claimFields op (seen ++ claimed :: renamed) fields

def claimOperators : List (List String) → Document → Except UpdatePathFault (List (List String))
  | seen, [] => .ok seen
  | seen, (op, payload) :: update => do
    if op ∉ knownUpdateOps then throw (.unknownModifier op)
    match payload with
    | .document fields => claimOperators (← claimFields X op seen fields) update
    | payload =>
      throw (.invalid 9 ("Modifiers operate on fields but we found type " ++ X.typeName payload ++
        " instead. For example: \x7b$mod: \x7b<field>: ...\x7d\x7d not \x7b" ++ op ++ ": " ++
        X.renderValue payload ++ "\x7d"))

def isOperatorForm (update : Document) : Bool :=
  match update with
  | [] => false
  | (k, _) :: _ => k.toList.head? = some '$'

def updatePathFault (update : Document) : Option UpdatePathFault :=
  if !isOperatorForm update then none
  else
    match claimOperators X [] update with
    | .error fault => some fault
    | .ok _ => none

/-- `update_spec_error`, and the conflict that is left to the caller. -/
def UpdatePathFault.refusal : UpdatePathFault → Fallback
  | .empty message => .mongo 56 message
  | .conflict _ _ => .defer
  | .unknownModifier op =>
    .mongo 9 ("Unknown modifier: " ++ op ++
      ". Expected a valid update modifier or pipeline-style update specified as an array")
  | .invalid code message => .mongo code message

end Faults

/-! ## An update -/

/-- What the paths are expanded with. -/
def Operators.walk (X : Operators) (arrayFilters : List Document) (positionalMatches : Document) : Walk :=
  ⟨indexArrayFilters arrayFilters, positionalMatches, X.engines, X.binData, X.renderValue⟩

def applyUpdateWith (X : Operators) (doc update : Document) (isUpsert : Bool) (arrayFilters : List Document)
    (positionalMatches : Document) : R Document :=
  let hasOp := isOperatorForm update
  match (unusedArrayFilter arrayFilters update).filter fun _ => hasOp with
  | some unused =>
    .error (.mongo 9 ("The array filter for identifier '" ++ unused ++ "' was not used in the update " ++
      X.renderShell (.document update)))
  | none =>
    if hasOp && !arrayFiltersValid arrayFilters update then .error .defer
    else
      match updatePathFault X update with
      | some fault => .error fault.refusal
      | none =>
        if !hasOp then X.replace doc update isUpsert
        else if !(Document.keys update).all (fun k => k.toList.head? = some '$') then .error .defer
        else do
          let writes ← sortedWrites isUpsert update
          let result ← applyWrites X (X.walk arrayFilters positionalMatches) doc writes
          X.finish doc update isUpsert result
          return result

end Secantus.Update
