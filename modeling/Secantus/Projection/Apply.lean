/-
  Applying a projection to a decoded document (`projection.rs`): `apply_projection`.

  A spec loses its `$meta` fields, is flattened into leaves, and gives its computed leaves to the
  evaluator; what is left is an inclusion, an exclusion or a positional projection. Inclusion walks the
  document along a trie of the paths and is put into document order, `_id` first.
-/
import Secantus.Projection.Spec

namespace Secantus.Projection

open Secantus Bson BsonOrder

variable (E : Engines)

/-! ## Path tries -/

/-- `SpecTree`: a leaf has no entries. Its entries are looked up by name. -/
inductive SpecTree where
  | node (entries : List (String × SpecTree))

namespace SpecTree

def entries : SpecTree → List (String × SpecTree)
  | .node es => es

def isLeaf (t : SpecTree) : Bool := t.entries.isEmpty

def get (t : SpecTree) (key : String) : Option SpecTree := t.entries.lookup key

/-- `f` of the entry `seg`, made when it is missing (`entry(seg).or_default()`). -/
def upsert (seg : String) (f : SpecTree → SpecTree) : List (String × SpecTree) → List (String × SpecTree)
  | [] => [(seg, f (.node []))]
  | (k, t) :: es => if k = seg then (k, f t) :: es else (k, t) :: upsert seg f es

/-- One path's segments, from the root. -/
def add : List String → SpecTree → SpecTree
  | [], t => t
  | seg :: segs, t => .node (upsert seg (add segs) t.entries)

end SpecTree

def specTree (paths : List String) : SpecTree :=
  paths.foldl (fun root p => root.add (Paths.splitDot p)) (.node [])

mutual

/-- `include_doc`: along the document, whose names are distinct. -/
def includeDoc : Document → SpecTree → Document
  | [], _ => []
  | (key, val) :: doc, tree =>
    match tree.get key with
    | none => includeDoc doc tree
    | some subtree =>
      if subtree.isLeaf then (key, val) :: includeDoc doc tree
      else
        match includeValue val subtree with
        | some projected => (key, projected) :: includeDoc doc tree
        | none => includeDoc doc tree

def includeValue : Bson → SpecTree → Option Bson
  | .document d, subtree => some (.document (includeDoc d subtree))
  | .array arr, subtree => some (.array (includeElements arr subtree))
  | _, _ => none

/-- The elements of an array: a scalar drops. -/
def includeElements : List Bson → SpecTree → List Bson
  | [], _ => []
  | e :: arr, subtree => (includeValue e subtree).toList ++ includeElements arr subtree

end

mutual

/-- What `exclude_value` does to the documents in a value. -/
def mapDocuments (f : Document → Document) : Bson → Bson
  | .document d => .document (f d)
  | .array arr => .array (mapElements f arr)
  | v => v

def mapElements (f : Document → Document) : List Bson → List Bson
  | [] => []
  | e :: arr => mapDocuments f e :: mapElements f arr

end

mutual

def excludeDoc : SpecTree → Document → Document
  | .node es, doc => excludeEntries es doc

/-- Its loop over the trie's entries. -/
def excludeEntries : List (String × SpecTree) → Document → Document
  | [], doc => doc
  | (key, subtree) :: es, doc =>
    if subtree.isLeaf then excludeEntries es (Document.remove doc key)
    else
      match Document.get doc key with
      | some val =>
        excludeEntries es (Document.insert doc key (mapDocuments (fun d => excludeDoc subtree d) val))
      | none => excludeEntries es doc

end

def inDocumentOrder (result doc : Document) : Document :=
  let order (k : String) : Nat := ((Document.keys doc).idxOf? k).getD (2 ^ 64 - 1)
  let rest := result.filter (·.1 ≠ "_id")
  result.filter (·.1 = "_id") ++ rest.mergeSort (fun a b => order a.1 ≤ order b.1)

/-! ## Single fields -/

def set (doc : Document) (path : String) (value : Bson) : R Document :=
  match Paths.setPath doc path value with
  | .ok doc => .ok doc
  | .error _ => .error .defer

def applySlices (result : Document) (sliceSpecs : List (String × Bson)) : R Document :=
  sliceSpecs.foldlM (fun result (path, arg) => do
    match Paths.getPath result path with
    | some current => set result path (← applySlice current arg)
    | none => return result) result

/-- The slices of an inclusion, which include their paths. -/
def includeSlices (doc result : Document) (sliceSpecs : List (String × Bson)) : R Document :=
  sliceSpecs.foldlM (fun result (path, arg) => do
    let result ←
      match Paths.getPath result path, Paths.getPath doc path with
      | none, some extracted => set result path extracted
      | _, _ => .ok result
    match Paths.getPath result path with
    | some current => set result path (← applySlice current arg)
    | none => return result) result

/-- Whether `first_match` tests an element as a value: its filter has operators only. -/
def isValuePredicate (subFilter : Document) : Bool :=
  !subFilter.isEmpty && subFilter.all (fun f => f.1.toList.head? = some '$')

/-- One element of an `$elemMatch` projection. -/
def elementHit (subFilter : Document) (elem : Bson) : R Bool :=
  let asValue := Query.fieldMatches E.query E.order [⟨some elem, false⟩] "_" true (.document subFilter)
  match elem with
  | .document ed =>
    if isValuePredicate subFilter then asValue else Query.matchesFilter E.query E.order ed subFilter
  | _ => asValue

def firstHit (subFilter : Document) : List Bson → R (Option Bson)
  | [] => .ok none
  | elem :: arr => do
    if ← elementHit E subFilter elem then return some elem else firstHit subFilter arr

def firstMatch (doc : Document) (path : String) (subFilter : Document) : R (Option Bson) :=
  match Paths.getPath doc path with
  | some (.array arr) => firstHit E subFilter arr
  | _ => .ok none

/-- The `$elemMatch` fields of an inclusion. -/
def includeElemMatch (doc result : Document) (nonId : List (String × Bson)) : R Document :=
  nonId.foldlM (fun result (path, value) => do
    match elemMatchSpec value with
    | none => return result
    | some (.document subf) =>
      match ← firstMatch E doc path subf with
      | some first => set result path (.array [first])
      | none => return result
    | some _ => throw .defer) result

/-- `include_doc` of the plain paths, inserted into `result`. -/
def includePlain (doc result : Document) (nonId : List (String × Bson)) : Document :=
  let plain := (nonId.filter fun f => (elemMatchSpec f.2).isNone).map (·.1)
  if plain.isEmpty then result
  else (includeDoc doc (specTree plain)).foldl (fun result f => Document.insert result f.1 f.2) result

/-- `{_id: …}` of the document, when it is kept and there. -/
def idField (doc : Document) (includeId : Bool) : Document :=
  if includeId then ((Document.get doc "_id").map fun id => ("_id", id)).toList else []

/-- Whether an inclusion keeps `_id`: it does without a flag. -/
def includesId : Option Bson → R Bool
  | none => .ok true
  | some v => specTruthy E v

/-! ## Positional projections -/

/-- A key that ends in `.$`. -/
def isPositionalKey (key : String) : Bool := ['.', '$'].isSuffixOf key.toList

/-- The path before `.$`. -/
def arrayPath (key : String) : String := String.ofList (key.toList.take (key.toList.length - 2))

/-- `positional_field`, from the document `cur` that the components `walked` reach. -/
def positionalWalk (path : String) (key : Option Nat) (cur : Document) (walked : List String) :
    List String → R (Option (String × Bson))
  | [] => .ok none
  | part :: rest =>
    match Document.get cur part with
    | none => .ok none
    | some (.array a) => do
      let some key := key
        | throw (.mongo 51246
            "positional operator '.$' couldn't find a matching element in the array")
      let some element := a[key]?
        | throw (.mongo 51247 "positional operator '.$' element mismatch")
      let at' := ".".intercalate (walked ++ [part])
      if rest.isEmpty then return some (at', .array [element])
      match element with
      | .document ed =>
        return some (at', .array [.document (includeDoc ed (specTree [".".intercalate rest]))])
      | _ => return some (at', .array [])
    | some value =>
      if rest.isEmpty then .ok (some (path, value))
      else
        match value with
        | .document d => positionalWalk path key d (walked ++ [part]) rest
        | _ => .ok none

def positionalField (doc : Document) (path : String) (key : Option Nat) : R (Option (String × Bson)) :=
  positionalWalk path key doc [] (Paths.splitDot path)

def applyPositional (doc : Document) (specMain sliceSpecs : List (String × Bson)) (path : String)
    (key : Option Nat) : R Document := do
  let includeId ← includesId E (Document.get specMain "_id")
  let nonId := specMain.filter (·.1 ≠ "_id")
  for (_, v) in nonId do
    if (elemMatchSpec v).isNone && !(← specTruthy E v) then throw .defer
  let result := includePlain doc (idField doc includeId) nonId
  let result ← includeElemMatch E doc result nonId
  let result ←
    match ← positionalField doc path key with
    | some (at', value) => set result at' value
    | none => pure result
  includeSlices doc result sliceSpecs

/-! ## Inclusion and exclusion -/

/-- The flag of a field: an `$elemMatch` includes. -/
def fieldTruthy (v : Bson) : R Bool := if (elemMatchSpec v).isSome then .ok true else specTruthy E v

/-- A value that is no flag of `_id`. -/
def idDefers : Option Bson → Bool
  | none | some (.int32 _) | some (.int64 _) | some (.double _) | some (.boolean _) => false
  | some _ => true

/-- A spec of at most `_id` and slices. -/
def applyIdOnly (doc : Document) (idSpec : Option Bson) (sliceSpecs : List (String × Bson)) :
    R Document :=
  match idSpec with
  | some v =>
    if isDropId E v then applySlices (Document.remove doc "_id") sliceSpecs
    else
      sliceSpecs.foldlM (fun result (path, arg) => do
        match Paths.getPath doc path with
        | some current => set result path (← applySlice current arg)
        | none => return result) (idField doc true)
  | none => applySlices doc sliceSpecs

/-- The inclusion of the fields `nonId`. -/
def applyInclusion (doc : Document) (idSpec : Option Bson) (nonId sliceSpecs : List (String × Bson)) :
    R Document := do
  let includeId ← includesId E idSpec
  let result := includePlain doc (idField doc includeId) nonId
  let result ← includeElemMatch E doc result nonId
  let result ← includeSlices doc result sliceSpecs
  return inDocumentOrder result doc

/-- The exclusion of the fields `nonId`. -/
def applyExclusion (doc : Document) (idSpec : Option Bson) (nonId sliceSpecs : List (String × Bson)) :
    R Document :=
  let result := excludeDoc (specTree (nonId.map (·.1))) doc
  let result := if idSpec.any (isDropId E) then Document.remove result "_id" else result
  applySlices result sliceSpecs

/-- `apply_projection_with` from where it separates slices and positional keys from the flags. -/
def applyLeaves (doc spec : Document) (query : Option Document) (vars : Document) : R Document := do
  let sliceSpecs := spec.filterMap fun f => (sliceSpec E f.2).map (f.1, ·)
  let others := spec.filter fun f => (sliceSpec E f.2).isNone
  let specMain := others.filter fun f => !isPositionalKey f.1
  match others.filter fun f => isPositionalKey f.1 with
  | [(posKey, posVal)] =>
    if !(← specTruthy E posVal) then throw .defer
    let key ←
      match query with
      | some q => E.elemMatchKey doc q vars
      | none => pure none
    return inDocumentOrder (← applyPositional E doc specMain sliceSpecs (arrayPath posKey) key) doc
  | _ :: _ => throw .defer
  | [] =>
    let idSpec := Document.get specMain "_id"
    if idDefers idSpec then throw .defer
    let nonId := specMain.filter (·.1 ≠ "_id")
    if nonId.isEmpty then applyIdOnly E doc idSpec sliceSpecs
    else
      let truthy ← nonId.mapM fun f => fieldTruthy E f.2
      if truthy.all id then applyInclusion E doc idSpec nonId sliceSpecs
      else if !truthy.any id then applyExclusion E doc idSpec nonId sliceSpecs
      else throw .defer

/-! ## Whole specs -/

def withComputed (result doc : Document) (computed : List (String × Bson)) (vars : Document) :
    R Document :=
  computed.foldlM (fun result (key, expr) => do
    match ← E.evaluateOrMissing doc expr vars with
    | .undefined => return result
    | value => set result key value) result

/-- An exclusion beside a computed field. -/
def isMixed (f : String × Bson) : Bool := f.1 ≠ "_id" && isFlagValue f.2 && !flagTruthy E f.2

/-- The flags of a computed-only spec: whether `_id` is kept. -/
def keepsId (flags : Document) : Bool :=
  ((Document.get flags "_id").map fun v => !isFlagValue v || flagTruthy E v).getD true

/-- A spec without its `$meta` fields. -/
def stripMeta (spec : Document) : Document := spec.filter fun f => (metaSpec f.2).isNone

/-- The leaves that are not computed. -/
def flagLeaves (flattened : List (String × Bson)) : Document :=
  collect (flattened.filter fun f => !isComputedSpec E f.2)

theorem fieldNodes_stripMeta_lt {spec : Document}
    (h : spec.any (fun f => (metaSpec f.2).isSome) = true) :
    fieldNodes (stripMeta spec) < fieldNodes spec := by
  obtain ⟨f, hf, hm⟩ := List.any_eq_true.mp h
  exact fieldNodes_filter_lt ⟨f, hf, Option.isNone_eq_false_iff.mpr hm⟩

theorem fieldNodes_flagLeaves_lt {flattened : List (String × Bson)}
    (h : flattened.any (fun f => isComputedSpec E f.2) = true) :
    fieldNodes (flagLeaves E flattened) < fieldNodes flattened := by
  obtain ⟨f, hf, hc⟩ := List.any_eq_true.mp h
  have hle := fieldNodes_collect_le (flattened.filter fun f => !isComputedSpec E f.2)
  refine hle.trans_lt (fieldNodes_filter_lt ⟨f, hf, ?_⟩)
  simp [hc]

def applyProjectionWith (doc spec : Document) (query : Option Document) (vars : Document) :
    R Document :=
  if spec.isEmpty then .ok doc
  else if hmeta : spec.any (fun f => (metaSpec f.2).isSome) then
    applyProjectionWith doc (stripMeta spec) query vars
  else if spec.any (fun f => isPositionalKey f.1) then applyLeaves E doc spec query vars
  else
    match hflat : flattenProjectionSpec spec with
    | .error e => .error e
    | .ok flattened =>
      if hcomp : flattened.any (fun f => isComputedSpec E f.2) then
        let flags := flagLeaves E flattened
        let computed := flattened.filter fun f => isComputedSpec E f.2
        match flags.find? (isMixed E) with
        | some f =>
          .error (.mongo 31254 ("Cannot do exclusion on field " ++ f.1 ++ " in inclusion projection"))
        | none => do
          let result ←
            if flags.any (fun f => f.1 ≠ "_id") then applyProjectionWith doc flags query vars
            else pure (idField doc (keepsId E flags))
          withComputed E result doc computed vars
      else if hkeys : flattened.map (·.1) ≠ Document.keys spec then
        applyProjectionWith doc (collect flattened) query vars
      else applyLeaves E doc spec query vars
termination_by fieldNodes spec
decreasing_by
  · exact fieldNodes_stripMeta_lt hmeta
  · have hlt := fieldNodes_flagLeaves_lt E hcomp
    rcases flattenProjectionSpec_cases hflat with rfl | hsmall
    · exact hlt
    · exact hlt.trans hsmall
  · have hle := fieldNodes_collect_le flattened
    rcases flattenProjectionSpec_cases hflat with rfl | hsmall
    · exact absurd rfl hkeys
    · exact hle.trans_lt hsmall

def applyProjection (doc spec : Document) (query : Option Document) : R Document :=
  applyProjectionWith E doc spec query []

end Secantus.Projection
