/-
  How `$group` (`group.rs`), `$setWindowFields` (`windowfields.rs`) and `$fill` (`fill.rs`) put documents together,
  with no collation.

  The first keys a document by `gkey` of its group key, the others by the BSON bytes of its partition value. Both
  values come from one expression; the evaluator's operators are a parameter (`Operators`). The order the groups
  come out in, what is computed in them, and `$group`'s spilling are left out.

  The stages agree on two documents unless `$group` alone finds them alike (`stages_alike_iff`): equal values that
  are not one value, a one-field object with its field missing in one document and null in the other, and a field
  path that is not UTF-8, which `$group` takes for an object.
-/
import Secantus.Library.Buckets
import Secantus.Partitions.GroupKey
import Secantus.Wire.RoundTrip

namespace Secantus.Partitions

open Secantus Secantus.Library Secantus.Paths Secantus.Bson

/-! ## Expressions -/

/-- The evaluator's operators, of a document and variables: `apply_op`, and what `$cond`, `$switch`, `$let` and
    `$ifNull` answer where a missing value stays missing. -/
structure Operators where
  applyOp : (key : String) → (arg : Bson) → (doc vars : Document) → Except Fallback Bson
  returning : (op : String) → (arg : Bson) → (doc vars : Document) → Except Fallback Bson

def exprPathIn (value : Bson) : List String → Option Bson
  | [] => some value
  | part :: parts =>
    match value with
    | .document d => (Document.get d part).bind (exprPathIn · parts)
    | .array a =>
      some (.array (a.filterMap fun
        | .document d => (Document.get d part).bind (exprPathIn · parts)
        | _ => none))
    | _ => none

def exprPath (doc : Document) (path : String) : Option Bson := exprPathIn (.document doc) (splitDot path)

/-- The start of a variable, by its name. -/
def root (doc vars : Document) (base : String) : Option Bson :=
  match Document.get vars base with
  | some v => some v
  | none => if base = "ROOT" ∨ base = "CURRENT" then some (.document doc) else none

/-- A variable's name and the path after it. -/
def splitVar (name : List Char) : String × Option String :=
  match splitOnce isPoint name with
  | some (base, rest) => (String.ofList base, some (String.ofList rest))
  | none => (String.ofList name, none)

def resolveVar (doc vars : Document) (name : List Char) : Except Fallback Bson :=
  let (base, rest) := splitVar name
  let value := match root doc vars base with
    | some v => some v
    | none => if base = "REMOVE" then some .null else none
  match value, rest with
  | none, _ => .error .defer
  | some v, none => .ok v
  | some v, some path => .ok ((exprPathIn v (splitDot path)).getD .null)

/-- `eval_invalid_utf8`: a string that is not UTF-8, as a field path or as the constant it is. -/
def evalInvalidUtf8 (doc : Document) (expr missing : Bson) : Option Bson :=
  match asInvalidUtf8 expr with
  | none => none
  | some (36 :: rest) =>
    if rest.head? = some 36 then some expr
    else some ((exprPath doc (String.ofList (Wire.escapeFrom rest 0))).getD missing)
  | some _ => some expr

/-- `eval` of a string. -/
def evalString (doc vars : Document) (s : String) : Except Fallback Bson :=
  match s.toList with
  | '$' :: '$' :: var => resolveVar doc vars var
  | '$' :: path => .ok ((exprPath doc (String.ofList path)).getD .null)
  | _ => .ok (.string s)

/-- What a string is to `eval_field_value` where it is not left to `eval`. -/
def missingString (doc vars : Document) (s : String) : Option Bson :=
  match s.toList with
  | '$' :: '$' :: var =>
    if s = "$$REMOVE" then some .undefined
    else
      match splitVar var with
      | (_, none) => none
      | (base, some rest) =>
        match root doc vars base with
        | none | some (.array _) => none
        | some (.document d) => if (exprPath d rest).isNone then some .undefined else none
        | some _ => some .undefined
  | '$' :: path => some ((exprPath doc (String.ofList path)).getD .undefined)
  | _ => none

/-- What `eval_field_value` does not leave to `eval`. -/
def fieldValueFirst (X : Operators) (doc vars : Document) (expr : Bson) : Option (Except Fallback Bson) :=
  match evalInvalidUtf8 doc expr .undefined with
  | some v => some (.ok v)
  | none =>
    match expr with
    | .string s => (missingString doc vars s).map .ok
    | .document [(op, arg)] =>
      if op ∈ ["$cond", "$switch", "$let", "$ifNull"] then some (X.returning op arg doc vars) else none
    | _ => none

mutual

def eval (X : Operators) (doc vars : Document) (expr : Bson) : Except Fallback Bson :=
  match evalInvalidUtf8 doc expr .null with
  | some v => .ok v
  | none =>
    match expr with
    | .string s => evalString doc vars s
    | .array a => (evalItems X doc vars a).map .array
    | .document [(key, val)] =>
      if key.toList.head? = some '$' then X.applyOp key val doc vars
      else (evalFields X doc vars [] [(key, val)]).map .document
    | .document d => (evalFields X doc vars [] d).map .document
    | other => .ok other

def evalItems (X : Operators) (doc vars : Document) : List Bson → Except Fallback (List Bson)
  | [] => .ok []
  | e :: a => do
    let v ← eval X doc vars e
    let out ← evalItems X doc vars a
    return v :: out

/-- The fields of a document literal, `out` those there are. -/
def evalFields (X : Operators) (doc vars out : Document) : Document → Except Fallback Document
  | [] => .ok out
  | (k, e) :: d => do
    let v ← (fieldValueFirst X doc vars e).getD (eval X doc vars e)
    match v with
    | .undefined => evalFields X doc vars out d
    | v => evalFields X doc vars (Document.insert out k v) d

end

def evaluate (X : Operators) (doc : Document) (expr : Bson) (vars : Document) : Except Fallback Bson :=
  eval X doc vars expr

def evaluateOrMissing (X : Operators) (doc : Document) (expr : Bson) (vars : Document) : Except Fallback Bson :=
  (fieldValueFirst X doc vars expr).getD (eval X doc vars expr)

/-! ## Keys of documents -/

def missingAsNull : Bson → Bson
  | .undefined => .null
  | other => other

def groupKey (X : Operators) (idExpr : Bson) (d vars : Document) : Except Fallback Bson :=
  match idExpr with
  | .document [(k, e)] =>
    if k.toList.head? = some '$' then (evaluate X d idExpr vars).map missingAsNull
    else (evaluateOrMissing X d e vars).map fun v => .document [(k, missingAsNull v)]
  | _ => (evaluate X d idExpr vars).map missingAsNull

/-- The key `$group` finds a document's group by. -/
def groupIndexKey (X : Operators) (idExpr : Bson) (vars d : Document) : Except Fallback GKey := do
  let keyVal ← groupKey X idExpr d vars
  gkey keyVal

/-- `bsondoc::to_vec` of a key, where no collation folds it. -/
def keyBytes (C : Wire.Crate) (keyVal : Bson) : Except Fallback Bytes :=
  match Wire.write C [("k", keyVal)] with
  | .ok bytes => .ok bytes
  | .error _ => .error .defer

/-- The key `$setWindowFields` finds a document's partition by. -/
def windowKey (C : Wire.Crate) (X : Operators) (partitionBy : Option Bson) (vars d : Document) :
    Except Fallback Bytes := do
  let keyVal ← match partitionBy with
    | some expr => evaluate X d expr vars
    | none => .ok .null
  match keyVal with
  | .array _ => .error (.mongo 14 "An expression used to partition cannot evaluate to value of type array")
  | keyVal => keyBytes C keyVal

def fieldValue (doc : Document) (field : String) : Bson := (getPath doc field).getD .null

def partitionValue (X : Operators) (d : Document) (fields : Option (List String)) (expr : Option Bson)
    (vars : Document) : Except Fallback Bson :=
  match fields, expr with
  | some fields, _ => .ok (.document (fields.foldl (fun out f => Document.insert out f (fieldValue d f)) []))
  | none, some expr => evaluate X d expr vars
  | none, none => .ok .null

def partitionKey (C : Wire.Crate) (X : Operators) (d : Document) (fields : Option (List String)) (expr : Option Bson)
    (vars : Document) : Except Fallback Bytes := do
  let keyVal ← partitionValue X d fields expr vars
  keyBytes C keyVal

/-! ## The loops -/

/-- The documents of a stage by the keys of its loop: their positions, group by group. -/
def positionsBy {κ : Type} [DecidableEq κ] (key : Document → Except Fallback κ) (docs : List Document) :
    Except Fallback (List (List ℕ)) :=
  (groupsFrom (fun p : Document × ℕ => key p.1) [] docs.zipIdx).map fun gs => gs.map fun g => g.2.map Prod.snd

/-- The loop of `run_group`. -/
def groups (X : Operators) (idExpr : Bson) (vars : Document) (docs : List Document) :
    Except Fallback (List (List ℕ)) :=
  positionsBy (groupIndexKey X idExpr vars) docs

/-- The partition loop of `set_window_fields_each`. -/
def windowPartitions (C : Wire.Crate) (X : Operators) (partitionBy : Option Bson) (vars : Document)
    (docs : List Document) : Except Fallback (List (List ℕ)) :=
  positionsBy (windowKey C X partitionBy vars) docs

/-- The partition loop of `fill_stage`. -/
def fillPartitions (C : Wire.Crate) (X : Operators) (fields : Option (List String)) (expr : Option Bson)
    (vars : Document) (docs : List Document) : Except Fallback (List (List ℕ)) :=
  positionsBy (fun d => partitionKey C X d fields expr vars) docs

/-- The stage puts the documents at two positions together. -/
def Together (parts : Except Fallback (List (List ℕ))) (i j : ℕ) : Prop :=
  ∃ groups, parts = .ok groups ∧ ∃ g ∈ groups, i ∈ g ∧ j ∈ g

/-! ## Documents together -/

section Loops

variable {κ : Type} [DecidableEq κ] {key : Document → Except Fallback κ} {docs : List Document} {i j : ℕ}
  {d d' : Document}

theorem mem_zipIdx (h : docs[i]? = some d) : (d, i) ∈ docs.zipIdx :=
  List.mem_zipIdx_iff_getElem?.mpr h

theorem mem_of_mem_zipIdx {p : Document × ℕ} (h : p ∈ docs.zipIdx) : p.1 ∈ docs :=
  List.mem_of_getElem? (List.mem_zipIdx_iff_getElem?.mp h)

theorem positionsBy_eq_ok {parts : List (List ℕ)} (h : positionsBy key docs = .ok parts) :
    ∃ gs, groupsFrom (fun p : Document × ℕ => key p.1) [] docs.zipIdx = .ok gs ∧
      parts = gs.map fun g => g.2.map Prod.snd := by
  obtain ⟨gs, hgs, rfl⟩ := map_ok h
  exact ⟨gs, hgs, rfl⟩

theorem mem_positions {gs : List (κ × List (Document × ℕ))}
    (hgs : Groups (fun p : Document × ℕ => key p.1) docs.zipIdx gs) {g : κ × List (Document × ℕ)} (hg : g ∈ gs)
    (hi : docs[i]? = some d) : i ∈ g.2.map Prod.snd ↔ (d, i) ∈ g.2 := by
  rw [List.mem_map]
  constructor
  · rintro ⟨⟨d₀, i₀⟩, hmem, rfl⟩
    have hd₀ := List.mem_zipIdx_iff_getElem?.mp ((hgs.mem_iff g hg _).mp hmem).1
    rw [hi] at hd₀
    rwa [Option.some.inj hd₀]
  · exact fun hmem => ⟨_, hmem, rfl⟩

/-- Where every document has a key, two are together exactly when they have one. -/
theorem together_iff (hkeys : ∀ d ∈ docs, ∃ k, key d = .ok k) (hi : docs[i]? = some d) (hj : docs[j]? = some d')
    {k l : κ} (hk : key d = .ok k) (hl : key d' = .ok l) : Together (positionsBy key docs) i j ↔ k = l := by
  obtain ⟨gs, hgs⟩ := groupsFrom_ok (fun p hp => hkeys _ (mem_of_mem_zipIdx hp)) ([] : List (κ × List (Document × ℕ)))
  have hgroups := (groups_nil _).groupsFrom hgs
  have hparts : positionsBy key docs = .ok (gs.map fun g => g.2.map Prod.snd) := by
    unfold positionsBy
    rw [hgs]
    rfl
  rw [← hgroups.together_iff (mem_zipIdx hi) (mem_zipIdx hj) hk hl]
  constructor
  · rintro ⟨parts, hok, p, hp, hip, hjp⟩
    obtain rfl := Except.ok.inj (hparts.symm.trans hok)
    obtain ⟨g, hg, rfl⟩ := List.mem_map.mp hp
    exact ⟨g, hg, (mem_positions hgroups hg hi).mp hip, (mem_positions hgroups hg hj).mp hjp⟩
  · rintro ⟨g, hg, hig, hjg⟩
    exact ⟨_, hparts, _, List.mem_map_of_mem hg, (mem_positions hgroups hg hi).mpr hig,
      (mem_positions hgroups hg hj).mpr hjg⟩

theorem not_together {e : Fallback} (hd : d ∈ docs) (hkey : key d = .error e) :
    ¬Together (positionsBy key docs) i j := by
  rintro ⟨parts, hok, -⟩
  obtain ⟨gs, hgs, -⟩ := positionsBy_eq_ok hok
  obtain ⟨n, hn⟩ := List.mem_iff_getElem?.mp hd
  obtain ⟨k, hk⟩ := key_of_groupsFrom hgs _ (mem_zipIdx hn)
  cases hkey.symm.trans hk

end Loops

/-! ## Keys of partition values -/

/-- A value that can stand in a document, which the crate does with as documented. -/
def Held (C : Wire.Crate) (v : Bson) : Prop :=
  ∃ item : Wire.Item, item.carry = v ∧ Wire.WellFormed [(utf8 "k", item)] ∧ C.Documented [(utf8 "k", item)]

theorem nameOf_k : Wire.nameOf (utf8 "k") = "k" := by decide

theorem carryFields_k (item : Wire.Item) : Wire.carryFields [(utf8 "k", item)] = [("k", item.carry)] := by
  rw [Wire.carryFields, Wire.carryFields, nameOf_k]

theorem keyBytes_held {C : Wire.Crate} {v : Bson} (h : Held C v) :
    ∃ bytes, keyBytes C v = .ok bytes ∧ Wire.fromBytes C bytes = .ok [("k", v)] := by
  obtain ⟨item, rfl, hwf, hC⟩ := h
  have hwrite := Wire.write_carryFields hwf hC
  have hread := Wire.fromBytes_eq_carryFields hwf hC
  rw [carryFields_k] at hwrite hread
  refine ⟨_, ?_, hread⟩
  unfold keyBytes
  rw [hwrite]

theorem keyBytes_eq_iff {C : Wire.Crate} {v w : Bson} (hv : Held C v) (hw : Held C w) {a b : Bytes}
    (ha : keyBytes C v = .ok a) (hb : keyBytes C w = .ok b) : a = b ↔ v = w := by
  constructor
  · rintro rfl
    obtain ⟨bytes, hbytes, hread⟩ := keyBytes_held hv
    obtain ⟨bytes', hbytes', hread'⟩ := keyBytes_held hw
    obtain rfl := Except.ok.inj (ha.symm.trans hbytes)
    obtain rfl := Except.ok.inj (hb.symm.trans hbytes')
    have heq := Except.ok.inj (hread.symm.trans hread')
    simpa using heq
  · rintro rfl
    exact Except.ok.inj (ha.symm.trans hb)

/-! ## Group keys and partition values -/

/-- `gkey` accepts the value. -/
def Accepted (v : Bson) : Prop := ∃ key, gkey v = .ok key

theorem same_self {v : Bson} (h : Accepted v) : Same v v := by
  obtain ⟨key, hkey⟩ := h
  exact (gkey_eq_iff hkey hkey).mp rfl

/-- An expression that `group_key` takes for an object of one field. -/
def isOneField : Bson → Bool
  | .document [(k, _)] => k.toList.head? ≠ some '$'
  | _ => false

/-- The group key of a partition value. -/
def grouped (expr v : Bson) : Bson :=
  if isOneField expr then
    match asInvalidUtf8 expr, expr, v with
    | some _, expr, _ => expr
    | none, .document [(k, _)], .document [] => .document [(k, .null)]
    | none, _, v => v
  else v

theorem missingAsNull_accepted {v : Bson} (h : Accepted v) : missingAsNull v = v := by
  cases v <;> first
    | rfl
    | (obtain ⟨key, hkey⟩ := h
       rw [gkey] at hkey
       · cases hkey
       all_goals simp)

/-- What an object expression of one field evaluates to. -/
theorem evaluate_oneField {X : Operators} {d vars : Document} {k : String} {e v : Bson}
    (hk : k.toList.head? ≠ some '$') (hcarrier : asInvalidUtf8 (.document [(k, e)]) = none)
    (h : evaluate X d (.document [(k, e)]) vars = .ok v) :
    (evaluateOrMissing X d e vars = .ok .undefined ∧ v = .document []) ∨
      ∃ u, u ≠ .undefined ∧ evaluateOrMissing X d e vars = .ok u ∧ v = .document [(k, u)] := by
  have hutf8 : evalInvalidUtf8 d (.document [(k, e)]) .null = none := by
    unfold evalInvalidUtf8
    rw [hcarrier]
  unfold evaluate at h
  rw [eval, hutf8] at h
  simp only [if_neg hk, evalFields] at h
  unfold evaluateOrMissing
  cases hu : (fieldValueFirst X d vars e).getD (eval X d vars e) with
  | error f =>
    rw [hu] at h
    cases h
  | ok u =>
    rw [hu] at h
    by_cases hundef : u = .undefined
    · subst hundef
      exact Or.inl ⟨rfl, (Except.ok.inj h).symm⟩
    · refine Or.inr ⟨u, hundef, rfl, ?_⟩
      cases u <;> first
        | exact absurd rfl hundef
        | exact (Except.ok.inj h).symm

/-- A string that is not UTF-8 is held as an object of one field, which evaluates to itself. -/
theorem asInvalidUtf8_eq_some {expr : Bson} {bytes : Bytes} (h : asInvalidUtf8 expr = some bytes) :
    ∃ b, expr = .document [(invalidUtf8Key, .binary b)] := by
  unfold asInvalidUtf8 at h
  split at h
  · unfold carrierBytes at h
    split at h
    · rename_i k b
      by_cases hk : k = invalidUtf8Key ∧ b.subtype = 0
      · exact ⟨b, by rw [hk.1]⟩
      · rw [if_neg hk] at h
        cases h
    · cases h
  · cases h

theorem evaluateOrMissing_binary (X : Operators) (d vars : Document) (b : Binary) :
    evaluateOrMissing X d (.binary b) vars = .ok (.binary b) := by
  unfold evaluateOrMissing
  rw [eval]
  · rfl
  all_goals simp

theorem groupKey_eq_grouped {X : Operators} {expr : Bson} {d vars : Document} {v : Bson}
    (h : evaluate X d expr vars = .ok v) (ha : Accepted v) : groupKey X expr d vars = .ok (grouped expr v) := by
  have hplain : (evaluate X d expr vars).map missingAsNull = .ok v := by
    rw [h, ← missingAsNull_accepted ha]
    cases v <;> rfl
  unfold groupKey grouped
  split
  · rename_i k e
    by_cases hk : k.toList.head? = some '$'
    · rw [if_pos hk, hplain]
      simp [isOneField, hk]
    · rw [if_neg hk, if_pos (by simp [isOneField, hk])]
      cases hcarrier : asInvalidUtf8 (.document [(k, e)]) with
      | some bytes =>
        obtain ⟨b, hb⟩ := asInvalidUtf8_eq_some hcarrier
        simp only [Bson.document.injEq, List.cons.injEq, Prod.mk.injEq, and_true] at hb
        obtain ⟨rfl, rfl⟩ := hb
        rw [evaluateOrMissing_binary]
        rfl
      | none =>
        rcases evaluate_oneField hk hcarrier h with ⟨hu, rfl⟩ | ⟨u, hundef, hu, rfl⟩
        · rw [hu]
          rfl
        · rw [hu]
          cases u <;> first
            | exact absurd rfl hundef
            | rfl
  · rename_i hshape
    rw [hplain, if_neg]
    unfold isOneField
    split
    · exact absurd rfl (hshape _ _)
    · simp

/-- What the group key of a partition value is made of is accepted. -/
theorem grouped_accepted (expr : Bson) {v : Bson} (ha : Accepted v) : Accepted (grouped expr v) := by
  unfold grouped
  split
  · split
    · rename_i hcarrier
      obtain ⟨b, rfl⟩ := asInvalidUtf8_eq_some hcarrier
      exact ⟨_, rfl⟩
    · exact ⟨_, rfl⟩
    · exact ha
  · exact ha

/-! ## Stages alike -/

/-- A field of an object expression is missing in one value and null in the other. -/
def MissingAndNull (expr v w : Bson) : Prop :=
  isOneField expr = true ∧ asInvalidUtf8 expr = none ∧
    ∃ k e, expr = .document [(k, e)] ∧
      ((v = .document [] ∧ w = .document [(k, .null)]) ∨ (v = .document [(k, .null)] ∧ w = .document []))

/-- `$group` finds the values alike as it finds their group keys. -/
def GroupedAlike (expr v w : Bson) : Prop :=
  ((asInvalidUtf8 expr).isSome → Same v w) ∧ ¬MissingAndNull expr v w

theorem sameAtom_null_left {u : Bson} : SameAtom .null u ↔ u = .null := by
  unfold SameAtom
  rw [show quantity Bson.null = none from rfl]
  cases hu : quantity u with
  | some q => exact iff_of_false id (by rintro rfl; cases hu)
  | none => exact eq_comm

theorem sameAtom_null_right {u : Bson} : SameAtom u .null ↔ u = .null := by
  unfold SameAtom
  rw [show quantity Bson.null = none from rfl]
  cases hu : quantity u with
  | some q => exact iff_of_false id (by rintro rfl; cases hu)
  | none => exact Iff.rfl

theorem same_null_left {k : String} {u : Bson} :
    Same (.document [(k, .null)]) (.document [(k, u)]) ↔ u = .null := by
  simp only [Same, SameFields, and_true, true_and]
  exact sameAtom_null_left

theorem same_null_right {k : String} {u : Bson} :
    Same (.document [(k, u)]) (.document [(k, .null)]) ↔ u = .null := by
  simp only [Same, SameFields, and_true, true_and]
  exact sameAtom_null_right

/-- What an expression of one field evaluates to, a carrier apart. -/
def OneFieldValue (expr v : Bson) : Prop :=
  ∀ k e, expr = .document [(k, e)] → isOneField expr = true → asInvalidUtf8 expr = none →
    v = .document [] ∨ ∃ u, v = .document [(k, u)]

theorem oneFieldValue_of_evaluate {X : Operators} {expr : Bson} {d vars : Document} {v : Bson}
    (h : evaluate X d expr vars = .ok v) : OneFieldValue expr v := by
  rintro k e rfl hone hcarrier
  have hk : k.toList.head? ≠ some '$' := by simpa [isOneField] using hone
  rcases evaluate_oneField hk hcarrier h with ⟨-, hv⟩ | ⟨u, -, -, hv⟩
  · exact Or.inl hv
  · exact Or.inr ⟨u, hv⟩

theorem grouped_plain {expr v : Bson} (h : isOneField expr = false) : grouped expr v = v := by
  unfold grouped
  rw [h]
  rfl

theorem grouped_carrier {expr v : Bson} {bytes : Bytes} (h : asInvalidUtf8 expr = some bytes) :
    grouped expr v = expr := by
  obtain ⟨b, rfl⟩ := asInvalidUtf8_eq_some h
  unfold grouped
  rw [if_pos (show isOneField (.document [(invalidUtf8Key, .binary b)]) = true from rfl), h]

theorem grouped_empty {k : String} {e : Bson} (hone : isOneField (.document [(k, e)]) = true)
    (hcarrier : asInvalidUtf8 (.document [(k, e)]) = none) :
    grouped (.document [(k, e)]) (.document []) = .document [(k, .null)] := by
  unfold grouped
  rw [if_pos hone, hcarrier]

theorem grouped_field {k l : String} {e u : Bson} (hcarrier : asInvalidUtf8 (.document [(k, e)]) = none) :
    grouped (.document [(k, e)]) (.document [(l, u)]) = .document [(l, u)] := by
  unfold grouped
  rw [hcarrier]
  split <;> rfl

/-- When the group keys of two partition values are equal as those values are. -/
theorem same_grouped_iff {expr v w : Bson} (hv : OneFieldValue expr v) (hw : OneFieldValue expr w)
    (hav : Accepted v) (haw : Accepted w) :
    (Same (grouped expr v) (grouped expr w) ↔ Same v w) ↔ GroupedAlike expr v w := by
  unfold GroupedAlike MissingAndNull
  cases hone : isOneField expr with
  | false =>
    have hcarrier : asInvalidUtf8 expr = none := by
      cases h : asInvalidUtf8 expr with
      | none => rfl
      | some bytes =>
        obtain ⟨b, rfl⟩ := asInvalidUtf8_eq_some h
        cases hone
    rw [grouped_plain hone, grouped_plain hone, hcarrier]
    simp
  | true =>
    cases hcarrier : asInvalidUtf8 expr with
    | some bytes =>
      have hself : Same expr expr := by
        obtain ⟨b, rfl⟩ := asInvalidUtf8_eq_some hcarrier
        exact same_self ⟨_, rfl⟩
      rw [grouped_carrier hcarrier, grouped_carrier hcarrier]
      simp [hself]
    | none =>
      obtain ⟨k, e, rfl⟩ : ∃ k e, expr = .document [(k, e)] := by
        unfold isOneField at hone
        split at hone
        · exact ⟨_, _, rfl⟩
        · cases hone
      rcases hv k e rfl hone hcarrier with rfl | ⟨u, rfl⟩
      · rcases hw k e rfl hone hcarrier with rfl | ⟨u, rfl⟩
        · have hnull : Same (.document [(k, .null)]) (.document [(k, .null)]) := same_self ⟨_, rfl⟩
          rw [grouped_empty hone hcarrier]
          simp [hnull, same_self hav]
        · rw [grouped_empty hone hcarrier, grouped_field hcarrier, same_null_left]
          simp [Same, SameFields]
      · rcases hw k e rfl hone hcarrier with rfl | ⟨t, rfl⟩
        · rw [grouped_empty hone hcarrier, grouped_field hcarrier, same_null_right]
          simp [Same, SameFields]
        · rw [grouped_field hcarrier, grouped_field hcarrier]
          simp

/-- Two documents are put together by the stages exactly when their partition values are equal. -/
def Alike (C : Wire.Crate) (X : Operators) (expr : Bson) (vars : Document) (docs : List Document) (i j : ℕ)
    (v w : Bson) : Prop :=
  (Together (windowPartitions C X (some expr) vars docs) i j ↔ Same v w) ∧
    (Together (fillPartitions C X none (some expr) vars docs) i j ↔ Same v w) ∧
    (Together (groups X expr vars docs) i j ↔ Same v w)

/-- The partition values of a stage's documents, which `gkey` accepts. -/
structure Partitioned (C : Wire.Crate) (X : Operators) (expr : Bson) (vars : Document) (docs : List Document)
    (value : Document → Bson) : Prop where
  evaluated : ∀ d ∈ docs, evaluate X d expr vars = .ok (value d)
  accepted : ∀ d ∈ docs, Accepted (value d)
  held : ∀ d ∈ docs, Held C (value d)

def isArray : Bson → Bool
  | .array _ => true
  | _ => false

section Stages

variable {C : Wire.Crate} {X : Operators} {expr : Bson} {vars : Document} {docs : List Document}
  {value : Document → Bson} {i j : ℕ} {d d' : Document}

theorem fill_together_iff (h : Partitioned C X expr vars docs value) (hi : docs[i]? = some d)
    (hj : docs[j]? = some d') :
    Together (fillPartitions C X none (some expr) vars docs) i j ↔ value d = value d' := by
  have hkey : ∀ d ∈ docs, partitionKey C X d none (some expr) vars = keyBytes C (value d) := by
    intro d hd
    unfold partitionKey partitionValue
    simp only
    rw [h.evaluated d hd]
    rfl
  have hd := List.mem_of_getElem? hi
  have hd' := List.mem_of_getElem? hj
  obtain ⟨a, ha, -⟩ := keyBytes_held (h.held d hd)
  obtain ⟨b, hb, -⟩ := keyBytes_held (h.held d' hd')
  rw [← keyBytes_eq_iff (h.held d hd) (h.held d' hd') ha hb]
  refine together_iff (fun d hd => ?_) hi hj ((hkey d hd).trans ha) ((hkey d' hd').trans hb)
  obtain ⟨k, hk, -⟩ := keyBytes_held (h.held d hd)
  exact ⟨k, (hkey d hd).trans hk⟩

theorem windowKey_eq (h : Partitioned C X expr vars docs value) (hd : d ∈ docs) (harray : isArray (value d) = false) :
    windowKey C X (some expr) vars d = keyBytes C (value d) := by
  unfold windowKey
  simp only
  rw [h.evaluated d hd]
  cases hv : value d <;> first
    | rfl
    | (rw [hv] at harray; cases harray)

theorem windowKey_array (h : Partitioned C X expr vars docs value) (hd : d ∈ docs) (harray : isArray (value d) = true) :
    windowKey C X (some expr) vars d =
      .error (.mongo 14 "An expression used to partition cannot evaluate to value of type array") := by
  unfold windowKey
  simp only
  rw [h.evaluated d hd]
  cases hv : value d <;> first
    | rfl
    | (rw [hv] at harray; cases harray)

/-- So does `$setWindowFields`, which takes no arrays. -/
theorem window_together_iff (h : Partitioned C X expr vars docs value) (hi : docs[i]? = some d)
    (hj : docs[j]? = some d') :
    Together (windowPartitions C X (some expr) vars docs) i j ↔
      (∀ d ∈ docs, isArray (value d) = false) ∧ value d = value d' := by
  by_cases harrays : ∀ d ∈ docs, isArray (value d) = false
  · have hd := List.mem_of_getElem? hi
    have hd' := List.mem_of_getElem? hj
    obtain ⟨a, ha, -⟩ := keyBytes_held (h.held d hd)
    obtain ⟨b, hb, -⟩ := keyBytes_held (h.held d' hd')
    rw [← keyBytes_eq_iff (h.held d hd) (h.held d' hd') ha hb, and_iff_right harrays]
    refine together_iff (fun d hd => ?_) hi hj ((windowKey_eq h hd (harrays d hd)).trans ha)
      ((windowKey_eq h hd' (harrays d' hd')).trans hb)
    obtain ⟨k, hk, -⟩ := keyBytes_held (h.held d hd)
    exact ⟨k, (windowKey_eq h hd (harrays d hd)).trans hk⟩
  · have hex : ∃ d ∈ docs, isArray (value d) = true := by simpa using harrays
    obtain ⟨d₀, hd₀, harray⟩ := hex
    exact iff_of_false (not_together hd₀ (windowKey_array h hd₀ harray)) fun hboth => harrays hboth.1

theorem group_together_iff (h : Partitioned C X expr vars docs value) (hi : docs[i]? = some d)
    (hj : docs[j]? = some d') :
    Together (groups X expr vars docs) i j ↔ Same (grouped expr (value d)) (grouped expr (value d')) := by
  have hkey : ∀ d ∈ docs, groupIndexKey X expr vars d = gkey (grouped expr (value d)) := by
    intro d hd
    unfold groupIndexKey
    rw [groupKey_eq_grouped (h.evaluated d hd) (h.accepted d hd)]
    rfl
  have hd := List.mem_of_getElem? hi
  have hd' := List.mem_of_getElem? hj
  obtain ⟨a, ha⟩ := grouped_accepted expr (h.accepted d hd)
  obtain ⟨b, hb⟩ := grouped_accepted expr (h.accepted d' hd')
  rw [← gkey_eq_iff ha hb]
  refine together_iff (fun d hd => ?_) hi hj ((hkey d hd).trans ha) ((hkey d' hd').trans hb)
  obtain ⟨k, hk⟩ := grouped_accepted expr (h.accepted d hd)
  exact ⟨k, (hkey d hd).trans hk⟩

/-- The stages put two documents together alike, as their partition values are equal, exactly when equal values
    are one value, `$group` finds them alike as they are, and no array keeps `$setWindowFields` from answering. -/
theorem stages_alike_iff (h : Partitioned C X expr vars docs value) (hi : docs[i]? = some d)
    (hj : docs[j]? = some d') :
    Alike C X expr vars docs i j (value d) (value d') ↔
      (Same (value d) (value d') → value d = value d' ∧ ∀ d ∈ docs, isArray (value d) = false) ∧
        GroupedAlike expr (value d) (value d') := by
  have hd := List.mem_of_getElem? hi
  have hd' := List.mem_of_getElem? hj
  have hself : value d = value d' → Same (value d) (value d') := fun heq => heq ▸ same_self (h.accepted d hd)
  unfold Alike
  rw [window_together_iff h hi hj, fill_together_iff h hi hj, group_together_iff h hi hj,
    ← same_grouped_iff (oneFieldValue_of_evaluate (h.evaluated d hd))
      (oneFieldValue_of_evaluate (h.evaluated d' hd')) (h.accepted d hd) (h.accepted d' hd')]
  tauto

end Stages

/-! ## Numbers of two types -/

/-- `1` and `1.0` under a name. -/
def one (name : Bytes) : Wire.Fields := [(name, .int32 1)]

def onePointZero (name : Bytes) : Wire.Fields := [(name, .double ⟨0x3FF0000000000000⟩)]

/-- The crate on documents of a number under one name. -/
def numberCrate : Wire.Crate where
  decode bytes :=
    if bytes = Wire.docBytes (one (utf8 "k")) then .ok [("k", .int32 1)]
    else if bytes = Wire.docBytes (one []) then .ok [("", .int32 1)]
    else if bytes = Wire.docBytes (onePointZero (utf8 "k")) then .ok [("k", .double ⟨0x3FF0000000000000⟩)]
    else if bytes = Wire.docBytes (onePointZero []) then .ok [("", .double ⟨0x3FF0000000000000⟩)]
    else .error (.other "not a number")
  encode d :=
    match d with
    | [(name, .int32 n)] => .ok (Wire.docBytes [(utf8 name, .int32 n)])
    | [(name, .double x)] => .ok (Wire.docBytes [(utf8 name, .double x)])
    | _ => .error (.other "not a number")

/-- No operators. -/
def noOperators : Operators where
  applyOp _ _ _ _ := .error .defer
  returning _ _ _ _ := .error .defer

/-- `{x: 1}` and `{x: 1.0}`. -/
def numberDocs : List Document := [[("x", .int32 1)], [("x", .double ⟨0x3FF0000000000000⟩)]]

/-- By `"$x"`, `{x: 1}` and `{x: 1.0}` are one group and two partitions, though the values are equal. -/
theorem stages_apart_numbers :
    windowPartitions numberCrate noOperators (some (.string "$x")) [] numberDocs = .ok [[0], [1]] ∧
      fillPartitions numberCrate noOperators none (some (.string "$x")) [] numberDocs = .ok [[0], [1]] ∧
      groups noOperators (.string "$x") [] numberDocs = .ok [[0, 1]] ∧
      gkey (.int32 1) = gkey (.double ⟨0x3FF0000000000000⟩) := by
  decide +kernel

theorem one_wellFormed : Wire.WellFormed (one (utf8 "k")) where
  nodup := by decide
  shaped := by
    simp only [one, Wire.FieldsShaped, Wire.Item.Shaped]
    decide
  size := by decide

theorem onePointZero_wellFormed : Wire.WellFormed (onePointZero (utf8 "k")) where
  nodup := by decide
  shaped := by
    simp only [onePointZero, Wire.FieldsShaped, Wire.Item.Shaped]
    decide
  size := by decide

theorem numberCrate_one : numberCrate.decode (Wire.docBytes (one (utf8 "k"))) = .ok [("k", .int32 1)] := by
  unfold numberCrate
  simp only
  rw [if_pos trivial]

theorem numberCrate_one_alone : numberCrate.decode (Wire.docBytes (one [])) = .ok [("", .int32 1)] := by
  have h : Wire.docBytes (one []) ≠ Wire.docBytes (one (utf8 "k")) := by decide
  unfold numberCrate
  simp only
  rw [if_neg h, if_pos trivial]

theorem numberCrate_onePointZero : numberCrate.decode (Wire.docBytes (onePointZero (utf8 "k"))) =
    .ok [("k", .double ⟨0x3FF0000000000000⟩)] := by
  have h : Wire.docBytes (onePointZero (utf8 "k")) ≠ Wire.docBytes (one (utf8 "k")) := by decide
  have h' : Wire.docBytes (onePointZero (utf8 "k")) ≠ Wire.docBytes (one []) := by decide
  unfold numberCrate
  simp only
  rw [if_neg h, if_neg h', if_pos trivial]

theorem numberCrate_onePointZero_alone : numberCrate.decode (Wire.docBytes (onePointZero [])) =
    .ok [("", .double ⟨0x3FF0000000000000⟩)] := by
  have h : Wire.docBytes (onePointZero []) ≠ Wire.docBytes (one (utf8 "k")) := by decide
  have h' : Wire.docBytes (onePointZero []) ≠ Wire.docBytes (one []) := by decide
  have h'' : Wire.docBytes (onePointZero []) ≠ Wire.docBytes (onePointZero (utf8 "k")) := by decide
  unfold numberCrate
  simp only
  rw [if_neg h, if_neg h', if_neg h'', if_pos trivial]

theorem one_documented : numberCrate.Documented (one (utf8 "k")) where
  whole :=
    { decode_text := fun _ => by
        rw [one, carryFields_k]
        exact numberCrate_one
      decode_other := fun h => absurd h (by decide)
      encode_text := fun _ => by
        rw [one, carryFields_k]
        rfl
      encode_nul := fun h => absurd h (by decide) }
  alone := by
    intro v hv
    obtain rfl := List.mem_singleton.mp hv
    exact
      { decode_text := fun _ => by
          rw [Wire.carryFields, Wire.carryFields, Wire.nameOf_nil]
          exact numberCrate_one_alone
        decode_other := fun h => absurd h (by decide)
        encode_text := fun _ => by
          rw [Wire.carryFields, Wire.carryFields, Wire.nameOf_nil]
          rfl
        encode_nul := fun h => absurd h (by decide) }

theorem onePointZero_documented : numberCrate.Documented (onePointZero (utf8 "k")) where
  whole :=
    { decode_text := fun _ => by
        rw [onePointZero, carryFields_k]
        exact numberCrate_onePointZero
      decode_other := fun h => absurd h (by decide)
      encode_text := fun _ => by
        rw [onePointZero, carryFields_k]
        rfl
      encode_nul := fun h => absurd h (by decide) }
  alone := by
    intro v hv
    obtain rfl := List.mem_singleton.mp hv
    exact
      { decode_text := fun _ => by
          rw [Wire.carryFields, Wire.carryFields, Wire.nameOf_nil]
          exact numberCrate_onePointZero_alone
        decode_other := fun h => absurd h (by decide)
        encode_text := fun _ => by
          rw [Wire.carryFields, Wire.carryFields, Wire.nameOf_nil]
          rfl
        encode_nul := fun h => absurd h (by decide) }

/-- The value of `x`. -/
def valueOfX (d : Document) : Bson := (Document.get d "x").getD .null

theorem numberDocs_partitioned :
    Partitioned numberCrate noOperators (.string "$x") [] numberDocs valueOfX where
  evaluated := by
    simp only [numberDocs, List.forall_mem_cons]
    refine ⟨?_, ?_, fun d hd => nomatch hd⟩
    · unfold evaluate
      rw [eval]
      rfl
    · unfold evaluate
      rw [eval]
      rfl
  accepted := by
    simp only [numberDocs, List.forall_mem_cons]
    exact ⟨⟨.atom (.num (.finite 1 [1] 0)), by decide⟩, ⟨.atom (.num (.finite 1 [1] 0)), by decide +kernel⟩,
      fun d hd => nomatch hd⟩
  held := by
    simp only [numberDocs, List.forall_mem_cons]
    exact ⟨⟨.int32 1, rfl, one_wellFormed, one_documented⟩,
      ⟨.double ⟨0x3FF0000000000000⟩, rfl, onePointZero_wellFormed, onePointZero_documented⟩,
      fun d hd => nomatch hd⟩

/-- The stages agree that a document is with itself. -/
theorem stages_alike_self :
    Alike numberCrate noOperators (.string "$x") [] numberDocs 0 0 (.int32 1) (.int32 1) := by
  have hnone : ∀ d ∈ numberDocs, isArray (valueOfX d) = false := by decide
  refine (stages_alike_iff numberDocs_partitioned (d := [("x", .int32 1)]) (i := 0) (j := 0) rfl rfl).mpr
    ⟨fun _ => ⟨rfl, hnone⟩, ?_, ?_⟩
  · intro h
    cases h
  · rintro ⟨h, -⟩
    cases h

end Secantus.Partitions
