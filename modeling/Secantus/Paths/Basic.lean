/-
  Dotted paths (`paths.rs`): reading, setting and unsetting a value, and the values an index
  reads through arrays.

  A path is a string split at its dots. A component of digits is a position in an array and a
  name in a document.
-/
import Secantus.Bson.Document

namespace Secantus.Paths

open Secantus

/-- `s.split('.')`. -/
def splitDot (s : String) : List String := (s.toList.splitOn '.').map String.ofList

def isDigits (s : String) : Bool := !s.toList.isEmpty && s.toList.all Char.isDigit

/-- `str::parse::<usize>` of digits: none when it does not fit. -/
def parseUsize (s : String) : Option Nat :=
  let n := Nat.ofDigitChars 10 s.toList 0
  if n < 2 ^ 64 then some n else none

/-- The array position a component of digits names. -/
def position (s : String) : Option Nat := if isDigits s then parseUsize s else none

/-! ## Reading -/

/-- `get_in_bson` and `get_in_doc`. -/
def getIn (cur : Bson) : List String → Option Bson
  | [] => some cur
  | head :: rest =>
    match cur with
    | .document d => (Document.get d head).bind (getIn · rest)
    | .array a => ((position head).bind (a[·]?)).bind (getIn · rest)
    | _ => none

def getPath (doc : Document) (path : String) : Option Bson :=
  getIn (.document doc) (splitDot path)

/-- One component of `get_path_values`: what `part` names in each of the values so far. -/
def valuesAt (part : String) : Bson → List Bson
  | .document d => (Document.get d part).toList
  | .array a =>
    ((position part).bind (a[·]?)).toList ++
      a.filterMap fun
        | .document d => Document.get d part
        | _ => none
  | _ => []

/-- The components after the first. -/
def walkValues : List Bson → List String → List Bson
  | current, [] => current
  | current, part :: parts => walkValues (current.flatMap (valuesAt part)) parts

/-- Whether one of the values a component is looked up in is an array. -/
def walkDescends : List Bson → List String → Bool
  | _, [] => false
  | current, part :: parts =>
    current.any (fun | .array _ => true | _ => false) ||
      walkDescends (current.flatMap (valuesAt part)) parts

/-- `get_path_values`: the values, and whether a component was looked up in an array. -/
def getPathValues (doc : Document) (path : String) : List Bson × Bool :=
  match splitDot path with
  | [] => ([], false)
  | first :: parts =>
    let current := (Document.get doc first).toList
    (walkValues current parts, walkDescends current parts)

/-! ## Writing -/

/-- `MAX_LIST_GROW_INDEX`. -/
def maxListGrowIndex : Nat := 100000

/-- `while arr.len() <= idx { arr.push(Null) }`. -/
def growTo (a : List Bson) (idx : Nat) : List Bson :=
  a ++ List.replicate (idx + 1 - a.length) .null

/-- `set_in_doc`, `set_in_bson` and `set_in_array`. -/
def setIn (cur : Bson) : List String → Bson → Except Unit Bson
  | [], value => .ok value
  | head :: rest, value =>
    match cur with
    | .document d => do
      -- a missing intermediate is made a document
      let child ← setIn ((Document.get d head).getD (.document [])) rest value
      .ok (.document (Document.insert d head child))
    | .array a =>
      if !isDigits head then .ok cur
      else
        match parseUsize head with
        | none => .error ()
        | some idx =>
          if rest.isEmpty then
            if maxListGrowIndex < idx then .error ()
            else .ok (.array ((growTo a idx).set idx value))
          else
            match a[idx]? with
            | some x => do
              let child ← setIn x rest value
              .ok (.array (a.set idx child))
            | none => .ok cur
    | _ => .ok cur

def setPath (doc : Document) (path : String) (value : Bson) : Except Unit Document := do
  match ← setIn (.document doc) (splitDot path) value with
  | .document d => .ok d
  | _ => .ok doc

/-- `unset_in_doc` and `unset_in_bson`: an array element is set to null. -/
def unsetIn (cur : Bson) : List String → Bson
  | [] => cur
  | head :: rest =>
    match cur with
    | .document d =>
      if rest.isEmpty then .document (Document.remove d head)
      else
        match Document.get d head with
        | some child => .document (Document.insert d head (unsetIn child rest))
        | none => cur
    | .array a =>
      match position head with
      | none => cur
      | some idx =>
        match a[idx]? with
        | none => cur
        | some x =>
          if rest.isEmpty then .array (a.set idx .null) else .array (a.set idx (unsetIn x rest))
    | _ => cur

def unsetPath (doc : Document) (path : String) : Document :=
  match unsetIn (.document doc) (splitDot path) with
  | .document d => d
  | _ => doc

/-! ## Components -/

theorem splitOn_of_notMem {l : List Char} (h : '.' ∉ l) : l.splitOn '.' = [l] := by
  induction l with
  | nil => rfl
  | cons c l ih =>
    rw [List.mem_cons, not_or] at h
    have hc : (c == '.') = false := by simpa using Ne.symm h.1
    have ih := ih h.2
    unfold List.splitOn at ih ⊢
    rw [List.splitOnP_cons_eq_if_modifyHead, hc, ih]
    rfl

theorem splitOn_append_splitOn (l m : List Char) :
    (l ++ '.' :: m).splitOn '.' = l.splitOn '.' ++ m.splitOn '.' := by
  induction l with
  | nil =>
    unfold List.splitOn
    rw [List.nil_append, List.splitOnP_cons_eq_if_modifyHead]
    rfl
  | cons c l ih =>
    have hne : l.splitOnP (· == '.') ≠ [] := List.splitOnP_ne_nil _ _
    unfold List.splitOn at ih ⊢
    rw [List.cons_append, List.splitOnP_cons_eq_if_modifyHead, ih,
      List.splitOnP_cons_eq_if_modifyHead]
    split
    · rfl
    · obtain ⟨x, xs, hx⟩ := List.exists_cons_of_ne_nil hne
      rw [hx]
      rfl

theorem splitOn_append (l m : List Char) (h : '.' ∉ m) :
    (l ++ '.' :: m).splitOn '.' = l.splitOn '.' ++ [m] := by
  rw [splitOn_append_splitOn, splitOn_of_notMem h]

theorem splitDot_name {k : String} (h : '.' ∉ k.toList) : splitDot k = [k] := by
  simp [splitDot, splitOn_of_notMem h]

theorem splitDot_append (path : String) {k : String} (h : '.' ∉ k.toList) :
    splitDot (path ++ "." ++ k) = splitDot path ++ [k] := by
  have e : (path ++ "." ++ k).toList = path.toList ++ '.' :: k.toList := by simp
  simp [splitDot, e, splitOn_append _ _ h]

theorem toList_toString (n : Nat) : (toString n).toList = Nat.toDigits 10 n := by
  rw [Nat.toString_eq_repr, Nat.toList_repr]

theorem isDigits_toString (n : Nat) : isDigits (toString n) = true := by
  unfold isDigits
  rw [toList_toString]
  have hne : (Nat.toDigits 10 n).isEmpty = false := by simp [Nat.toDigits_ne_nil]
  rw [hne, Bool.not_false, Bool.true_and, List.all_eq_true]
  intro c hc
  exact Nat.isDigit_of_mem_toDigits (by decide) (by decide) hc

theorem toString_inj {m n : Nat} (h : toString m = toString n) : m = n := by
  have hd : Nat.toDigits 10 m = Nat.toDigits 10 n := by
    rw [← toList_toString, ← toList_toString, h]
  rw [← @Nat.ofDigitChars_ten_toDigits m, hd, Nat.ofDigitChars_ten_toDigits]

end Secantus.Paths
