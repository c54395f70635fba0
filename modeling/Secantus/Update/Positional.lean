/-
  Positional paths of an update (`update.rs`): `$`, `$[]` and `$[id]` with their array filters.

  A path is expanded against a document into the concrete paths an operator writes to. `Selected` says
  which these are: every position that stands for `$[id]` is an element that matches the filter of `id`.

  * `mem_places`: `places` lists the selected paths, and `walkPositional_eq`: so does the walk of the code;
  * `places_eq_of_mem`: two documents in which the same paths are selected list them alike.
-/
import Secantus.Library.Outcome
import Secantus.Query.Match

namespace Secantus.Update

open Secantus Bson BsonOrder Query

/-- The result of an update's steps. -/
abbrev R (α : Type) := Except Fallback α

/-! ## Tokens -/

/-- `$[]` or `$[id]`. -/
def isArrayToken (part : String) : Bool :=
  part = "$[]" || (part.toList.take 2 = ['$', '['] && part.toList.getLast? = some ']')

def isPositionalToken (part : String) : Bool := part = "$" || isArrayToken part

/-- `$[id]`, the token of an array filter. -/
def isFilterToken (part : String) : Bool := isArrayToken part && part ≠ "$[]"

def hasPositional (path : String) : Bool := (Paths.splitDot path).any isPositionalToken

/-- The identifier of a `$[id]`. -/
def identifier (part : String) : String := String.ofList (part.toList.drop 2).dropLast

def joinDot (parts : List String) : String := ".".intercalate parts

/-! ## Array filters -/

def isValidAfIdent (s : String) : Bool :=
  match s.toList with
  | [] => false
  | c :: cs => c.isLower && cs.all Char.isAlphanum

/-- The identifiers between `$[` and `]` in a path; the name read so far, inside one. -/
def referencedIn : Option (List Char) → List Char → List String
  | none, '$' :: '[' :: rest => referencedIn (some []) rest
  | none, _ :: rest => referencedIn none rest
  | some name, ']' :: rest => String.ofList name.reverse :: referencedIn none rest
  | some name, c :: rest => referencedIn (some (c :: name)) rest
  | _, [] => []

def referencedAfIdentifiers (update : Document) : List String :=
  update.flatMap fun
    | (_, .document payload) => (Document.keys payload).flatMap fun path => referencedIn none path.toList
    | _ => []

def isLogical (key : String) : Bool := key ∈ ["$and", "$or", "$nor"]

/-- The name a key of a filter reads, if it reads one. -/
def keyIdentifier (key : String) : List String :=
  if key.toList.head? = some '$' then [] else [(Paths.splitDot key).headD key]

mutual

def identifiersOf : Document → List String
  | [] => []
  | (key, .array subs) :: fields =>
    (if isLogical key then identifiersOfEach subs else keyIdentifier key) ++ identifiersOf fields
  | (key, _) :: fields => (if isLogical key then [] else keyIdentifier key) ++ identifiersOf fields

def identifiersOfEach : List Bson → List String
  | [] => []
  | .document d :: subs => identifiersOf d ++ identifiersOfEach subs
  | _ :: subs => identifiersOfEach subs

end

/-- `extract_af_identifiers`: in order, each once. -/
def extractAfIdentifiers (f : Document) : List String := (identifiersOf f).eraseDups

def arrayFiltersValid (filters : List Document) (update : Document) : Bool :=
  let names := filters.map extractAfIdentifiers
  let referenced := referencedAfIdentifiers update
  names.all (fun found => found.length = 1 && found.all isValidAfIdent) && decide names.flatten.Nodup &&
    names.flatten.all (· ∈ referenced)

def unusedArrayFilter (filters : List Document) (update : Document) : Option String :=
  let referenced := referencedAfIdentifiers update
  filters.findSome? fun f =>
    match extractAfIdentifiers f with
    | [ident] => if isValidAfIdent ident && ident ∉ referenced then some ident else none
    | _ => none

/-- `index_array_filters`: the first filter of a name is its filter. -/
def indexArrayFilters (filters : List Document) : List (String × Document) :=
  filters.flatMap fun f => (extractAfIdentifiers f).map (·, f)

/-! ## The walk -/

/-- What a walk is given beside the document: the filters by identifier, the query's positions, and the
    matcher's other engines. -/
structure Walk where
  filters : List (String × Document)
  pos : Document
  engines : Engines
  binData : BinDataOrder
  renderValue : Bson → String

def asIntLike : Bson → Option ℤ
  | .int32 n => some n.toInt
  | .int64 n => some n.toInt
  | .boolean b => some (if b then 1 else 0)
  | _ => none

namespace Walk

variable (W : Walk)

/-- The test of a `$[]` or a `$[id]`, whose filter is looked up before the elements are. -/
def elementTest (head : String) : R (Bson → R Bool) :=
  if head = "$[]" then .ok fun _ => .ok true
  else
    match W.filters.lookup (identifier head) with
    | none => .error .defer
    | some sub => .ok fun elem => matchesFilter W.engines W.binData [(identifier head, elem)] sub

/-- A component as it is written: `$` is the position the query matched. -/
def partAt (walked : List String) (head : String) : R String :=
  if head = "$" then
    match (((Document.get W.pos "$").or (Document.get W.pos (joinDot walked))).bind asIntLike).filter (0 ≤ ·) with
    | some i => .ok (toString i)
    | none => .error (.mongo 2 "The positional operator did not find the match needed from the query.")
  else .ok head

/-- What a component names in a value. -/
def child (cur : Option Bson) (part : String) : Option Bson :=
  match cur with
  | some (.document d) => Document.get d part
  | some (.array a) => (Paths.position part).bind (a[·]?)
  | _ => none

/-- The elements one after the other, from position `i`. -/
def everyElement {α : Type} (f : Nat → Bson → R (List α)) : Nat → List Bson → R (List α)
  | _, [] => .ok []
  | i, e :: es => do
    let here ← f i e
    let later ← everyElement f (i + 1) es
    return here ++ later

def walkPositional : Option Bson → List String → List String → R (List (List String))
  | _, walked, [] => .ok [walked]
  | cur, walked, head :: rest =>
    if isArrayToken head then
      match cur with
      | some (.array arr) => do
        let test ← W.elementTest head
        everyElement (fun i elem => do
          if ← test elem then walkPositional (some elem) (walked ++ [toString i]) rest else return []) 0 arr
      | none =>
        .error (.mongo 2 ("The path '" ++ joinDot walked ++
          "' must exist in the document in order to apply array updates."))
      | some other =>
        .error (.mongo 2 ("Cannot apply array updates to non-array element " ++ walked.getLast?.getD "" ++ ": " ++
          W.renderValue other))
    else do
      let part ← W.partAt walked head
      walkPositional (child cur part) (walked ++ [part]) rest

def expandPath (doc : Document) (path : String) : R (List String) :=
  if hasPositional path then do
    let places ← W.walkPositional (some (.document doc)) [] (Paths.splitDot path)
    return places.map joinDot
  else .ok [path]

/-! ## The selected paths -/

/-- Whether the test of a token takes the element. -/
def takes (head : String) (elem : Bson) : Bool :=
  match W.elementTest head with
  | .ok test => match test elem with
    | .ok b => b
    | .error _ => false
  | .error _ => false

/-- The paths a pattern selects: `$[]` any element, `$[id]` one that matches the filter, `$` the query's. -/
inductive Selected : Option Bson → List String → List String → List String → Prop where
  | here (cur : Option Bson) (walked : List String) : Selected cur walked [] walked
  | element {arr : List Bson} {elem : Bson} {i : Nat} {walked rest p : List String} {head : String}
    (hhead : isArrayToken head = true) (helem : arr[i]? = some elem) (htake : W.takes head elem = true)
    (hrest : Selected (some elem) (walked ++ [toString i]) rest p) :
    Selected (some (.array arr)) walked (head :: rest) p
  | field {cur : Option Bson} {walked rest p : List String} {head part : String}
    (hhead : isArrayToken head = false) (hpart : W.partAt walked head = .ok part)
    (hrest : Selected (child cur part) (walked ++ [part]) rest p) : Selected cur walked (head :: rest) p

/-- The selected paths, elements in order. -/
def places : Option Bson → List String → List String → List (List String)
  | _, walked, [] => [walked]
  | cur, walked, head :: rest =>
    if isArrayToken head then
      match cur with
      | some (.array arr) =>
        (List.range arr.length).flatMap fun i =>
          match arr[i]? with
          | some elem => if W.takes head elem then places (some elem) (walked ++ [toString i]) rest else []
          | none => []
      | _ => []
    else
      match W.partAt walked head with
      | .ok part => places (child cur part) (walked ++ [part]) rest
      | .error _ => []

theorem mem_places {cur : Option Bson} {walked parts p : List String} :
    p ∈ W.places cur walked parts ↔ W.Selected cur walked parts p := by
  induction parts generalizing cur walked with
  | nil =>
    rw [places, List.mem_singleton]
    constructor
    · rintro rfl
      exact .here cur p
    · intro h
      cases h
      rfl
  | cons head rest ih =>
    unfold places
    cases hhead : isArrayToken head with
    | true =>
      rw [if_pos rfl]
      constructor
      · intro h
        split at h
        · rename_i arr
          obtain ⟨i, -, h⟩ := List.mem_flatMap.mp h
          split at h
          · rename_i elem helem
            split at h
            · rename_i htake
              exact .element hhead helem htake (ih.mp h)
            · cases h
          · cases h
        · cases h
      · intro h
        cases h with
        | @element arr elem i _ _ _ _ _ helem htake hrest =>
          dsimp only
          rw [List.mem_flatMap]
          refine ⟨i, List.mem_range.mpr (List.getElem?_eq_some_iff.mp helem).1, ?_⟩
          rw [helem]
          dsimp only
          rw [if_pos htake]
          exact ih.mpr hrest
        | field hfield => exact absurd (hhead.symm.trans hfield) (by decide)
    | false =>
      rw [if_neg (by decide)]
      constructor
      · intro h
        split at h
        · rename_i part hpart
          exact .field hhead hpart (ih.mp h)
        · cases h
      · intro h
        cases h with
        | element harray => exact absurd (hhead.symm.trans harray) (by decide)
        | field _ hpart hrest =>
          rw [hpart]
          exact ih.mpr hrest

/-- The elements' results, one after the other. -/
theorem everyElement_eq {α : Type} {f : Nat → Bson → R (List α)} {g : Nat → Bson → List α} {arr : List Bson} {k : Nat}
    {out : List α} (hfg : ∀ i e l, arr[i]? = some e → f (k + i) e = .ok l → l = g (k + i) e)
    (h : everyElement f k arr = .ok out) :
    out = (List.range arr.length).flatMap fun i =>
      match arr[i]? with
      | some e => g (k + i) e
      | none => [] := by
  induction arr generalizing k out with
  | nil =>
    cases h
    rfl
  | cons e es ih =>
    rw [everyElement] at h
    obtain ⟨l, hl, h⟩ := Outcome.bind_eq_ok.mp h
    obtain ⟨later, hlater, h⟩ := Outcome.bind_eq_ok.mp h
    cases h
    have hhere := hfg 0 e l rfl hl
    have hrest := ih (k := k + 1) (fun i e' l' he' hl' => by
      have := hfg (i + 1) e' l' he'
      rw [Nat.add_right_comm, Nat.add_assoc] at hl' ⊢
      exact this hl') hlater
    rw [List.length_cons, List.range_succ_eq_map, List.flatMap_cons, List.flatMap_map, hhere, hrest]
    congr 1
    refine congrArg (List.flatMap · _) (funext fun i => ?_)
    rw [List.getElem?_cons_succ, Nat.add_right_comm, Nat.add_assoc]

theorem walkPositional_eq {cur : Option Bson} {walked parts : List String} {out : List (List String)}
    (h : W.walkPositional cur walked parts = .ok out) : out = W.places cur walked parts := by
  induction parts generalizing cur walked out with
  | nil =>
    cases h
    rfl
  | cons head rest ih =>
    unfold walkPositional at h
    unfold places
    cases hhead : isArrayToken head with
    | true =>
      rw [hhead, if_pos rfl] at h
      rw [if_pos rfl]
      split at h
      · rename_i arr
        obtain ⟨test, htest, h⟩ := Outcome.bind_eq_ok.mp h
        have htakes : ∀ elem b, test elem = .ok b → W.takes head elem = b := by
          intro elem b hb
          unfold takes
          rw [htest]
          dsimp only
          rw [hb]
        dsimp only
        refine (everyElement_eq (g := fun i elem =>
          if W.takes head elem then W.places (some elem) (walked ++ [toString i]) rest else []) ?_ h).trans ?_
        · intro i elem l _ hl
          obtain ⟨b, hb, hl⟩ := Outcome.bind_eq_ok.mp hl
          rw [htakes elem b hb]
          cases b with
          | true => exact ih hl
          | false =>
            cases hl
            rfl
        · simp only [Nat.zero_add]
      · cases h
      · cases h
    | false =>
      rw [hhead, if_neg (by decide)] at h
      obtain ⟨part, hpart, h⟩ := Outcome.bind_eq_ok.mp h
      rw [if_neg (by decide), hpart]
      exact ih h

/-! ## The same paths in the same order -/

theorem Selected.walked {cur : Option Bson} {walked parts p : List String} (h : W.Selected cur walked parts p) :
    walked <+: p := by
  induction h with
  | here cur walked => exact List.prefix_rfl
  | element _ _ _ _ ih => exact (List.prefix_append _ _).trans ih
  | field _ _ _ ih => exact (List.prefix_append _ _).trans ih

/-- One element's share of the selected paths. -/
def share (cur : Option Bson) (walked : List String) (head : String) (rest : List String) (i : ℕ) :
    List (List String) :=
  match cur with
  | some (.array arr) =>
    match arr[i]? with
    | some elem => if W.takes head elem then W.places (some elem) (walked ++ [toString i]) rest else []
    | none => []
  | _ => []

theorem places_array {cur : Option Bson} {walked rest : List String} {head : String} (hhead : isArrayToken head = true) :
    ∃ n, ∀ m, n ≤ m → W.places cur walked (head :: rest) = (List.range m).flatMap (W.share cur walked head rest) := by
  have hnil : ∀ k m : ℕ, (∀ i, k ≤ i → W.share cur walked head rest i = []) →
      (List.range' k m).flatMap (W.share cur walked head rest) = [] := by
    intro k m hk
    rw [List.flatMap_eq_nil_iff]
    intro i hi
    exact hk i (List.mem_range'_1.mp hi).1
  unfold places
  rw [if_pos hhead]
  split
  · rename_i arr
    refine ⟨arr.length, fun m hm => ?_⟩
    obtain ⟨k, rfl⟩ := Nat.exists_eq_add_of_le hm
    have hsplit : List.range (arr.length + k) = List.range arr.length ++ List.range' arr.length k := by
      have happend := List.range'_append_1 (s := 0) (m := arr.length) (n := k)
      rwa [Nat.zero_add, ← List.range_eq_range', ← List.range_eq_range', eq_comm] at happend
    rw [hsplit, List.flatMap_append, hnil, List.append_nil]
    · rfl
    · intro i hi
      unfold share
      dsimp only
      rw [List.getElem?_eq_none hi]
  · rename_i hcur
    refine ⟨0, fun m _ => ?_⟩
    have hshare : ∀ i, W.share cur walked head rest i = [] := by
      intro i
      unfold share
      split
      · rename_i arr
        exact absurd rfl (hcur arr)
      · rfl
    exact (List.flatMap_eq_nil_iff.mpr fun i _ => hshare i).symm

theorem mem_share {cur : Option Bson} {walked rest p : List String} {head : String} (hhead : isArrayToken head = true)
    {i : ℕ} : p ∈ W.share cur walked head rest i ↔
      p ∈ W.places cur walked (head :: rest) ∧ (walked ++ [toString i]) <+: p := by
  have hunder : ∀ {i}, p ∈ W.share cur walked head rest i → (walked ++ [toString i]) <+: p := by
    intro i h
    unfold share at h
    split at h
    · split at h
      · split at h
        · exact Selected.walked W (W.mem_places.mp h)
        · cases h
      · cases h
    · cases h
  obtain ⟨n, hn⟩ : ∃ n, ∀ m, n ≤ m → W.places cur walked (head :: rest) =
      (List.range m).flatMap (W.share cur walked head rest) := W.places_array hhead
  constructor
  · intro h
    refine ⟨?_, hunder h⟩
    rw [hn (max n (i + 1)) (le_max_left _ _), List.mem_flatMap]
    exact ⟨i, List.mem_range.mpr (by omega), h⟩
  · rintro ⟨h, hp⟩
    rw [hn n le_rfl, List.mem_flatMap] at h
    obtain ⟨j, -, h⟩ := h
    -- a path goes through one element only
    have hj := hunder h
    have hlen : (walked ++ [toString i]).length = (walked ++ [toString j]).length := by simp
    have heq := (List.prefix_of_prefix_length_le hp hj hlen.le).eq_of_length hlen
    have hij : toString i = toString j := by simpa using heq
    rw [Paths.toString_inj hij]
    exact h

theorem places_eq_of_mem {a b : Option Bson} {walked parts : List String}
    (h : ∀ p, p ∈ W.places a walked parts ↔ p ∈ W.places b walked parts) :
    W.places a walked parts = W.places b walked parts := by
  induction parts generalizing a b walked with
  | nil => rfl
  | cons head rest ih =>
    cases hhead : isArrayToken head with
    | true =>
      obtain ⟨n, hn⟩ : ∃ n, ∀ m, n ≤ m → W.places a walked (head :: rest) =
          (List.range m).flatMap (W.share a walked head rest) := W.places_array hhead
      obtain ⟨m, hm⟩ : ∃ n, ∀ m, n ≤ m → W.places b walked (head :: rest) =
          (List.range m).flatMap (W.share b walked head rest) := W.places_array hhead
      rw [hn (max n m) (le_max_left _ _), hm (max n m) (le_max_right _ _)]
      refine congrArg (List.flatMap · _) (funext fun i => ?_)
      have hshare : ∀ p, p ∈ W.share a walked head rest i ↔ p ∈ W.share b walked head rest i := by
        intro p
        rw [W.mem_share hhead, W.mem_share hhead, h]
      have hcases : ∀ c : Option Bson, W.share c walked head rest i = [] ∨
          ∃ elem, W.share c walked head rest i = W.places (some elem) (walked ++ [toString i]) rest := by
        intro c
        unfold share
        split
        · split
          · rename_i elem _
            split
            · exact .inr ⟨elem, rfl⟩
            · exact .inl rfl
          · exact .inl rfl
        · exact .inl rfl
      rcases hcases a with ha | ⟨x, ha⟩
      · rw [ha] at hshare ⊢
        exact (List.eq_nil_iff_forall_not_mem.mpr fun p hp => by simpa using (hshare p).mpr hp).symm
      · rcases hcases b with hb | ⟨y, hb⟩
        · rw [hb] at hshare ⊢
          exact List.eq_nil_iff_forall_not_mem.mpr fun p hp => by simpa using (hshare p).mp hp
        · rw [ha, hb] at hshare ⊢
          exact ih hshare
    | false =>
      unfold places at h ⊢
      rw [hhead, if_neg (by decide), if_neg (by decide)] at h ⊢
      cases hpart : W.partAt walked head with
      | ok part =>
        rw [hpart] at h
        exact ih h
      | error _ => rfl

end Walk

end Secantus.Update
