/-
  Hashed `$in` and `$nin` lists of a scan (`query.rs`, `InSets`).

  A scan hashes the long lists of plain scalars of its filter once, under the address of the list,
  and the matcher asks the set before it goes over a list's elements. `Placed` is what borrowing the
  filter for the scan means: every list of it stays at its address.

  * `walk_spec`: what is hashed under a live address are the keys of the list there;
  * `anyCandidate_plain`: going over a list of plain scalars asks whether a value's key is in it;
  * `inMatches_prepared`: so the two paths give one answer.
-/
import Secantus.Library.Outcome
import Secantus.Library.SortedMap
import Secantus.Query.Match

namespace Secantus.Query

open Secantus Bson BsonOrder SortKey

/-! ## The sets -/

/-- `IN_SET_MIN`. -/
def inSetMin : ℕ := 16

/-- `InSets`: the keys of a list by its address, the newest first. -/
abbrev InSets := List (ℕ × List Bytes)

/-- The keys of a list, when every value has one. -/
def listKeys (o : BinDataOrder) : List Bson → Except UnsupportedValue (List Bytes)
  | [] => .ok []
  | v :: arr => do
    let key ← encodeValue o v
    let keys ← listKeys o arr
    return key :: keys

/-- Whether a field is a list to hash: `walk`'s first arm. -/
def isInSet (k : String) (arr : List Bson) : Bool :=
  (k = "$in" || k = "$nin") && inSetMin ≤ arr.length && arr.all plainScalar

mutual

/-- `walk` on the value of a field; `place` is the address of the list at a position. -/
def walkField (o : BinDataOrder) (place : List ℕ → ℕ) (path : List ℕ) (k : String) (out : InSets) : Bson → InSets
  | .array arr =>
    if isInSet k arr then
      match listKeys o arr with
      | .ok keys => (place path, keys) :: out
      | .error _ => out
    else walkItems o place path 0 out arr
  | .document sub => walkFields o place path 0 out sub
  | _ => out

/-- `walk`. -/
def walkFields (o : BinDataOrder) (place : List ℕ → ℕ) (path : List ℕ) (i : ℕ) (out : InSets) : Document → InSets
  | [] => out
  | (k, v) :: d => walkFields o place path (i + 1) (walkField o place (i :: path) k out v) d

/-- The documents in a list that is not hashed. -/
def walkItems (o : BinDataOrder) (place : List ℕ → ℕ) (path : List ℕ) (i : ℕ) (out : InSets) : List Bson → InSets
  | [] => out
  | v :: items => walkItems o place path (i + 1) (walkItem o place (i :: path) out v) items

def walkItem (o : BinDataOrder) (place : List ℕ → ℕ) (path : List ℕ) (out : InSets) : Bson → InSets
  | .document sub => walkFields o place path 0 out sub
  | _ => out

end

def InSets.prepare (o : BinDataOrder) (place : List ℕ → ℕ) (filter : Document) : InSets :=
  walkFields o place [] 0 [] filter

/-! ## The lookup -/

/-- The values against a set; a value that is no plain scalar goes the ordinary path. -/
def scanSet (o : BinDataOrder) (set : List Bytes) (hit : Bool) : List Cand → Option Bool
  | [] => some hit
  | c :: cs =>
    match c.value with
    | none => scanSet o set hit cs
    | some v =>
      if plainScalar v then
        match encodeValue o v with
        | .ok key => scanSet o set (if set.contains key then true else hit) cs
        | .error _ => none
      else none

/-- `in_set_lookup`, with the sets that are installed and the address of the list. -/
def inSetLookup {κ : Type} (o : BinDataOrder) (installed : Option InSets) (address : ℕ) (values : List Cand)
    (coll : Option κ) : Option Bool :=
  if coll.isSome then none
  else do
    let sets ← installed
    let set ← sets.lookup address
    scanSet o set false values

/-- `in_candidate_matches` under a collation; `collated` is `eq_with_array` under one. -/
def inCandidateUnder {κ : Type} (E : Engines) (collated : κ → List Cand → Bson → Bool → Except Fallback Bool)
    (coll : Option κ) (values : List Cand) (cand : Bson) (descend : Bool) : Except Fallback Bool :=
  match coll with
  | none => inCandidateMatches E values cand descend
  | some c => if isRegularExpression cand then E.regex values cand none descend else collated c values cand descend

/-- The elements in turn. -/
def anyUnder {κ : Type} (E : Engines) (collated : κ → List Cand → Bson → Bool → Except Fallback Bool)
    (coll : Option κ) (values : List Cand) (descend : Bool) : List Bson → Except Fallback Bool
  | [] => .ok false
  | cand :: arr => do
    if ← inCandidateUnder E collated coll values cand descend then return true
    anyUnder E collated coll values descend arr

/-- Whether a list holds a value, element by element. -/
def inEach {κ : Type} (E : Engines) (collated : κ → List Cand → Bson → Bool → Except Fallback Bool)
    (coll : Option κ) (values : List Cand) (arr : List Bson) (descend : Bool) : Except Fallback Bool := do
  inElementsOk arr
  anyUnder E collated coll values descend arr

/-- `op_matches` on `$in` (`negated` false) and `$nin`, with a list at an address. -/
def inMatches {κ : Type} (E : Engines) (collated : κ → List Cand → Bson → Bool → Except Fallback Bool)
    (o : BinDataOrder) (installed : Option InSets) (coll : Option κ) (values : List Cand) (negated : Bool)
    (address : ℕ) (arr : List Bson) (field : String) (descend : Bool) : Except Fallback Bool := do
  operandCheck (if negated then "$nin" else "$in") (.array arr) field
  match inSetLookup o installed address values coll with
  | some hit => return (hit != negated)
  | none => return ((← inEach E collated coll values arr descend) != negated)

/-! ## Addresses -/

mutual

/-- The lists in a value are at their addresses. -/
def Placed (memory : ℕ → Option (List Bson)) (place : List ℕ → ℕ) (path : List ℕ) : Bson → Prop
  | .array arr => memory (place path) = some arr ∧ PlacedItems memory place path 0 arr
  | .document d => PlacedFields memory place path 0 d
  | _ => True

def PlacedFields (memory : ℕ → Option (List Bson)) (place : List ℕ → ℕ) (path : List ℕ) (i : ℕ) : Document → Prop
  | [] => True
  | (_, v) :: d => Placed memory place (i :: path) v ∧ PlacedFields memory place path (i + 1) d

def PlacedItems (memory : ℕ → Option (List Bson)) (place : List ℕ → ℕ) (path : List ℕ) (i : ℕ) : List Bson → Prop
  | [] => True
  | v :: items => Placed memory place (i :: path) v ∧ PlacedItems memory place path (i + 1) items

end

/-- Each set has the keys of the plain scalars of the list at its address. -/
def Faithful (o : BinDataOrder) (memory : ℕ → Option (List Bson)) (sets : InSets) : Prop :=
  ∀ e ∈ sets, ∃ arr, memory e.1 = some arr ∧ arr.all plainScalar ∧ listKeys o arr = .ok e.2

mutual

theorem walkField_spec {o : BinDataOrder} {memory : ℕ → Option (List Bson)} {place : List ℕ → ℕ}
    {path : List ℕ} {k : String} {out : InSets} (hout : Faithful o memory out) (v : Bson)
    (hplaced : Placed memory place path v) : Faithful o memory (walkField o place path k out v) := by
  cases v with
  | array arr =>
    rw [Placed] at hplaced
    rw [walkField]
    by_cases hset : isInSet k arr
    · rw [if_pos hset]
      cases hkeys : listKeys o arr with
      | error e => exact hout
      | ok keys =>
        have hplain := (Bool.and_eq_true_iff.mp hset).2
        exact List.forall_mem_cons.mpr ⟨⟨arr, hplaced.1, hplain, hkeys⟩, hout⟩
    · rw [if_neg hset]
      exact walkItems_spec hout arr hplaced.2
  | document sub =>
    rw [Placed] at hplaced
    rw [walkField]
    exact walkFields_spec hout sub hplaced
  | _ => exact hout

theorem walkFields_spec {o : BinDataOrder} {memory : ℕ → Option (List Bson)} {place : List ℕ → ℕ}
    {path : List ℕ} {i : ℕ} {out : InSets} (hout : Faithful o memory out) (d : Document)
    (hplaced : PlacedFields memory place path i d) : Faithful o memory (walkFields o place path i out d) := by
  cases d with
  | nil => exact hout
  | cons f d =>
    obtain ⟨k, v⟩ := f
    rw [PlacedFields] at hplaced
    rw [walkFields]
    exact walkFields_spec (walkField_spec hout v hplaced.1) d hplaced.2

theorem walkItems_spec {o : BinDataOrder} {memory : ℕ → Option (List Bson)} {place : List ℕ → ℕ}
    {path : List ℕ} {i : ℕ} {out : InSets} (hout : Faithful o memory out) (items : List Bson)
    (hplaced : PlacedItems memory place path i items) : Faithful o memory (walkItems o place path i out items) := by
  cases items with
  | nil => exact hout
  | cons v items =>
    rw [PlacedItems] at hplaced
    rw [walkItems]
    exact walkItems_spec (walkItem_spec hout v hplaced.1) items hplaced.2

theorem walkItem_spec {o : BinDataOrder} {memory : ℕ → Option (List Bson)} {place : List ℕ → ℕ}
    {path : List ℕ} {out : InSets} (hout : Faithful o memory out) (v : Bson)
    (hplaced : Placed memory place path v) : Faithful o memory (walkItem o place path out v) := by
  cases v with
  | document sub =>
    rw [Placed] at hplaced
    rw [walkItem]
    exact walkFields_spec hout sub hplaced
  | _ => exact hout

end

theorem faithful_prepare {o : BinDataOrder} {memory : ℕ → Option (List Bson)} {place : List ℕ → ℕ}
    {filter : Document} (hplaced : PlacedFields memory place [] 0 filter) :
    Faithful o memory (InSets.prepare o place filter) :=
  walkFields_spec (fun _ he => absurd he List.not_mem_nil) filter hplaced

/-! ## The set -/

theorem mem_listKeys {o : BinDataOrder} {arr : List Bson} {keys : List Bytes} (h : listKeys o arr = .ok keys)
    (key : Bytes) : key ∈ keys ↔ ∃ cand ∈ arr, encodeValue o cand = .ok key := by
  induction arr generalizing keys with
  | nil =>
    cases h
    simp
  | cons v arr ih =>
    rw [listKeys] at h
    obtain ⟨k, hk, h⟩ := Outcome.bind_eq_ok.mp h
    obtain ⟨ks, hks, h⟩ := Outcome.bind_eq_ok.mp h
    cases h
    rw [List.mem_cons, List.exists_mem_cons_iff, ih hks, hk, Except.ok.injEq, eq_comm]

/-- A scan that answers has met plain scalars only, and tells whether a key of theirs is in the set. -/
theorem scanSet_some {o : BinDataOrder} {set : List Bytes} {hit r : Bool} {values : List Cand}
    (h : scanSet o set hit values = some r) :
    (∀ c ∈ values, ∀ v, c.value = some v → plainScalar v = true) ∧
      (r = true ↔ hit = true ∨ ∃ c ∈ values, ∃ v, c.value = some v ∧ ∃ key ∈ set, encodeValue o v = .ok key) := by
  induction values generalizing hit with
  | nil =>
    cases h
    simp
  | cons c cs ih =>
    rw [scanSet] at h
    cases hv : c.value with
    | none =>
      rw [hv] at h
      obtain ⟨hplain, hr⟩ := ih h
      refine ⟨List.forall_mem_cons.mpr ⟨fun v hc => ?_, hplain⟩, ?_⟩
      · rw [hv] at hc
        cases hc
      · rw [hr, List.exists_mem_cons_iff, hv]
        simp
    | some v =>
      rw [hv] at h
      dsimp only at h
      by_cases hp : plainScalar v = true
      · obtain ⟨key, hkey⟩ := encodeValue_plainScalar o hp
        rw [if_pos hp, hkey] at h
        obtain ⟨hplain, hr⟩ := ih h
        refine ⟨List.forall_mem_cons.mpr ⟨fun w hc => ?_, hplain⟩, ?_⟩
        · rw [hv] at hc
          cases hc
          exact hp
        · rw [hr, List.exists_mem_cons_iff, hv]
          simp only [List.contains_iff_mem, Option.some.injEq, exists_eq_left', hkey, Except.ok.injEq]
          by_cases hmem : key ∈ set
          · simp [hmem]
          · simp [hmem]
      · rw [if_neg hp] at h
        cases h

/-! ## The elements in turn -/

section Linear

variable {values : List Cand} (hvalues : ∀ c ∈ values, ∀ v, c.value = some v → plainScalar v = true) (descend : Bool)

theorem elements_plain {c : Cand} {v : Bson} (hc : c.value = some v) (hv : plainScalar v = true) (descend : Bool) :
    c.elements descend = none := by
  unfold Cand.elements
  rw [hc]
  cases v with
  | array a => cases hv
  | _ => cases (descend && c.expandable) <;> rfl

include hvalues

theorem eqWithArray_plain {cand : Bson} (hcand : plainScalar cand = true) :
    ∃ b, eqWithArray descend cand values = .ok b ∧
      (b = true ↔ ∃ c ∈ values, ∃ v, c.value = some v ∧ eqScalar v cand = .ok true) := by
  induction values with
  | nil => exact ⟨false, rfl, by simp⟩
  | cons c cs ih =>
    obtain ⟨hc, hcs⟩ := List.forall_mem_cons.mp hvalues
    obtain ⟨b, hb, hiff⟩ := ih hcs
    cases hv : c.value with
    | none =>
      refine ⟨b, ?_, ?_⟩
      · unfold eqWithArray
        rw [hv]
        cases cand with
        | null => cases hcand
        | _ => exact hb
      · rw [hiff, List.exists_mem_cons_iff, hv]
        simp
    | some v =>
      have hp := hc v hv
      obtain ⟨kv, hkv⟩ := encodeValue_plainScalar .mongod hp
      obtain ⟨kc, hkc⟩ := encodeValue_plainScalar .mongod hcand
      have heq := eqScalar_plain hp hcand hkv hkc
      refine ⟨decide (kv = kc) || b, ?_, ?_⟩
      · unfold eqWithArray
        rw [hv]
        dsimp only
        rw [heq, elements_plain hv hp, hb]
        cases decide (kv = kc) <;> rfl
      · rw [Bool.or_eq_true, hiff, List.exists_mem_cons_iff, hv]
        simp [heq]

theorem anyUnder_plain {κ : Type} (E : Engines) (collated : κ → List Cand → Bson → Bool → Except Fallback Bool)
    {arr : List Bson} (harr : arr.all plainScalar = true) :
    ∃ b, anyUnder E collated none values descend arr = .ok b ∧
      (b = true ↔ ∃ cand ∈ arr, ∃ c ∈ values, ∃ v, c.value = some v ∧ eqScalar v cand = .ok true) := by
  induction arr with
  | nil => exact ⟨false, rfl, by simp⟩
  | cons cand arr ih =>
    rw [List.all_cons, Bool.and_eq_true] at harr
    obtain ⟨b, hb, hiff⟩ := ih harr.2
    obtain ⟨b', hb', hiff'⟩ := eqWithArray_plain hvalues descend harr.1
    have hregex : isRegularExpression cand = false := by
      cases cand with
      | regularExpression r => cases harr.1
      | _ => rfl
    refine ⟨b' || b, ?_, ?_⟩
    · rw [anyUnder, hb, inCandidateUnder, inCandidateMatches, hregex, if_neg (by decide), hb']
      cases b' <;> rfl
    · rw [Bool.or_eq_true, hiff, hiff', List.exists_mem_cons_iff]

end Linear

theorem inElementsOk_plain {arr : List Bson} (harr : arr.all plainScalar = true) : inElementsOk arr = .ok () := by
  unfold inElementsOk
  rw [if_neg]
  rw [Bool.not_eq_true, List.any_eq_false]
  intro v hv
  have hp := List.all_eq_true.mp harr v hv
  cases v with
  | document d => cases hp
  | _ => exact Bool.false_ne_true

/-! ## The two paths -/

/-- What a guard has installed: nothing, or the sets of a filter that is still in its place. -/
def Installed (memory : ℕ → Option (List Bson)) (installed : Option InSets) : Prop :=
  ∀ sets ∈ installed, ∃ o place filter, PlacedFields memory place [] 0 filter ∧ sets = InSets.prepare o place filter

/-- An answer of the lookup is that of the elements in turn. -/
theorem inEach_of_lookup {κ : Type} (E : Engines)
    (collated : κ → List Cand → Bson → Bool → Except Fallback Bool) {o : BinDataOrder}
    {memory : ℕ → Option (List Bson)} {installed : Option InSets} (hinstalled : Installed memory installed)
    {address : ℕ} {arr : List Bson} (harr : memory address = some arr) {values : List Cand} {coll : Option κ}
    {hit : Bool} (h : inSetLookup o installed address values coll = some hit) (descend : Bool) :
    inEach E collated coll values arr descend = .ok hit := by
  unfold inSetLookup at h
  cases coll with
  | some c => cases h
  | none =>
    obtain ⟨sets, hsets, hlook⟩ := Option.bind_eq_some_iff.mp h
    obtain ⟨set, hset, hscan⟩ := Option.bind_eq_some_iff.mp hlook
    obtain ⟨o', place, filter, hplaced, hprepared⟩ := hinstalled sets hsets
    rw [hprepared] at hset
    obtain ⟨arr', hmem, hplain, hkeys⟩ := faithful_prepare hplaced (address, set) (SortedMap.mem_of_lookup hset)
    rw [harr] at hmem
    cases hmem
    obtain ⟨hvalues, hr⟩ := scanSet_some hscan
    obtain ⟨b, hb, hiff⟩ := anyUnder_plain hvalues descend E collated hplain
    -- a value equals an element when its key is that of the element
    have hsame : hit = b := by
      rw [Bool.eq_iff_iff, hr, hiff]
      constructor
      · rintro (hfalse | ⟨c, hc, v, hv, key, hkey, hcode⟩)
        · cases hfalse
        · obtain ⟨cand, hcand, hcode'⟩ := (mem_listKeys hkeys key).mp hkey
          have heq := eqScalar_plain (hvalues c hc v hv) (List.all_eq_true.mp hplain cand hcand) hcode hcode'
          exact ⟨cand, hcand, c, hc, v, hv, by rw [heq, decide_eq_true rfl]⟩
      · rintro ⟨cand, hcand, c, hc, v, hv, heq⟩
        have hpv := hvalues c hc v hv
        have hpc := List.all_eq_true.mp hplain cand hcand
        obtain ⟨kv, hkv⟩ := encodeValue_plainScalar o hpv
        obtain ⟨kc, hkc⟩ := encodeValue_plainScalar o' hpc
        rw [eqScalar_plain hpv hpc hkv hkc, Except.ok.injEq, decide_eq_true_eq] at heq
        exact Or.inr ⟨c, hc, v, hv, kv, (mem_listKeys hkeys kv).mpr ⟨cand, hcand, by rw [hkc, heq]⟩, hkv⟩
    unfold inEach
    rw [inElementsOk_plain hplain, hsame]
    exact hb

/-- `$in` and `$nin` by testing each element in turn. -/
def inMatchesEach {κ : Type} (E : Engines) (collated : κ → List Cand → Bson → Bool → Except Fallback Bool)
    (coll : Option κ) (values : List Cand) (negated : Bool) (arr : List Bson) (field : String) (descend : Bool) :
    Except Fallback Bool := do
  operandCheck (if negated then "$nin" else "$in") (.array arr) field
  return ((← inEach E collated coll values arr descend) != negated)

theorem anyUnder_none {κ : Type} (E : Engines) (collated : κ → List Cand → Bson → Bool → Except Fallback Bool)
    (values : List Cand) (descend : Bool) (arr : List Bson) :
    anyUnder E collated none values descend arr = anyCandidate E values descend arr := by
  induction arr with
  | nil => rfl
  | cons cand arr ih =>
    rw [anyUnder, anyCandidate, ih]
    rfl

/-- Without a collation these are the matcher's two operators. -/
theorem opMatches_inMatchesEach {κ : Type} (E : Engines)
    (collated : κ → List Cand → Bson → Bool → Except Fallback Bool) (o : BinDataOrder) (values : List Cand)
    (negated : Bool) (arr : List Bson) (field : String) (descend : Bool) (inner : Except Fallback Bool) :
    opMatches E o values (if negated then "$nin" else "$in") (.array arr) field descend inner =
      inMatchesEach E collated none values negated arr field descend := by
  unfold inMatchesEach inEach
  rw [anyUnder_none]
  generalize hx : (do
    inElementsOk arr
    anyCandidate E values descend arr : Except Fallback Bool) = x
  cases negated with
  | false =>
    have hin : inList E values "$in" (.array arr) descend = x := hx
    change (do
      operandCheck "$in" (.array arr) field
      inList E values "$in" (.array arr) descend) = do
        operandCheck "$in" (.array arr) field
        return ((← x) != false)
    rw [hin]
    congr 1
    funext u
    cases x with
    | error e => rfl
    | ok b => cases b <;> rfl
  | true =>
    have hnin : inList E values "$nin" (.array arr) descend = x := hx
    change (do
      operandCheck "$nin" (.array arr) field
      return !(← inList E values "$nin" (.array arr) descend)) = do
        operandCheck "$nin" (.array arr) field
        return ((← x) != true)
    rw [hnin]
    congr 1
    funext u
    cases x with
    | error e => rfl
    | ok b => cases b <;> rfl

/-- The prepared sets answer as the elements in turn. -/
theorem inMatches_prepared {κ : Type} (E : Engines)
    (collated : κ → List Cand → Bson → Bool → Except Fallback Bool) (o : BinDataOrder)
    {memory : ℕ → Option (List Bson)} {installed : Option InSets} (hinstalled : Installed memory installed)
    {address : ℕ} {arr : List Bson} (harr : memory address = some arr) (coll : Option κ) (values : List Cand)
    (negated : Bool) (field : String) (descend : Bool) :
    inMatches E collated o installed coll values negated address arr field descend =
      inMatchesEach E collated coll values negated arr field descend := by
  unfold inMatches inMatchesEach
  cases hlook : inSetLookup o installed address values coll with
  | none => rfl
  | some hit =>
    rw [inEach_of_lookup E collated hinstalled harr hlook descend]
    rfl

/-- A scan whose filter has one list of sixteen numbers. -/
def sixteen : List Bson := (List.range 16).map fun n => .int32 (Int32.ofNat n)

theorem inMatches_prepared_sixteen :
    inSetLookup .mongod
        (some (InSets.prepare .mongod (fun _ => 8) [("a", .document [("$in", .array sixteen)])]))
        8 [.plain (some (.int64 7))] (none : Option Unit) = some true ∧
    inMatches noEngines (fun (_ : Unit) _ _ _ => .ok false) .mongod
        (some (InSets.prepare .mongod (fun _ => 8) [("a", .document [("$in", .array sixteen)])]))
        none [.plain (some (.int64 7))] false 8 sixteen "a" true =
      inMatchesEach noEngines (fun (_ : Unit) _ _ _ => .ok false) none [.plain (some (.int64 7))] false
        sixteen "a" true := by
  have hinstalled : Installed (fun n => if n = 8 then some sixteen else none)
      (some (InSets.prepare .mongod (fun _ => 8) [("a", .document [("$in", .array sixteen)])])) := by
    intro sets hsets
    refine ⟨.mongod, fun _ => 8, _, ?_, (Option.mem_some_iff.mp hsets).symm⟩
    simp [PlacedFields, Placed, PlacedItems, sixteen, List.range, List.range.loop]
  exact ⟨by decide, inMatches_prepared noEngines _ .mongod hinstalled rfl none _ false "a" true⟩

end Secantus.Query
