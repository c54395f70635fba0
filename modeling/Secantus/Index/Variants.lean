/-
  The keys a document gives an index (`index_key_variants_c`): for every field the values of its path, an array's
  elements and the whole array among them, and the joined key of every combination of one value a field.

  The product is cut off at `MAX_COMPOUND_KEYS`; a document with more combinations is kept, and keyed by the first
  of them only (`indexKeyVariantsC_dropped`).

  * `indexKeyVariantsC_spec`: otherwise the keys are those of all combinations, each once; a sparse index leaves out
    the documents that reach none of its fields, and a value without a key is an error.
-/
import Secantus.Index.Entry
import Secantus.Library.OuterJoin
import Secantus.Paths.Basic

namespace Secantus.Index

open Secantus Bson BsonOrder SortKey Library

/-! ## The values of a field -/

structure FieldKeys where
  mongod : List Bson
  wholeArrays : List Bson
  multikey : Bool

def elementLacksLeaf (inArray : Bool) (value : Bson) : List String → Bool
  | [] => false
  | first :: rest =>
    match value with
    | .document d =>
      match Document.get d first with
      | some next => elementLacksLeaf inArray next rest
      | none => inArray
    | .array items =>
      items.any fun
        | .document d =>
          match Document.get d first with
          | some next => elementLacksLeaf true next rest
          | none => true
        | _ => true
    | _ => inArray

/-- The keys of one value of the path. -/
def leafKeys : Bson → List Bson
  | .array items => if items.isEmpty then [.undefined] else items
  | other => [other]

def isArray : Bson → Bool
  | .array _ => true
  | _ => false

def fieldKeys (doc : Document) (path : String) (sparse : Bool) : FieldKeys :=
  let (values, descended) := Paths.getPathValues doc path
  let mongod := values.flatMap leafKeys
  { mongod :=
      if mongod.isEmpty then [.null]
      else if !sparse && elementLacksLeaf false (.document doc) (Paths.splitDot path) then mongod ++ [.null]
      else mongod
    wholeArrays := values.filter isArray
    multikey := descended || values.any isArray }

def indexFieldValues (doc : Document) (field : String) (sparse : Bool) : List Bson × Bool :=
  let keys := fieldKeys doc field sparse
  (keys.mongod ++ keys.wholeArrays, keys.multikey)

def indexFieldExists (doc : Document) (field : String) : Bool := !(Paths.getPathValues doc field).1.isEmpty

def sparseCovers (doc keySpec : Document) : Bool := keySpec.any fun f => indexFieldExists doc f.1

/-- `as i32` of a double: towards zero, held at the ends. -/
def i32OfF64 (d : F64) : ℤ :=
  if d.isNan then 0
  else if d.isInfinite then (if d.negative then -2 ^ 31 else 2 ^ 31 - 1)
  else max (-2 ^ 31) (min (2 ^ 31 - 1) (d.scaled.tdiv Numeric.unit))

def directionOf : Bson → Option ℤ
  | .int32 i => some i.toInt
  | .int64 i => some i.toInt32.toInt
  | .double d => some (i32OfF64 d)
  | _ => none

/-- The fields of an index and their directions. -/
def fieldsOf (keySpec : Document) : List (String × ℤ) := keySpec.map fun f => (f.1, (directionOf f.2).getD 1)

/-! ## The keys -/

/-- `MAX_COMPOUND_KEYS`. -/
def maxCompoundKeys : ℕ := 10000

section Keys

variable {κ : Type} (o : BinDataOrder) (collated : κ → Bson → Except UnsupportedValue Bytes) (coll : Option κ)

/-- `enc_dir_c`; `collated` is `encode_value` under a collation. -/
def encDirC (direction : ℤ) (v : Bson) : Except UnsupportedValue Bytes := do
  let e ← match coll with
    | none => encodeValue o v
    | some c => collated c v
  return if direction = -1 then invertBytes e ++ descEnd else e

/-- A field's values, one for each key. -/
def candidates (doc : Document) (sparse : Bool) (f : String × ℤ) : Except UnsupportedValue (List Bson) := do
  let cands := (indexFieldValues doc f.1 sparse).1
  if cands.length = 1 then return cands
  else
    let uniq ← distinct (encDirC o collated coll f.2) [] cands
    return uniq.map Prod.fst

def perField (doc : Document) (sparse : Bool) : List (String × ℤ) → Except UnsupportedValue (List (List Bson))
  | [] => .ok []
  | f :: fields => do
    let cands ← candidates o collated coll doc sparse f
    let rest ← perField doc sparse fields
    return cands :: rest

/-- The keys of a combination's values, each in its direction. -/
def partsOf : List (String × ℤ) → List Bson → Except UnsupportedValue (List Bytes)
  | f :: fields, v :: combo => do
    let part ← encDirC o collated coll f.2 v
    let parts ← partsOf fields combo
    return part :: parts
  | _, _ => .ok []

/-- The joined key of a combination. -/
def comboKey (fields : List (String × ℤ)) (combo : List Bson) : Except UnsupportedValue Bytes := do
  let parts ← partsOf o collated coll fields combo
  return compoundJoin parts

/-- The keys of the fields' values: of one field's, or of the combinations of several fields'. -/
def joinedKeys (fields : List (String × ℤ)) (perField : List (List Bson)) : Except UnsupportedValue (List Bytes) :=
  match fields, perField with
  | [f], [vals] => do
    let keys ← distinct (encDirC o collated coll f.2) [] vals
    return keys.map Prod.snd
  | fields, perField => do
    let keys ← distinct (comboKey o collated coll fields) [] (cappedProduct maxCompoundKeys [[]] perField)
    return keys.map Prod.snd

def indexKeyVariantsC (doc keySpec : Document) (sparse : Bool) : Except UnsupportedValue (List Bytes) :=
  if sparse && !sparseCovers doc keySpec then .ok []
  else do
    let perField ← perField o collated coll doc sparse (fieldsOf keySpec)
    joinedKeys o collated coll (fieldsOf keySpec) perField

/-! ## What the keys are to be -/

/-- One value for every field. -/
def Combination (doc : Document) (sparse : Bool) (fields : List (String × ℤ)) (vs : List Bson) : Prop :=
  List.Forall₂ (fun v f => v ∈ (indexFieldValues doc f.1 sparse).1) vs fields

/-- The number of different keys of a field. -/
def fieldKeyCount (doc : Document) (sparse : Bool) (f : String × ℤ) : ℕ :=
  keyCount (encDirC o collated coll f.2) (indexFieldValues doc f.1 sparse).1

/-- Every value of the fields has a key. -/
def Encodable (doc : Document) (sparse : Bool) (fields : List (String × ℤ)) : Prop :=
  ∀ f ∈ fields, ∀ v ∈ (indexFieldValues doc f.1 sparse).1, ∃ k, encDirC o collated coll f.2 v = .ok k

variable {o collated coll}

/-! ## One field -/

theorem indexFieldValues_ne_nil (doc : Document) (field : String) (sparse : Bool) :
    (indexFieldValues doc field sparse).1 ≠ [] := by
  have hmongod : (fieldKeys doc field sparse).mongod ≠ [] := by
    unfold fieldKeys
    dsimp only
    split
    · exact List.cons_ne_nil _ _
    · rename_i hne
      split
      · simp
      · simpa using hne
  unfold indexFieldValues
  simp [hmongod]

/-- The values kept of a field. -/
structure Kept (enc : Bson → Except UnsupportedValue Bytes) (vals cands : List Bson) : Prop where
  subset : ∀ v ∈ cands, v ∈ vals
  covers : ∀ v ∈ vals, ∃ u ∈ cands, enc u = enc v
  length_eq : cands.length = keyCount enc vals

theorem candidates_spec {doc : Document} {sparse : Bool} {f : String × ℤ}
    (henc : ∀ v ∈ (indexFieldValues doc f.1 sparse).1, ∃ k, encDirC o collated coll f.2 v = .ok k) :
    ∃ cands, candidates o collated coll doc sparse f = .ok cands ∧
      Kept (encDirC o collated coll f.2) (indexFieldValues doc f.1 sparse).1 cands := by
  unfold candidates
  dsimp only
  by_cases hone : (indexFieldValues doc f.1 sparse).1.length = 1
  · rw [if_pos hone]
    refine ⟨_, rfl, fun v hv => hv, fun v hv => ⟨v, hv, rfl⟩, ?_⟩
    obtain ⟨v, hv⟩ := List.length_eq_one_iff.mp hone
    rw [hv] at henc ⊢
    obtain ⟨k, hk⟩ := henc v List.mem_cons_self
    simp [keyCount, hk, Except.toOption]
  · rw [if_neg hone]
    obtain ⟨out, hout, hspec⟩ := distinct_spec henc []
    rw [hout]
    refine ⟨out.map Prod.fst, rfl, fun v hv => hspec.sublist.subset hv, fun v hv => ?_, ?_⟩
    · obtain ⟨k, hk⟩ := henc v hv
      obtain ⟨p, hp, hpk⟩ := List.mem_map.mp ((hspec.mem_keys k).mpr ⟨v, hv, hk⟩)
      exact ⟨p.1, List.mem_map.mpr ⟨p, hp, rfl⟩, by rw [hspec.sound p hp, hk, hpk]⟩
    · rw [List.length_map, hspec.length_eq]

variable (o collated coll) in
/-- The values kept of each field. -/
def KeptFields (doc : Document) (sparse : Bool) : List (String × ℤ) → List (List Bson) → Prop :=
  List.Forall₂ fun f cands => Kept (encDirC o collated coll f.2) (indexFieldValues doc f.1 sparse).1 cands

theorem perField_spec {doc : Document} {sparse : Bool} {fields : List (String × ℤ)}
    (henc : Encodable o collated coll doc sparse fields) :
    ∃ pf, perField o collated coll doc sparse fields = .ok pf ∧
      KeptFields o collated coll doc sparse fields pf := by
  induction fields with
  | nil => exact ⟨[], rfl, List.Forall₂.nil⟩
  | cons f fields ih =>
    obtain ⟨hf, hfields⟩ := List.forall_mem_cons.mp henc
    obtain ⟨cands, hcands, hkept⟩ := candidates_spec hf
    obtain ⟨pf, hpf, hall⟩ := ih hfields
    refine ⟨cands :: pf, ?_, hall.cons hkept⟩
    rw [perField, hcands, hpf]
    rfl

/-! ## Combinations -/

/-- Every combination of the values has the key of one of the values kept. -/
theorem exists_kept {doc : Document} {sparse : Bool} {fields : List (String × ℤ)} {pf : List (List Bson)}
    (hkept : KeptFields o collated coll doc sparse fields pf)
    {vs : List Bson} (hvs : Combination doc sparse fields vs) :
    ∃ us, List.Forall₂ (· ∈ ·) us pf ∧ partsOf o collated coll fields us = partsOf o collated coll fields vs := by
  induction hkept generalizing vs with
  | nil =>
    cases hvs
    exact ⟨[], List.Forall₂.nil, rfl⟩
  | @cons f cands fields pf hf hfields ih =>
    cases hvs with
    | @cons v _ vs _ hv hvs =>
      obtain ⟨us, hus, hparts⟩ := ih hvs
      obtain ⟨u, hu, henc⟩ := hf.covers v hv
      refine ⟨u :: us, hus.cons hu, ?_⟩
      rw [partsOf, partsOf, henc, hparts]

theorem combination_of_kept {doc : Document} {sparse : Bool} {fields : List (String × ℤ)} {pf : List (List Bson)}
    (hkept : KeptFields o collated coll doc sparse fields pf)
    {us : List Bson} (hus : List.Forall₂ (· ∈ ·) us pf) : Combination doc sparse fields us := by
  induction hkept generalizing us with
  | nil =>
    cases hus
    exact List.Forall₂.nil
  | @cons f cands fields pf hf hfields ih =>
    cases hus with
    | cons hu hus => exact (ih hus).cons (hf.subset _ hu)

theorem exists_comboKey {doc : Document} {sparse : Bool} {fields : List (String × ℤ)}
    (henc : Encodable o collated coll doc sparse fields) {vs : List Bson} (hvs : Combination doc sparse fields vs) :
    ∃ k, comboKey o collated coll fields vs = .ok k := by
  suffices hparts : ∃ parts, partsOf o collated coll fields vs = .ok parts by
    obtain ⟨parts, hparts⟩ := hparts
    exact ⟨compoundJoin parts, by rw [comboKey, hparts]; rfl⟩
  induction hvs with
  | nil => exact ⟨[], rfl⟩
  | @cons v f vs fields hv hvs ih =>
    obtain ⟨hf, hfields⟩ := List.forall_mem_cons.mp henc
    obtain ⟨part, hpart⟩ := hf v hv
    obtain ⟨parts, hparts⟩ := ih hfields
    refine ⟨part :: parts, ?_⟩
    rw [partsOf, hpart, hparts]
    rfl

theorem comboKey_single (f : String × ℤ) (v : Bson) :
    comboKey o collated coll [f] [v] = encDirC o collated coll f.2 v := by
  rw [comboKey, partsOf]
  cases encDirC o collated coll f.2 v <;> rfl

/-- The direction of a field as an index entry has it. -/
def directionOfInt (d : ℤ) : Direction := if d = -1 then .descending else .ascending

theorem encDirC_none (o : BinDataOrder) (collated : κ → Bson → Except UnsupportedValue Bytes) (d : ℤ) (v : Bson) :
    encDirC o collated none d v = encodeValueDirected o v (directionOfInt d) := by
  unfold encDirC encodeValueDirected directionOfInt
  by_cases hd : d = -1
  · rw [if_pos hd]
    cases encodeValue o v <;> simp [hd, directed, bind, Except.bind, pure, Except.pure]
  · rw [if_neg hd]
    cases encodeValue o v <;> simp [hd, directed, bind, Except.bind, pure, Except.pure]

theorem comboKey_none (o : BinDataOrder) (collated : κ → Bson → Except UnsupportedValue Bytes)
    (fields : List (String × ℤ)) (vs : List Bson) :
    comboKey o collated none fields vs = indexKey o (fields.map fun f => directionOfInt f.2) vs := by
  suffices hparts : partsOf o collated none fields vs =
      directedKeys o (fields.map fun f => directionOfInt f.2) vs by
    rw [comboKey, indexKey, hparts]
    rfl
  induction fields generalizing vs with
  | nil => cases vs <;> rfl
  | cons f fields ih =>
    cases vs with
    | nil => rfl
    | cons v vs =>
      rw [partsOf, List.map_cons, directedKeys, encDirC_none, ih]
      rfl

theorem length_kept {doc : Document} {sparse : Bool} {fields : List (String × ℤ)} {pf : List (List Bson)}
    (hkept : KeptFields o collated coll doc sparse fields pf) :
    pf.map List.length = fields.map (fieldKeyCount o collated coll doc sparse) := by
  induction hkept with
  | nil => rfl
  | cons hf _ ih => rw [List.map_cons, List.map_cons, ih, hf.length_eq]; rfl

theorem kept_ne_nil {doc : Document} {sparse : Bool} {fields : List (String × ℤ)} {pf : List (List Bson)}
    (hkept : KeptFields o collated coll doc sparse fields pf) :
    ∀ cands ∈ pf, cands ≠ [] := by
  refine Outcome.forall_mem_of_forall₂ (fun f cands hf => ?_) hkept
  obtain ⟨v, hv⟩ := List.exists_mem_of_ne_nil _ (indexFieldValues_ne_nil doc f.1 sparse)
  obtain ⟨u, hu, -⟩ := hf.covers v hv
  exact List.ne_nil_of_mem hu

/-- The keys of the values kept, up to the cap. -/
theorem joinedKeys_spec {doc : Document} {sparse : Bool} {fields : List (String × ℤ)} {pf : List (List Bson)}
    (henc : Encodable o collated coll doc sparse fields) (hkept : KeptFields o collated coll doc sparse fields pf) :
    ∃ keys, joinedKeys o collated coll fields pf = .ok keys ∧ keys.Nodup ∧
      (∀ k ∈ keys, ∃ us, List.Forall₂ (· ∈ ·) us pf ∧ comboKey o collated coll fields us = .ok k) ∧
      (fields.length = 1 ∨ (pf.map List.length).prod ≤ maxCompoundKeys → ∀ us, List.Forall₂ (· ∈ ·) us pf →
        ∀ k, comboKey o collated coll fields us = .ok k → k ∈ keys) := by
  have hcombos : ∀ us, List.Forall₂ (· ∈ ·) us pf → ∃ k, comboKey o collated coll fields us = .ok k :=
    fun us hus => exists_comboKey henc (combination_of_kept hkept hus)
  unfold joinedKeys
  split
  · -- one field
    rename_i f vals
    have hvals : ∀ v ∈ vals, ∃ k, encDirC o collated coll f.2 v = .ok k := by
      intro v hv
      rw [← comboKey_single]
      exact hcombos [v] (.cons hv .nil)
    obtain ⟨out, hout, hspec⟩ := distinct_spec hvals []
    rw [hout]
    refine ⟨out.map Prod.snd, rfl, hspec.nodup, fun k hk => ?_, fun _ us hus k hk => ?_⟩
    · obtain ⟨v, hv, hkey⟩ := (hspec.mem_keys k).mp hk
      exact ⟨[v], .cons hv .nil, by rw [comboKey_single, hkey]⟩
    · cases hus with
      | cons hv hnil =>
        cases hnil
        rw [comboKey_single] at hk
        exact (hspec.mem_keys k).mpr ⟨_, hv, hk⟩
  · rename_i hmany
    have hall : ∀ us ∈ cappedProduct maxCompoundKeys [[]] pf, List.Forall₂ (· ∈ ·) us pf := by
      intro us hus
      obtain ⟨combo, hcombo, vs, hvs, rfl⟩ := mem_cappedProduct hus
      rw [List.mem_singleton.mp hcombo]
      exact hvs
    obtain ⟨out, hout, hspec⟩ := distinct_spec (fun us hus => hcombos us (hall us hus)) []
    rw [hout]
    refine ⟨out.map Prod.snd, rfl, hspec.nodup, fun k hk => ?_, fun hcap us hus k hk => ?_⟩
    · obtain ⟨us, hus, hkey⟩ := (hspec.mem_keys k).mp hk
      exact ⟨us, hall us hus, hkey⟩
    · have hprod : (pf.map List.length).prod ≤ maxCompoundKeys := by
        refine hcap.resolve_left fun hone => ?_
        obtain ⟨f, rfl⟩ := List.length_eq_one_iff.mp hone
        cases hkept with
        | cons _ hnil =>
          cases hnil
          exact hmany _ _ rfl rfl
      refine (hspec.mem_keys k).mpr ⟨us, ?_, hk⟩
      exact cappedProduct_complete (kept_ne_nil hkept) (by simpa using hprod) List.mem_cons_self hus

/-! ## Values without a key -/

/-- Where the values of a field are gone over, a key for one of those kept is a key for each. -/
theorem candidates_ok {doc : Document} {sparse : Bool} {f : String × ℤ} {cands : List Bson}
    (h : candidates o collated coll doc sparse f = .ok cands) :
    cands ≠ [] ∧ ∀ u ∈ cands, (∃ k, encDirC o collated coll f.2 u = .ok k) →
      ∀ v ∈ (indexFieldValues doc f.1 sparse).1, ∃ k, encDirC o collated coll f.2 v = .ok k := by
  unfold candidates at h
  dsimp only at h
  by_cases hone : (indexFieldValues doc f.1 sparse).1.length = 1
  · rw [if_pos hone] at h
    cases h
    obtain ⟨w, hw⟩ := List.length_eq_one_iff.mp hone
    rw [hw]
    refine ⟨List.cons_ne_nil w [], fun u hu hk v hv => ?_⟩
    rw [List.mem_singleton.mp hv, ← List.mem_singleton.mp hu]
    exact hk
  · rw [if_neg hone] at h
    obtain ⟨out, hout, h⟩ := Outcome.bind_eq_ok.mp h
    cases h
    have henc := exists_key_of_distinct hout
    refine ⟨?_, fun _ _ _ => henc⟩
    obtain ⟨out', hout', hspec⟩ := distinct_spec henc []
    rw [hout] at hout'
    cases hout'
    obtain ⟨v, hv⟩ := List.exists_mem_of_ne_nil _ (indexFieldValues_ne_nil doc f.1 sparse)
    obtain ⟨k, hk⟩ := henc v hv
    obtain ⟨p, hp, -⟩ := List.mem_map.mp ((hspec.mem_keys k).mpr ⟨v, hv, hk⟩)
    exact List.ne_nil_of_mem (List.mem_map.mpr ⟨p, hp, rfl⟩)

theorem perField_ok {doc : Document} {sparse : Bool} {fields : List (String × ℤ)} {pf : List (List Bson)}
    (h : perField o collated coll doc sparse fields = .ok pf) :
    List.Forall₂ (fun f cands => candidates o collated coll doc sparse f = .ok cands) fields pf := by
  induction fields generalizing pf with
  | nil =>
    cases h
    exact .nil
  | cons f fields ih =>
    rw [perField] at h
    obtain ⟨cands, hcands, h⟩ := Outcome.bind_eq_ok.mp h
    obtain ⟨rest, hrest, h⟩ := Outcome.bind_eq_ok.mp h
    cases h
    exact .cons hcands (ih hrest)

/-- A combination with a joined key has a key for each of its values, and so each field has. -/
theorem encodable_of_parts {doc : Document} {sparse : Bool} {fields : List (String × ℤ)} {pf : List (List Bson)}
    (hpf : List.Forall₂ (fun f cands => candidates o collated coll doc sparse f = .ok cands) fields pf)
    {us : List Bson} (hus : List.Forall₂ (· ∈ ·) us pf) {parts : List Bytes}
    (hparts : partsOf o collated coll fields us = .ok parts) : Encodable o collated coll doc sparse fields := by
  induction hpf generalizing us parts with
  | nil => exact nofun
  | cons hcands _ ih =>
    cases hus with
    | cons hu hus =>
      rw [partsOf] at hparts
      obtain ⟨part, hpart, hparts⟩ := Outcome.bind_eq_ok.mp hparts
      obtain ⟨rest, hrest, -⟩ := Outcome.bind_eq_ok.mp hparts
      exact List.forall_mem_cons.mpr ⟨(candidates_ok hcands).2 _ hu ⟨part, hpart⟩, ih hus hrest⟩

theorem exists_parts_of_joinedKeys {fields : List (String × ℤ)} {pf : List (List Bson)} {keys : List Bytes}
    (hne : ∀ cands ∈ pf, cands ≠ []) (h : joinedKeys o collated coll fields pf = .ok keys) :
    ∃ us parts, List.Forall₂ (· ∈ ·) us pf ∧ partsOf o collated coll fields us = .ok parts := by
  suffices hkey : ∃ us k, List.Forall₂ (· ∈ ·) us pf ∧ comboKey o collated coll fields us = .ok k by
    obtain ⟨us, k, hus, hk⟩ := hkey
    obtain ⟨parts, hparts, -⟩ := Outcome.bind_eq_ok.mp hk
    exact ⟨us, parts, hus, hparts⟩
  unfold joinedKeys at h
  split at h
  · rename_i f vals
    obtain ⟨out, hout, -⟩ := Outcome.bind_eq_ok.mp h
    obtain ⟨v, hv⟩ := List.exists_mem_of_ne_nil vals (hne vals List.mem_cons_self)
    obtain ⟨k, hk⟩ := exists_key_of_distinct hout v hv
    exact ⟨[v], k, .cons hv .nil, by rw [comboKey_single, hk]⟩
  · obtain ⟨out, hout, -⟩ := Outcome.bind_eq_ok.mp h
    obtain ⟨us, hus⟩ := List.exists_mem_of_ne_nil _
      (cappedProduct_ne_nil (by decide : 0 < maxCompoundKeys) (List.cons_ne_nil [] []) hne)
    obtain ⟨k, hk⟩ := exists_key_of_distinct hout us hus
    obtain ⟨combo, hcombo, vs, hvs, rfl⟩ := mem_cappedProduct hus
    rw [List.mem_singleton.mp hcombo] at hk
    exact ⟨vs, k, hvs, hk⟩

/-- Keys are given only when every value has one. -/
theorem encodable_of_ok {doc keySpec : Document} {sparse : Bool} {keys : List Bytes}
    (hcovers : ¬(sparse = true ∧ sparseCovers doc keySpec = false))
    (h : indexKeyVariantsC o collated coll doc keySpec sparse = .ok keys) :
    Encodable o collated coll doc sparse (fieldsOf keySpec) := by
  unfold indexKeyVariantsC at h
  rw [if_neg (by simpa using hcovers)] at h
  obtain ⟨pf, hpf, h⟩ := Outcome.bind_eq_ok.mp h
  have hcands := perField_ok hpf
  have hne : ∀ cands ∈ pf, cands ≠ [] :=
    Outcome.forall_mem_of_forall₂ (Q := (· ≠ [])) (fun _ _ hf => (candidates_ok hf).1) hcands
  obtain ⟨us, parts, hus, hparts⟩ := exists_parts_of_joinedKeys hne h
  exact encodable_of_parts hcands hus hparts

/-! ## The keys of a document -/

variable (o collated coll)

/-- The keys are those of all combinations, each once, up to the cap. -/
theorem indexKeyVariantsC_spec (doc keySpec : Document) (sparse : Bool) :
    (sparse = true ∧ sparseCovers doc keySpec = false →
      indexKeyVariantsC o collated coll doc keySpec sparse = .ok []) ∧
    (¬(sparse = true ∧ sparseCovers doc keySpec = false) →
      (¬Encodable o collated coll doc sparse (fieldsOf keySpec) →
        ∃ e, indexKeyVariantsC o collated coll doc keySpec sparse = .error e) ∧
      (Encodable o collated coll doc sparse (fieldsOf keySpec) →
        ∃ keys, indexKeyVariantsC o collated coll doc keySpec sparse = .ok keys ∧ keys.Nodup ∧
          (∀ k ∈ keys, ∃ vs, Combination doc sparse (fieldsOf keySpec) vs ∧
            comboKey o collated coll (fieldsOf keySpec) vs = .ok k) ∧
          (keySpec.length = 1 ∨
              ((fieldsOf keySpec).map (fieldKeyCount o collated coll doc sparse)).prod ≤ maxCompoundKeys →
            ∀ vs, Combination doc sparse (fieldsOf keySpec) vs →
              ∀ k, comboKey o collated coll (fieldsOf keySpec) vs = .ok k → k ∈ keys))) := by
  refine ⟨fun hno => ?_, fun hcovers => ⟨fun hnot => ?_, fun henc => ?_⟩⟩
  · unfold indexKeyVariantsC
    rw [if_pos (by simpa using hno)]
  · cases h : indexKeyVariantsC o collated coll doc keySpec sparse with
    | error e => exact ⟨e, rfl⟩
    | ok keys => exact absurd (encodable_of_ok hcovers h) hnot
  · obtain ⟨pf, hpf, hkept⟩ := perField_spec henc
    obtain ⟨keys, hkeys, hnodup, hsound, hcomplete⟩ := joinedKeys_spec henc hkept
    refine ⟨keys, ?_, hnodup, fun k hk => ?_, fun hcap vs hvs k hk => ?_⟩
    · unfold indexKeyVariantsC
      rw [if_neg (by simpa using hcovers), hpf]
      exact hkeys
    · obtain ⟨us, hus, hkey⟩ := hsound k hk
      exact ⟨us, combination_of_kept hkept hus, hkey⟩
    · obtain ⟨us, hus, hparts⟩ := exists_kept hkept hvs
      refine hcomplete ?_ us hus k ?_
      · rw [length_kept hkept]
        simpa [fieldsOf] using hcap
      · rw [comboKey, hparts]
        exact hk

end Keys

/-- Two elements and their list, each with the one value of the other field. -/
example : (indexKeyVariantsC .mongod (fun (_ : Unit) => encodeValue .mongod) none
    [("a", .array [.int32 1, .int32 2]), ("b", .boolean true)] [("a", .int32 1), ("b", .int32 (-1))] false).toOption.map
      List.length = some 3 := by
  decide

/-! ## Past the cap -/

def numbers : List Bson := (List.range 21).map fun n => .int32 (Int32.ofNat n)

/-- The values of a field of `wide`. -/
def wideValues : List Bson := numbers ++ [.array numbers]

/-- Three lists of twenty-one numbers. -/
def wide : Document := [("a", .array numbers), ("b", .array numbers), ("c", .array numbers)]

def wideKeys : Document := [("a", .int32 1), ("b", .int32 1), ("c", .int32 1)]

/-- The keys of `wide` without a collation. -/
abbrev wideVariants : Except UnsupportedValue (List Bytes) :=
  indexKeyVariantsC .mongod (fun (_ : Unit) => encodeValue .mongod) none wide wideKeys false

theorem fieldsOf_wideKeys : fieldsOf wideKeys = [("a", 1), ("b", 1), ("c", 1)] := by
  decide

theorem indexFieldValues_wide {f : String} (hf : f = "a" ∨ f = "b" ∨ f = "c") :
    (indexFieldValues wide f false).1 = wideValues := by
  rcases hf with rfl | rfl | rfl
  all_goals rfl

theorem keyCount_wide : keyCount (encodeValue .mongod) wideValues = 22 := by
  decide

theorem exists_key_wide : ∀ v ∈ wideValues, ∃ k, encodeValue .mongod v = .ok k := by
  have hsome : ∀ v ∈ wideValues, (encodeValue .mongod v).toOption.isSome = true := by
    decide
  intro v hv
  have hv := hsome v hv
  cases hk : encodeValue .mongod v with
  | ok k => exact ⟨k, rfl⟩
  | error e =>
    rw [hk] at hv
    cases hv

theorem encDirC_one {κ : Type} (o : BinDataOrder) (collated : κ → Bson → Except UnsupportedValue Bytes) :
    encDirC o collated none 1 = encodeValue o := by
  funext v
  unfold encDirC
  cases encodeValue o v <;> rfl

theorem candidates_wide {f : String} (hf : f = "a" ∨ f = "b" ∨ f = "c") :
    candidates .mongod (fun (_ : Unit) => encodeValue .mongod) none wide false (f, 1) =
      .ok wideValues := by
  obtain ⟨out, hout, hspec⟩ := distinct_spec exists_key_wide []
  have hall : out.map Prod.fst = wideValues := by
    refine hspec.sublist.eq_of_length ?_
    rw [List.length_map, hspec.length_eq, keyCount_wide]
    rfl
  unfold candidates
  dsimp only
  rw [indexFieldValues_wide hf, if_neg (by decide), encDirC_one, hout, ← hall]
  rfl

/-- A joined key starts as its first part does. -/
theorem head_comboKey {κ : Type} {o : BinDataOrder} {collated : κ → Bson → Except UnsupportedValue Bytes}
    {f : String × ℤ} {fields : List (String × ℤ)} (hf : f.2 = 1) {v : Bson} {vs : List Bson} {rank : UInt8}
    {body k : Bytes} (hv : encodeValue o v = .ok (rank :: body))
    (h : comboKey o collated none (f :: fields) (v :: vs) = .ok k) : k.head? = some rank := by
  obtain ⟨parts, hparts, hk⟩ := Outcome.bind_eq_ok.mp h
  rw [partsOf] at hparts
  obtain ⟨part, hpart, hparts⟩ := Outcome.bind_eq_ok.mp hparts
  rw [hf, encDirC_one, hv] at hpart
  cases hpart
  obtain ⟨rest, -, hparts⟩ := Outcome.bind_eq_ok.mp hparts
  cases hparts
  cases hk
  cases rest <;> rfl

theorem cappedProduct_wide {c : List Bson}
    (hc : c ∈ cappedProduct maxCompoundKeys [[]] (List.replicate 3 wideValues)) :
    ∃ x ∈ numbers, ∃ rest, c = x :: rest := by
  rw [List.replicate_succ, List.replicate_succ, List.replicate_one, cappedProduct, cappedProduct, cappedProduct,
    cappedProduct] at hc
  have hfirst : pushAll maxCompoundKeys wideValues [[]] [] = numbers.map (fun v => [v]) ++ [[.array numbers]] := by
    rw [pushAll_of_le (by decide), List.flatMap_singleton, wideValues, List.map_append]
    rfl
  have hvalues : wideValues.length = 22 := rfl
  have hsecond : pushAll maxCompoundKeys wideValues (numbers.map (fun v => [v]) ++ [[Bson.array numbers]]) [] =
      (numbers.map (fun v => [v]) ++ [[Bson.array numbers]]).flatMap fun combo =>
        wideValues.map fun v => combo ++ [v] := by
    refine pushAll_of_le ?_
    rw [hvalues, List.length_append, List.length_map]
    decide
  rw [hfirst, hsecond, List.flatMap_append] at hc
  obtain ⟨combo, hcombo, v, -, rfl⟩ := mem_pushAll_of_full (by
    rw [length_pushes, hvalues, List.length_map]
    decide) hc
  obtain ⟨first, hfirst, hcombo⟩ := List.mem_flatMap.mp hcombo
  obtain ⟨x, hx, rfl⟩ := List.mem_map.mp hfirst
  obtain ⟨w, -, rfl⟩ := List.mem_map.mp hcombo
  exact ⟨x, hx, [w, v], rfl⟩

theorem wideVariants_head {keys : List Bytes} (h : wideVariants = .ok keys) : ∀ k ∈ keys, k.head? = some rankNumber := by
  have hpf : perField .mongod (fun (_ : Unit) => encodeValue .mongod) none wide false [("a", 1), ("b", 1), ("c", 1)] =
      .ok (List.replicate 3 wideValues) := by
    rw [perField, candidates_wide (by simp), perField, candidates_wide (by simp), perField, candidates_wide (by simp)]
    rfl
  unfold wideVariants indexKeyVariantsC at h
  rw [if_neg (by decide), fieldsOf_wideKeys] at h
  obtain ⟨pf, hpf', h⟩ := Outcome.bind_eq_ok.mp h
  rw [hpf] at hpf'
  cases hpf'
  unfold joinedKeys at h
  dsimp only at h
  obtain ⟨out, hout, h⟩ := Outcome.bind_eq_ok.mp h
  cases h
  obtain ⟨out', hout', hspec⟩ := distinct_spec (exists_key_of_distinct hout) []
  rw [hout] at hout'
  cases hout'
  intro k hk
  obtain ⟨c, hc, hkey⟩ := (hspec.mem_keys k).mp hk
  obtain ⟨x, hx, rest, rfl⟩ := cappedProduct_wide hc
  obtain ⟨n, -, rfl⟩ := List.mem_map.mp hx
  exact head_comboKey rfl rfl hkey

/-- The combination of the three lists is one of the document's, and has no key. -/
theorem indexKeyVariantsC_dropped :
    ¬ ∃ keys, wideVariants = .ok keys ∧ keys.Nodup ∧ ∀ k, k ∈ keys ↔ ∃ vs,
      Combination wide false (fieldsOf wideKeys) vs ∧
        comboKey .mongod (fun (_ : Unit) => encodeValue .mongod) none (fieldsOf wideKeys) vs = .ok k := by
  rintro ⟨keys, hkeys, -, hiff⟩
  have harray : Bson.array numbers ∈ wideValues := by simp [wideValues]
  have hmem : ∀ f, f = "a" ∨ f = "b" ∨ f = "c" → Bson.array numbers ∈ (indexFieldValues wide f false).1 := by
    intro f hf
    rw [indexFieldValues_wide hf]
    exact harray
  have hcombo : Combination wide false [("a", 1), ("b", 1), ("c", 1)] (List.replicate 3 (.array numbers)) :=
    .cons (hmem _ (by simp)) (.cons (hmem _ (by simp)) (.cons (hmem _ (by simp)) .nil))
  have henc : Encodable .mongod (fun (_ : Unit) => encodeValue .mongod) none wide false
      [("a", 1), ("b", 1), ("c", 1)] := by
    intro f hf v hv
    have hname : f.2 = 1 ∧ (f.1 = "a" ∨ f.1 = "b" ∨ f.1 = "c") := by
      fin_cases hf <;> simp
    rw [indexFieldValues_wide hname.2] at hv
    rw [hname.1, encDirC_one]
    exact exists_key_wide v hv
  rw [fieldsOf_wideKeys] at hiff
  obtain ⟨k, hk⟩ := exists_comboKey henc hcombo
  have hnumber := wideVariants_head hkeys k ((hiff k).mpr ⟨_, hcombo, hk⟩)
  obtain ⟨ka, hka⟩ := exists_key_wide _ harray
  have heq : encodeValue .mongod (.array numbers) =
      (do let arr ← encodeArray .mongod numbers
          .ok (rankArray :: arr)) := by
    rw [encodeValue]
    rfl
  have hka' := hka
  rw [heq] at hka'
  obtain ⟨body, -, hbody⟩ := Outcome.bind_eq_ok.mp hka'
  cases hbody
  rw [head_comboKey rfl hka hk] at hnumber
  exact absurd hnumber (by decide)

end Secantus.Index
