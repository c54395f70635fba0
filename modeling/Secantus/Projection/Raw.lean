/-
  The raw projection (`projection.rs`): `apply_projection_raw` and the full projection of its spec.

  For a spec of top-level inclusions the raw path copies the kept elements in stored order. The full path
  answers with the same fields, `_id` in front.

  * `applyProjectionRaw_fields`: the raw path keeps the stored fields that are `keptBy` the spec;
  * `applyProjection_inclusion`: the full path keeps the same, `_id` first;
  * `applyProjection_perm_raw`: the fields and values are the same;
  * `applyProjectionRaw_eq_iff`: they agree exactly where no included field stands before a kept `_id`.
-/
import Secantus.Projection.Apply

namespace Secantus.Projection

open Secantus Bson BsonOrder

/-! ## The raw path -/

section Raw

variable {RawBson : Type} (decode : RawBson → Option Bson)

/-- `RawDocument`, as its iterator reads it: elements, or an error where the bytes are malformed. -/
abbrev RawDocument (RawBson : Type) := List (Option (String × RawBson))

/-- `RawDocument::to_document`. -/
def toDocument : RawDocument RawBson → Option Document
  | [] => some []
  | element :: raw => do
    let (key, value) ← element
    let value ← decode value
    let rest ← toDocument raw
    return (key, value) :: rest

/-- A flag of the raw path: `None` for any other value. -/
def rawFlag : Bson → Option Bool
  | .int32 n => some (n ≠ 0)
  | .int64 n => some (n ≠ 0)
  | .double d => some (nonzero d)
  | .boolean b => some b
  | _ => none

/-- The loop over the spec: the fields it includes, and whether `_id` is kept. -/
def readSpec : Document → List String → Bool → Option (List String × Bool)
  | [], includeFields, includeId => some (includeFields, includeId)
  | (k, v) :: spec, includeFields, includeId =>
    if '.' ∈ k.toList ∨ isPositionalKey k then none
    else do
      let truthy ← rawFlag v
      if k = "_id" then readSpec spec includeFields truthy
      else if truthy then readSpec spec (includeFields ++ [k]) includeId
      else none

/-- The loop over the raw elements. -/
def copyElements (includeFields : List String) (includeId : Bool) :
    RawDocument RawBson → Document → Option Document
  | [], out => some out
  | element :: raw, out => do
    let (key, value) ← element
    let kept := if key = "_id" then includeId else key ∈ includeFields
    if kept && !Document.containsKey out key then
      let value ← decode value
      copyElements includeFields includeId raw (Document.insert out key value)
    else copyElements includeFields includeId raw out

def applyProjectionRaw (raw : RawDocument RawBson) (spec : Document) : Option Document :=
  if spec.isEmpty then none
  else do
    let (includeFields, includeId) ← readSpec spec [] true
    if includeFields.isEmpty then none
    else copyElements decode includeFields includeId raw []

end Raw

/-! ## Its spec -/

/-- The fields a spec includes, `_id` apart. -/
def included (spec : Document) : List String := (Document.keys spec).filter (· ≠ "_id")

/-- Whether a spec of flags keeps `_id`. -/
def keepsStoredId (spec : Document) : Bool := ((Document.get spec "_id").bind rawFlag).getD true

/-- A pure top-level inclusion. -/
structure TopLevel (spec : Document) : Prop where
  flag : ∀ f ∈ spec, ∃ b, rawFlag f.2 = some b
  dotless : ∀ f ∈ spec, '.' ∉ f.1.toList
  includes : ∀ f ∈ spec, f.1 ≠ "_id" → rawFlag f.2 = some true
  nonempty : included spec ≠ []

/-- The fields of a document that a spec keeps. -/
def keptBy (includeFields : List String) (includeId : Bool) (key : String) : Bool :=
  if key = "_id" then includeId else key ∈ includeFields

theorem readSpec_eq_some {spec : Document} (hspec : (Document.keys spec).Nodup)
    {includeFields names : List String} {includeId keep : Bool}
    (h : readSpec spec includeFields includeId = some (names, keep)) :
    (∀ f ∈ spec, '.' ∉ f.1.toList ∧ (∃ b, rawFlag f.2 = some b) ∧
      (f.1 ≠ "_id" → rawFlag f.2 = some true)) ∧
    names = includeFields ++ included spec ∧
    keep = ((Document.get spec "_id").bind rawFlag).getD includeId := by
  induction spec generalizing includeFields includeId with
  | nil =>
    cases h
    simp [included]
  | cons f spec ih =>
    obtain ⟨k, v⟩ := f
    rw [Document.keys_cons, List.nodup_cons] at hspec
    rw [readSpec] at h
    split at h
    · cases h
    · rename_i hdot
      rw [not_or] at hdot
      obtain ⟨b, hb, hrest⟩ := Option.bind_eq_some_iff.mp h
      split at hrest
      · rename_i hk
        subst hk
        obtain ⟨hall, hnames, hkeep⟩ := ih hspec.2 hrest
        have hnone : Document.get spec "_id" = none := (Document.get_eq_none_iff _ _).mpr hspec.1
        refine ⟨?_, ?_, ?_⟩
        · rw [List.forall_mem_cons]
          exact ⟨⟨hdot.1, ⟨b, hb⟩, fun hne => absurd rfl hne⟩, hall⟩
        · rw [hnames]
          simp [included]
        · rw [hkeep, hnone, Document.get_cons, if_pos rfl]
          simp [hb]
      · rename_i hk
        split at hrest
        · rename_i htrue
          obtain ⟨hall, hnames, hkeep⟩ := ih hspec.2 hrest
          refine ⟨?_, ?_, ?_⟩
          · rw [List.forall_mem_cons]
            exact ⟨⟨hdot.1, ⟨b, hb⟩, fun _ => by rw [hb, htrue]⟩, hall⟩
          · rw [hnames]
            simp [included, hk]
          · rw [hkeep, Document.get_cons, if_neg hk]
        · cases hrest

/-! ## What it keeps -/

section Kept

variable {RawBson : Type} {decode : RawBson → Option Bson}

theorem copyElements_eq {raw : RawDocument RawBson} {doc : Document}
    (hdoc : toDocument decode raw = some doc) (hnodup : (Document.keys doc).Nodup)
    (includeFields : List String) (includeId : Bool) {out : Document}
    (hout : ∀ k ∈ Document.keys doc, k ∉ Document.keys out) :
    copyElements decode includeFields includeId raw out =
      some (out ++ doc.filter fun f => keptBy includeFields includeId f.1) := by
  induction raw generalizing doc out with
  | nil =>
    cases hdoc
    simp [copyElements]
  | cons element raw ih =>
    obtain ⟨⟨key, value⟩, he, hdoc⟩ := Option.bind_eq_some_iff.mp hdoc
    obtain ⟨v, hv, hdoc⟩ := Option.bind_eq_some_iff.mp hdoc
    obtain ⟨rest, hrest, hdoc⟩ := Option.bind_eq_some_iff.mp hdoc
    cases hdoc
    rw [Document.keys_cons, List.nodup_cons] at hnodup
    rw [Document.keys_cons, List.forall_mem_cons] at hout
    have hnew : Document.containsKey out key = false := by
      rw [Document.containsKey, (Document.get_eq_none_iff _ _).mpr hout.1]
      rfl
    have hkept : (if key = "_id" then includeId else decide (key ∈ includeFields)) =
        keptBy includeFields includeId key := rfl
    rw [copyElements, he]
    simp only [Option.bind_eq_bind, Option.bind_some, hnew, Bool.not_false, Bool.and_true, hkept,
      List.filter_cons]
    split
    · rename_i hk
      have hdisj : ∀ k ∈ Document.keys rest, k ∉ Document.keys (Document.insert out key v) := by
        intro k hk' hmem
        rw [Document.keys_insert, if_neg hout.1, List.mem_append, List.mem_singleton] at hmem
        rcases hmem with hmem | rfl
        · exact hout.2 k hk' hmem
        · exact hnodup.1 hk'
      rw [hv, Option.bind_some, ih hrest hnodup.2 hdisj, Document.insert_of_notMem hout.1]
      simp
    · exact ih hrest hnodup.2 hout.2

/-- The raw path keeps the stored fields its spec names, in stored order. -/
theorem applyProjectionRaw_fields {raw : RawDocument RawBson} {doc spec d : Document}
    (hdoc : toDocument decode raw = some doc) (hnodup : (Document.keys doc).Nodup)
    (hspec : (Document.keys spec).Nodup) (h : applyProjectionRaw decode raw spec = some d) :
    TopLevel spec ∧ d = doc.filter fun f => keptBy (included spec) (keepsStoredId spec) f.1 := by
  unfold applyProjectionRaw at h
  split at h
  · cases h
  · obtain ⟨⟨names, keep⟩, hread, h⟩ := Option.bind_eq_some_iff.mp h
    obtain ⟨hall, hnames, hkeep⟩ := readSpec_eq_some hspec hread
    rw [List.nil_append] at hnames
    subst hnames hkeep
    dsimp only at h
    split at h
    · cases h
    · rename_i hne
      refine ⟨⟨fun f hf => (hall f hf).2.1, fun f hf => (hall f hf).1,
        fun f hf => (hall f hf).2.2, by simpa using hne⟩, ?_⟩
      rw [copyElements_eq hdoc hnodup _ _ (by simp), List.nil_append] at h
      exact (Option.some.inj h).symm

end Kept

/-! ## The full path -/

variable (E : Engines)

/-- A flag is no operator, and every test of it answers alike. -/
structure IsFlag (v : Bson) (b : Bool) : Prop where
  meta_none : metaSpec v = none
  slice_none : sliceSpec E v = none
  elemMatch_none : elemMatchSpec v = none
  notComputed : isComputedSpec E v = false
  truthy : specTruthy E v = .ok b
  keeps : idDefers (some v) = false

theorem isFlag_of_rawFlag {v : Bson} {b : Bool} (h : rawFlag v = some b) : IsFlag E v b := by
  cases v with
  | int32 n | int64 n | double d | boolean b =>
    cases h
    exact ⟨rfl, rfl, rfl, rfl, rfl, rfl⟩
  | _ => cases h

theorem flattenEntry_of_rawFlag {v : Bson} {b : Bool} (h : rawFlag v = some b) (key : String) :
    flattenEntry key v = .ok [(key, v)] := by
  cases v with
  | document d => cases h
  | _ => rfl

theorem lookup_upsert_leaf {key : String} (seg : String) {es : List (String × SpecTree)}
    (hes : ∀ t, es.lookup key = some t → t = .node []) :
    (SpecTree.upsert seg (SpecTree.add []) es).lookup key =
      if key = seg then some (.node []) else es.lookup key := by
  induction es with
  | nil =>
    rw [SpecTree.upsert, List.lookup_cons]
    by_cases hkey : key = seg
    · simp [hkey, SpecTree.add]
    · have hb : (key == seg) = false := by simpa using hkey
      simp [hb, hkey]
  | cons e es ih =>
    obtain ⟨k, t⟩ := e
    rw [SpecTree.upsert]
    rw [List.lookup_cons] at hes
    by_cases hk : k = seg
    · subst hk
      rw [if_pos rfl, List.lookup_cons, List.lookup_cons]
      by_cases hkey : key = k
      · subst hkey
        have ht := hes t (by simp)
        simp [SpecTree.add, ht]
      · have hb : (key == k) = false := by simpa using hkey
        simp [hb, hkey]
    · rw [if_neg hk, List.lookup_cons, List.lookup_cons]
      by_cases hkey : key = k
      · subst hkey
        simp [hk]
      · have hb : (key == k) = false := by simpa using hkey
        simp only [hb] at hes ⊢
        exact ih hes

theorem get_foldl_add {key : String} {plain : List String} (h : ∀ k ∈ plain, '.' ∉ k.toList)
    {t : SpecTree} (ht : ∀ s, t.get key = some s → s = .node []) :
    (plain.foldl (fun root p => root.add (Paths.splitDot p)) t).get key =
      if key ∈ plain then some (.node []) else t.get key := by
  induction plain generalizing t with
  | nil => simp
  | cons p plain ih =>
    rw [List.forall_mem_cons] at h
    have hget : (SpecTree.add [p] t).get key = if key = p then some (.node []) else t.get key :=
      lookup_upsert_leaf p ht
    rw [List.foldl_cons, Paths.splitDot_name h.1, ih h.2, hget]
    · by_cases hkey : key = p
      · simp [hkey]
      · simp [hkey]
    · intro s hs
      rw [hget] at hs
      split at hs
      · exact (Option.some.inj hs).symm
      · exact ht s hs

theorem get_specTree {plain : List String} (h : ∀ k ∈ plain, '.' ∉ k.toList) (key : String) :
    (specTree plain).get key = if key ∈ plain then some (.node []) else none := by
  have hempty : (SpecTree.node []).get key = none := rfl
  rw [specTree, get_foldl_add h (by simp [hempty]), hempty]

theorem includeDoc_plain {plain : List String} (h : ∀ k ∈ plain, '.' ∉ k.toList) (doc : Document) :
    includeDoc doc (specTree plain) = doc.filter (·.1 ∈ plain) := by
  induction doc with
  | nil => rfl
  | cons f doc ih =>
    obtain ⟨key, val⟩ := f
    rw [includeDoc, get_specTree h, List.filter_cons]
    by_cases hk : key ∈ plain
    · simp [hk, SpecTree.isLeaf, SpecTree.entries, ih]
    · simp [hk, ih]

theorem foldl_insert_eq_append {out l : Document} (hl : (Document.keys l).Nodup)
    (hout : ∀ k ∈ Document.keys l, k ∉ Document.keys out) :
    l.foldl (fun d f => Document.insert d f.1 f.2) out = out ++ l := by
  induction l generalizing out with
  | nil => simp
  | cons f l ih =>
    obtain ⟨k, v⟩ := f
    rw [Document.keys_cons, List.nodup_cons] at hl
    rw [Document.keys_cons, List.forall_mem_cons] at hout
    rw [List.foldl_cons, Document.insert_of_notMem hout.1, ih hl.2]
    · simp
    · intro k' hk' hmem
      rw [Document.keys, List.map_append, List.mem_append] at hmem
      rcases hmem with hmem | hmem
      · exact hout.2 k' hk' hmem
      · obtain rfl : k' = k := by simpa using hmem
        exact hl.1 hk'

theorem pairwise_idxOf? {doc : Document} (hdoc : (Document.keys doc).Nodup) :
    doc.Pairwise fun a b =>
      ((Document.keys doc).idxOf? a.1).getD (2 ^ 64 - 1) ≤
        ((Document.keys doc).idxOf? b.1).getD (2 ^ 64 - 1) := by
  have hat : ∀ (i : ℕ) (hi : i < doc.length), (Document.keys doc).idxOf? doc[i].1 = some i := by
    intro i hi
    have hi' : i < (Document.keys doc).length := by simpa [Document.keys] using hi
    rw [List.idxOf?_eq_some_iff]
    refine ⟨hi', by simp [Document.keys], ?_⟩
    intro j hj heq
    have hij : (Document.keys doc)[j] = (Document.keys doc)[i] := by
      rw [heq]
      simp [Document.keys]
    have := (hdoc.getElem_inj_iff).mp hij
    omega
  rw [List.pairwise_iff_getElem]
  intro i j hi hj hij
  rw [hat i hi, hat j hj]
  exact hij.le

theorem inDocumentOrder_eq {doc : Document} (hdoc : (Document.keys doc).Nodup) {ids : Document}
    (hids : ∀ f ∈ ids, f.1 = "_id") {p : String × Bson → Bool} (hp : ∀ f ∈ doc, p f → f.1 ≠ "_id") :
    inDocumentOrder (ids ++ doc.filter p) doc = ids ++ doc.filter p := by
  have hfirst : (ids ++ doc.filter p).filter (·.1 = "_id") = ids := by
    have h1 : ids.filter (·.1 = "_id") = ids := List.filter_eq_self.mpr (by simpa using hids)
    have h2 : (doc.filter p).filter (·.1 = "_id") = [] := by
      rw [List.filter_eq_nil_iff]
      intro f hf
      rw [List.mem_filter] at hf
      simpa using hp f hf.1 hf.2
    rw [List.filter_append, h1, h2, List.append_nil]
  have hrest : (ids ++ doc.filter p).filter (·.1 ≠ "_id") = doc.filter p := by
    have h1 : ids.filter (·.1 ≠ "_id") = [] := by
      rw [List.filter_eq_nil_iff]
      intro f hf
      simpa using hids f hf
    have h2 : (doc.filter p).filter (·.1 ≠ "_id") = doc.filter p := by
      rw [List.filter_eq_self]
      intro f hf
      rw [List.mem_filter] at hf
      simpa using hp f hf.1 hf.2
    rw [List.filter_append, h1, h2, List.nil_append]
  rw [inDocumentOrder, hfirst, hrest]
  dsimp only
  rw [List.mergeSort_of_pairwise]
  exact ((pairwise_idxOf? hdoc).sublist List.filter_sublist).imp (by simp)

theorem isPositionalKey_eq_false {key : String} (h : '.' ∉ key.toList) : isPositionalKey key = false := by
  rw [Bool.eq_false_iff]
  intro hpos
  rw [isPositionalKey, List.isSuffixOf_iff_suffix] at hpos
  exact h (hpos.subset (by simp))

theorem flattenFields_flags {spec : Document} (h : ∀ f ∈ spec, ∃ b, rawFlag f.2 = some b) :
    flattenFields "" spec = .ok spec := by
  induction spec with
  | nil => rfl
  | cons f spec ih =>
    obtain ⟨k, v⟩ := f
    rw [List.forall_mem_cons] at h
    obtain ⟨b, hb⟩ := h.1
    rw [flattenFields, flattenEntry_of_rawFlag hb, ih h.2]
    simp [bind, Except.bind, pure, Except.pure]

section Inclusion

variable {E : Engines} {doc spec : Document}

theorem includePlain_eq (hdoc : (Document.keys doc).Nodup) {nonId : List (String × Bson)}
    (hdot : ∀ f ∈ nonId, '.' ∉ f.1.toList) (helem : ∀ f ∈ nonId, elemMatchSpec f.2 = none)
    (hid : ∀ f ∈ nonId, f.1 ≠ "_id") (keep : Bool) :
    includePlain doc (idField doc keep) nonId =
      idField doc keep ++ doc.filter (·.1 ∈ nonId.map (·.1)) := by
  have hall : nonId.filter (fun f => (elemMatchSpec f.2).isNone) = nonId := by
    rw [List.filter_eq_self]
    intro f hf
    rw [helem f hf]
    rfl
  rw [includePlain, hall]
  split
  · rename_i hnil
    rw [List.isEmpty_iff] at hnil
    simp [hnil]
  · rw [includeDoc_plain, foldl_insert_eq_append]
    · exact hdoc.sublist (List.filter_sublist.map _)
    · intro k hk hmem
      have hk' : k ≠ "_id" := by
        obtain ⟨f, hf, rfl⟩ := List.mem_map.mp hk
        rw [List.mem_filter] at hf
        obtain ⟨g, hg, hgf⟩ := List.mem_map.mp (of_decide_eq_true hf.2)
        rw [← hgf]
        exact hid g hg
      refine hk' ?_
      rw [idField] at hmem
      split at hmem
      · cases hget : Document.get doc "_id" with
        | none => rw [hget] at hmem; cases hmem
        | some id => simpa [hget] using hmem
      · cases hmem
    · intro k hk
      obtain ⟨f, hf, rfl⟩ := List.mem_map.mp hk
      exact hdot f hf

theorem includeElemMatch_flags {nonId : List (String × Bson)}
    (h : ∀ f ∈ nonId, elemMatchSpec f.2 = none) (result : Document) :
    includeElemMatch E doc result nonId = .ok result := by
  rw [includeElemMatch]
  induction nonId with
  | nil => rfl
  | cons f nonId ih =>
    rw [List.forall_mem_cons] at h
    rw [List.foldlM_cons]
    simp only [h.1, pure_bind]
    exact ih h.2

theorem mapM_truthy {nonId : List (String × Bson)} (h : ∀ f ∈ nonId, IsFlag E f.2 true) :
    nonId.mapM (fun f => fieldTruthy E f.2) = .ok (nonId.map fun _ => true) := by
  induction nonId with
  | nil => rfl
  | cons f nonId ih =>
    rw [List.forall_mem_cons] at h
    have hf : fieldTruthy E f.2 = .ok true := by
      rw [fieldTruthy, h.1.elemMatch_none]
      exact h.1.truthy
    rw [List.mapM_cons, hf, ih h.2]
    rfl

theorem applyInclusion_flags (hspec : TopLevel spec) (hdoc : (Document.keys doc).Nodup) :
    applyInclusion E doc (Document.get spec "_id") (spec.filter (·.1 ≠ "_id")) [] =
      .ok (idField doc (keepsStoredId spec) ++ doc.filter (·.1 ∈ included spec)) := by
  have hnonId : ∀ f ∈ spec.filter (·.1 ≠ "_id"), f ∈ spec ∧ f.1 ≠ "_id" := by
    intro f hf
    simpa using List.mem_filter.mp hf
  have helem : ∀ f ∈ spec.filter (·.1 ≠ "_id"), elemMatchSpec f.2 = none := by
    intro f hf
    obtain ⟨b, hb⟩ := hspec.flag f (hnonId f hf).1
    exact (isFlag_of_rawFlag E hb).elemMatch_none
  have hnames : (spec.filter (·.1 ≠ "_id")).map (·.1) = included spec := by
    rw [included, Document.keys, List.filter_map]
    rfl
  have hplain := includePlain_eq hdoc (fun f hf => hspec.dotless f (hnonId f hf).1) helem
    (fun f hf => (hnonId f hf).2) (keepsStoredId spec)
  rw [hnames] at hplain
  have hids : ∀ f ∈ idField doc (keepsStoredId spec), f.1 = "_id" := by
    intro f hf
    rw [idField] at hf
    split at hf
    · obtain ⟨id, -, rfl⟩ := by simpa using hf
      rfl
    · cases hf
  have horder := inDocumentOrder_eq hdoc hids (p := fun f => decide (f.1 ∈ included spec))
    (fun f _ hp => by simpa using (List.mem_filter.mp (of_decide_eq_true hp)).2)
  have hread : includesId E (Document.get spec "_id") = .ok (keepsStoredId spec) := by
    rw [keepsStoredId]
    cases hid : Document.get spec "_id" with
    | none => rfl
    | some v =>
      obtain ⟨b, hb⟩ := hspec.flag _ (Document.mem_of_get hid)
      rw [Option.bind_some, hb]
      exact (isFlag_of_rawFlag E hb).truthy
  rw [applyInclusion, hread]
  dsimp only [bind, Except.bind]
  rw [hplain, includeElemMatch_flags helem]
  exact congrArg Except.ok horder

theorem applyLeaves_flags (hspec : TopLevel spec) (hdoc : (Document.keys doc).Nodup)
    (query : Option Document) (vars : Document) :
    applyLeaves E doc spec query vars =
      .ok (idField doc (keepsStoredId spec) ++ doc.filter (·.1 ∈ included spec)) := by
  have hslice : ∀ f ∈ spec, sliceSpec E f.2 = none := by
    intro f hf
    obtain ⟨b, hb⟩ := hspec.flag f hf
    exact (isFlag_of_rawFlag E hb).slice_none
  have hpos : ∀ f ∈ spec, isPositionalKey f.1 = false := fun f hf =>
    isPositionalKey_eq_false (hspec.dotless f hf)
  have h1 : spec.filterMap (fun f => (sliceSpec E f.2).map (f.1, ·)) = [] := by
    rw [List.filterMap_eq_nil_iff]
    intro f hf
    rw [hslice f hf]
    rfl
  have h2 : spec.filter (fun f => (sliceSpec E f.2).isNone) = spec := by
    rw [List.filter_eq_self]
    intro f hf
    rw [hslice f hf]
    rfl
  have h3 : spec.filter (fun f => !isPositionalKey f.1) = spec := by
    rw [List.filter_eq_self]
    intro f hf
    rw [hpos f hf]
    rfl
  have h4 : spec.filter (fun f => isPositionalKey f.1) = [] := by
    rw [List.filter_eq_nil_iff]
    intro f hf
    rw [hpos f hf]
    exact Bool.false_ne_true
  have h5 : idDefers (Document.get spec "_id") = false := by
    cases hid : Document.get spec "_id" with
    | none => rfl
    | some v =>
      obtain ⟨b, hb⟩ := hspec.flag _ (Document.mem_of_get hid)
      exact (isFlag_of_rawFlag E hb).keeps
  have h6 : (spec.filter (·.1 ≠ "_id")).isEmpty = false := by
    rw [Bool.eq_false_iff]
    intro hnil
    rw [List.isEmpty_iff] at hnil
    apply hspec.nonempty
    rw [included, Document.keys, List.filter_map]
    exact List.map_eq_nil_iff.mpr hnil
  have h7 := @mapM_truthy E (spec.filter (·.1 ≠ "_id")) (by
    intro f hf
    obtain ⟨hf, hne⟩ := List.mem_filter.mp hf
    exact isFlag_of_rawFlag E (hspec.includes f hf (by simpa using hne)))
  rw [applyLeaves]
  have hall : (List.map (fun _ => true) (spec.filter (·.1 ≠ "_id"))).all id = true := by
    rw [List.all_map, List.all_eq_true]
    intro f hf
    rfl
  simp only [h1, h2, h3, h4, h5, h6, h7, Bool.false_eq_true, if_false]
  dsimp only [bind, Except.bind]
  rw [if_pos hall]
  exact applyInclusion_flags hspec hdoc

/-- The full path keeps the same fields, `_id` in front. -/
theorem applyProjection_inclusion (hspec : TopLevel spec) (hdoc : (Document.keys doc).Nodup)
    (query : Option Document) (vars : Document) :
    applyProjectionWith E doc spec query vars =
      .ok (idField doc (keepsStoredId spec) ++ doc.filter (·.1 ∈ included spec)) := by
  have hflag : ∀ f ∈ spec, ∃ b, IsFlag E f.2 b := fun f hf =>
    let ⟨b, hb⟩ := hspec.flag f hf
    ⟨b, isFlag_of_rawFlag E hb⟩
  have hne : spec.isEmpty = false := by
    rw [Bool.eq_false_iff]
    intro hnil
    rw [List.isEmpty_iff] at hnil
    exact hspec.nonempty (by rw [hnil]; rfl)
  have hmeta : ¬spec.any (fun f => (metaSpec f.2).isSome) = true := by
    intro hany
    obtain ⟨f, hf, hm⟩ := List.any_eq_true.mp hany
    obtain ⟨b, hb⟩ := hflag f hf
    rw [hb.meta_none] at hm
    cases hm
  have hpos : ¬spec.any (fun f => isPositionalKey f.1) = true := by
    intro hany
    obtain ⟨f, hf, hp⟩ := List.any_eq_true.mp hany
    rw [isPositionalKey_eq_false (hspec.dotless f hf)] at hp
    cases hp
  have hcomp : ¬spec.any (fun f => isComputedSpec E f.2) = true := by
    intro hany
    obtain ⟨f, hf, hc⟩ := List.any_eq_true.mp hany
    obtain ⟨b, hb⟩ := hflag f hf
    rw [hb.notComputed] at hc
    cases hc
  have hflat : flattenProjectionSpec spec = .ok spec := flattenFields_flags hspec.flag
  rw [applyProjectionWith, hne, if_neg Bool.false_ne_true, dif_neg hmeta, if_neg hpos]
  split
  · rename_i e he
    rw [hflat] at he
    cases he
  · rename_i flattened he
    rw [hflat] at he
    cases he
    rw [dif_neg hcomp, dif_neg (by simp [Document.keys])]
    exact applyLeaves_flags hspec hdoc query vars

end Inclusion

/-! ## Where they agree -/

/-- No field the spec includes stands before an `_id` that it keeps. -/
def IdLeads (doc spec : Document) : Prop :=
  keepsStoredId spec = false ∨ "_id" ∉ Document.keys doc ∨
    ∀ key ∈ (Document.keys doc).takeWhile (· ≠ "_id"), key ∉ Document.keys spec

theorem exists_split_id {doc : Document} (h : "_id" ∈ Document.keys doc) :
    ∃ pre id post, doc = pre ++ ("_id", id) :: post ∧
      Document.keys pre = (Document.keys doc).takeWhile (· ≠ "_id") := by
  induction doc with
  | nil => cases h
  | cons f doc ih =>
    obtain ⟨k, v⟩ := f
    by_cases hk : k = "_id"
    · subst hk
      exact ⟨[], v, doc, rfl, by simp⟩
    · rw [Document.keys_cons, List.mem_cons] at h
      obtain ⟨pre, id, post, rfl, hpre⟩ := ih (h.resolve_left (Ne.symm hk))
      refine ⟨(k, v) :: pre, id, post, rfl, ?_⟩
      rw [Document.keys_cons, Document.keys_cons, List.takeWhile_cons,
        if_pos (by simpa using hk), hpre]

theorem included_ne_id {spec : Document} {key : String} (h : key ∈ included spec) : key ≠ "_id" := by
  simpa using (List.mem_filter.mp h).2

theorem keptBy_included (spec : Document) (keep : Bool) {key : String} (h : key ≠ "_id") :
    keptBy (included spec) keep key = decide (key ∈ included spec) := by
  rw [keptBy, if_neg h]

theorem filter_keptBy_of_notMem {l : Document} (spec : Document) (keep : Bool)
    (h : "_id" ∉ Document.keys l) :
    l.filter (fun f => keptBy (included spec) keep f.1) = l.filter (·.1 ∈ included spec) := by
  apply List.filter_congr
  intro f hf
  exact keptBy_included spec keep fun he => h (he ▸ List.mem_map_of_mem hf)

theorem filter_keptBy_dropped (doc spec : Document) :
    doc.filter (fun f => keptBy (included spec) false f.1) = doc.filter (·.1 ∈ included spec) := by
  apply List.filter_congr
  intro f _
  by_cases hf : f.1 = "_id"
  · have hne : f.1 ∉ included spec := fun h => included_ne_id h hf
    simp [keptBy, hf, hf ▸ hne]
  · exact keptBy_included spec false hf

section Around

variable {pre post spec : Document} {id : Bson}

theorem keys_around (pre : Document) (id : Bson) (post : Document) :
    Document.keys (pre ++ ("_id", id) :: post) =
      Document.keys pre ++ "_id" :: Document.keys post := by
  simp [Document.keys]

/-- What the full path keeps of a document around its `_id`. -/
theorem full_around (hdoc : (Document.keys (pre ++ ("_id", id) :: post)).Nodup) :
    idField (pre ++ ("_id", id) :: post) true ++
        (pre ++ ("_id", id) :: post).filter (·.1 ∈ included spec) =
      ("_id", id) :: (pre.filter (·.1 ∈ included spec) ++ post.filter (·.1 ∈ included spec)) := by
  have hget : Document.get (pre ++ ("_id", id) :: post) "_id" = some id :=
    Document.get_of_mem (f := ("_id", id)) hdoc (by simp)
  have hnot : "_id" ∉ included spec := fun h => included_ne_id h rfl
  simp [idField, hget, hnot]

theorem raw_around (hdoc : (Document.keys (pre ++ ("_id", id) :: post)).Nodup) :
    (pre ++ ("_id", id) :: post).filter (fun f => keptBy (included spec) true f.1) =
      pre.filter (·.1 ∈ included spec) ++ ("_id", id) :: post.filter (·.1 ∈ included spec) := by
  rw [keys_around, List.nodup_append, List.nodup_cons] at hdoc
  have hpre : "_id" ∉ Document.keys pre := fun h => hdoc.2.2 _ h _ List.mem_cons_self rfl
  rw [List.filter_append, filter_keptBy_of_notMem spec true hpre, List.filter_cons,
    filter_keptBy_of_notMem spec true hdoc.2.1.1]
  rfl

theorem idLeads_around (hkeep : keepsStoredId spec = true)
    (hpre : Document.keys pre = (Document.keys (pre ++ ("_id", id) :: post)).takeWhile (· ≠ "_id")) :
    IdLeads (pre ++ ("_id", id) :: post) spec ↔ pre.filter (·.1 ∈ included spec) = [] := by
  have hid : "_id" ∈ Document.keys (pre ++ ("_id", id) :: post) := by simp [Document.keys]
  rw [List.filter_eq_nil_iff, IdLeads, ← hpre]
  constructor
  · intro h f hf
    have hne := (h.resolve_left (by simp [hkeep])).resolve_left (by simpa using hid)
    have := hne f.1 (List.mem_map_of_mem hf)
    simp [included, this]
  · intro h
    refine .inr (.inr fun key hkey hspec => ?_)
    obtain ⟨f, hf, rfl⟩ := List.mem_map.mp hkey
    have hne : f.1 ≠ "_id" := by
      rw [hpre] at hkey
      simpa using List.mem_takeWhile_imp hkey
    exact h f hf (by simp [included, hspec, hne])

end Around

/-- Stored order is the full path's exactly where `_id` leads what is kept. -/
theorem filter_keptBy_eq_iff {doc spec : Document} (hdoc : (Document.keys doc).Nodup) :
    idField doc (keepsStoredId spec) ++ doc.filter (·.1 ∈ included spec) =
        doc.filter (fun f => keptBy (included spec) (keepsStoredId spec) f.1) ↔ IdLeads doc spec := by
  cases hkeep : keepsStoredId spec with
  | false =>
    rw [filter_keptBy_dropped]
    simp [idField, IdLeads, hkeep]
  | true =>
    by_cases hid : "_id" ∈ Document.keys doc
    · obtain ⟨pre, id, post, rfl, hpre⟩ := exists_split_id hid
      rw [full_around hdoc, raw_around hdoc, idLeads_around hkeep hpre]
      constructor
      · intro h
        cases hp : pre.filter (·.1 ∈ included spec) with
        | nil => rfl
        | cons f l =>
          -- the stored order's first kept field would be `_id`
          rw [hp] at h
          have hfid : f.1 = "_id" := (congrArg Prod.fst (List.cons.inj h).1).symm
          have hf : f ∈ pre.filter (·.1 ∈ included spec) := hp ▸ List.mem_cons_self
          exact absurd hfid (included_ne_id (of_decide_eq_true (List.mem_filter.mp hf).2))
      · intro h
        rw [h, List.nil_append, List.nil_append]
    · have hget : Document.get doc "_id" = none := (Document.get_eq_none_iff _ _).mpr hid
      rw [filter_keptBy_of_notMem spec true hid]
      simp [idField, hget, IdLeads, hid]

variable {RawBson : Type} {decode : RawBson → Option Bson}

/-- The raw path answers as the full one exactly where no included field stands before a kept
    `_id`. -/
theorem applyProjectionRaw_eq_iff (E : Engines) {raw : RawDocument RawBson} {doc spec d : Document}
    (hdoc : toDocument decode raw = some doc) (hnodup : (Document.keys doc).Nodup)
    (hspec : (Document.keys spec).Nodup) (h : applyProjectionRaw decode raw spec = some d) :
    applyProjection E doc spec none = .ok d ↔ IdLeads doc spec := by
  obtain ⟨htop, rfl⟩ := applyProjectionRaw_fields hdoc hnodup hspec h
  rw [applyProjection, applyProjection_inclusion htop hnodup, ← filter_keptBy_eq_iff hnodup]
  exact ⟨Except.ok.inj, congrArg Except.ok⟩

/-- A document whose `_id` leads. -/
theorem applyProjectionRaw_eq_iff_leading :
    applyProjection noEngines [("_id", .int32 1), ("b", .int32 2), ("a", .int32 3)]
        [("a", .boolean true)] none = .ok [("_id", .int32 1), ("a", .int32 3)] ↔
      IdLeads [("_id", .int32 1), ("b", .int32 2), ("a", .int32 3)] [("a", .boolean true)] :=
  @applyProjectionRaw_eq_iff Bson some noEngines
    [some ("_id", .int32 1), some ("b", .int32 2), some ("a", .int32 3)] _ _ _
    rfl (by decide) (by decide) rfl

/-- A stored document whose `_id` comes last: the raw path leaves it there, the full one does not. -/
theorem applyProjectionRaw_id_last :
    ¬∀ (E : Engines) (raw : RawDocument Bson) (doc spec d : Document),
      toDocument some raw = some doc → (Document.keys doc).Nodup → (Document.keys spec).Nodup →
        applyProjectionRaw some raw spec = some d → applyProjection E doc spec none = .ok d := by
  intro h
  have hraw : applyProjectionRaw some [some ("a", .int32 1), some ("_id", .int32 2)]
      [("a", .int32 1)] = some [("a", .int32 1), ("_id", .int32 2)] := rfl
  have heq := h noEngines _ [("a", .int32 1), ("_id", .int32 2)] [("a", .int32 1)] _ rfl (by decide)
    (by decide) hraw
  obtain ⟨htop, -⟩ := @applyProjectionRaw_fields _ _ _ [("a", .int32 1), ("_id", .int32 2)] _ _ rfl
    (by decide) (by decide) hraw
  rw [applyProjection, applyProjection_inclusion htop (by decide)] at heq
  have hkeys := congrArg (fun r => r.toOption.map Document.keys) heq
  revert hkeys
  decide

end Secantus.Projection
