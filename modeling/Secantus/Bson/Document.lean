/-
  Documents as ordered maps (`bson::Document`): reading, inserting and removing a field.

  `bson::Document` keeps one field a name, in insertion order; `Bson.WellFormed` is that
  invariant at every depth, with the bound a BSON array's encoded length puts on its size.
-/
import Secantus.Bson.Value

namespace Secantus

namespace Document

/-- `Document::get`. -/
def get (d : Document) (k : String) : Option Bson := d.lookup k

/-- `Document::keys`. -/
def keys (d : Document) : List String := d.map (·.1)

/-- `Document::contains_key`. -/
def containsKey (d : Document) (k : String) : Bool := (get d k).isSome

/-- `Document::insert`: in place when the name is there, else at the end. -/
def insert : Document → String → Bson → Document
  | [], k, v => [(k, v)]
  | (k', v') :: d, k, v => if k' = k then (k, v) :: d else (k', v') :: insert d k v

/-- `Document::remove`: the other fields keep their order. -/
def remove : Document → String → Document
  | [], _ => []
  | (k', v') :: d, k => if k' = k then d else (k', v') :: remove d k

@[simp] theorem get_nil (k : String) : get [] k = none := rfl

theorem get_cons (k' k : String) (v : Bson) (d : Document) :
    get ((k', v) :: d) k = if k' = k then some v else get d k := by
  unfold get
  rw [List.lookup_cons]
  by_cases h : k' = k
  · simp [h]
  · have hb : (k == k') = false := by simpa using Ne.symm h
    simp only [hb, if_neg h]

@[simp] theorem keys_nil : keys [] = [] := rfl

@[simp] theorem keys_cons (k : String) (v : Bson) (d : Document) :
    keys ((k, v) :: d) = k :: keys d := rfl

theorem get_isSome_iff (d : Document) (k : String) : (get d k).isSome ↔ k ∈ keys d := by
  induction d with
  | nil => simp
  | cons f d ih =>
    obtain ⟨k', v⟩ := f
    simp only [get_cons, keys_cons, List.mem_cons]
    by_cases h : k' = k
    · simp [h]
    · simp only [h, if_false, ih, Ne.symm h, false_or]

theorem get_eq_none_iff (d : Document) (k : String) : get d k = none ↔ k ∉ keys d := by
  rw [← get_isSome_iff, Option.not_isSome_iff_eq_none]

theorem mem_of_get {d : Document} {k : String} {v : Bson} (h : get d k = some v) : (k, v) ∈ d := by
  induction d with
  | nil => cases h
  | cons f d ih =>
    obtain ⟨k', v'⟩ := f
    rw [get_cons] at h
    split at h
    · rename_i hk
      rw [hk, Option.some.inj h]
      exact List.mem_cons_self
    · exact List.mem_cons_of_mem _ (ih h)

theorem get_of_mem {d : Document} (hd : (keys d).Nodup) {f : String × Bson} (hf : f ∈ d) :
    get d f.1 = some f.2 := by
  induction d with
  | nil => cases hf
  | cons g d ih =>
    obtain ⟨k', v'⟩ := g
    rw [keys_cons, List.nodup_cons] at hd
    rw [get_cons]
    rcases List.mem_cons.mp hf with rfl | hf
    · exact if_pos rfl
    · have hk : k' ≠ f.1 := fun h => hd.1 (h ▸ List.mem_map_of_mem hf)
      rw [if_neg hk, ih hd.2 hf]

theorem keys_insert (d : Document) (k : String) (v : Bson) :
    keys (insert d k v) = if k ∈ keys d then keys d else keys d ++ [k] := by
  induction d with
  | nil => rfl
  | cons f d ih =>
    obtain ⟨k₀, v₀⟩ := f
    unfold insert
    by_cases h0 : k₀ = k
    · subst h0
      simp
    · have h0' : k ≠ k₀ := Ne.symm h0
      rw [if_neg h0, keys_cons, keys_cons, ih]
      by_cases hk : k ∈ keys d
      · simp [hk]
      · simp [hk, h0']

theorem insert_of_notMem {d : Document} {k : String} (h : k ∉ keys d) (v : Bson) :
    insert d k v = d ++ [(k, v)] := by
  induction d with
  | nil => rfl
  | cons f d ih =>
    obtain ⟨k₀, v₀⟩ := f
    simp only [keys_cons, List.mem_cons, not_or] at h
    rw [insert, if_neg (Ne.symm h.1), ih h.2, List.cons_append]

end Document

namespace Bson

/-- A value without values inside. -/
def isLeaf : Bson → Bool
  | .document _ | .array _ | .javaScriptCodeWithScope _ _ => false
  | _ => true

/-- Induction over a value and the values inside it. -/
theorem induction {P : Bson → Prop} (document : ∀ d : Document, (∀ f ∈ d, P f.2) → P (.document d))
    (array : ∀ a : List Bson, (∀ v ∈ a, P v) → P (.array a))
    (scope : ∀ c (s : Document), (∀ f ∈ s, P f.2) → P (.javaScriptCodeWithScope c s))
    (leaf : ∀ v : Bson, v.isLeaf = true → P v) (v : Bson) : P v :=
  match v with
  | .document d => document d fun ⟨_, v⟩ _ => induction document array scope leaf v
  | .array a => array a fun v _ => induction document array scope leaf v
  | .javaScriptCodeWithScope c s => scope c s fun ⟨_, v⟩ _ => induction document array scope leaf v
  | .double _ | .string _ | .binary _ | .undefined | .objectId _ | .boolean _ | .dateTime _
  | .null | .regularExpression _ | .dbPointer _ _ | .javaScriptCode _ | .symbol _ | .int32 _
  | .timestamp _ | .int64 _ | .decimal128 _ | .minKey | .maxKey => leaf _ rfl
decreasing_by
  all_goals
    have hmem := List.sizeOf_lt_of_mem ‹_ ∈ _›
    simp only [Bson.document.sizeOf_spec, Bson.array.sizeOf_spec, Bson.javaScriptCodeWithScope.sizeOf_spec,
      Prod.mk.sizeOf_spec] at hmem ⊢
    omega

end Bson

end Secantus
