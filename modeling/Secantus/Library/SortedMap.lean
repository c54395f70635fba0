/-
  Finite maps as the list of their entries in the order of the keys.

  `get`, `insert` and `erase` act as on any map (`get_insert`, `get_erase`); `first?` is the entry
  of the least key (`first?_eq_some_iff`); `orInsert` keeps the value that is there. Two maps with
  the same `get` are equal (`ext_get`).
-/
import Mathlib.Data.List.Sort
import Mathlib.Order.Basic

/-- A map, by its entries in strictly increasing key order. -/
structure SortedMap (κ ν : Type*) [LinearOrder κ] where
  entries : List (κ × ν)
  sorted : entries.Pairwise fun a b => a.1 < b.1

namespace SortedMap

variable {κ ν : Type*} [LinearOrder κ]

def empty : SortedMap κ ν := ⟨[], List.Pairwise.nil⟩

/-- The value of a key. -/
def get (m : SortedMap κ ν) (k : κ) : Option ν := m.entries.lookup k

def keys (m : SortedMap κ ν) : List κ := m.entries.map Prod.fst

def values (m : SortedMap κ ν) : List ν := m.entries.map Prod.snd

/-- The entries `f` keeps, with the values it gives them. -/
def filterMap {μ : Type*} (m : SortedMap κ ν) (f : ν → Option μ) : SortedMap κ μ where
  entries := m.entries.filterMap fun e => (f e.2).map (e.1, ·)
  sorted := by
    rw [List.pairwise_filterMap]
    refine m.sorted.imp fun hlt _ hb _ hc => ?_
    obtain ⟨v, -, rfl⟩ := Option.map_eq_some_iff.mp hb
    obtain ⟨w, -, rfl⟩ := Option.map_eq_some_iff.mp hc
    exact hlt

/-- The entry of the least key. -/
def first? (m : SortedMap κ ν) : Option (κ × ν) := m.entries.head?

def insertEntry (k : κ) (v : ν) : List (κ × ν) → List (κ × ν)
  | [] => [(k, v)]
  | e :: m => if k < e.1 then (k, v) :: e :: m else if k = e.1 then (k, v) :: m else e :: insertEntry k v m

theorem mem_insertEntry {k : κ} {v : ν} {e : κ × ν} :
    ∀ {m : List (κ × ν)}, e ∈ insertEntry k v m → e = (k, v) ∨ e ∈ m
  | [], h => .inl (List.mem_singleton.mp h)
  | f :: m, h => by
    unfold insertEntry at h
    split at h
    · exact List.mem_cons.mp h
    · split at h
      · rcases List.mem_cons.mp h with h | h
        · exact .inl h
        · exact .inr (List.mem_cons_of_mem _ h)
      · rcases List.mem_cons.mp h with rfl | h
        · exact .inr List.mem_cons_self
        · exact (mem_insertEntry h).imp_right (List.mem_cons_of_mem _)

theorem sorted_insertEntry {k : κ} {v : ν} : ∀ {m : List (κ × ν)},
    (m.Pairwise fun a b => a.1 < b.1) → (insertEntry k v m).Pairwise fun a b => a.1 < b.1
  | [], _ => List.pairwise_singleton _ _
  | e :: m, h => by
    obtain ⟨he, hm⟩ := List.pairwise_cons.mp h
    unfold insertEntry
    split
    · rename_i hlt
      refine List.pairwise_cons.mpr ⟨fun f hf => ?_, h⟩
      rcases List.mem_cons.mp hf with rfl | hf
      · exact hlt
      · exact hlt.trans (he f hf)
    · split
      · rename_i heq
        exact List.pairwise_cons.mpr ⟨fun f hf => heq ▸ he f hf, hm⟩
      · rename_i hlt heq
        have hgt : e.1 < k := lt_of_le_of_ne (not_lt.mp hlt) (Ne.symm heq)
        refine List.pairwise_cons.mpr ⟨fun f hf => ?_, sorted_insertEntry hm⟩
        rcases mem_insertEntry hf with rfl | hf
        · exact hgt
        · exact he f hf

/-- Set a key. -/
def insert (m : SortedMap κ ν) (k : κ) (v : ν) : SortedMap κ ν :=
  ⟨insertEntry k v m.entries, sorted_insertEntry m.sorted⟩

/-- Remove a key. -/
def erase (m : SortedMap κ ν) (k : κ) : SortedMap κ ν :=
  ⟨m.entries.filter (·.1 ≠ k), m.sorted.filter _⟩

/-- Set a key unless it has a value. -/
def orInsert (m : SortedMap κ ν) (k : κ) (v : ν) : SortedMap κ ν :=
  if (m.get k).isSome then m else m.insert k v

/-! ## Reading -/

@[simp] theorem get_empty (k : κ) : (empty : SortedMap κ ν).get k = none := rfl

theorem lookup_cons_eq (e : κ × ν) (m : List (κ × ν)) (k : κ) :
    (e :: m).lookup k = if e.1 = k then some e.2 else m.lookup k := by
  rw [List.lookup_cons]
  by_cases h : e.1 = k
  · simp [h]
  · have hb : (k == e.1) = false := by simpa using Ne.symm h
    simp only [hb, if_neg h]

theorem mem_of_lookup {k : κ} {v : ν} : ∀ {m : List (κ × ν)}, m.lookup k = some v → (k, v) ∈ m
  | [], h => by cases h
  | e :: m, h => by
    rw [lookup_cons_eq] at h
    split at h
    · rename_i he
      rw [← he, ← Option.some.inj h]
      exact List.mem_cons_self
    · exact List.mem_cons_of_mem _ (mem_of_lookup h)

theorem lookup_of_mem {k : κ} {v : ν} : ∀ {m : List (κ × ν)},
    (m.Pairwise fun a b => a.1 < b.1) → (k, v) ∈ m → m.lookup k = some v
  | e :: m, hs, h => by
    obtain ⟨he, hm⟩ := List.pairwise_cons.mp hs
    rw [lookup_cons_eq]
    rcases List.mem_cons.mp h with rfl | h
    · exact if_pos rfl
    · rw [if_neg (he _ h).ne]
      exact lookup_of_mem hm h

theorem get_eq_some_iff (m : SortedMap κ ν) (k : κ) (v : ν) : m.get k = some v ↔ (k, v) ∈ m.entries :=
  ⟨mem_of_lookup, lookup_of_mem m.sorted⟩

theorem mem_keys_iff (m : SortedMap κ ν) (k : κ) : k ∈ m.keys ↔ ∃ v, m.get k = some v := by
  unfold keys
  constructor
  · intro h
    obtain ⟨⟨k', v⟩, he, rfl⟩ := List.mem_map.mp h
    exact ⟨v, (m.get_eq_some_iff _ _).mpr he⟩
  · rintro ⟨v, h⟩
    exact List.mem_map.mpr ⟨(k, v), (m.get_eq_some_iff _ _).mp h, rfl⟩

theorem mem_values_iff (m : SortedMap κ ν) (v : ν) : v ∈ m.values ↔ ∃ k, m.get k = some v := by
  unfold values
  constructor
  · intro h
    obtain ⟨⟨k, v'⟩, he, rfl⟩ := List.mem_map.mp h
    exact ⟨k, (m.get_eq_some_iff _ _).mpr he⟩
  · rintro ⟨k, h⟩
    exact List.mem_map.mpr ⟨(k, v), (m.get_eq_some_iff _ _).mp h, rfl⟩

theorem lookup_insertEntry (k k' : κ) (v : ν) : ∀ {m : List (κ × ν)},
    (m.Pairwise fun a b => a.1 < b.1) →
    (insertEntry k v m).lookup k' = if k = k' then some v else m.lookup k'
  | [], _ => by rw [insertEntry, lookup_cons_eq]
  | e :: m, h => by
    have ih := lookup_insertEntry k k' v (List.pairwise_cons.mp h).2
    unfold insertEntry
    split
    · rw [lookup_cons_eq]
    · split
      · rename_i heq
        rw [lookup_cons_eq, lookup_cons_eq, heq]
        split <;> rfl
      · rename_i hne
        rw [lookup_cons_eq, lookup_cons_eq, ih]
        by_cases he : e.1 = k'
        · rw [if_pos he, if_neg (fun hk => hne (hk.trans he.symm)), if_pos he]
        · rw [if_neg he, if_neg he]

theorem get_insert (m : SortedMap κ ν) (k k' : κ) (v : ν) :
    (m.insert k v).get k' = if k = k' then some v else m.get k' :=
  lookup_insertEntry k k' v m.sorted

theorem get_erase (m : SortedMap κ ν) (k k' : κ) :
    (m.erase k).get k' = if k = k' then none else m.get k' := by
  apply Option.ext
  intro v
  rw [get_eq_some_iff]
  by_cases h : k = k'
  · simp [erase, h]
  · rw [if_neg h, get_eq_some_iff]
    simp [erase, Ne.symm h]

theorem get_orInsert (m : SortedMap κ ν) (k k' : κ) (v : ν) :
    (m.orInsert k v).get k' = if k = k' then some ((m.get k).getD v) else m.get k' := by
  unfold orInsert
  cases hk : m.get k with
  | none =>
    rw [Option.isSome_none, if_neg Bool.false_ne_true, get_insert, Option.getD_none]
  | some w =>
    rw [Option.isSome_some, if_pos rfl, Option.getD_some]
    split
    · rename_i h
      rw [← h, hk]
    · rfl

theorem length_erase_lt {m : SortedMap κ ν} {k : κ} {v : ν} (h : m.get k = some v) :
    (m.erase k).entries.length < m.entries.length := by
  refine List.length_filter_lt_length_iff_exists.mpr ⟨(k, v), (m.get_eq_some_iff k v).mp h, ?_⟩
  simp

/-! ## The least key -/

theorem first?_eq_none_iff (m : SortedMap κ ν) : m.first? = none ↔ ∀ k, m.get k = none := by
  unfold first? get
  constructor
  · intro h k
    rw [List.head?_eq_none_iff.mp h]
    rfl
  · intro h
    cases he : m.entries with
    | nil => rfl
    | cons e rest =>
      have := h e.1
      rw [he, lookup_cons_eq, if_pos rfl] at this
      cases this

theorem first?_eq_some_iff (m : SortedMap κ ν) (k : κ) (v : ν) :
    m.first? = some (k, v) ↔ m.get k = some v ∧ ∀ k' w, m.get k' = some w → k ≤ k' := by
  obtain ⟨entries, hs⟩ := m
  unfold first? get
  cases entries with
  | nil => simp
  | cons e rest =>
    obtain ⟨he, -⟩ := List.pairwise_cons.mp hs
    constructor
    · intro h
      obtain rfl : e = (k, v) := Option.some.inj h
      refine ⟨lookup_of_mem hs List.mem_cons_self, fun k' w hw => ?_⟩
      rcases List.mem_cons.mp (mem_of_lookup hw) with hw | hw
      · rw [(Prod.mk.inj hw).1]
      · exact (he _ hw).le
    · rintro ⟨h, hle⟩
      have hk : e.1 = k := by
        have hek : k ≤ e.1 := hle e.1 e.2 (lookup_of_mem hs List.mem_cons_self)
        rcases List.mem_cons.mp (mem_of_lookup h) with hm | hm
        · rw [← hm]
        · exact absurd (he _ hm) (not_lt.mpr hek)
      rw [lookup_cons_eq, if_pos hk] at h
      change some e = some (k, v)
      rw [← hk, ← Option.some.inj h]

/-! ## Extensionality -/

theorem ext_get {m n : SortedMap κ ν} (h : ∀ k, m.get k = n.get k) : m = n := by
  obtain ⟨es, hes⟩ := m
  obtain ⟨fs, hfs⟩ := n
  congr
  have hmem : ∀ e, e ∈ es ↔ e ∈ fs := fun e => by
    have he : es.lookup e.1 = fs.lookup e.1 := h e.1
    refine ⟨fun hm => mem_of_lookup ?_, fun hm => mem_of_lookup ?_⟩
    · rw [← he]
      exact lookup_of_mem hes hm
    · rw [he]
      exact lookup_of_mem hfs hm
  have hnd : ∀ {l : List (κ × ν)}, (l.Pairwise fun a b => a.1 < b.1) → l.Nodup := fun hl =>
    hl.imp fun {a b} hab (heq : a = b) => lt_irrefl b.1 (heq ▸ hab)
  have hperm : es.Perm fs := (List.perm_ext_iff_of_nodup (hnd hes) (hnd hfs)).mpr hmem
  exact hperm.eq_of_pairwise (fun a b _ _ hab hba => absurd (hab.trans hba) (lt_irrefl _)) hes hfs

/-! ## A key more, a key less -/

theorem perm_insertEntry {k : κ} (v : ν) : ∀ {m : List (κ × ν)}, k ∉ m.map Prod.fst →
    (insertEntry k v m).Perm ((k, v) :: m)
  | [], _ => List.Perm.refl _
  | e :: m, h => by
    rw [List.map_cons, List.mem_cons, not_or] at h
    unfold insertEntry
    split
    · exact List.Perm.refl _
    · rw [if_neg h.1]
      exact ((perm_insertEntry v h.2).cons e).trans (List.Perm.swap _ _ m)

theorem perm_insert {m : SortedMap κ ν} {k : κ} (h : m.get k = none) (v : ν) :
    (m.insert k v).entries.Perm ((k, v) :: m.entries) := by
  refine perm_insertEntry v fun hmem => ?_
  obtain ⟨w, hw⟩ := (m.mem_keys_iff k).mp hmem
  cases h.symm.trans hw

theorem insert_erase {m : SortedMap κ ν} {k : κ} {v : ν} (h : m.get k = some v) :
    (m.erase k).insert k v = m := by
  refine ext_get fun k' => ?_
  rw [get_insert, get_erase]
  by_cases hk : k = k'
  · rw [if_pos hk, ← hk, h]
  · rw [if_neg hk, if_neg hk]

theorem perm_erase {m : SortedMap κ ν} {k : κ} {v : ν} (h : m.get k = some v) :
    m.entries.Perm ((k, v) :: (m.erase k).entries) := by
  have hnone : (m.erase k).get k = none := by
    rw [get_erase, if_pos rfl]
  have hperm := perm_insert hnone v
  rwa [insert_erase h] at hperm

end SortedMap
