/-
  A hashed `(a, b, ...) IN (SELECT x, y, ...)`: one hash probe a row for the OR over the subquery's
  rows of the AND over the columns of `lhs_i = row_i`.

  The table keeps the rows without a NULL apart from those with one, as keys. A probe answers TRUE,
  FALSE or NULL from the two.

  * `build_usable_iff`: the table can answer exactly when every column's type has a family and every
    row is an array of the right width whose every value is NULL or has a key in its column's family;
  * `probe_build`: what a probe answers is then the OR of ANDs over the keys.
-/
import Secantus.HashedSubplan.Equality
import Secantus.Library.ThreeValued

namespace Secantus.HashedSubplan

open Secantus ThreeValued

/-! ## The table -/

section Build

/- `domain_base`: the base type of a domain. -/
variable (domainBase : String → Option String)

/-- The loop of `family`: at most so many domains over one another. -/
def baseType : ℕ → String → String
  | 0, t => t
  | n + 1, t =>
    match domainBase t with
    | some base => if base ≠ t then baseType n base else t
    | none => t

def family (ty : String) : Option Family :=
  match baseType domainBase 16 ty with
  | "text" | "varchar" | "name" => some .text
  | "int2" | "int4" | "int8" => some .int
  | "oid" => some .oid
  | "bool" => some .bool
  | _ => none

/-- The SubPlan's two hash tables. -/
structure Table where
  families : List Family
  /-- Rows with no NULL. -/
  rows : List (List Key)
  /-- Rows with a NULL, a column at a time (`none` for the NULL). -/
  nullRows : List (List (Option Key))
  /-- Some value is not carried as its family is: the table cannot answer. -/
  unusable : Bool

/-- The keys of a row's values, and whether some value has none. -/
def rowKeys : List Bson → List Family → List (Option Key) × Bool
  | v :: vs, f :: fs =>
    let (keys, keyless) := rowKeys vs fs
    match v, keyOf v f with
    | .null, _ => (none :: keys, keyless)
    | _, some k => (some k :: keys, keyless)
    | _, none => (keys, true)
  | _, _ => ([], false)

/-- A row goes to one table or the other. -/
def Table.add (table : Table) (keys : List (Option Key)) : Table :=
  if keys.all Option.isSome then { table with rows := table.rows.insert (keys.filterMap id) }
  else { table with nullRows := table.nullRows ++ [keys] }

/-- The loop over the rows. -/
def buildRows (table : Table) : List Bson → Table
  | [] => table
  | .array values :: rows =>
    if values.length ≠ table.families.length then { table with unusable := true }
    else
      let (keys, keyless) := rowKeys values table.families
      if table.unusable || keyless then { table with unusable := true }
      else buildRows (table.add keys) rows
  | _ :: _ => { table with unusable := true }

def build (types : List String) (rows : List Bson) : Table :=
  let families := types.filterMap (family domainBase)
  buildRows ⟨families, [], [], decide (families.length ≠ types.length)⟩ rows

end Build

/-! ## The probe -/

/-- `findPartialMatch`: a row equal to `probe` on every column where both have a value. -/
def partialMatch (probe : List (Option Key)) (rows : List (List (Option Key))) : Bool :=
  rows.any fun r =>
    (r.zip probe).all fun
      | (some a, some b) => a == b
      | _ => true

/-- `ExecHashSubPlan`'s answer for one left-hand row. -/
def Table.probe (table : Table) (probe : List (Option Key)) : Option Bool :=
  if probe.all Option.isSome then
    if table.rows.contains (probe.filterMap id) then some true
    else if partialMatch probe table.nullRows then none
    else some false
  else if table.rows.isEmpty && table.nullRows.isEmpty then some false
  else if probe.all Option.isNone then none
  else if partialMatch probe table.nullRows then none
  else if table.rows.any (fun r => (r.zip probe).all fun
      | (a, some b) => a == b
      | (_, none) => true) then none
  else some false

/-- The key of one value of the left-hand row. -/
def probeKey (v : Bson) (f : Family) : Option (Option Key) :=
  match v with
  | .null => some none
  | v => (keyOf v f).map some

/-- The keys of the left-hand row, if every value that is not NULL has one. -/
def probeKeys : List Bson → List Family → Option (List (Option Key))
  | v :: vs, f :: fs => do
    let k ← probeKey v f
    let ks ← probeKeys vs fs
    pure (k :: ks)
  | _, _ => some []

/-! ## What the table holds -/

/-- A value that is NULL or has a key in its column's family. -/
def Hashable (v : Bson) (f : Family) : Prop := v = .null ∨ ∃ k, keyOf v f = some k

/-- A row the table can hold. -/
def RowHashable (families : List Family) (row : Bson) : Prop :=
  ∃ values, row = .array values ∧ values.length = families.length ∧
    ∀ c ∈ values.zip families, Hashable c.1 c.2

/-- The keys of a row, a column at a time. -/
def keys (values : List Bson) (families : List Family) : List (Option Key) :=
  (values.zip families).map fun (v, f) => keyOf v f

@[simp] theorem keyOf_null (f : Family) : keyOf .null f = none := by
  cases f <;> rfl

theorem rowKeys_of_hashable {values : List Bson} {families : List Family}
    (h : ∀ c ∈ values.zip families, Hashable c.1 c.2) :
    rowKeys values families = (keys values families, false) := by
  induction values generalizing families with
  | nil => rfl
  | cons v vs ih =>
    cases families with
    | nil => rfl
    | cons f fs =>
      have hrest := ih fun c hc => h c (List.mem_cons_of_mem _ hc)
      obtain rfl | ⟨k, hk⟩ := h (v, f) List.mem_cons_self
      · simp [rowKeys, hrest, keys]
      · have hv : v ≠ .null := by
          rintro rfl
          simp at hk
        simp only at hk
        cases v <;> simp_all [rowKeys, keys]

theorem hashable_of_rowKeys {values : List Bson} {families : List Family}
    (h : (rowKeys values families).2 = false) : ∀ c ∈ values.zip families, Hashable c.1 c.2 := by
  induction values generalizing families with
  | nil => simp
  | cons v vs ih =>
    cases families with
    | nil => simp
    | cons f fs =>
      have hboth : Hashable v f ∧ (rowKeys vs fs).2 = false := by
        simp only [rowKeys] at h
        split at h
        · exact ⟨.inl rfl, h⟩
        · rename_i k _ hk
          exact ⟨.inr ⟨_, hk⟩, h⟩
        · cases h
      intro c hc
      obtain rfl | hc := List.mem_cons.mp hc
      · exact hboth.1
      · exact ih hboth.2 c hc

theorem probeKey_eq_some {v : Bson} {f : Family} {k : Option Key} (h : probeKey v f = some k) :
    k = keyOf v f ∧ Hashable v f := by
  unfold probeKey at h
  split at h
  · cases h
    exact ⟨(keyOf_null f).symm, .inl rfl⟩
  · obtain ⟨j, hj, rfl⟩ := Option.map_eq_some_iff.mp h
    exact ⟨hj.symm, .inr ⟨j, hj⟩⟩

theorem probeKeys_eq_some {values : List Bson} {families : List Family} {ks : List (Option Key)}
    (h : probeKeys values families = some ks) :
    ks = keys values families ∧ ∀ c ∈ values.zip families, Hashable c.1 c.2 := by
  induction values generalizing families ks with
  | nil => cases h; exact ⟨rfl, by simp⟩
  | cons v vs ih =>
    cases families with
    | nil => cases h; exact ⟨rfl, by simp⟩
    | cons f fs =>
      simp only [probeKeys, Option.bind_eq_bind, Option.bind_eq_some_iff] at h
      obtain ⟨k, hk, ks', hks, heq⟩ := h
      cases heq
      obtain ⟨rfl, hall⟩ := ih hks
      obtain ⟨rfl, hv⟩ := probeKey_eq_some hk
      refine ⟨rfl, fun c hc => ?_⟩
      obtain rfl | hc := List.mem_cons.mp hc
      · exact hv
      · exact hall c hc

/-- The keys of a row as the loop reads it. -/
def keysOfRow (families : List Family) : Bson → List (Option Key)
  | .array values => keys values families
  | _ => []

theorem filterMap_id_eq_iff {ks : List (Option Key)} (h : ks.all Option.isSome = true) (r : List Key) :
    r = ks.filterMap id ↔ r.map some = ks := by
  induction ks generalizing r with
  | nil => simp
  | cons k ks ih =>
    cases k with
    | none => simp at h
    | some k =>
      cases r with
      | nil => simp
      | cons a r =>
        have hks := ih (by simpa using h) r
        simp only [id_eq] at hks
        simp [hks]

@[simp] theorem Table.add_families (table : Table) (ks : List (Option Key)) :
    (table.add ks).families = table.families := by
  unfold Table.add
  split_ifs <;> rfl

@[simp] theorem Table.add_unusable (table : Table) (ks : List (Option Key)) :
    (table.add ks).unusable = table.unusable := by
  unfold Table.add
  split_ifs <;> rfl

theorem Table.mem_add_rows (table : Table) (ks : List (Option Key)) (r : List Key) :
    r ∈ (table.add ks).rows ↔ r ∈ table.rows ∨ r.map some = ks := by
  unfold Table.add
  split_ifs with h
  · simp only [List.mem_insert_iff, filterMap_id_eq_iff h, or_comm]
  · have hne : r.map some ≠ ks := by
      rintro rfl
      simp at h
    simp [hne]

theorem Table.mem_add_nullRows (table : Table) (ks r : List (Option Key)) :
    r ∈ (table.add ks).nullRows ↔ r ∈ table.nullRows ∨ (r = ks ∧ none ∈ r) := by
  unfold Table.add
  split_ifs with h
  · have hnone : r = ks → none ∉ r := by
      rintro rfl hr
      simpa using List.all_eq_true.mp h none hr
    have hno : ¬(r = ks ∧ none ∈ r) := fun hc => hnone hc.1 hc.2
    simp [hno]
  · simp only [List.mem_append, List.mem_singleton]
    refine or_congr_right ⟨fun hr => ⟨hr, ?_⟩, And.left⟩
    obtain rfl := hr
    simpa [Option.isSome_iff_ne_none] using h

/-- One row: a table that stays usable has taken its keys. -/
theorem buildRows_cons_usable {table : Table} {row : Bson} {rows : List Bson}
    (h : (buildRows table (row :: rows)).unusable = false) :
    table.unusable = false ∧ RowHashable table.families row ∧
      ∀ values, row = .array values →
        buildRows table (row :: rows) = buildRows (table.add (keys values table.families)) rows := by
  cases row with
  | array values =>
    simp only [buildRows] at h ⊢
    by_cases hlen : values.length ≠ table.families.length
    · rw [if_pos hlen] at h
      cases h
    rw [if_neg hlen] at h
    cases hbad : table.unusable || (rowKeys values table.families).2 with
    | true =>
      rw [hbad] at h
      cases h
    | false =>
      obtain ⟨hu, hkl⟩ := Bool.or_eq_false_iff.mp hbad
      have hash := hashable_of_rowKeys hkl
      refine ⟨hu, ⟨values, rfl, not_not.mp hlen, hash⟩, fun values' heq => ?_⟩
      cases heq
      rw [if_neg hlen, rowKeys_of_hashable hash]
      rfl
  | _ => simp [buildRows] at h

theorem buildRows_cons {table : Table} {values : List Bson} (hu : table.unusable = false)
    (hlen : values.length = table.families.length)
    (hash : ∀ c ∈ values.zip table.families, Hashable c.1 c.2) (rows : List Bson) :
    buildRows table (.array values :: rows) = buildRows (table.add (keys values table.families)) rows := by
  simp only [buildRows, hlen, ne_eq, not_true, if_false, rowKeys_of_hashable hash, hu, Bool.or_false]
  rfl

/-- What a usable table holds after the loop: the rows before it and the keys of the rows read. -/
theorem buildRows_holds {rows : List Bson} {table : Table} (h : (buildRows table rows).unusable = false) :
    table.unusable = false ∧ (buildRows table rows).families = table.families ∧
      (∀ row ∈ rows, RowHashable table.families row) ∧
      (∀ r, r ∈ (buildRows table rows).rows ↔
        r ∈ table.rows ∨ r.map some ∈ rows.map (keysOfRow table.families)) ∧
      ∀ r, r ∈ (buildRows table rows).nullRows ↔
        r ∈ table.nullRows ∨ (r ∈ rows.map (keysOfRow table.families) ∧ none ∈ r) := by
  induction rows generalizing table with
  | nil => exact ⟨h, rfl, by simp, by simp [buildRows], by simp [buildRows]⟩
  | cons row rows ih =>
    obtain ⟨hu, hrow, hstep⟩ := buildRows_cons_usable h
    obtain ⟨values, rfl, -, -⟩ := id hrow
    rw [hstep values rfl] at h ⊢
    obtain ⟨-, hfam, hhash, hrows, hnull⟩ := ih h
    rw [Table.add_families] at hfam hhash hrows hnull
    refine ⟨hu, hfam, ?_, fun r => ?_, fun r => ?_⟩
    · exact fun row' hrow' => (List.mem_cons.mp hrow').elim (fun h => h ▸ hrow) (hhash row')
    · rw [hrows, Table.mem_add_rows, List.map_cons, List.mem_cons, or_assoc]
      rfl
    · rw [hnull, Table.mem_add_nullRows, List.map_cons, List.mem_cons, or_and_right, or_assoc]
      rfl

theorem buildRows_usable {rows : List Bson} {table : Table} (hu : table.unusable = false)
    (h : ∀ row ∈ rows, RowHashable table.families row) : (buildRows table rows).unusable = false := by
  induction rows generalizing table with
  | nil => exact hu
  | cons row rows ih =>
    obtain ⟨values, rfl, hlen, hash⟩ := h row List.mem_cons_self
    rw [buildRows_cons hu hlen hash]
    exact ih (by simpa using hu) fun row hrow => by
      simpa using h row (List.mem_cons_of_mem _ hrow)

/-! ## The probe is the connective over the keys -/

/-- Two keys, NULL beside a NULL. -/
def keyTruth : Option Key → Option Key → Option Bool
  | some a, some b => some (a == b)
  | _, _ => none

/-- A row's columns against the probe's, by key. -/
def rowByKey (probe row : List (Option Key)) : List (Option Bool) := List.zipWith keyTruth probe row

theorem keyTruth_false_iff {a b : Option Key} :
    keyTruth a b = some false ↔ ∃ j k, a = some j ∧ b = some k ∧ j ≠ k := by
  cases a <;> cases b <;> simp [keyTruth]

theorem keyTruth_none_iff {a b : Option Key} : keyTruth a b = none ↔ a = none ∨ b = none := by
  cases a <;> cases b <;> simp [keyTruth]

theorem keyTruth_true_iff {a b : Option Key} :
    some false ≠ keyTruth a b ∧ none ≠ keyTruth a b ↔ b = a ∧ none ≠ a := by
  cases a with
  | none => simp [keyTruth]
  | some j =>
    cases b with
    | none => simp [keyTruth]
    | some k =>
      by_cases h : j = k
      · simp [keyTruth, h]
      · simp [keyTruth, h, Ne.symm h]

theorem partialMatch_row (probe row : List (Option Key)) :
    ((row.zip probe).all fun | (some a, some b) => a == b | _ => true) = true ↔
      some false ∉ rowByKey probe row := by
  induction row generalizing probe with
  | nil => simp [rowByKey]
  | cons a row ih =>
    cases probe with
    | nil => simp [rowByKey]
    | cons b probe =>
      have hhead : (match (a, b) with | (some a, some b) => a == b | _ => true) = true ↔
          some false ≠ keyTruth b a := by
        cases a <;> cases b <;> grind [keyTruth]
      rw [List.zip_cons_cons, List.all_cons, Bool.and_eq_true, ih, hhead, rowByKey, rowByKey,
        List.zipWith_cons_cons, List.mem_cons, not_or]

theorem partialMatch_iff {probe : List (Option Key)} {rows : List (List (Option Key))} :
    partialMatch probe rows = true ↔ ∃ r ∈ rows, some false ∉ rowByKey probe r := by
  simp only [partialMatch, List.any_eq_true, partialMatch_row]

theorem fullMatch_row (probe : List (Option Key)) (row : List Key) :
    ((row.zip probe).all fun | (a, some b) => a == b | (_, none) => true) = true ↔
      some false ∉ rowByKey probe (row.map some) := by
  induction row generalizing probe with
  | nil => simp [rowByKey]
  | cons a row ih =>
    cases probe with
    | nil => simp [rowByKey]
    | cons b probe =>
      have hhead : (match (a, b) with | (a, some b) => a == b | (_, none) => true) = true ↔
          some false ≠ keyTruth b (some a) := by
        cases b <;> grind [keyTruth]
      rw [List.zip_cons_cons, List.all_cons, Bool.and_eq_true, ih, hhead, rowByKey, rowByKey,
        List.map_cons, List.zipWith_cons_cons, List.mem_cons, not_or]

/-- A row answers TRUE when it is the probe and neither has a NULL. -/
theorem rowByKey_true_iff {probe row : List (Option Key)} (hlen : row.length = probe.length) :
    join false (rowByKey probe row) = some true ↔ row = probe ∧ none ∉ probe := by
  rw [show (some true : Option Bool) = some !false from rfl, join_eq_not_iff]
  induction probe generalizing row with
  | nil => simp_all [rowByKey]
  | cons b probe ih =>
    cases row with
    | nil => cases hlen
    | cons a row =>
      have hlen' : row.length = probe.length := by simpa using hlen
      have ih' := ih hlen'
      simp only [rowByKey, List.zipWith_cons_cons, List.mem_cons, not_or] at ih' ⊢
      rw [and_and_and_comm, ih', List.cons_eq_cons, keyTruth_true_iff, and_and_and_comm]

/-- A row answers NULL when no column differs and some column has a NULL. -/
theorem rowByKey_none_iff {probe row : List (Option Key)} (hlen : row.length = probe.length) :
    join false (rowByKey probe row) = none ↔
      some false ∉ rowByKey probe row ∧ (none ∈ probe ∨ none ∈ row) := by
  rw [join_eq_none_iff]
  refine and_congr_right fun _ => ?_
  clear *- hlen
  induction probe generalizing row with
  | nil => simp_all [rowByKey]
  | cons b probe ih =>
    cases row with
    | nil => cases hlen
    | cons a row =>
      have hlen' : row.length = probe.length := by simpa using hlen
      have ih' := ih hlen'
      simp only [rowByKey, List.zipWith_cons_cons, List.mem_cons] at ih' ⊢
      rw [ih', eq_comm, keyTruth_none_iff]
      grind

theorem map_some_filterMap_id {ks : List (Option Key)} (h : none ∉ ks) : (ks.filterMap id).map some = ks :=
  (filterMap_id_eq_iff (List.all_eq_true.mpr fun k hk =>
    Option.isSome_iff_ne_none.mpr fun hn => h (hn ▸ hk)) _).mp rfl

theorem rowByKey_of_all_none {probe : List (Option Key)} (h : probe.all Option.isNone = true)
    (row : List (Option Key)) : some false ∉ rowByKey probe row := by
  induction probe generalizing row with
  | nil => simp [rowByKey]
  | cons b probe ih =>
    obtain ⟨hb, hrest⟩ := by simpa only [List.all_cons, Bool.and_eq_true, Option.isNone_iff_eq_none] using h
    cases row with
    | nil => simp [rowByKey]
    | cons a row => simpa [rowByKey, hb, keyTruth] using ih hrest row

/-- What a probe answers is the OR over the rows of the AND over the columns, by key. -/
theorem probe_eq {table : Table} {keyRows : List (List (Option Key))} {probe : List (Option Key)}
    (hwidth : probe ≠ []) (hlen : ∀ r ∈ keyRows, r.length = probe.length)
    (hrows : ∀ r, r ∈ table.rows ↔ r.map some ∈ keyRows)
    (hnull : ∀ r, r ∈ table.nullRows ↔ r ∈ keyRows ∧ none ∈ r) :
    table.probe probe = join true (keyRows.map fun r => join false (rowByKey probe r)) := by
  have htrue : some true ∈ keyRows.map (fun r => join false (rowByKey probe r)) ↔
      probe ∈ keyRows ∧ none ∉ probe := by
    simp only [List.mem_map]
    constructor
    · rintro ⟨r, hr, h⟩
      obtain ⟨rfl, hn⟩ := (rowByKey_true_iff (hlen r hr)).mp h
      exact ⟨hr, hn⟩
    · exact fun h => ⟨probe, h.1, (rowByKey_true_iff rfl).mpr ⟨rfl, h.2⟩⟩
  have hopen : none ∈ keyRows.map (fun r => join false (rowByKey probe r)) ↔
      ∃ r ∈ keyRows, some false ∉ rowByKey probe r ∧ (none ∈ probe ∨ none ∈ r) := by
    simp only [List.mem_map]
    exact exists_congr fun r => and_congr_right fun hr => rowByKey_none_iff (hlen r hr)
  have hpart : partialMatch probe table.nullRows = true ↔
      ∃ r ∈ keyRows, none ∈ r ∧ some false ∉ rowByKey probe r := by
    simp only [partialMatch_iff, hnull, and_assoc]
  unfold Table.probe
  by_cases hfull : probe.all Option.isSome = true
  · have hno : none ∉ probe := fun h => by simpa using List.all_eq_true.mp hfull none h
    rw [if_pos hfull]
    have hcontains : table.rows.contains (probe.filterMap id) = true ↔ probe ∈ keyRows := by
      rw [List.contains_iff_mem, hrows, (filterMap_id_eq_iff hfull _).mp rfl]
    by_cases hin : probe ∈ keyRows
    · rw [if_pos (hcontains.mpr hin), join, if_pos (htrue.mpr ⟨hin, hno⟩)]
    · rw [if_neg (mt hcontains.mp hin), join, if_neg fun h => hin (htrue.mp h).1]
      refine if_congr ?_ rfl rfl
      rw [hpart, hopen]
      exact exists_congr fun r => and_congr_right fun _ => by simp [hno, and_comm]
  · have hsome : none ∈ probe := by simpa [Option.isSome_iff_ne_none] using hfull
    have hopen' : none ∈ keyRows.map (fun r => join false (rowByKey probe r)) ↔
        ∃ r ∈ keyRows, some false ∉ rowByKey probe r := by simp [hopen, hsome]
    rw [if_neg hfull, join, if_neg fun h => (htrue.mp h).2 hsome]
    by_cases hempty : keyRows = []
    · have hr : table.rows = [] := List.eq_nil_iff_forall_not_mem.mpr fun r hr => by
        simpa [hempty] using (hrows r).mp hr
      have hn : table.nullRows = [] := List.eq_nil_iff_forall_not_mem.mpr fun r hr => by
        simpa [hempty] using (hnull r).mp hr
      simp [hr, hn, hempty]
    have hsomewhere : ¬(table.rows.isEmpty && table.nullRows.isEmpty) = true := by
      obtain ⟨r, hr⟩ := List.exists_mem_of_ne_nil _ hempty
      by_cases hn : none ∈ r
      · simpa using fun _ => List.ne_nil_of_mem ((hnull r).mpr ⟨hr, hn⟩)
      · have hmem := (hrows _).mpr ((map_some_filterMap_id hn).symm ▸ hr)
        simp [List.ne_nil_of_mem hmem]
    rw [if_neg hsomewhere]
    by_cases hall : probe.all Option.isNone = true
    · obtain ⟨r, hr⟩ := List.exists_mem_of_ne_nil _ hempty
      rw [if_pos hall, if_pos (hopen'.mpr ⟨r, hr, rowByKey_of_all_none hall r⟩)]
    have hany : (table.rows.any fun r => (r.zip probe).all fun | (a, some b) => a == b | (_, none) => true) =
        true ↔ ∃ r ∈ keyRows, none ∉ r ∧ some false ∉ rowByKey probe r := by
      simp only [List.any_eq_true, fullMatch_row]
      constructor
      · rintro ⟨r, hr, h⟩
        exact ⟨r.map some, (hrows r).mp hr, by simp, h⟩
      · rintro ⟨r, hr, hn, h⟩
        rw [← map_some_filterMap_id hn] at hr h
        exact ⟨_, (hrows _).mpr hr, h⟩
    rw [if_neg hall]
    by_cases hp : partialMatch probe table.nullRows = true
    · obtain ⟨r, hr, -, h⟩ := hpart.mp hp
      rw [if_pos hp, if_pos (hopen'.mpr ⟨r, hr, h⟩)]
    · rw [if_neg hp]
      refine if_congr (hany.trans (Iff.trans ?_ hopen'.symm)) rfl rfl
      refine exists_congr fun r => and_congr_right fun hr => and_iff_right_of_imp fun h hn => ?_
      exact hp (hpart.mpr ⟨r, hr, hn, h⟩)

/-! ## Building and probing -/

section Built

variable {domainBase : String → Option String} {types : List String} {rows : List Bson}

/-- The families of the columns whose types have one. -/
def families (domainBase : String → Option String) (types : List String) : List Family :=
  types.filterMap (family domainBase)

theorem families_length_iff :
    (families domainBase types).length = types.length ↔ ∀ ty ∈ types, family domainBase ty ≠ none := by
  rw [families, List.length_filterMap_eq_countP, List.countP_eq_length]
  simp [Option.isSome_iff_ne_none]

/-- The table can answer exactly when every type has a family and every row can be held. -/
theorem build_usable_iff :
    (build domainBase types rows).unusable = false ↔
      (∀ ty ∈ types, family domainBase ty ≠ none) ∧
        ∀ row ∈ rows, RowHashable (families domainBase types) row := by
  rw [← families_length_iff]
  constructor
  · intro h
    obtain ⟨hu, -, hhash, -⟩ := buildRows_holds h
    exact ⟨not_not.mp (of_decide_eq_false hu), hhash⟩
  · rintro ⟨hlen, h⟩
    exact buildRows_usable (decide_eq_false (not_not.mpr hlen)) h

theorem RowHashable.length_keysOfRow {fs : List Family} {row : Bson} (h : RowHashable fs row) :
    (keysOfRow fs row).length = fs.length := by
  obtain ⟨values, rfl, hlen, -⟩ := h
  simp [keysOfRow, keys, hlen]

/-- What a probe of the table built answers: the OR over the rows of the AND over the columns, by
    key. -/
theorem probe_build {lhs : List Bson} {probe : List (Option Key)}
    (h : (build domainBase types rows).unusable = false) (hwidth : types ≠ [])
    (hlhs : lhs.length = types.length)
    (hprobe : probeKeys lhs (build domainBase types rows).families = some probe) :
    (build domainBase types rows).probe probe =
      join true (rows.map fun row =>
        join false (rowByKey (keys lhs (families domainBase types))
          (keysOfRow (families domainBase types) row))) := by
  obtain ⟨hu, hfam, hhash, hrows, hnull⟩ := buildRows_holds h
  have hlen := not_not.mp (of_decide_eq_false hu)
  change (build domainBase types rows).families = families domainBase types at hfam
  rw [hfam] at hprobe
  obtain ⟨rfl, -⟩ := probeKeys_eq_some hprobe
  have hkeys : (keys lhs (families domainBase types)).length = types.length := by
    simp [keys, hlhs, families, hlen]
  have hne : keys lhs (families domainBase types) ≠ [] :=
    List.ne_nil_of_length_pos (by rw [hkeys]; exact List.length_pos_of_ne_nil hwidth)
  have hrowLen : ∀ r ∈ rows.map (keysOfRow (families domainBase types)),
      r.length = (keys lhs (families domainBase types)).length := by
    intro r hr
    obtain ⟨row, hrow, rfl⟩ := List.mem_map.mp hr
    exact (hhash row hrow).length_keysOfRow.trans (hlen.trans hkeys.symm)
  have hfull (r : List Key) : r ∈ (build domainBase types rows).rows ↔
      r.map some ∈ rows.map (keysOfRow (families domainBase types)) :=
    (hrows r).trans (or_iff_right List.not_mem_nil)
  have hpart (r : List (Option Key)) : r ∈ (build domainBase types rows).nullRows ↔
      r ∈ rows.map (keysOfRow (families domainBase types)) ∧ none ∈ r :=
    (hnull r).trans (or_iff_right List.not_mem_nil)
  rw [probe_eq hne hrowLen hfull hpart, List.map_map]
  rfl

end Built

end Secantus.HashedSubplan
