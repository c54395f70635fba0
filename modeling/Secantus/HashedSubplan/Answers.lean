/-
  The answer of the hash probe against the answer of the equalities it stands for.

  The equalities are evaluated in order, a row's columns up to the first FALSE one and the rows up to
  the first TRUE one. `=` is equality of the keys but for a time of day beside a time with a zone,
  two texts with different keys that `=` may call equal or refuse to compare.

  * `orOfEqualities_eq`: the two loops are the connectives over what each equality answers;
  * `probe_answers_iff`: a probe answers what they do exactly when no such pair changes the outcome.
-/
import Secantus.HashedSubplan.Table

namespace Secantus.HashedSubplan

open Secantus ThreeValued

/-! ## The OR of equalities -/

section Equalities

variable (equal : Bson → Bson → Except Refusal Bson)

/-- The columns of one row: whether one was NULL, and whether one was FALSE, which ends the loop. -/
def compareRow : Bool → List (Bson × Bson) → Except Refusal (Bool × Bool)
  | rowNull, [] => .ok (rowNull, false)
  | rowNull, (l, v) :: columns =>
    match equal l v with
    | .error e => .error e
    | .ok (.boolean false) => .ok (rowNull, true)
    | .ok (.boolean true) => compareRow rowNull columns
    | .ok .null => compareRow true columns
    | .ok v => .error (.notBoolean v)

/-- The rows in order, up to the first TRUE one. -/
def compareRows (lhs : List Bson) : Bool → List Bson → Except Refusal Bson
  | anyNull, [] => .ok (if anyNull then .null else .boolean false)
  | anyNull, .array values :: rows => do
    let (rowNull, rowFalse) ← compareRow equal false (lhs.zip values)
    if rowFalse then compareRows lhs anyNull rows
    else if rowNull then compareRows lhs true rows
    else pure (.boolean true)
  | _, _ :: _ => .error (.internal "a malformed hashed subplan")

def orOfEqualities (lhs : List Bson) (rows : List Bson) : Except Refusal Bson :=
  compareRows equal lhs false rows

end Equalities

/-- An answer as a value. -/
def ofTruth : Option Bool → Bson
  | none => .null
  | some b => .boolean b

/-! ## The loops are the connectives -/

section Loops

variable (equal : Bson → Bson → Except Refusal Bson)

/-- An answer as a truth value. -/
def toTruth : Except Refusal Bson → Except Refusal (Option Bool)
  | .error e => .error e
  | .ok (.boolean b) => .ok (some b)
  | .ok .null => .ok none
  | .ok v => .error (.notBoolean v)

/-- What the columns of a row answer. -/
def rowTruth (lhs : List Bson) : Bson → Except Refusal (Option Bool)
  | .array values => chain false (some true) ((lhs.zip values).map fun c => toTruth (equal c.1 c.2))
  | _ => .error (.internal "a malformed hashed subplan")

variable {equal}

/-- The two flags as a truth value. -/
def ofFlags : Bool × Bool → Option Bool
  | (_, true) => some false
  | (true, false) => none
  | (false, false) => some true

theorem compareRow_eq (rowNull : Bool) (columns : List (Bson × Bson)) :
    (compareRow equal rowNull columns).map ofFlags =
      chain false (if rowNull then none else some true) (columns.map fun c => toTruth (equal c.1 c.2)) := by
  induction columns generalizing rowNull with
  | nil => cases rowNull <;> rfl
  | cons c columns ih =>
    obtain ⟨l, v⟩ := c
    simp only [compareRow, List.map_cons]
    cases equal l v with
    | error e => rfl
    | ok answer =>
      cases answer with
      | boolean b =>
        cases b with
        | false => rfl
        | true => exact ih rowNull
      | null => exact ih true
      | _ => rfl

theorem compareRows_eq (lhs : List Bson) (anyNull : Bool) (rows : List Bson) :
    compareRows equal lhs anyNull rows =
      (chain true (if anyNull then none else some false) (rows.map (rowTruth equal lhs))).map ofTruth := by
  induction rows generalizing anyNull with
  | nil => cases anyNull <;> rfl
  | cons row rows ih =>
    cases row with
    | array values =>
      have hrow := @compareRow_eq equal false (lhs.zip values)
      simp only [compareRows, List.map_cons, rowTruth]
      simp only [Bool.false_eq_true, if_false] at hrow
      rw [← hrow]
      cases compareRow equal false (lhs.zip values) with
      | error e => rfl
      | ok flags =>
        obtain ⟨rowNull, rowFalse⟩ := flags
        cases rowFalse with
        | true => exact ih anyNull
        | false =>
          cases rowNull with
          | true => exact ih true
          | false => rfl
    | _ => rfl

theorem orOfEqualities_eq (lhs : List Bson) (rows : List Bson) :
    orOfEqualities equal lhs rows =
      (chain true (some false) (rows.map (rowTruth equal lhs))).map ofTruth :=
  compareRows_eq lhs false rows

end Loops

/-! ## Columns -/

section Columns

/-- A column of a row: its family, the left-hand value and the row's. -/
abbrev Column := Family × Bson × Bson

variable (timetz : Text → Except Text Text)

/-- `=` refuses the pair: a time of day that cannot be read with a zone beside one that can. -/
def Refused (c : Column) : Prop := ∃ t, readAs timetz c.2.1 c.2.2 = some (.error t)

/-- `=` takes a time of day for the time with a zone beside it. -/
def Taken (c : Column) : Prop := readAs timetz c.2.1 c.2.2 = some (.ok true)

/-- Both values have a key, and the keys differ. -/
def Differs (c : Column) : Prop := ∃ j k, keyOf c.2.1 c.1 = some j ∧ keyOf c.2.2 c.1 = some k ∧ j ≠ k

/-- Both values have the one key. -/
def Same (c : Column) : Prop := ∃ k, keyOf c.2.1 c.1 = some k ∧ keyOf c.2.2 c.1 = some k

/-- `=` finds the two different. -/
def FoundFalse (c : Column) : Prop := Differs c ∧ ¬Refused timetz c ∧ ¬Taken timetz c

def HasNull (c : Column) : Prop := c.2.1 = .null ∨ c.2.2 = .null

variable {timetz} {other : Bson → Bson → Except Refusal Bson} {c : Column}

theorem HasNull.readAs_eq (h : HasNull c) : readAs timetz c.2.1 c.2.2 = none := by
  unfold readAs
  obtain h | h := h
  · rw [h]
  · rw [h]
    cases c.2.1 <;> rfl

theorem HasNull.not_differs (h : HasNull c) : ¬Differs c := by
  rintro ⟨j, k, hj, hk, -⟩
  obtain h | h := h
  · rw [h, keyOf_null] at hj
    cases hj
  · rw [h, keyOf_null] at hk
    cases hk

theorem readAs_self (v : Bson) : readAs timetz v v = none := by
  cases v with
  | string s =>
    simp only [readAs]
    by_cases ht : isTimeText s.toList = true
    · simp [ht, not_isTimetzText ht]
    · simp [ht]
  | _ => rfl

theorem Same.readAs_eq (h : Same c) : readAs timetz c.2.1 c.2.2 = none := by
  obtain ⟨k, hl, hv⟩ := h
  obtain ⟨-, s, hs, rfl⟩ | ⟨-, n, rfl, h⟩ | ⟨-, b, hb, rfl⟩ := keyOf_cases hl
  · obtain ⟨-, s', hs', heq⟩ | ⟨-, _, heq, -⟩ | ⟨-, _, -, heq⟩ := keyOf_cases hv
    · obtain rfl := Key.text.inj heq
      rw [hs, hs', readAs_self]
    · cases heq
    · cases heq
  · obtain ⟨i, hi, -⟩ | ⟨i, hi, -⟩ := h <;> rw [hi] <;> rfl
  · rw [hb]
    rfl

theorem Same.not_differs (h : Same c) : ¬Differs c := by
  rintro ⟨j, k, hj, hk, hne⟩
  obtain ⟨i, hl, hv⟩ := h
  rw [hl, Option.some.injEq] at hj
  rw [hv, Option.some.injEq] at hk
  exact hne (hj ▸ hk)

theorem Same.not_hasNull (h : Same c) : ¬HasNull c := by
  obtain ⟨k, hl, hv⟩ := h
  rintro (h | h)
  · rw [h, keyOf_null] at hl
    cases hl
  · rw [h, keyOf_null] at hv
    cases hv

theorem equal_null_right (l : Bson) : equal timetz other l .null = .ok .null := by
  cases l <;> rfl

variable (timetz other) in
/-- What `=` answers for a column's values, each NULL or with a key. -/
theorem column_cases (hl : Hashable c.2.1 c.1) (hv : Hashable c.2.2 c.1) :
    (HasNull c ∧ toTruth (equal timetz other c.2.1 c.2.2) = .ok none) ∨
      (Same c ∧ toTruth (equal timetz other c.2.1 c.2.2) = .ok (some true)) ∨
      (Differs c ∧ toTruth (equal timetz other c.2.1 c.2.2) =
        match readAs timetz c.2.1 c.2.2 with
        | some (.error t) => .error (.cast t)
        | some (.ok b) => .ok (some b)
        | none => .ok (some false)) := by
  obtain hl | ⟨j, hj⟩ := hl
  · refine .inl ⟨.inl hl, ?_⟩
    rw [hl]
    rfl
  obtain hv | ⟨k, hk⟩ := hv
  · refine .inl ⟨.inr hv, ?_⟩
    rw [hv, equal_null_right]
    rfl
  by_cases heq : j = k
  · obtain rfl := heq
    have hsame : Same c := ⟨j, hj, hk⟩
    refine .inr (.inl ⟨hsame, ?_⟩)
    rw [equal_of_keys hj hk, hsame.readAs_eq, decide_eq_true rfl]
    rfl
  · refine .inr (.inr ⟨⟨j, k, hj, hk, heq⟩, ?_⟩)
    rw [equal_of_keys hj hk, decide_eq_false heq]
    cases readAs timetz c.2.1 c.2.2 with
    | none => rfl
    | some read => cases read <;> rfl

variable (hl : Hashable c.2.1 c.1) (hv : Hashable c.2.2 c.1)
include hl hv

theorem column_error_iff :
    (∃ e, toTruth (equal timetz other c.2.1 c.2.2) = .error e) ↔ Refused timetz c := by
  obtain ⟨h, heq⟩ | ⟨h, heq⟩ | ⟨-, heq⟩ := column_cases timetz other hl hv
  · simp [heq, Refused, h.readAs_eq]
  · simp [heq, Refused, h.readAs_eq]
  · unfold Refused
    rw [heq]
    split <;> simp_all

theorem column_true_iff :
    toTruth (equal timetz other c.2.1 c.2.2) = .ok (some true) ↔ Same c ∨ Taken timetz c := by
  obtain ⟨h, heq⟩ | ⟨h, heq⟩ | ⟨h, heq⟩ := column_cases timetz other hl hv
  · have hne : ¬Same c := fun hs => hs.not_hasNull h
    simp [heq, Taken, h.readAs_eq, hne]
  · simp [heq, h]
  · have hne : ¬Same c := fun hs => hs.not_differs h
    unfold Taken
    rw [heq]
    split <;> simp_all

theorem column_null_iff :
    toTruth (equal timetz other c.2.1 c.2.2) = .ok none ↔ HasNull c := by
  obtain ⟨h, heq⟩ | ⟨h, heq⟩ | ⟨h, heq⟩ := column_cases timetz other hl hv
  · simp [heq, h]
  · simp [heq, h.not_hasNull]
  · have hne : ¬HasNull c := fun hn => hn.not_differs h
    rw [heq]
    split <;> simp_all

theorem column_false_iff :
    toTruth (equal timetz other c.2.1 c.2.2) = .ok (some false) ↔ FoundFalse timetz c := by
  obtain ⟨h, heq⟩ | ⟨h, heq⟩ | ⟨h, heq⟩ := column_cases timetz other hl hv
  · simp [heq, FoundFalse, h.not_differs]
  · simp [heq, FoundFalse, h.not_differs]
  · unfold FoundFalse Refused Taken
    rw [heq]
    split <;> simp_all

end Columns

/-! ## Rows -/

section Rows

/-- The columns of one row beside the left-hand row. -/
def columns (families : List Family) (lhs : List Bson) : Bson → List Column
  | .array values => families.zip (lhs.zip values)
  | _ => []

variable {families : List Family} {lhs : List Bson} {row : Bson}

theorem hashable_of_mem_columns (hlhs : ∀ c ∈ lhs.zip families, Hashable c.1 c.2)
    (hrow : RowHashable families row) {c : Column} (hc : c ∈ columns families lhs row) :
    Hashable c.2.1 c.1 ∧ Hashable c.2.2 c.1 := by
  obtain ⟨values, rfl, -, hvalues⟩ := hrow
  simp only [columns, List.mem_iff_getElem, List.getElem_zip] at hc
  obtain ⟨i, hi, rfl⟩ := hc
  simp only [List.length_zip, lt_min_iff] at hi
  exact ⟨hlhs (lhs[i], families[i]) (List.mem_iff_getElem.mpr ⟨i, by simp [hi], by simp⟩),
    hvalues (values[i], families[i]) (List.mem_iff_getElem.mpr ⟨i, by simp [hi], by simp⟩)⟩

theorem rowTruth_eq {equal : Bson → Bson → Except Refusal Bson} (hlen : lhs.length = families.length)
    (hrow : RowHashable families row) :
    rowTruth equal lhs row =
      chain false (some true) ((columns families lhs row).map fun c => toTruth (equal c.2.1 c.2.2)) := by
  obtain ⟨values, rfl, hvalues, -⟩ := hrow
  have hsnd : (families.zip (lhs.zip values)).map Prod.snd = lhs.zip values :=
    List.map_snd_zip (by simp [hlen, hvalues])
  simp only [rowTruth, columns]
  conv_lhs => rw [← hsnd, List.map_map]
  rfl

theorem rowByKey_eq (hlen : lhs.length = families.length) (hrow : RowHashable families row) :
    rowByKey (keys lhs families) (keysOfRow families row) =
      (columns families lhs row).map fun c => keyTruth (keyOf c.2.1 c.1) (keyOf c.2.2 c.1) := by
  obtain ⟨values, rfl, hvalues, -⟩ := hrow
  apply List.ext_getElem
  · simp [rowByKey, keys, keysOfRow, columns, hlen, hvalues]
  · intro i hi hi'
    simp [rowByKey, keys, keysOfRow, columns]

theorem byKey_ne_false_iff (hlen : lhs.length = families.length) (hrow : RowHashable families row) :
    join false (rowByKey (keys lhs families) (keysOfRow families row)) ≠ some false ↔
      ∀ c ∈ columns families lhs row, ¬Differs c := by
  rw [Ne, join_eq_stop_iff, rowByKey_eq hlen hrow]
  simp only [List.mem_map, not_exists, not_and]
  exact forall₂_congr fun c _ => not_congr keyTruth_false_iff

theorem byKey_true_iff (hlen : lhs.length = families.length) (hrow : RowHashable families row) :
    join false (rowByKey (keys lhs families) (keysOfRow families row)) = some true ↔
      ∀ c ∈ columns families lhs row, Same c := by
  rw [show (some true : Option Bool) = some !false from rfl, join_eq_not_iff, rowByKey_eq hlen hrow]
  simp only [List.mem_map, not_exists, not_and]
  rw [← forall₂_and]
  refine forall₂_congr fun c _ => ?_
  have hsame : keyOf c.2.2 c.1 = keyOf c.2.1 c.1 ∧ none ≠ keyOf c.2.1 c.1 ↔ Same c := by
    unfold Same
    cases keyOf c.2.1 c.1 <;> simp
  exact ((and_congr ne_comm ne_comm).trans keyTruth_true_iff).trans hsame

variable (timetz : Text → Except Text Text)

/-- The equalities of a row raise: one is refused with no FALSE one before it. -/
def Raises (cs : List Column) : Prop :=
  ∃ pre c post, cs = pre ++ c :: post ∧ Refused timetz c ∧ ∀ d ∈ pre, ¬FoundFalse timetz d

/-- The equalities of a row are all TRUE. -/
def PassesTrue (cs : List Column) : Prop := ∀ c ∈ cs, Same c ∨ Taken timetz c

/-- The equalities of a row are TRUE or NULL, and one is NULL. -/
def PassesNull (cs : List Column) : Prop :=
  (∀ c ∈ cs, (Same c ∨ Taken timetz c) ∨ HasNull c) ∧ ∃ c ∈ cs, HasNull c

variable {timetz} {other : Bson → Bson → Except Refusal Bson}
  (hlen : lhs.length = families.length) (hlhs : ∀ c ∈ lhs.zip families, Hashable c.1 c.2)
  (hrow : RowHashable families row)
include hlen hlhs hrow

theorem rowTruth_error_iff :
    (∃ e, rowTruth (equal timetz other) lhs row = .error e) ↔ Raises timetz (columns families lhs row) := by
  have hash := fun c hc => hashable_of_mem_columns hlhs hrow (c := c) hc
  rw [rowTruth_eq hlen hrow, chain_error_iff]
  constructor
  · rintro ⟨_, e, _, hmap, hpre⟩
    obtain ⟨pre, rest, hcs, rfl, hrest⟩ := List.map_eq_append_iff.mp hmap
    obtain ⟨c, post, rfl, hc, -⟩ := List.map_eq_cons_iff.mp hrest
    have hmem : ∀ d ∈ pre, d ∈ columns families lhs row := fun d hd => by simp [hcs, hd]
    have hcmem : c ∈ columns families lhs row := by simp [hcs]
    refine ⟨pre, c, post, hcs, (column_error_iff (hash c hcmem).1 (hash c hcmem).2).mp ⟨e, hc⟩,
      fun d hd hfalse => hpre (List.mem_map.mpr ⟨d, hd, ?_⟩)⟩
    exact (column_false_iff (hash d (hmem d hd)).1 (hash d (hmem d hd)).2).mpr hfalse
  · rintro ⟨pre, c, post, hcs, hc, hpre⟩
    have hmem : ∀ d ∈ pre, d ∈ columns families lhs row := fun d hd => by simp [hcs, hd]
    have hcmem : c ∈ columns families lhs row := by simp [hcs]
    obtain ⟨e, he⟩ := (@column_error_iff _ other _ (hash c hcmem).1 (hash c hcmem).2).mpr hc
    refine ⟨_, e, _, by rw [hcs, List.map_append, List.map_cons, he], fun hstop => ?_⟩
    obtain ⟨d, hd, hfalse⟩ := List.mem_map.mp hstop
    exact hpre d hd ((column_false_iff (hash d (hmem d hd)).1 (hash d (hmem d hd)).2).mp hfalse)

theorem rowTruth_true_iff :
    rowTruth (equal timetz other) lhs row = .ok (some true) ↔
      PassesTrue timetz (columns families lhs row) := by
  have hash := fun c hc => hashable_of_mem_columns hlhs hrow (c := c) hc
  rw [rowTruth_eq hlen hrow, show (some true : Option Bool) = some !false from rfl, chain_not_iff]
  simp only [List.mem_map, forall_exists_index, and_imp, forall_apply_eq_imp_iff₂]
  exact forall₂_congr fun c hc => column_true_iff (hash c hc).1 (hash c hc).2

theorem rowTruth_null_iff :
    rowTruth (equal timetz other) lhs row = .ok none ↔ PassesNull timetz (columns families lhs row) := by
  have hash := fun c hc => hashable_of_mem_columns hlhs hrow (c := c) hc
  rw [rowTruth_eq hlen hrow, show (some true : Option Bool) = some !false from rfl, chain_none_iff]
  simp only [List.mem_map, forall_exists_index, and_imp, forall_apply_eq_imp_iff₂]
  refine and_congr (forall₂_congr fun c hc => or_congr (column_true_iff (hash c hc).1 (hash c hc).2)
    (column_null_iff (hash c hc).1 (hash c hc).2)) (exists_congr fun c => and_congr_right fun hc =>
      column_null_iff (hash c hc).1 (hash c hc).2)

/-- A row that is not FALSE by key answers the same by the equalities. -/
theorem rowTruth_agrees :
    Agrees true (rowTruth (equal timetz other) lhs row)
      (join false (rowByKey (keys lhs families) (keysOfRow families row))) := by
  intro hne
  have hash := fun c hc => hashable_of_mem_columns hlhs hrow (c := c) hc
  have hsame := (byKey_ne_false_iff hlen hrow).mp hne
  rw [rowTruth_eq hlen hrow, rowByKey_eq hlen hrow, show (some true : Option Bool) = some !false from rfl,
    ← chain_ok, List.map_map]
  congr 1
  refine List.map_congr_left fun c hc => ?_
  obtain ⟨h, heq⟩ | ⟨⟨k, hl, hv⟩, heq⟩ | ⟨h, -⟩ := column_cases timetz other (hash c hc).1 (hash c hc).2
  · rw [heq, Function.comp_apply, eq_comm, Except.ok.injEq, keyTruth_none_iff]
    exact h.imp (fun h => by rw [h, keyOf_null]) (fun h => by rw [h, keyOf_null])
  · rw [heq, Function.comp_apply, hl, hv]
    simp [keyTruth]
  · exact absurd h (hsame c hc)

end Rows

/-! ## The probe against the equalities -/

section Probe

variable (timetz : Text → Except Text Text)

/-- No time of day beside a time with a zone changes the outcome: a row whose equalities raise stands
    behind a TRUE one, and a row they make TRUE or NULL has one that is so by key. -/
structure Undisturbed (families : List Family) (lhs rows : List Bson) : Prop where
  raised : ∀ pre row post, rows = pre ++ row :: post → Raises timetz (columns families lhs row) →
    ∃ r ∈ pre, PassesTrue timetz (columns families lhs r)
  passed : (∃ row ∈ rows, PassesTrue timetz (columns families lhs row)) →
    ∃ row ∈ rows, ∀ c ∈ columns families lhs row, Same c
  opened : (∃ row ∈ rows, PassesNull timetz (columns families lhs row)) →
    ∃ row ∈ rows, ∀ c ∈ columns families lhs row, ¬Differs c

variable {timetz} {other : Bson → Bson → Except Refusal Bson} {domainBase : String → Option String}
  {types : List String} {rows lhs : List Bson} {probe : List (Option Key)}

theorem ofTruth_injective : Function.Injective ofTruth := by
  intro a b h
  cases a <;> cases b <;> simp_all [ofTruth]

theorem map_ofTruth_eq_iff {x : Except Refusal (Option Bool)} {t : Option Bool} :
    x.map ofTruth = .ok (ofTruth t) ↔ x = .ok t := by
  cases x with
  | error e => simp [Except.map]
  | ok v => simp [Except.map, ofTruth_injective.eq_iff]

/-- A probe of a usable table answers what the equalities do exactly when no time of day beside a time
    with a zone changes the outcome. -/
theorem probe_eq_iff (h : (build domainBase types rows).unusable = false) (hwidth : types ≠ [])
    (hlhs : lhs.length = types.length)
    (hprobe : probeKeys lhs (build domainBase types rows).families = some probe) :
    orOfEqualities (equal timetz other) lhs rows = .ok (ofTruth ((build domainBase types rows).probe probe)) ↔
      Undisturbed timetz (families domainBase types) lhs rows := by
  obtain ⟨htypes, hrows⟩ := build_usable_iff.mp h
  have hlen : lhs.length = (families domainBase types).length :=
    hlhs.trans (families_length_iff.mpr htypes).symm
  obtain ⟨-, hhash⟩ := probeKeys_eq_some hprobe
  have hfam : (build domainBase types rows).families = families domainBase types :=
    (buildRows_holds h).2.1
  rw [hfam] at hhash
  have hagrees : List.Forall₂ (Agrees true) (rows.map (rowTruth (equal timetz other) lhs))
      (rows.map fun row => join false (rowByKey (keys lhs (families domainBase types))
        (keysOfRow (families domainBase types) row))) := by
    rw [List.forall₂_map_left_iff, List.forall₂_map_right_iff, List.forall₂_same]
    exact fun row hrow => rowTruth_agrees hlen hhash (hrows row hrow)
  rw [orOfEqualities_eq, probe_build h hwidth hlhs hprobe, map_ofTruth_eq_iff,
    show (some false : Option Bool) = some !true from rfl, chain_eq_join_iff hagrees]
  constructor
  · rintro ⟨hraised, hpassed, hopened⟩
    refine ⟨fun pre row post heq hraises => ?_, fun ⟨row, hrow, hp⟩ => ?_, fun ⟨row, hrow, hp⟩ => ?_⟩
    · have hpre : ∀ r ∈ pre, r ∈ rows := fun r hr => by simp [heq, hr]
      obtain ⟨e, he⟩ := (@rowTruth_error_iff _ _ _ _ other hlen hhash (hrows row (by simp [heq]))).mpr hraises
      obtain ⟨r, hr, htrue⟩ := List.mem_map.mp (hraised (pre.map (rowTruth (equal timetz other) lhs)) e
        (post.map (rowTruth (equal timetz other) lhs)) (by rw [heq, List.map_append, List.map_cons, he]))
      exact ⟨r, hr, (rowTruth_true_iff hlen hhash (hrows r (hpre r hr))).mp htrue⟩
    · obtain ⟨r, hr, htrue⟩ := List.mem_map.mp (hpassed (List.mem_map.mpr
        ⟨row, hrow, (rowTruth_true_iff hlen hhash (hrows row hrow)).mpr hp⟩))
      exact ⟨r, hr, (byKey_true_iff hlen (hrows r hr)).mp htrue⟩
    · have hmem := hopened (List.mem_map.mpr
        ⟨row, hrow, (rowTruth_null_iff hlen hhash (hrows row hrow)).mpr hp⟩)
      obtain hmem | hmem := hmem <;> obtain ⟨r, hr, heq⟩ := List.mem_map.mp hmem <;>
        exact ⟨r, hr, (byKey_ne_false_iff hlen (hrows r hr)).mp (by simp [heq])⟩
  · rintro ⟨hraised, hpassed, hopened⟩
    refine ⟨fun pre e post heq => ?_, fun hmem => ?_, fun hmem => ?_⟩
    · obtain ⟨pre, rest, hcs, rfl, hrest⟩ := List.map_eq_append_iff.mp heq
      obtain ⟨row, post, rfl, he, -⟩ := List.map_eq_cons_iff.mp hrest
      have hpre : ∀ r ∈ pre, r ∈ rows := fun r hr => by simp [hcs, hr]
      have hrow := hrows row (by simp [hcs])
      obtain ⟨r, hr, htrue⟩ := hraised pre row post hcs ((rowTruth_error_iff hlen hhash hrow).mp ⟨e, he⟩)
      exact List.mem_map.mpr ⟨r, hr, (rowTruth_true_iff hlen hhash (hrows r (hpre r hr))).mpr htrue⟩
    · obtain ⟨row, hrow, heq⟩ := List.mem_map.mp hmem
      obtain ⟨r, hr, hsame⟩ := hpassed ⟨row, hrow, (rowTruth_true_iff hlen hhash (hrows row hrow)).mp heq⟩
      exact List.mem_map.mpr ⟨r, hr, (byKey_true_iff hlen (hrows r hr)).mpr hsame⟩
    · obtain ⟨row, hrow, heq⟩ := List.mem_map.mp hmem
      obtain ⟨r, hr, hopen⟩ := hopened ⟨row, hrow, (rowTruth_null_iff hlen hhash (hrows row hrow)).mp heq⟩
      have hne := (byKey_ne_false_iff hlen (hrows r hr)).mpr hopen
      obtain hv | hv | hv := truth_cases true (join false (rowByKey (keys lhs (families domainBase types))
        (keysOfRow (families domainBase types) r)))
      · exact .inl (List.mem_map.mpr ⟨r, hr, hv⟩)
      · exact .inr (List.mem_map.mpr ⟨r, hr, hv⟩)
      · exact absurd hv hne

/-- The table is unusable exactly when a column's type has no family or some row cannot be held: it is
    no array, not of the table's width, or holds a value without a key. Over a usable table a probe
    answers what the equalities do exactly when no time of day beside a time with a zone changes the
    outcome. -/
theorem probe_answers_iff (timetz : Text → Except Text Text) (other : Bson → Bson → Except Refusal Bson)
    (domainBase : String → Option String) (types : List String) (rows : List Bson) :
    ((build domainBase types rows).unusable = true ↔ (∃ ty ∈ types, family domainBase ty = none) ∨
      ∃ row ∈ rows, ¬RowHashable (families domainBase types) row) ∧
    ∀ lhs probe, (build domainBase types rows).unusable = false → types ≠ [] →
      lhs.length = types.length → probeKeys lhs (build domainBase types rows).families = some probe →
        (orOfEqualities (equal timetz other) lhs rows =
            .ok (ofTruth ((build domainBase types rows).probe probe)) ↔
          Undisturbed timetz (families domainBase types) lhs rows) := by
  refine ⟨?_, fun lhs probe h hwidth hlhs hprobe => probe_eq_iff h hwidth hlhs hprobe⟩
  rw [← Bool.not_eq_false, build_usable_iff, Classical.not_and_iff_not_or_not]
  simp only [not_forall, not_not, exists_prop]

/-- A session at UTC reads `HH:MM` with a zone. -/
def atUtc (t : Text) : Except Text Text := .ok (t ++ ":00+00".toList)

theorem probe_answers_iff_time :
    orOfEqualities (equal atUtc fun _ _ => .ok .null) [.string "10:00"] [.array [.string "10:00:00+00"]] =
        .ok (ofTruth ((build (fun _ => none) ["text"] [.array [.string "10:00:00+00"]]).probe
          [some (.text "10:00")])) ↔
      Undisturbed atUtc (families (fun _ => none) ["text"]) [.string "10:00"]
        [.array [.string "10:00:00+00"]] :=
  (probe_answers_iff atUtc (fun _ _ => .ok .null) (fun _ => none) ["text"]
    [.array [.string "10:00:00+00"]]).2 [.string "10:00"] [some (.text "10:00")] (by decide)
    (by decide) rfl (by decide)

/-- `'10:00'` among texts that hold `'10:00:00+00'`: the probe answers FALSE, the equality TRUE. -/
theorem probe_misses_time :
    (build (fun _ => none) ["text"] [.array [.string "10:00:00+00"]]).unusable = false ∧
      (build (fun _ => none) ["text"] [.array [.string "10:00:00+00"]]).probe [some (.text "10:00")] =
        some false ∧
      orOfEqualities (equal atUtc fun _ _ => .ok .null) [.string "10:00"]
        [.array [.string "10:00:00+00"]] = .ok (.boolean true) :=
  ⟨by decide, by decide, by rfl⟩

end Probe

end Secantus.HashedSubplan
