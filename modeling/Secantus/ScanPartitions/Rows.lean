/-
  A correlated subquery's table scan, partitioned once per statement (`scan_partitions.rs`): the
  equality a filter pins, the statement's entries and what `rows_matching` answers.

  A row is its bytes. `Readers` is how they are read: one field by the raw reader when a partition is
  built, the whole document when a row is checked. A run is the calls of one statement, on any tables,
  none of which changes. Whenever a call answers, the answer is the matching rows of the table exactly
  when none of them holds a value parted from the one the filter pins (`run_answers`).
-/
import Secantus.ScanPartitions.Keys
import Secantus.Query.Match

namespace Secantus.ScanPartitions

open Secantus Bson BsonOrder Query

/-! ## The equality a filter pins -/

def isNull : Bson → Bool
  | .null => true
  | _ => false

/-- A value with a bucket, other than null. -/
def probed (value : Bson) : Option Bson := if (pkey value).isSome && !isNull value then some value else none

/-- The value a condition pins: the condition itself or the operand of its one `$eq`. -/
def pinned : Bson → Option Bson
  | .document [(op, x)] => if op = "$eq" then probed x else none
  | .document _ | .array _ => none
  | other => probed other

/-- The names left to the storage: operators, the stored key and dotted paths. -/
def isSkipped (k : String) : Bool :=
  k.toList.head? = some '$' || "_id".toList.isPrefixOf k.toList || k.toList.contains '.'

mutual

def equalityOf : Document → Option (String × Bson)
  | [] => none
  | (k, v) :: filter =>
    if k = "$and" then (equalityOfAnd v).or (equalityOf filter)
    else if isSkipped k then equalityOf filter
    else
      match pinned v with
      | some value => some (k, value)
      | none => equalityOf filter

/-- What a top-level `$and` pins. -/
def equalityOfAnd : Bson → Option (String × Bson)
  | .array arms => equalityOfArms arms
  | _ => none

/-- The first arm that pins an equality. -/
def equalityOfArms : List Bson → Option (String × Bson)
  | [] => none
  | .document d :: arms => (equalityOf d).or (equalityOfArms arms)
  | _ :: arms => equalityOfArms arms

end

/-! ## Partitions -/

/-- How a row's bytes are read. -/
structure Readers where
  /-- `RawDocument::from_bytes` and `get`: the field, `none` inside when there is none -/
  get : Bytes → String → Option (Option Bson)
  /-- `bsondoc::from_bytes` -/
  decode : Bytes → Option Document

/-- The two readers find one value under a name, as they do where a document names each field once. -/
def Readers.Agree (R : Readers) (raw : Bytes) : Prop :=
  ∀ field v doc, R.get raw field = some v → R.decode raw = some doc → v = Document.get doc field

/-- `Part`: the places of the rows of each bucket. -/
structure Part where
  buckets : PKey → List ℕ
  rows : List Bytes

/-- The bucket of a row, an absent field as null. -/
def rowKey (R : Readers) (field : String) (raw : Bytes) : Option PKey :=
  match R.get raw field with
  | none => none
  | some none => some .null
  | some (some v) => pkey v

/-- The loop of `build`, from the row at place `i`. -/
def buildFrom (R : Readers) (field : String) (i : ℕ) : List Bytes → (PKey → List ℕ) → Option (PKey → List ℕ)
  | [], buckets => some buckets
  | raw :: rows, buckets =>
    match rowKey R field raw with
    | none => none
    | some key => buildFrom R field (i + 1) rows (Function.update buckets key (buckets key ++ [i]))

/-- `MAX_BYTES`. -/
def maxBytes : ℕ := 256 * 2 ^ 20

/-- `build`: `none` when a value has no bucket or the table is too big to keep. -/
def build (R : Readers) (rows : List Bytes) (field : String) : Option Part :=
  if maxBytes < (rows.map List.length).sum then none
  else (buildFrom R field 0 rows fun _ => []).map fun buckets => ⟨buckets, rows⟩

/-! ## Calls -/

inductive State where
  | counting (n : ℕ)
  | no
  | built (p : Part)

/-- `BUILD_AFTER`. -/
def buildAfter : ℕ := 4

/-- The statement's entries (`ScanCache`). -/
abbrev ScanCache := String → Option State

/-- A call and what it finds around it. -/
structure Call where
  db : String
  table : String
  filter : Document
  /-- a correlated subquery runs, so there are entries to use -/
  inSubquery : Bool
  indexed : Bool
  scanAll : Option (List Bytes)

/-- The entry of a scan. -/
def cacheKey (db table field : String) : String :=
  "scan-partition\x1f" ++ db ++ "\x1f" ++ table ++ "\x1f" ++ field

/-- What the engine of filters says of one document. -/
abbrev Matcher := Document → Document → Except Fallback Bool

/-- The rows at the places of a bucket that match, checked against the whole filter. A place past the
    rows, of which a bucket has none (`build_spec`), ends the program there. -/
def recheck (matcher : Matcher) (R : Readers) (rows : List Bytes) (filter : Document) :
    List ℕ → Option (List Bytes)
  | [] => some []
  | i :: places =>
    match rows[i]? with
    | none => none
    | some raw =>
      match R.decode raw with
      | none => none
      | some doc =>
        match matcher doc filter with
        | .error _ => none
        | .ok b => (recheck matcher R rows filter places).map fun out => if b then raw :: out else out

/-- The rows of one bucket from the statement's partition, which the fourth run builds. -/
def fromPartition (matcher : Matcher) (R : Readers) (cache : ScanCache) (c : Call) (field : String)
    (want : PKey) : Option (List Bytes) × ScanCache :=
  let key := cacheKey c.db c.table field
  match (cache key).getD (.counting 0) with
  | .no => (none, cache)
  | .built p => (recheck matcher R p.rows c.filter (p.buckets want), cache)
  | .counting n =>
    if n + 1 < buildAfter then (none, Function.update cache key (some (.counting (n + 1))))
    else
      match if c.indexed then none else c.scanAll.bind (build R · field) with
      | none => (none, Function.update cache key (some .no))
      | some p =>
        (recheck matcher R p.rows c.filter (p.buckets want), Function.update cache key (some (.built p)))

/-- `rows_matching`, and the entries after it. -/
def rowsMatching (matcher : Matcher) (R : Readers) (cache : ScanCache) (c : Call) :
    Option (List Bytes) × ScanCache :=
  match equalityOf c.filter with
  | none => (none, cache)
  | some (field, value) =>
    match pkey value with
    | none => (none, cache)
    | some want => if c.inSubquery then fromPartition matcher R cache c field want else (none, cache)

/-- What each call of a statement answers. -/
def run (matcher : Matcher) (R : Readers) (cache : ScanCache) : List Call → List (Option (List Bytes))
  | [] => []
  | c :: calls => (rowsMatching matcher R cache c).1 :: run matcher R (rowsMatching matcher R cache c).2 calls

/-- Whether a row is a document the filter matches. -/
def accepts (matcher : Matcher) (R : Readers) (filter : Document) (raw : Bytes) : Bool :=
  match R.decode raw with
  | none => false
  | some doc =>
    match matcher doc filter with
    | .ok b => b
    | .error _ => false

/-! ## What the pinned equality asks of a row -/

section Pinned

variable {E : Engines} {o : BinDataOrder}

theorem probed_spec {x value : Bson} (h : probed x = some value) :
    value = x ∧ (pkey value).isSome = true ∧ value ≠ .null := by
  unfold probed at h
  split at h
  · rename_i hx
    obtain rfl := Option.some.inj h
    rw [Bool.and_eq_true, Bool.not_eq_true'] at hx
    refine ⟨rfl, hx.1, ?_⟩
    rintro rfl
    cases hx.2
  · cases h

theorem pinned_spec {v value : Bson} (h : pinned v = some value) :
    (pkey value).isSome = true ∧ value ≠ .null := by
  have hplain : ∀ x, probed x = some value → (pkey value).isSome = true ∧ value ≠ .null := by
    intro x hx
    obtain ⟨rfl, hkey, hnull⟩ := probed_spec hx
    exact ⟨hkey, hnull⟩
  unfold pinned at h
  split at h
  · split at h
    · exact hplain _ h
    · cases h
  · cases h
  · cases h
  · exact hplain _ h

theorem isSkipped_spec {k : String} (h : isSkipped k = false) : k.toList.head? ≠ some '$' ∧ '.' ∉ k.toList := by
  unfold isSkipped at h
  simp only [Bool.or_eq_false_iff, decide_eq_false_iff_not] at h
  exact ⟨h.1.1, by simpa using h.2⟩

theorem operandCheck_eq {arg : Bson} (h : (pkey arg).isSome = true) (field : String) :
    operandCheck "$eq" arg field = .ok () := by
  cases arg <;> first
    | cases h; done
    | rfl

theorem fieldMatches_pinned {v value : Bson} (h : pinned v = some value) (values : List Cand) (field : String) :
    fieldMatches E o values field true v = eqWithArray true value values := by
  have hplain : ∀ x, probed x = some value → x = value ∧ (pkey x).isSome = true := fun x hx => by
    obtain ⟨rfl, hkey, -⟩ := probed_spec hx
    exact ⟨rfl, hkey⟩
  cases v with
  | document d =>
    match d with
    | [] => cases h
    | [(op, x)] =>
      have h : (if op = "$eq" then probed x else none) = some value := h
      split at h
      · rename_i hop
        subst hop
        obtain ⟨rfl, hkey⟩ := hplain x h
        rw [fieldMatches_operator (by decide), opMatches, operandCheck_eq hkey]
        rfl
      · cases h
    | _ :: _ :: _ => cases h
  | array a => cases h
  | _ =>
    obtain ⟨rfl, hkey⟩ := hplain _ h
    first
      | cases hkey; done
      | rw [fieldMatches]
        all_goals simp

theorem matchClause_pinned {k : String} {v value : Bson} (hk : isSkipped k = false) (h : pinned v = some value)
    (doc : Document) : matchClause E o doc k v = eqWithArray true value [.plain (Document.get doc k)] := by
  obtain ⟨hhead, hdot⟩ := isSkipped_spec hk
  rw [matchClause_of_named hhead, fieldMatches_pinned h]
  unfold resolvePath
  rw [Paths.splitDot_name hdot]
  rfl

/-- A value with a bucket at the pinned field is equal to the pinned one, and there is a value. -/
theorem eqScalar_of_eqWithArray {x : Option Bson} {value : Bson} (hvalue : value ≠ .null)
    (h : eqWithArray true value [.plain x] = .ok true) :
    ∃ v, x = some v ∧ ((pkey v).isSome = true → eqScalar v value = .ok true) := by
  cases x with
  | none =>
    cases value <;> first
      | exact absurd rfl hvalue
      | cases h
  | some v =>
    refine ⟨v, rfl, fun hv => ?_⟩
    unfold eqWithArray at h
    cases heq : eqScalar v value with
    | error e =>
      simp only [Cand.plain, heq] at h
      cases h
    | ok b =>
      cases b with
      | true => rfl
      | false =>
        have helements : (Cand.plain (some v)).elements true = none := by
          cases v <;> first
            | rfl
            | cases hv
        simp only [Cand.plain] at h helements
        rw [heq, helements] at h
        cases h

theorem matchesFilter_cons {doc : Document} {k : String} {v : Bson} {filter : Document}
    (h : matchesFilter E o doc ((k, v) :: filter) = .ok true) :
    matchClause E o doc k v = .ok true ∧ matchesFilter E o doc filter = .ok true := by
  rw [matchesFilter] at h
  cases hc : matchClause E o doc k v with
  | error e =>
    rw [hc] at h
    cases h
  | ok b =>
    rw [hc] at h
    cases b with
    | true => exact ⟨rfl, h⟩
    | false => cases h

theorem everyEntry_cons {doc : Document} {key : String} {arm : Bson} {arms : List Bson}
    (h : everyEntry E o doc key (arm :: arms) = .ok true) :
    ∃ query, arm = .document query ∧ matchesFilter E o doc query = .ok true ∧
      everyEntry E o doc key arms = .ok true := by
  cases arm with
  | document query =>
    rw [everyEntry] at h
    cases hq : matchesFilter E o doc query with
    | error e =>
      rw [hq] at h
      cases h
    | ok b =>
      rw [hq] at h
      cases b with
      | true => exact ⟨query, rfl, hq, h⟩
      | false => cases h
  | _ => cases h

theorem matchClause_and {doc : Document} {arms : List Bson}
    (h : matchClause E o doc "$and" (.array arms) = .ok true) : everyEntry E o doc "$and" arms = .ok true := by
  cases arms with
  | nil => rfl
  | cons arm arms => exact h

mutual

/-- A filter that matches meets the equality it pins. -/
theorem equalityOf_spec {doc : Document} {field : String} {value : Bson} :
    (filter : Document) → equalityOf filter = some (field, value) → matchesFilter E o doc filter = .ok true →
      (pkey value).isSome = true ∧ value ≠ .null ∧ eqWithArray true value [.plain (Document.get doc field)] = .ok true
  | [], h, _ => by simp [equalityOf] at h
  | (k, v) :: filter, h, hm => by
    obtain ⟨hclause, hrest⟩ := matchesFilter_cons hm
    rw [equalityOf] at h
    split at h
    · rename_i hand
      subst hand
      rw [Option.or_eq_some_iff] at h
      rcases h with h | ⟨-, h⟩
      · exact equalityOfAnd_spec v h hclause
      · exact equalityOf_spec filter h hrest
    · split at h
      · exact equalityOf_spec filter h hrest
      · rename_i hskip
        split at h
        · rename_i x hpin
          cases h
          rw [matchClause_pinned (by simpa using hskip) hpin] at hclause
          exact ⟨(pinned_spec hpin).1, (pinned_spec hpin).2, hclause⟩
        · exact equalityOf_spec filter h hrest

theorem equalityOfAnd_spec {doc : Document} {field : String} {value : Bson} :
    (v : Bson) → equalityOfAnd v = some (field, value) → matchClause E o doc "$and" v = .ok true →
      (pkey value).isSome = true ∧ value ≠ .null ∧ eqWithArray true value [.plain (Document.get doc field)] = .ok true
  | .array arms, h, hm => equalityOfArms_spec arms (by rwa [equalityOfAnd] at h) (matchClause_and hm)

theorem equalityOfArms_spec {doc : Document} {field : String} {value : Bson} :
    (arms : List Bson) → equalityOfArms arms = some (field, value) → everyEntry E o doc "$and" arms = .ok true →
      (pkey value).isSome = true ∧ value ≠ .null ∧ eqWithArray true value [.plain (Document.get doc field)] = .ok true
  | [], h, _ => by simp [equalityOfArms] at h
  | .document query :: arms, h, hm => by
    obtain ⟨_, heq, hquery, hrest⟩ := everyEntry_cons hm
    cases heq
    rw [equalityOfArms, Option.or_eq_some_iff] at h
    rcases h with h | ⟨-, h⟩
    · exact equalityOf_spec query h hquery
    · exact equalityOfArms_spec arms h hrest

end

end Pinned

/-! ## What a bucket holds -/

section Build

variable {R : Readers} {field : String}

/-- The loop adds to each bucket the places of its rows, in order. -/
theorem buildFrom_spec {full rows : List Bytes} {i : ℕ} {b b' : PKey → List ℕ} (hfull : full.drop i = rows)
    (h : buildFrom R field i rows b = some b') :
    (∀ raw ∈ rows, (rowKey R field raw).isSome = true) ∧
      ∀ k, (b' k).map (full[·]?) =
        (b k).map (full[·]?) ++ (rows.filter fun raw => rowKey R field raw = some k).map some := by
  induction rows generalizing i b with
  | nil =>
    rw [buildFrom, Option.some.injEq] at h
    simp [h]
  | cons raw rows ih =>
    rw [buildFrom] at h
    split at h
    · cases h
    · rename_i key hkey
      have hi : full[i]? = some raw := by
        rw [← List.head?_drop, hfull]
        rfl
      have hrest : full.drop (i + 1) = rows := by
        rw [← List.tail_drop, hfull]
        rfl
      obtain ⟨hkeys, hbuckets⟩ := ih hrest h
      refine ⟨fun r hr => ?_, fun k => ?_⟩
      · rcases List.mem_cons.mp hr with rfl | hr
        · rw [hkey]
          rfl
        · exact hkeys r hr
      · rw [hbuckets k, List.filter_cons]
        by_cases hk : k = key
        · subst hk
          simp [hkey, hi]
        · have hne : ¬ some key = some k := fun h => hk (Option.some.inj h).symm
          simp [hkey, hne, Function.update_of_ne hk]

/-- A partition's bucket is the places of the rows with that key. -/
theorem build_spec {rows : List Bytes} {p : Part} (h : build R rows field = some p) :
    p.rows = rows ∧ (∀ raw ∈ rows, (rowKey R field raw).isSome = true) ∧
      ∀ k, (p.buckets k).map (rows[·]?) = (rows.filter fun raw => rowKey R field raw = some k).map some := by
  unfold build at h
  split at h
  · cases h
  · obtain ⟨buckets, hb, rfl⟩ := Option.map_eq_some_iff.mp h
    obtain ⟨hkeys, hbuckets⟩ := buildFrom_spec (List.drop_zero) hb
    exact ⟨rfl, hkeys, fun k => by simpa using hbuckets k⟩

variable {matcher : Matcher} {filter : Document}

theorem recheck_spec {rows kept out : List Bytes} {places : List ℕ} (hp : places.map (rows[·]?) = kept.map some)
    (h : recheck matcher R rows filter places = some out) : out = kept.filter (accepts matcher R filter) := by
  induction places generalizing kept out with
  | nil =>
    obtain rfl : kept = [] := by simpa using hp.symm
    simpa [recheck] using h.symm
  | cons i places ih =>
    cases kept with
    | nil => cases hp
    | cons raw kept =>
      rw [List.map_cons, List.map_cons, List.cons.injEq] at hp
      rw [recheck, hp.1] at h
      simp only at h
      rw [List.filter_cons]
      cases hdoc : R.decode raw with
      | none =>
        rw [hdoc] at h
        cases h
      | some doc =>
        rw [hdoc] at h
        simp only at h
        cases hm : matcher doc filter with
        | error e =>
          rw [hm] at h
          cases h
        | ok b =>
          rw [hm] at h
          obtain ⟨rest, hrest, rfl⟩ := Option.map_eq_some_iff.mp h
          have haccepts : accepts matcher R filter raw = b := by
            unfold accepts
            rw [hdoc]
            simp only [hm]
          rw [haccepts, ih hp.2 hrest]

end Build

/-! ## The entries of a statement -/

/-- The tables of the statement, which no call changes. -/
abbrev Stored := String → String → List Bytes

/-- A call on one of the tables: a scan that succeeds reads its rows, and the names hold no separator of
    the entries' keys. -/
structure Call.On (stored : Stored) (c : Call) : Prop where
  db_plain : '\x1f' ∉ c.db.toList
  table_plain : '\x1f' ∉ c.table.toList
  scan : ∀ rows, c.scanAll = some rows → rows = stored c.db c.table

/-- Every partition kept is that of the table and field of its entry. -/
def Kept (R : Readers) (stored : Stored) (cache : ScanCache) : Prop :=
  ∀ db table field p, '\x1f' ∉ db.toList → '\x1f' ∉ table.toList →
    cache (cacheKey db table field) = some (.built p) → build R (stored db table) field = some p

theorem toList_cacheKey (db table field : String) :
    (cacheKey db table field).toList =
      "scan-partition\x1f".toList ++ (db.toList ++ '\x1f' :: (table.toList ++ '\x1f' :: field.toList)) := by
  have hsep : ("\x1f" : String).toList = ['\x1f'] := rfl
  unfold cacheKey
  rw [String.toList_append, String.toList_append, String.toList_append, String.toList_append,
    String.toList_append, hsep]
  simp only [List.append_assoc, List.cons_append, List.nil_append]

theorem cacheKey_inj {db db' table table' field field' : String} (hdb : '\x1f' ∉ db.toList)
    (hdb' : '\x1f' ∉ db'.toList) (ht : '\x1f' ∉ table.toList) (ht' : '\x1f' ∉ table'.toList)
    (h : cacheKey db table field = cacheKey db' table' field') : db = db' ∧ table = table' ∧ field = field' := by
  have hlist := congrArg String.toList h
  rw [toList_cacheKey, toList_cacheKey] at hlist
  obtain ⟨h1, hlist⟩ := (Distinct.append_cons_inj hdb hdb').mp (List.append_cancel_left hlist)
  obtain ⟨h2, h3⟩ := (Distinct.append_cons_inj ht ht').mp hlist
  exact ⟨String.toList_inj.mp h1, String.toList_inj.mp h2, String.toList_inj.mp h3⟩

section Run

variable {R : Readers} {matcher : Matcher} {stored : Stored}

theorem Kept.update {cache : ScanCache} (hkept : Kept R stored cache) {c : Call} (hc : c.On stored)
    {field : String} {s : State} (hs : ∀ p, s = .built p → build R (stored c.db c.table) field = some p) :
    Kept R stored (Function.update cache (cacheKey c.db c.table field) (some s)) := by
  intro db table field' p hdb ht hp
  by_cases hkey : cacheKey db table field' = cacheKey c.db c.table field
  · obtain ⟨rfl, rfl, rfl⟩ := cacheKey_inj hdb hc.db_plain ht hc.table_plain hkey
    rw [Function.update_self, Option.some.injEq] at hp
    exact hs p hp
  · rw [Function.update_of_ne hkey] at hp
    exact hkept db table field' p hdb ht hp

/-- What a call may answer: the rows of a bucket of its table's partition, checked against the filter. -/
def Answers (matcher : Matcher) (R : Readers) (stored : Stored) (c : Call) (field : String) (want : PKey)
    (out : List Bytes) : Prop :=
  ∃ p, build R (stored c.db c.table) field = some p ∧
    recheck matcher R p.rows c.filter (p.buckets want) = some out

variable (matcher) in
theorem fromPartition_spec {cache : ScanCache} (hkept : Kept R stored cache) {c : Call} (hc : c.On stored)
    (field : String) (want : PKey) :
    Kept R stored (fromPartition matcher R cache c field want).2 ∧
      ∀ out, (fromPartition matcher R cache c field want).1 = some out → Answers matcher R stored c field want out := by
  unfold fromPartition
  simp only
  split
  · exact ⟨hkept, fun _ h => by cases h⟩
  · rename_i p hstate
    have hp : cache (cacheKey c.db c.table field) = some (.built p) := by
      cases h : cache (cacheKey c.db c.table field) with
      | none =>
        rw [h] at hstate
        cases hstate
      | some s =>
        rw [h] at hstate
        rw [← hstate]
        rfl
    exact ⟨hkept, fun out h => ⟨p, hkept _ _ _ p hc.db_plain hc.table_plain hp, h⟩⟩
  · split
    · exact ⟨hkept.update hc fun _ h => (nomatch h), fun _ h => (nomatch h)⟩
    · split
      · exact ⟨hkept.update hc fun _ h => (nomatch h), fun _ h => (nomatch h)⟩
      · rename_i p hp
        have hbuild : build R (stored c.db c.table) field = some p := by
          split at hp
          · cases hp
          · obtain ⟨rows, hrows, hbuild⟩ := Option.bind_eq_some_iff.mp hp
            rwa [← hc.scan rows hrows]
        refine ⟨hkept.update hc fun q h => ?_, fun out h => ⟨p, hbuild, h⟩⟩
        cases h
        exact hbuild

variable (matcher) in
/-- A call keeps the entries right, and answers from the partition of its table. -/
theorem rowsMatching_spec {cache : ScanCache} (hkept : Kept R stored cache) {c : Call} (hc : c.On stored) :
    Kept R stored (rowsMatching matcher R cache c).2 ∧
      ∀ out, (rowsMatching matcher R cache c).1 = some out →
        ∃ field value want, equalityOf c.filter = some (field, value) ∧ pkey value = some want ∧
          Answers matcher R stored c field want out := by
  unfold rowsMatching
  split
  · exact ⟨hkept, fun _ h => by cases h⟩
  · rename_i field value heq
    split
    · exact ⟨hkept, fun _ h => by cases h⟩
    · rename_i want hwant
      split
      · obtain ⟨hkept', hanswers⟩ := fromPartition_spec matcher hkept hc field want
        exact ⟨hkept', fun out h => ⟨field, value, want, heq, hwant, hanswers out h⟩⟩
      · exact ⟨hkept, fun _ h => by cases h⟩

end Run

/-! ## The answers -/

section Rows

variable {E : Engines} {o : BinDataOrder} {R : Readers} {stored : Stored}

/-- The rows of the table the filter matches, in scan order. -/
def matching (E : Engines) (o : BinDataOrder) (R : Readers) (stored : Stored) (c : Call) : List Bytes :=
  (stored c.db c.table).filter (accepts (matchesFilter E o) R c.filter)

/-- No matching row holds, in the pinned field, a value parted from the pinned one. -/
def NoneParted (E : Engines) (o : BinDataOrder) (R : Readers) (stored : Stored) (c : Call) (field : String)
    (value : Bson) : Prop :=
  ∀ raw ∈ matching E o R stored c, ∀ doc v, R.decode raw = some doc → Document.get doc field = some v →
    parted v value = false

theorem accepts_spec {filter : Document} {raw : Bytes} (h : accepts (matchesFilter E o) R filter raw = true) :
    ∃ doc, R.decode raw = some doc ∧ matchesFilter E o doc filter = .ok true := by
  unfold accepts at h
  split at h
  · cases h
  · rename_i doc hdoc
    split at h
    · rename_i b hb
      exact ⟨doc, hdoc, by rw [hb, h]⟩
    · cases h

/-- A matching row is in the bucket looked into unless its value is parted from the pinned one. -/
theorem rowKey_iff {filter : Document} {field : String} {value : Bson} {want : PKey} {raw : Bytes}
    (hagree : R.Agree raw) (heq : equalityOf filter = some (field, value)) (hwant : pkey value = some want)
    (hkey : (rowKey R field raw).isSome = true) (h : accepts (matchesFilter E o) R filter raw = true) :
    rowKey R field raw = some want ↔
      ∀ doc v, R.decode raw = some doc → Document.get doc field = some v → parted v value = false := by
  obtain ⟨doc, hdoc, hm⟩ := accepts_spec h
  obtain ⟨-, hnull, hmatch⟩ := equalityOf_spec filter heq hm
  obtain ⟨v, hv, heqv⟩ := eqScalar_of_eqWithArray hnull hmatch
  have hget : R.get raw field = some (some v) := by
    cases hget : R.get raw field with
    | none =>
      unfold rowKey at hkey
      rw [hget] at hkey
      cases hkey
    | some x => rw [hagree field x doc hget hdoc, hv]
  have hrow : rowKey R field raw = pkey v := by
    unfold rowKey
    rw [hget]
  rw [hrow] at hkey ⊢
  obtain ⟨k, hk⟩ := Option.isSome_iff_exists.mp hkey
  rw [hk, Option.some.injEq, pkey_eq_iff hk hwant (heqv hkey)]
  constructor
  · intro hp doc' v' hdoc' hv'
    rw [hdoc, Option.some.injEq] at hdoc'
    subst hdoc'
    rw [hv, Option.some.injEq] at hv'
    exact hv' ▸ hp
  · exact fun hp => hp doc v hdoc hv

/-- An answer is the matching rows exactly when none of them is parted from the pinned value. -/
theorem answers_iff {c : Call} {field : String} {value : Bson} {want : PKey} {out : List Bytes}
    (hagree : ∀ raw ∈ stored c.db c.table, R.Agree raw) (heq : equalityOf c.filter = some (field, value))
    (hwant : pkey value = some want) (h : Answers (matchesFilter E o) R stored c field want out) :
    out = matching E o R stored c ↔ NoneParted E o R stored c field value := by
  obtain ⟨p, hbuild, hout⟩ := h
  obtain ⟨hrows, hkeys, hbuckets⟩ := build_spec hbuild
  rw [hrows] at hout
  have hkept := recheck_spec (hbuckets want) hout
  rw [hkept, List.filter_comm]
  show (matching E o R stored c).filter _ = matching E o R stored c ↔ _
  rw [List.filter_eq_self]
  refine forall₂_congr fun raw hraw => ?_
  obtain ⟨hmem, haccepts⟩ := List.mem_filter.mp hraw
  rw [decide_eq_true_eq, rowKey_iff (hagree raw hmem) heq hwant (hkeys raw hmem) haccepts]

/-- An answer is exact on the condition above. -/
def Exact (E : Engines) (o : BinDataOrder) (R : Readers) (stored : Stored) (c : Call)
    (answer : Option (List Bytes)) : Prop :=
  ∀ out, answer = some out → ∃ field value, equalityOf c.filter = some (field, value) ∧
    (out = matching E o R stored c ↔ NoneParted E o R stored c field value)

theorem run_exact (hagree : ∀ db table, ∀ raw ∈ stored db table, R.Agree raw) {cache : ScanCache}
    (hkept : Kept R stored cache) {calls : List Call} (hcalls : ∀ c ∈ calls, c.On stored) :
    List.Forall₂ (Exact E o R stored) calls (run (matchesFilter E o) R cache calls) := by
  induction calls generalizing cache with
  | nil => exact List.Forall₂.nil
  | cons c calls ih =>
    have hc := hcalls c List.mem_cons_self
    obtain ⟨hkept', hanswers⟩ := rowsMatching_spec (matchesFilter E o) hkept hc
    refine List.Forall₂.cons (fun out hout => ?_) (ih hkept' fun c hc => hcalls c (List.mem_cons_of_mem _ hc))
    obtain ⟨field, value, want, heq, hwant, h⟩ := hanswers out hout
    exact ⟨field, value, heq, answers_iff (hagree c.db c.table) heq hwant h⟩

/-- In a run of calls on tables whose names hold no separator, each answer is the matching rows exactly
    when none of them holds a value parted from the pinned one; and equal values share a bucket exactly
    when both have one or neither has, and they are not parted. -/
theorem run_answers (E : Engines) (o : BinDataOrder) (R : Readers) (stored : Stored)
    (hagree : ∀ db table, ∀ raw ∈ stored db table, R.Agree raw) (calls : List Call)
    (hcalls : ∀ c ∈ calls, c.On stored) :
    List.Forall₂ (Exact E o R stored) calls (run (matchesFilter E o) R (fun _ => none) calls) ∧
    ∀ v w, eqScalar v w = .ok true →
      (pkey v = pkey w ↔ (pkey v).isSome = (pkey w).isSome ∧ parted v w = false) :=
  ⟨run_exact hagree (fun _ _ _ _ _ _ h => by cases h) hcalls, fun _ _ => pkey_eq_iff_of_eqScalar⟩

/-! ## An int64 looked for as a double -/

/-- `{x: 9000000000000000000}`, an int64, as it is stored. -/
def largeRow : Bytes := [0x10, 0, 0, 0, 0x12, 0x78, 0, 0x00, 0x00, 0x84, 0xE2, 0x50, 0x6C, 0xE6, 0x7C, 0]

/-- What the readers make of that row. -/
def largeReaders : Readers where
  get raw field :=
    if raw = largeRow then some (if field = "x" then some (.int64 9000000000000000000) else none) else none
  decode raw := if raw = largeRow then some [("x", .int64 9000000000000000000)] else none

/-- A lookup of `x = 9.0e18` in a subquery. -/
def largeCall : Call where
  db := "postgres"
  table := "t"
  filter := [("x", .double ⟨0x43DF399B1438A100⟩)]
  inSubquery := true
  indexed := false
  scanAll := some [largeRow]

/-- The first three runs count, the fourth loses the row the filter matches. -/
theorem run_loses_large :
    run (matchesFilter noEngines .mongod) largeReaders (fun _ => none) (List.replicate 4 largeCall) =
        [none, none, none, some []] ∧
      matching noEngines .mongod largeReaders (fun _ _ => [largeRow]) largeCall = [largeRow] := by
  decide +kernel

theorem largeReaders_agree : largeReaders.Agree largeRow := by
  intro field v doc hget hdecode
  have hdoc : doc = [("x", .int64 9000000000000000000)] := (Option.some.inj hdecode).symm
  have hv : v = if field = "x" then some (.int64 9000000000000000000) else none := (Option.some.inj hget).symm
  rw [hdoc, hv, Document.get_cons, Document.get_nil]
  exact if_congr eq_comm rfl rfl

theorem largeCall_on : largeCall.On fun _ _ => [largeRow] where
  db_plain := by decide
  table_plain := by decide
  scan rows h := by
    cases h
    rfl

theorem run_answers_large :
    List.Forall₂ (Exact noEngines .mongod largeReaders fun _ _ => [largeRow]) (List.replicate 4 largeCall)
      (run (matchesFilter noEngines .mongod) largeReaders (fun _ => none) (List.replicate 4 largeCall)) := by
  refine (run_answers noEngines .mongod largeReaders (fun _ _ => [largeRow]) ?_ _ ?_).1
  · intro db table raw hraw
    rw [List.mem_singleton.mp hraw]
    exact largeReaders_agree
  · intro c hc
    rw [List.eq_of_mem_replicate hc]
    exact largeCall_on

end Rows

end Secantus.ScanPartitions
