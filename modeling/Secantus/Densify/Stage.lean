/-
  `$densify` with `bounds: "partition"` or explicit bounds (`range_partitioned` of densify.rs), with no collation.

  The documents come sorted by the partition fields and then the field. Each partition has a row: the last value on
  its grid, from which the values below a document's are generated. What is pushed is kept with where it is from
  (`Emitted`). The arithmetic of floats is a parameter.

  Of integer values, a document does to its partition what `Library.advance` does to the partition's next point
  (`place_costs`), and the stage answers unless it generates more than `maxFillers` values.
-/
import Secantus.Library.Grid
import Secantus.Partitions.GroupKey
import Secantus.Library.Buckets
import Secantus.Paths.Basic

namespace Secantus.Densify

open Secantus Secantus.Library Secantus.Paths Secantus.Partitions

/-! ## Numbers -/

/-- `Num`; the sums of an `i128` that are met here are far inside it. -/
inductive Num where
  | int (n : ℤ)
  | float (f : F64)

/-- The processor's arithmetic of `f64`. -/
structure Floats where
  ofInt : ℤ → F64
  add : F64 → F64 → F64
  sub : F64 → F64 → F64

def numOf : Bson → Option Num
  | .int32 n => some (.int n.toInt)
  | .int64 n => some (.int n.toInt)
  | .boolean b => some (.int (if b then 1 else 0))
  | .double d => if d.isNan then none else some (.float d)
  | _ => none

def numval : Num → NumVal
  | .int n => Numeric.fromInt n
  | .float f => Numeric.fromF64 f

def cmp (a b : Num) : Option Ordering := Numeric.cmp (numval a) (numval b)

def less (a b : Num) : Bool := cmp a b == some .lt

def equal (a b : Num) : Bool := cmp a b == some .eq

/-- `numeric::int_to_bson`. -/
def intToBson (r : ℤ) : Option Bson :=
  if -2 ^ 31 ≤ r ∧ r < 2 ^ 31 then some (.int32 (Int32.ofInt r))
  else if -2 ^ 63 ≤ r ∧ r < 2 ^ 63 then some (.int64 (Int64.ofInt r))
  else none

def canonToBson (n : Num) : Except Fallback Bson :=
  let n := match n with
    | .float f =>
      if ¬f.isNan ∧ ¬f.isInfinite ∧ f.scaled % Numeric.unit = 0 then Num.int (f.scaled / Numeric.unit) else .float f
    | other => other
  match n with
  | .int i => match intToBson i with
    | some b => .ok b
    | none => .error .defer
  | .float f => .ok (.double f)

/-! ## Partitions -/

/-- A partition's key. -/
abbrev Key := List (Option GKey)

def partitionKey (doc : Document) : List String → Except Fallback Key
  | [] => .ok []
  | f :: fields => do
    let k ← match getPath doc f with
      | some v => (gkey v).map some
      | none => .ok none
    let key ← partitionKey doc fields
    return k :: key

/-- One field of `carry_of`: the value at its path, with the documents around it. -/
def carryInto (carry : Document) (v : Option Bson) : List String → Document
  | [] => carry
  | [part] => match v with
    | some v => Document.insert carry part v
    | none => carry
  | part :: parts =>
    let inner := match Document.get carry part with
      | some (.document d) => d
      | _ => []
    Document.insert carry part (.document (carryInto inner v parts))

def carryOf (doc : Document) (fields : List String) : Document :=
  fields.foldl (fun carry f => carryInto carry (getPath doc f) (splitDot f)) []

/-- A row of the table: a partition's key, the partition values a filler carries, and the last value on its grid. -/
structure Row where
  key : Key
  carry : Document
  last : Num

/-- The last grid value of a partition, if it has a row. -/
def lastOf (key : Key) (table : List Row) : Option Num := (table.find? fun r => r.key = key).map Row.last

def setLast (key : Key) (v : Num) (table : List Row) : List Row :=
  modifyFirst (fun r => r.key = key) (fun r => { r with last := v }) table

/-! ## The stage -/

/-- What the stage pushes: a document it was given, or a filler, of a partition and a value. -/
inductive Emitted where
  | input (d : Document)
  | filler (key : Key) (v : Num) (d : Document)

def Emitted.document : Emitted → Document
  | .input d => d
  | .filler _ _ d => d

/-- The stage's spec. -/
structure Spec where
  field : String
  step : Num
  range : Option (Num × Num)
  partitionFields : List String

def maxFillers : ℕ := 1000000

/-- With the number of fillers generated so far. -/
abbrev Fill := StateT ℕ (Except Fallback)

section

variable (F : Floats) (S : Spec)

def toF64 : Num → F64
  | .int n => F.ofInt n
  | .float f => f

def add : Num → Num → Num
  | .int x, .int y => .int (x + y)
  | x, y => .float (F.add (toF64 F x) (toF64 F y))

/-- `sub`: a step below. -/
def sub (a : Num) : Num :=
  match a, S.step with
  | .int x, .int y => .int (x - y)
  | x, y => .float (F.sub (toF64 F x) (toF64 F y))

def filler (key : Key) (carry : Document) (v : Num) : Fill Emitted := do
  let generated ← get
  if maxFillers < generated + 1 then throw .defer
  set (generated + 1)
  let b ← canonToBson v
  return .filler key v (Document.insert carry S.field b)

/-- `while less(v, max)`: the fillers, and the last of their values, `last` when there is none. No run has more steps
    than there are fillers to generate, and one. -/
def fillWhile (key : Key) (carry : Document) (max : Num) : (fuel : ℕ) → (v last : Num) → Fill (List Emitted × Num)
  | 0, _, _ => throw .defer
  | fuel + 1, v, last =>
    if less v max then do
      let e ← filler S key carry v
      let (out, last) ← fillWhile key carry max fuel (add F v S.step) v
      return (e :: out, last)
    else return ([], last)

/-- The grid value after `last`. -/
def nextValue (last : Num) : Num :=
  let next := add F last S.step
  match S.range with
  | some (lo, _) => if less next lo then lo else next
  | none => next

/-- `handleNeedGen`: what is generated below `x`, then the document. -/
def needGen (d : Document) (x : Num) (key : Key) (carry : Document) (last : Num) (table : List Row) :
    Fill (List Emitted × List Row) :=
  let next := nextValue F S last
  let pastEnd := match S.range with
    | some (_, hi) => !less next hi
    | none => false
  if !less next x || pastEnd then
    return ([.input d], if equal x next then setLast key x table else table)
  else do
    let max := match S.range with
      | some (_, hi) => if !less x hi then hi else x
      | none => x
    let (out, v) ← fillWhile F S key carry max (maxFillers + 1) next ((lastOf key table).getD last)
    let v := if equal x (add F v S.step) then x else v
    return (out ++ [.input d], setLast key v table)

/-- A document with a value, in the loop of `range_partitioned`. -/
def placeValue (d : Document) (x : Num) (key : Key) (carry : Document) (table : List Row) :
    Fill (List Emitted × List Row) :=
  match lastOf key table, S.range with
  | none, some (lo, _) =>
    if less lo x then needGen F S d x key carry (sub F S lo) (table ++ [⟨key, carry, lo⟩])
    else return ([.input d], table ++ [⟨key, carry, x⟩])
  | none, none => return ([.input d], table ++ [⟨key, carry, x⟩])
  | some last, some (lo, hi) =>
    if !less last hi then return ([.input d], table)
    else
      let last := if less last lo then sub F S lo else last
      if less x last then return ([.input d], table) else needGen F S d x key carry last table
  | some last, none =>
    if less x last then return ([.input d], table) else needGen F S d x key carry last table

/-- A document, in the loop of `range_partitioned`. -/
def place (d : Document) (table : List Row) : Fill (List Emitted × List Row) :=
  match getPath d S.field with
  | none | some .null => return ([.input d], table)
  | some v =>
    match numOf v with
    | none => throw .defer
    | some x =>
      match partitionKey d S.partitionFields with
      | .error e => throw e
      | .ok key => placeValue F S d x key (carryOf d S.partitionFields) table

/-- The loop of `range_partitioned` over the documents. -/
def placeAll (table : List Row) : List Document → Fill (List Emitted × List Row)
  | [] => return ([], table)
  | d :: docs => do
    let (out, table) ← place F S d table
    let (rest, table) ← placeAll table docs
    return (out ++ rest, table)

/-- `finishDensifyingPartitionedInputHelper`: each partition on to `hi`. -/
def finish (lo hi : Num) : List Row → Fill (List Emitted)
  | [] => return []
  | row :: rows => do
    let v := if less row.last lo then lo else add F row.last S.step
    let (out, _) ← fillWhile F S row.key row.carry hi (maxFillers + 1) v row.last
    let rest ← finish lo hi rows
    return out ++ rest

/-- The table before the first document. -/
def firstTable : List Row :=
  match S.range with
  | some (lo, _) => if S.partitionFields = [] then [⟨[], [], sub F S lo⟩] else []
  | none => []

def rangePartitioned (sorted : List Document) : Except Fallback (List Emitted) :=
  StateT.run' (do
    let (out, table) ← placeAll F S (firstTable F S) sorted
    match S.range with
    | some (lo, hi) => do
      let rest ← finish F S lo hi table
      return out ++ rest
    | none => return out) 0

end

/-! ## Costs -/

/-- The computation answers `a` and generates `n` fillers, where as many are left to generate. -/
def Costs {α : Type} (f : Fill α) (a : α) (n : ℕ) : Prop :=
  ∀ generated ≤ maxFillers,
    f.run generated = if generated + n ≤ maxFillers then .ok (a, generated + n) else .error .defer

section Costs

variable {α β : Type} {f : Fill α} {k : α → Fill β} {a : α} {b : β} {n m : ℕ}

theorem costs_pure (a : α) : Costs (pure a) a 0 := by
  intro generated hle
  rw [if_pos (by omega)]
  rfl

theorem Costs.bind (hf : Costs f a n) (hk : Costs (k a) b m) : Costs (f >>= k) b (n + m) := by
  intro generated hle
  rw [StateT.run_bind, hf generated hle]
  by_cases hn : generated + n ≤ maxFillers
  · rw [if_pos hn]
    show (k a).run (generated + n) = _
    rw [hk _ hn, add_assoc]
  · rw [if_neg hn, if_neg (by omega)]
    rfl

theorem Costs.map_pure (hf : Costs f a n) (g : α → β) : Costs (f >>= fun a => pure (g a)) (g a) n :=
  hf.bind (k := fun a => pure (g a)) (costs_pure (g a))

theorem Costs.run' (hf : Costs f a n) :
    f.run' 0 = if n ≤ maxFillers then .ok a else .error .defer := by
  have hrun := hf 0 (Nat.zero_le _)
  rw [Nat.zero_add] at hrun
  show (f.run 0).map Prod.fst = _
  rw [hrun]
  split <;> rfl

end Costs

/-! ## Integers -/

/-- The document of an integer. -/
def intBson (v : ℤ) : Bson := (intToBson v).getD .null

/-- The integers below, before the digits of `NumVal` end. -/
def Small (n : ℤ) : Prop := -2 ^ 66 ≤ n ∧ n ≤ 2 ^ 66

theorem cmp_int {a b : ℤ} (ha : Small a) (hb : Small b) : cmp (.int a) (.int b) = some (compare a b) := by
  have hbound : ∀ {n : ℤ}, Small n → n.natAbs < 10 ^ 34 := by
    intro n hn
    unfold Small at hn
    omega
  obtain ⟨hwa, hqa⟩ := Numeric.fromInt_spec (hbound ha)
  obtain ⟨hwb, hqb⟩ := Numeric.fromInt_spec (hbound hb)
  unfold cmp numval
  rw [Numeric.cmp_spec hwa hwb, hqa, hqb]
  show some (compare (a : ℚ) (b : ℚ)) = _
  rcases lt_trichotomy a b with h | h | h
  · rw [compare_lt_iff_lt.mpr h, compare_lt_iff_lt.mpr (Int.cast_lt.mpr h)]
  · rw [h, compare_eq_iff_eq.mpr rfl, compare_eq_iff_eq.mpr rfl]
  · rw [compare_gt_iff_gt.mpr h, compare_gt_iff_gt.mpr (Int.cast_lt.mpr h)]

theorem less_int {a b : ℤ} (ha : Small a) (hb : Small b) : less (.int a) (.int b) = decide (a < b) := by
  unfold less
  rw [cmp_int ha hb]
  rcases lt_trichotomy a b with h | h | h
  · simp [compare_lt_iff_lt.mpr h, h]
  · simp [h]
  · simp [compare_gt_iff_gt.mpr h, h.le]

theorem equal_int {a b : ℤ} (ha : Small a) (hb : Small b) : equal (.int a) (.int b) = decide (a = b) := by
  unfold equal
  rw [cmp_int ha hb]
  rcases lt_trichotomy a b with h | h | h
  · simp [compare_lt_iff_lt.mpr h, h.ne]
  · simp [h]
  · simp [compare_gt_iff_gt.mpr h, h.ne']

/-- A 64-bit integer. -/
def Long (n : ℤ) : Prop := -2 ^ 63 ≤ n ∧ n < 2 ^ 63

theorem intToBson_long {n : ℤ} (h : Long n) : intToBson n = some (intBson n) := by
  unfold intBson intToBson Long at *
  split
  · rfl
  · rfl

section

variable (F : Floats) (S : Spec)

/-- A filler of an integer. -/
def fillerOf (key : Key) (carry : Document) (v : ℤ) : Emitted :=
  .filler key (.int v) (Document.insert carry S.field (intBson v))

variable {F S} {key : Key} {carry : Document} {step : ℤ}

theorem filler_costs {v : ℤ} (hv : Long v) : Costs (filler S key carry (.int v)) (fillerOf S key carry v) 1 := by
  intro generated hle
  have hcanon : canonToBson (.int v) = .ok (intBson v) := by
    unfold canonToBson
    simp only [intToBson_long hv]
  unfold filler
  by_cases hroom : generated + 1 ≤ maxFillers
  · rw [if_pos hroom]
    simp only [StateT.run_bind, StateT.run_get, pure_bind]
    rw [if_neg (not_lt.mpr hroom), hcanon]
    rfl
  · rw [if_neg hroom]
    simp only [StateT.run_bind, StateT.run_get, pure_bind]
    rw [if_pos (not_le.mp hroom)]
    rfl

/-- The last value of the points below `max`, `last` when there is none. -/
def lastPoint (step v max : ℤ) (last : Num) : Num := if v < max then .int (pointAfter step v max - step) else last

theorem lastPoint_lastPoint {v max : ℤ} {last : Num} (hstep : 0 < step) (h : v < max) :
    lastPoint step (v + step) max (.int v) = lastPoint step v max last := by
  unfold lastPoint
  rw [if_pos h, pointAfter_of_lt hstep h]
  by_cases hnext : v + step < max
  · rw [if_pos hnext]
  · rw [if_neg hnext, pointAfter_of_le hstep (not_lt.mp hnext)]
    simp

/-- The loop fills the points below `max`, where as many fillers are left. -/
theorem fillWhile_run {max : ℤ} (hS : S.step = .int step) (hstep : 0 < step) (hlong : step < 2 ^ 63)
    (hmax : -2 ^ 63 ≤ max) (hmax' : max ≤ 2 ^ 63) (fuel : ℕ) {generated : ℕ} (hle : generated ≤ maxFillers)
    (hfuel : maxFillers < generated + fuel) {v : ℤ} (hv : -2 ^ 63 ≤ v) (hv' : v ≤ 2 ^ 65) (last : Num) :
    (fillWhile F S key carry (.int max) fuel (.int v) last).run generated =
      if generated + (pointsBelow step v max).length ≤ maxFillers then
        .ok (((pointsBelow step v max).map (fillerOf S key carry), lastPoint step v max last),
          generated + (pointsBelow step v max).length)
      else .error .defer := by
  induction fuel generalizing generated v last with
  | zero => omega
  | succ fuel ih =>
    rw [fillWhile, hS]
    by_cases hlt : v < max
    · have hless : less (.int v) (.int max) = true := by
        rw [less_int ⟨by omega, by omega⟩ ⟨by omega, by omega⟩]
        exact decide_eq_true hlt
      have hlongv : Long v := ⟨hv, by omega⟩
      rw [if_pos hless, pointsBelow_of_lt hstep hlt, List.length_cons, List.map_cons, StateT.run_bind,
        filler_costs hlongv generated hle]
      by_cases hroom : generated + 1 ≤ maxFillers
      · rw [if_pos hroom]
        change (fillWhile F S key carry (.int max) fuel (.int (v + step)) (.int v) >>= fun p =>
          pure (fillerOf S key carry v :: p.1, p.2)).run (generated + 1) = _
        rw [StateT.run_bind, ih hroom (by omega) (by omega) (by omega), lastPoint_lastPoint hstep hlt]
        by_cases hall : generated + 1 + (pointsBelow step (v + step) max).length ≤ maxFillers
        · rw [if_pos hall, if_pos (by omega)]
          show Except.ok (_, _) = _
          rw [Nat.add_right_comm, Nat.add_assoc]
        · rw [if_neg hall, if_neg (by omega)]
          rfl
      · rw [if_neg hroom, if_neg (by omega)]
        rfl
    · have hless : less (.int v) (.int max) = false := by
        rw [less_int ⟨by omega, by omega⟩ ⟨by omega, by omega⟩]
        exact decide_eq_false hlt
      rw [if_neg (by rw [hless]; simp), pointsBelow_of_le hstep (not_lt.mp hlt)]
      unfold lastPoint
      rw [if_neg hlt, if_pos (by simpa using hle)]
      rfl

variable (key carry) in
theorem fillWhile_costs (max : ℤ) {v : ℤ} (hS : S.step = .int step) (hstep : 0 < step) (hlong : step < 2 ^ 63)
    (hmax : -2 ^ 63 ≤ max) (hmax' : max ≤ 2 ^ 63) (hv : -2 ^ 63 ≤ v) (hv' : v ≤ 2 ^ 65) (last : Num) :
    Costs (fillWhile F S key carry (.int max) (maxFillers + 1) (.int v) last)
      ((pointsBelow step v max).map (fillerOf S key carry), lastPoint step v max last)
      (pointsBelow step v max).length :=
  fun _ hle => fillWhile_run hS hstep hlong hmax hmax' _ hle (by omega) hv hv' last

end

/-! ## Rows -/

section Rows

variable {key κ : Key} {table : List Row} {v w : Num} {row : Row}

theorem lastOf_append : lastOf κ (table ++ [row]) = (lastOf κ table).or (if row.key = κ then some row.last else none) := by
  unfold lastOf
  rw [List.find?_append]
  cases table.find? fun r => decide (r.key = κ) with
  | some r => rfl
  | none =>
    by_cases h : row.key = κ
    · simp [h]
    · simp [h]

theorem lastOf_cons : lastOf κ (row :: table) = if row.key = κ then some row.last else lastOf κ table := by
  unfold lastOf
  rw [List.find?_cons]
  by_cases h : row.key = κ
  · simp [h]
  · simp [h]

theorem setLast_cons : setLast κ v (row :: table) =
    if row.key = κ then { row with last := v } :: table else row :: setLast κ v table := by
  unfold setLast
  rw [modifyFirst]
  by_cases h : row.key = κ
  · simp [h]
  · simp [h]

theorem lastOf_setLast_self (h : lastOf key table = some w) : lastOf key (setLast key v table) = some v := by
  induction table with
  | nil => cases h
  | cons row table ih =>
    rw [lastOf_cons] at h
    rw [setLast_cons]
    by_cases hk : row.key = key
    · rw [if_pos hk, lastOf_cons, if_pos hk]
    · rw [if_neg hk] at h
      rw [if_neg hk, lastOf_cons, if_neg hk, ih h]

theorem lastOf_setLast_ne (h : key ≠ κ) : lastOf κ (setLast key v table) = lastOf κ table := by
  induction table with
  | nil => rfl
  | cons row table ih =>
    rw [setLast_cons]
    by_cases hk : row.key = key
    · rw [if_pos hk, lastOf_cons, lastOf_cons, if_neg (by rw [hk]; exact h), if_neg (by rw [hk]; exact h)]
    · rw [if_neg hk, lastOf_cons, lastOf_cons, ih]

theorem keys_setLast : (setLast key v table).map Row.key = table.map Row.key := by
  induction table with
  | nil => rfl
  | cons row table ih =>
    rw [setLast_cons]
    split
    · rfl
    · rw [List.map_cons, List.map_cons, ih]

theorem exists_mem_of_mem_setLast {r : Row} (h : r ∈ setLast key v table) :
    ∃ r₀ ∈ table, r₀.key = r.key ∧ r₀.carry = r.carry := by
  induction table with
  | nil => cases h
  | cons row table ih =>
    rw [setLast_cons] at h
    split at h
    · rcases List.mem_cons.mp h with rfl | h
      · exact ⟨row, List.mem_cons_self, rfl, rfl⟩
      · exact ⟨r, List.mem_cons_of_mem _ h, rfl, rfl⟩
    · rcases List.mem_cons.mp h with rfl | h
      · exact ⟨r, List.mem_cons_self, rfl, rfl⟩
      · obtain ⟨r₀, hr₀, hr⟩ := ih h
        exact ⟨r₀, List.mem_cons_of_mem _ hr₀, hr⟩

theorem lastOf_of_mem {r : Row} (hnodup : (table.map Row.key).Nodup) (h : r ∈ table) : lastOf r.key table = some r.last := by
  induction table with
  | nil => cases h
  | cons row table ih =>
    rw [List.map_cons, List.nodup_cons] at hnodup
    rw [lastOf_cons]
    rcases List.mem_cons.mp h with rfl | h
    · rw [if_pos rfl]
    · have hmem : r.key ∈ table.map Row.key := List.mem_map_of_mem h
      rw [if_neg fun heq : row.key = r.key => hnodup.1 (heq ▸ hmem), ih hnodup.2 h]

theorem lastOf_eq_none_iff : lastOf key table = none ↔ key ∉ table.map Row.key := by
  unfold lastOf
  rw [Option.map_eq_none_iff, List.find?_eq_none]
  simp

end Rows

/-! ## One document -/

/-- The spec of a stage over integers. -/
structure Integral (S : Spec) (step : ℤ) (range : Option (ℤ × ℤ)) : Prop where
  step_eq : S.step = .int step
  step_pos : 0 < step
  step_lt : step < 2 ^ 63
  range_eq : S.range = range.map fun p => (.int p.1, .int p.2)
  range_long : ∀ lo hi, range = some (lo, hi) → Long lo ∧ Long hi ∧ lo < hi

/-- The point after a partition's last grid value. -/
def nextOf (range : Option (ℤ × ℤ)) (step last : ℤ) : ℤ :=
  match range with
  | some (lo, _) => if last < lo then lo else last + step
  | none => last + step

/-- Where the grid ends. -/
def boundOf (range : Option (ℤ × ℤ)) : Option ℤ := range.map Prod.snd

/-- A row's last grid value, one step below the range at most. -/
def Placed (range : Option (ℤ × ℤ)) (n : ℤ) : Prop := -2 ^ 64 ≤ n ∧ n < 2 ^ 63 ∧ (range = none → -2 ^ 63 ≤ n)

section

variable {F : Floats} {S : Spec} {step : ℤ} {range : Option (ℤ × ℤ)} {d : Document} {key : Key} {carry : Document}
  {table : List Row} {x l next : ℤ}

theorem Integral.range_none (hS : Integral S step none) : S.range = none := hS.range_eq

theorem Integral.range_some {lo hi : ℤ} (hS : Integral S step (some (lo, hi))) :
    S.range = some (.int lo, .int hi) := hS.range_eq

theorem nextValue_int (hS : Integral S step range) (hl : -2 ^ 65 ≤ l) (hl' : l < 2 ^ 63)
    (hlo : ∀ lo hi, range = some (lo, hi) → lo ≤ l + step) : nextValue F S (.int l) = .int (l + step) := by
  have hpos := hS.step_pos
  have hlt := hS.step_lt
  unfold nextValue
  rw [hS.step_eq]
  cases range with
  | none =>
    rw [hS.range_none]
    rfl
  | some p =>
    obtain ⟨lo, hi⟩ := p
    obtain ⟨hlong, -, -⟩ := hS.range_long lo hi rfl
    unfold Long at hlong
    have hle := hlo lo hi rfl
    rw [hS.range_some]
    show (if less (.int (l + step)) (.int lo) = true then Num.int lo else Num.int (l + step)) = _
    rw [less_int ⟨by omega, by omega⟩ ⟨by omega, by omega⟩, if_neg (by simpa using hle)]

theorem pastEnd_int (hS : Integral S step range) {n : ℤ} (hn : Small n) :
    (match S.range with
      | some (_, hi) => !less (.int n) hi
      | none => false) = !decide (Inside (boundOf range) n) := by
  cases range with
  | none =>
    rw [hS.range_none]
    simp [boundOf, Inside]
  | some p =>
    obtain ⟨lo, hi⟩ := p
    obtain ⟨-, hlong, -⟩ := hS.range_long lo hi rfl
    unfold Long at hlong
    rw [hS.range_some]
    show (!less (.int n) (.int hi)) = _
    rw [less_int hn ⟨by omega, by omega⟩]
    simp [boundOf, Inside]

theorem fillEnd_int (hS : Integral S step range) (hx : Long x) :
    (match S.range with
      | some (_, hi) => if !less (.int x) hi then hi else .int x
      | none => .int x) = .int (fillEnd (boundOf range) x) := by
  unfold Long at hx
  cases range with
  | none =>
    rw [hS.range_none]
    rfl
  | some p =>
    obtain ⟨lo, hi⟩ := p
    obtain ⟨-, hlong, -⟩ := hS.range_long lo hi rfl
    unfold Long at hlong
    rw [hS.range_some]
    show (if (!less (.int x) (.int hi)) = true then Num.int hi else .int x) = .int (min hi x)
    rw [less_int ⟨by omega, by omega⟩ ⟨by omega, by omega⟩]
    by_cases hlt : x < hi
    · rw [if_neg (by simpa using hlt), min_eq_right hlt.le]
    · rw [if_pos (by simpa using hlt), min_eq_left (not_lt.mp hlt)]

theorem nextOf_of_le (h : ∀ lo hi, range = some (lo, hi) → lo ≤ l) : nextOf range step l = l + step := by
  unfold nextOf
  cases range with
  | none => rfl
  | some p =>
    obtain ⟨lo, hi⟩ := p
    exact if_neg (not_lt.mpr (h lo hi rfl))

variable (d key carry table) in
/-- What `needGen` does of integers is what the value does to the next point. -/
theorem needGen_costs (hS : Integral S step range) (hx : Long x) (hl : -2 ^ 63 ≤ l + step) (hl' : l < 2 ^ 63)
    (hlo : ∀ lo hi, range = some (lo, hi) → lo ≤ l + step) :
    ∃ table', Costs (needGen F S d (.int x) key carry (.int l) table)
        ((advance (boundOf range) step (l + step) x).2.map (fillerOf S key carry) ++ [.input d], table')
        (advance (boundOf range) step (l + step) x).2.length ∧
      ((table' = table ∧ ¬(Inside (boundOf range) (l + step) ∧ l + step < x) ∧
          (advance (boundOf range) step (l + step) x).1 = l + step) ∨
        ∃ m, table' = setLast key (.int m) table ∧ Placed range m ∧
          nextOf range step m = (advance (boundOf range) step (l + step) x).1) := by
  have hpos := hS.step_pos
  have hstep := hS.step_lt
  have hxl := hx
  unfold Long at hxl
  have hsmall : Small (l + step) := ⟨by omega, by omega⟩
  have hsmallx : Small x := ⟨by omega, by omega⟩
  have hnext : nextValue F S (.int l) = .int (l + step) := nextValue_int hS (by omega) hl' hlo
  unfold needGen
  simp only [hnext, less_int hsmall hsmallx, pastEnd_int hS hsmall, equal_int hsmallx hsmall, fillEnd_int hS hx]
  by_cases hfill : Inside (boundOf range) (l + step) ∧ l + step < x
  · have hcond : ¬((!decide (l + step < x) || !decide (Inside (boundOf range) (l + step))) = true) := by
      simp [hfill.1, hfill.2]
    have hadv : advance (boundOf range) step (l + step) x =
        (if x = pointAfter step (l + step) (fillEnd (boundOf range) x) then
            pointAfter step (l + step) (fillEnd (boundOf range) x) + step
          else pointAfter step (l + step) (fillEnd (boundOf range) x),
          pointsBelow step (l + step) (fillEnd (boundOf range) x)) := if_pos hfill
    rw [hadv]
    have hend : l + step < fillEnd (boundOf range) x := lt_fillEnd_iff.mpr ⟨hfill.2, hfill.1⟩
    have hendx := fillEnd_le (boundOf range) x
    have hafter := pointAfter_lt hpos hend
    have hbefore := add_le_pointAfter hpos hend
    have hrun := fillWhile_costs (F := F) key carry (fillEnd (boundOf range) x) hS.step_eq hpos hstep (by omega)
      (by omega) hl (by omega) ((lastOf key table).getD (.int l))
    have hlast : lastPoint step (l + step) (fillEnd (boundOf range) x) ((lastOf key table).getD (.int l)) =
        .int (pointAfter step (l + step) (fillEnd (boundOf range) x) - step) := if_pos hend
    rw [hlast] at hrun
    generalize pointAfter step (l + step) (fillEnd (boundOf range) x) = after at *
    have hequal : equal (.int x) (add F (.int (after - step)) S.step) = decide (x = after) := by
      rw [hS.step_eq]
      show equal (.int x) (.int (after - step + step)) = _
      rw [Int.sub_add_cancel, equal_int hsmallx ⟨by omega, by omega⟩]
    refine ⟨setLast key (.int (if x = after then x else after - step)) table, ?_, Or.inr ⟨_, rfl, ?_, ?_⟩⟩
    · simp only [hcond, Bool.false_eq_true, if_false]
      have hbind := hrun.bind (k := fun p => pure (p.1 ++ [Emitted.input d],
        setLast key (if equal (.int x) (add F p.2 S.step) then .int x else p.2) table)) (costs_pure _)
      simp only [hequal, decide_eq_true_eq, Nat.add_zero] at hbind
      rw [apply_ite Num.int]
      exact hbind
    · split
      · exact ⟨by omega, by omega, fun _ => by omega⟩
      · exact ⟨by omega, by omega, fun _ => by omega⟩
    · by_cases hx' : x = after
      · rw [if_pos hx', if_pos hx', nextOf_of_le fun lo hi h => by have := hlo lo hi h; omega, hx']
      · rw [if_neg hx', if_neg hx', nextOf_of_le fun lo hi h => by have := hlo lo hi h; omega]
        omega
  · have hcond : (!decide (l + step < x) || !decide (Inside (boundOf range) (l + step))) = true := by
      by_cases hlt : l + step < x
      · have hin : ¬Inside (boundOf range) (l + step) := fun hin => hfill ⟨hin, hlt⟩
        simp [hin]
      · simp [hlt]
    have hadv : advance (boundOf range) step (l + step) x = (if x = l + step then l + step + step else l + step, []) :=
      if_neg hfill
    rw [hadv]
    simp only [hcond, if_true, List.map_nil, List.nil_append, List.length_nil]
    refine ⟨_, costs_pure _, ?_⟩
    by_cases hhit : x = l + step
    · refine Or.inr ⟨x, by simp [hhit], ⟨by omega, by omega, fun _ => by omega⟩, ?_⟩
      rw [if_pos hhit, nextOf_of_le (fun lo hi h => hhit ▸ hlo lo hi h), hhit]
    · exact Or.inl ⟨by simp [hhit], hfill, if_neg hhit⟩

/-- The next point of a partition, by its row; a partition not met starts at the range's start. -/
def NextAt (range : Option (ℤ × ℤ)) (step : ℤ) (key : Key) (table : List Row) (next : ℤ) : Prop :=
  match lastOf key table with
  | some last => ∃ m, last = .int m ∧ Placed range m ∧ nextOf range step m = next
  | none => ∃ lo hi, range = some (lo, hi) ∧ next = lo

/-- Only the row of one partition changes, or is added with these partition values. -/
structure Touches (key : Key) (carry : Document) (table table' : List Row) : Prop where
  others : ∀ κ, κ ≠ key → lastOf κ table' = lastOf κ table
  keys : table'.map Row.key = if key ∈ table.map Row.key then table.map Row.key else table.map Row.key ++ [key]
  carried : ∀ r ∈ table', (∃ r₀ ∈ table, r₀.key = r.key ∧ r₀.carry = r.carry) ∨ r.key = key ∧ r.carry = carry

theorem touches_self {m : Num} (h : lastOf key table = some m) : Touches key carry table table where
  others := fun _ _ => rfl
  keys := by
    rw [if_pos]
    by_contra hnot
    rw [lastOf_eq_none_iff.mpr hnot] at h
    cases h
  carried := fun r hr => Or.inl ⟨r, hr, rfl, rfl⟩

theorem touches_setLast {m v : Num} (h : lastOf key table = some m) : Touches key carry table (setLast key v table) where
  others := fun _ hne => lastOf_setLast_ne (Ne.symm hne)
  keys := keys_setLast.trans (touches_self h : Touches key carry table table).keys
  carried := fun _ hr => Or.inl (exists_mem_of_mem_setLast hr)

theorem touches_append {last : Num} (h : lastOf key table = none) :
    Touches key carry table (table ++ [⟨key, carry, last⟩]) where
  others := by
    intro κ hne
    rw [lastOf_append, if_neg (Ne.symm hne), Option.or_none]
  keys := by
    rw [if_neg (lastOf_eq_none_iff.mp h), List.map_append]
    rfl
  carried := by
    intro r hr
    rcases List.mem_append.mp hr with hr | hr
    · exact Or.inl ⟨r, hr, rfl, rfl⟩
    · rw [List.mem_singleton.mp hr]
      exact Or.inr ⟨rfl, rfl⟩

theorem lastOf_append_self {last : Num} (h : lastOf key table = none) :
    lastOf key (table ++ [⟨key, carry, last⟩]) = some last := by
  rw [lastOf_append, h, if_pos rfl]
  rfl

theorem Touches.mem {table' : List Row} (h : Touches key carry table table') : key ∈ table'.map Row.key := by
  rw [h.keys]
  split
  · assumption
  · exact List.mem_append_right _ List.mem_cons_self

theorem Touches.trans {table' table'' : List Row} (h : Touches key carry table table')
    (h' : Touches key carry table' table'') : Touches key carry table table'' where
  others := fun κ hne => (h'.others κ hne).trans (h.others κ hne)
  keys := by rw [h'.keys, if_pos h.mem, h.keys]
  carried := by
    intro r hr
    rcases h'.carried r hr with ⟨r₁, hr₁, hkey, hcarry⟩ | hr
    · rw [← hkey, ← hcarry]
      exact h.carried r₁ hr₁
    · exact Or.inr hr

theorem advance_before (h : x < next) (hi : Option ℤ) : advance hi step next x = (next, []) := by
  unfold advance
  rw [if_neg fun hfill => by omega, if_neg h.ne]

theorem advance_outside {hi : Option ℤ} (h : ¬Inside hi next) : (advance hi step next x).2 = [] := by
  unfold advance
  rw [if_neg fun hfill => h hfill.1]

/-- A row after a document: where its next point is. -/
def Moved (range : Option (ℤ × ℤ)) (step : ℤ) (key : Key) (table' : List Row) (next x : ℤ) : Prop :=
  ∃ m, lastOf key table' = some (.int m) ∧ Placed range m ∧
    (nextOf range step m = (advance (boundOf range) step next x).1 ∨
      nextOf range step m = next ∧ ¬Inside (boundOf range) next)

variable (d carry) in
/-- What `needGen` does, in a table with the partition's row. -/
theorem needGen_moves (hS : Integral S step range) (hx : Long x) (hl : -2 ^ 63 ≤ l + step) (hl' : l < 2 ^ 63)
    (hlo : ∀ lo hi, range = some (lo, hi) → lo ≤ l + step) {m : ℤ} (hm : lastOf key table = some (.int m))
    (hplaced : Placed range m)
    (hrow : nextOf range step m = l + step ∨ Inside (boundOf range) (l + step) ∧ l + step < x) :
    ∃ table', Costs (needGen F S d (.int x) key carry (.int l) table)
        ((advance (boundOf range) step (l + step) x).2.map (fillerOf S key carry) ++ [.input d], table')
        (advance (boundOf range) step (l + step) x).2.length ∧
      Moved range step key table' (l + step) x ∧ Touches key carry table table' := by
  obtain ⟨table', hcosts, htable⟩ := needGen_costs (F := F) d key carry table hS hx hl hl' hlo
  refine ⟨table', hcosts, ?_⟩
  rcases htable with ⟨rfl, hnot, hadv⟩ | ⟨m', rfl, hplaced', hnext⟩
  · refine ⟨⟨m, hm, hplaced, Or.inl ?_⟩, touches_self hm⟩
    rw [hadv]
    exact hrow.resolve_right hnot
  · exact ⟨⟨m', lastOf_setLast_self hm, hplaced', Or.inl hnext⟩, touches_setLast hm⟩

variable (d carry) in
/-- A document with a value does to its partition what the value does to the next point. -/
theorem placeValue_costs (hS : Integral S step range) (hx : Long x) (hnext : NextAt range step key table next) :
    ∃ table', Costs (placeValue F S d (.int x) key carry table)
        ((advance (boundOf range) step next x).2.map (fillerOf S key carry) ++ [.input d], table')
        (advance (boundOf range) step next x).2.length ∧
      Moved range step key table' next x ∧ Touches key carry table table' := by
  have hpos := hS.step_pos
  have hstep := hS.step_lt
  have hxl := hx
  unfold Long at hxl
  have hsmallx : Small x := ⟨by omega, by omega⟩
  have hsub : ∀ n, sub F S (.int n) = .int (n - step) := by
    intro n
    unfold sub
    rw [hS.step_eq]
  unfold NextAt at hnext
  unfold placeValue
  cases hlast : lastOf key table with
  | none =>
    rw [hlast] at hnext
    obtain ⟨lo, hi, rfl, rfl⟩ := hnext
    obtain ⟨hlong, -, hlohi⟩ := hS.range_long next hi rfl
    unfold Long at hlong
    rw [hS.range_some]
    have hsmall : Small next := ⟨by omega, by omega⟩
    simp only [less_int hsmall hsmallx, hsub, decide_eq_true_eq]
    have hin : Inside (boundOf (some (next, hi))) next := fun h heq => by
      cases heq
      exact hlohi
    by_cases hlt : next < x
    · rw [if_pos hlt]
      have hrow : lastOf key (table ++ [⟨key, carry, .int next⟩]) = some (.int next) := lastOf_append_self hlast
      have hgen := needGen_moves (F := F) d carry (l := next - step) hS hx (by omega) (by omega)
        (fun lo' hi' h => by cases h; omega) hrow ⟨by omega, by omega, fun h => nomatch h⟩
        (Or.inr ⟨by rwa [Int.sub_add_cancel], by omega⟩)
      rw [Int.sub_add_cancel] at hgen
      obtain ⟨table', hcosts, hmoved, htouches⟩ := hgen
      exact ⟨table', hcosts, hmoved, (touches_append hlast).trans htouches⟩
    · rw [if_neg hlt]
      have hadv : advance (boundOf (some (next, hi))) step next x = (if x = next then next + step else next, []) :=
        if_neg fun hfill => hlt hfill.2
      rw [hadv]
      refine ⟨_, costs_pure _, ⟨x, lastOf_append_self hlast, ⟨by omega, by omega, fun h => nomatch h⟩, Or.inl ?_⟩,
        touches_append hlast⟩
      rw [hadv]
      unfold nextOf
      by_cases hxn : x = next
      · simp [hxn]
      · have hxlt : x < next := by omega
        simp [hxn, hxlt]
  | some last =>
    rw [hlast] at hnext
    obtain ⟨m, rfl, hplaced, rfl⟩ := hnext
    obtain ⟨hml, hmu, hmn⟩ := hplaced
    have hsmallm : Small m := ⟨by omega, by omega⟩
    cases range with
    | none =>
      have hml := hmn rfl
      rw [hS.range_none]
      simp only [less_int hsmallx hsmallm, decide_eq_true_eq]
      have hnextm : nextOf none step m = m + step := rfl
      rw [hnextm]
      by_cases hlt : x < m
      · rw [if_pos hlt]
        have hadv : advance (boundOf none) step (m + step) x = (m + step, []) := advance_before (by omega) _
        rw [hadv]
        exact ⟨table, costs_pure _, ⟨m, hlast, ⟨by omega, hmu, hmn⟩, Or.inl (by rw [hadv]; rfl)⟩, touches_self hlast⟩
      · rw [if_neg hlt]
        exact needGen_moves d carry hS hx (by omega) hmu (fun lo hi h => nomatch h) hlast ⟨by omega, hmu, hmn⟩ (Or.inl rfl)
    | some p =>
      obtain ⟨lo, hi⟩ := p
      obtain ⟨hlol, hhil, hlohi⟩ := hS.range_long lo hi rfl
      unfold Long at hlol hhil
      have hsmalllo : Small lo := ⟨by omega, by omega⟩
      have hsmallhi : Small hi := ⟨by omega, by omega⟩
      rw [hS.range_some]
      simp only [less_int hsmallm hsmallhi, less_int hsmallm hsmalllo, hsub, Bool.not_eq_true', decide_eq_false_iff_not,
        decide_eq_true_eq]
      by_cases hmhi : m < hi
      · rw [if_neg (not_not.mpr hmhi)]
        have hlocal : ∃ l : ℤ, (if m < lo then Num.int (lo - step) else .int m) = .int l ∧ l < 2 ^ 63 ∧ -2 ^ 64 ≤ l ∧
            lo ≤ l + step ∧ nextOf (some (lo, hi)) step m = l + step := by
          unfold nextOf
          by_cases hmlo : m < lo
          · exact ⟨lo - step, if_pos hmlo, by omega, by omega, by omega, by simp [hmlo]⟩
          · exact ⟨m, if_neg hmlo, hmu, hml, by omega, by simp [hmlo]⟩
        obtain ⟨l, hl, hlu, hll, hle, hnextl⟩ := hlocal
        have hsmalll : Small l := ⟨by omega, by omega⟩
        simp only [hl, less_int hsmallx hsmalll, decide_eq_true_eq, hnextl]
        by_cases hlt : x < l
        · rw [if_pos hlt]
          have hadv : advance (boundOf (some (lo, hi))) step (l + step) x = (l + step, []) :=
            advance_before (by omega) _
          rw [hadv]
          refine ⟨table, costs_pure _, ⟨m, hlast, ⟨hml, hmu, hmn⟩, Or.inl ?_⟩, touches_self hlast⟩
          rw [hadv, hnextl]
        · rw [if_neg hlt]
          refine needGen_moves d carry hS hx (by omega) hlu (fun lo' hi' h => ?_) hlast ⟨hml, hmu, hmn⟩ (Or.inl hnextl)
          cases h
          exact hle
      · rw [if_pos hmhi]
        have hnextm : nextOf (some (lo, hi)) step m = m + step := if_neg (by omega)
        have hout : ¬Inside (boundOf (some (lo, hi))) (m + step) := fun hin => by
          have := hin hi rfl
          omega
        rw [hnextm, advance_outside hout]
        exact ⟨table, costs_pure _, ⟨m, hlast, ⟨hml, hmu, hmn⟩, Or.inr ⟨hnextm, hout⟩⟩, touches_self hlast⟩

end

end Secantus.Densify
