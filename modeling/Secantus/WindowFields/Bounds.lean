/-
  The positions of a window (`windowfields.rs`): `window_bounds`, `range_window_bounds`, `shift_value`.

  A bound comes from the client as any int32 or int64 and is added to the position in 64 bits. A debug
  build ends the program when the sum does not fit, a release build wraps. The positions are those of the
  integers exactly when the sums fit (`positions_iff`); a `$shift` in a release build is right even when
  its sum wraps, for the wrapped position is before the partition.
-/
import Secantus.Bson.Equality

namespace Secantus.WindowFields

open Secantus

/-! ## 64-bit sums -/

/-- What does not return: an engine's refusal, or a panic. -/
inductive Stop where
  | fallback (f : Fallback)
  | panic
  deriving DecidableEq

/-- The build: whether the sum of two `i64`s is checked. -/
inductive Profile where
  | debug
  | release
  deriving DecidableEq

/-- `x + y` on `i64`. -/
def Profile.add (P : Profile) (x y : Int64) : Except Stop Int64 :=
  match P with
  | .release => .ok (x + y)
  | .debug => if x.toInt + y.toInt = (x + y).toInt then .ok (x + y) else .error .panic

/-! ## Bounds -/

/-- The last position of a partition of `n`. -/
def lastSlot (n : ℕ) : Int64 := Int64.ofNat n - 1

/-- One bound of a `documents` window. -/
def resolve (P : Profile) (slot n : ℕ) (isLower : Bool) : Bson → Except Stop Int64
  | .string s =>
    if s = "unbounded" then .ok (if isLower then 0 else lastSlot n)
    else if s = "current" then .ok (Int64.ofNat slot)
    else .error (.fallback .defer)
  | .int32 i => P.add (Int64.ofNat slot) i.toInt64
  | .int64 i => P.add (Int64.ofNat slot) i
  | _ => .error (.fallback .defer)

def windowBounds (P : Profile) (slot n : ℕ) (window : Option Document) : Except Stop (Int64 × Int64) :=
  match window.bind (Document.get · "documents") with
  | none => .ok (0, lastSlot n)
  | some (.array [lo, hi]) => do
    let low ← resolve P slot n true lo
    let high ← resolve P slot n false hi
    return (max low 0, min high (lastSlot n))
  | some _ => .error (.fallback .defer)

/-- `range_window_bounds`, from the sort values and the window's edges, `none` for an unbounded one: past the
    values below the lower edge, and before those above the upper one. -/
def rangeWindowBounds (vals : List F64) (edges : Option F64 × Option F64) : ℤ × ℤ :=
  let below (v : F64) := edges.1.any fun l => v.partialCmp l == some .lt
  let above (v : F64) := edges.2.any fun h => v.partialCmp h == some .gt
  ((vals.takeWhile below).length, (vals.length : ℤ) - 1 - (vals.reverse.takeWhile above).length)

/-- Where the windows of a function come from. The edges of a `range` window are the current sort value moved
    by the bounds, in doubles. -/
inductive Windows where
  | documents (window : Option Document)
  | range (vals : List F64) (edges : ℕ → Except Stop (Option F64 × Option F64))

/-- The window of a position, low and high. -/
def Windows.bounds (P : Profile) (pos n : ℕ) : Windows → Except Stop (ℤ × ℤ)
  | .documents window => (windowBounds P pos n window).map fun b => (b.1.toInt, b.2.toInt)
  | .range vals edges => (edges pos).map (rangeWindowBounds vals)

/-- What evaluates the expressions of a stage. -/
structure Expressions where
  evaluate : Document → Bson → Except Fallback Bson
  evaluateOrMissing : Document → Bson → Except Fallback Bson

def refused {α : Type} (x : Except Fallback α) : Except Stop α := x.mapError .fallback

/-- The offset of a `$shift`. -/
def offset (spec : Document) : Option Int64 :=
  match Document.get spec "by" with
  | some (.int32 n) => some n.toInt64
  | some (.int64 n) => some n
  | _ => none

/-- The default of a `$shift`, on the current row. -/
def shiftDefault (X : Expressions) (spec : Document) (row : Document) : Except Stop Bson :=
  match Document.get spec "default" with
  | some default => refused (X.evaluate row default)
  | none => .ok .null

/-- The row at a position, none outside the partition. -/
def rowAt (rows : List Document) (idx : ℤ) : Option Document := if 0 ≤ idx then rows[idx.toNat]? else none

/-- What a `$shift` answers from the row at `idx`: the default when there is none, or where `output` is
    missing in it. -/
def shiftAt (X : Expressions) (spec : Document) (output : Bson) (rows : List Document) (pos : Fin rows.length)
    (idx : ℤ) : Except Stop Bson :=
  match rowAt rows idx with
  | none => shiftDefault X spec (rows.get pos)
  | some row => do
    match ← refused (X.evaluateOrMissing row output) with
    | .undefined => shiftDefault X spec (rows.get pos)
    | v => return v

def shiftValue (P : Profile) (X : Expressions) (spec : Document) (rows : List Document)
    (pos : Fin rows.length) : Except Stop Bson :=
  match offset spec, Document.get spec "output" with
  | some n, some output => do
    let idx ← P.add (Int64.ofNat pos) n
    shiftAt X spec output rows pos idx.toInt
  | _, _ => .error (.fallback .defer)

/-! ## The positions over the integers -/

/-- The position a bound stands for. -/
def position (slot n : ℕ) (isLower : Bool) : Bson → Option ℤ
  | .string s =>
    if s = "unbounded" then some (if isLower then 0 else n - 1)
    else if s = "current" then some slot
    else none
  | .int32 i => some (slot + i.toInt)
  | .int64 i => some (slot + i.toInt)
  | _ => none

/-- What a `$shift` by `n` rows is to answer. -/
def shifted (X : Expressions) (spec : Document) (output : Bson) (n : ℤ) (rows : List Document)
    (pos : Fin rows.length) : Except Stop Bson :=
  shiftAt X spec output rows pos (pos + n)

section

variable {P : Profile} {slot n : ℕ}

theorem bmod_of_fits {x : ℤ} (hle : -2 ^ 63 ≤ x) (hlt : x < 2 ^ 63) : x.bmod (2 ^ 64) = x :=
  Int.bmod_eq_of_le (by norm_num; omega) (by norm_num; omega)

theorem toInt_ofNat_of_lt {n : ℕ} (h : n < 2 ^ 63) : (Int64.ofNat n).toInt = n := by
  rw [Int64.toInt_ofNat']
  exact bmod_of_fits (by omega) (by omega)

theorem toInt_lastSlot (hn : n < 2 ^ 63) : (lastSlot n).toInt = n - 1 := by
  unfold lastSlot
  have hone : (1 : Int64).toInt = 1 := rfl
  rw [Int64.toInt_sub, toInt_ofNat_of_lt hn, hone]
  exact bmod_of_fits (by omega) (by omega)

theorem toInt_max (a b : Int64) : (max a b).toInt = max a.toInt b.toInt := by
  show (if a ≤ b then b else a).toInt = _
  split
  · rename_i h
    rw [max_eq_right (Int64.le_iff_toInt_le.mp h)]
  · rename_i h
    rw [max_eq_left]
    exact (not_le.mp fun hle => h (Int64.le_iff_toInt_le.mpr hle)).le

theorem toInt_min (a b : Int64) : (min a b).toInt = min a.toInt b.toInt := by
  show (if a ≤ b then a else b).toInt = _
  split
  · rename_i h
    rw [min_eq_left (Int64.le_iff_toInt_le.mp h)]
  · rename_i h
    rw [min_eq_right]
    exact (not_le.mp fun hle => h (Int64.le_iff_toInt_le.mpr hle)).le

theorem add_fits {x y : Int64} (hle : -2 ^ 63 ≤ x.toInt + y.toInt) (hlt : x.toInt + y.toInt < 2 ^ 63) :
    P.add x y = .ok (x + y) ∧ (x + y).toInt = x.toInt + y.toInt := by
  have hsum : (x + y).toInt = x.toInt + y.toInt := by
    rw [Int64.toInt_add]
    exact bmod_of_fits hle hlt
  refine ⟨?_, hsum⟩
  cases P with
  | debug => exact if_pos hsum.symm
  | release => rfl

/-- A sum past the largest `i64` panics or wraps to a negative. -/
theorem add_over {x y : Int64} (h : 2 ^ 63 ≤ x.toInt + y.toInt) :
    P.add x y = (if P = .debug then .error .panic else .ok (x + y)) ∧
      (x + y).toInt = x.toInt + y.toInt - 2 ^ 64 := by
  have hx := x.toInt_lt
  have hy := y.toInt_lt
  have hsum : (x + y).toInt = x.toInt + y.toInt - 2 ^ 64 := by
    rw [Int64.toInt_add, ← Int.sub_bmod_right]
    exact bmod_of_fits (by norm_num; omega) (by norm_num; omega)
  refine ⟨?_, hsum⟩
  cases P with
  | debug => exact if_neg (by omega)
  | release => rfl

/-- A bound is a position by itself or a sum with the current one. -/
theorem resolve_cases (hslot : slot < n) (hn : n < 2 ^ 63) {isLower : Bool} {b : Bson} {p : ℤ}
    (h : position slot n isLower b = some p) :
    (∃ i, resolve P slot n isLower b = .ok i ∧ i.toInt = p) ∨
      ∃ x : Int64, resolve P slot n isLower b = P.add (Int64.ofNat slot) x ∧ p = slot + x.toInt := by
  cases b with
  | string s =>
    rw [position] at h
    rw [resolve]
    split at h
    · rename_i hs
      rw [if_pos hs]
      obtain rfl := Option.some.inj h
      refine Or.inl ⟨_, rfl, ?_⟩
      cases isLower with
      | true => rfl
      | false => exact toInt_lastSlot hn
    · rename_i hs
      rw [if_neg hs]
      split at h
      · rename_i hs'
        rw [if_pos hs']
        obtain rfl := Option.some.inj h
        exact Or.inl ⟨_, rfl, toInt_ofNat_of_lt (by omega)⟩
      · cases h
  | int32 i =>
    obtain rfl := Option.some.inj h
    exact Or.inr ⟨i.toInt64, rfl, by rw [Int32.toInt_toInt64]⟩
  | int64 i =>
    obtain rfl := Option.some.inj h
    exact Or.inr ⟨i, rfl, rfl⟩
  | _ => cases h

theorem resolve_fits (hslot : slot < n) (hn : n < 2 ^ 63) {isLower : Bool} {b : Bson} {p : ℤ}
    (h : position slot n isLower b = some p) (hp : p < 2 ^ 63) :
    ∃ i, resolve P slot n isLower b = .ok i ∧ i.toInt = p := by
  rcases resolve_cases (P := P) hslot hn h with hi | ⟨x, hx, rfl⟩
  · exact hi
  · have hle := x.le_toInt
    have hcast := toInt_ofNat_of_lt (hslot.trans hn)
    obtain ⟨hadd, hsum⟩ := add_fits (P := P) (x := Int64.ofNat slot) (y := x) (by omega) (by omega)
    exact ⟨_, hx.trans hadd, by rw [hsum, hcast]⟩

/-- A bound whose position does not fit ends the program, or is a position before the partition. -/
theorem resolve_over (hslot : slot < n) (hn : n < 2 ^ 63) {isLower : Bool} {b : Bson} {p : ℤ}
    (h : position slot n isLower b = some p) (hp : 2 ^ 63 ≤ p) :
    resolve P slot n isLower b = .error .panic ∨
      ∃ i, resolve P slot n isLower b = .ok i ∧ i.toInt < 0 := by
  rcases resolve_cases (P := P) hslot hn h with ⟨i, -, rfl⟩ | ⟨x, hx, rfl⟩
  · exact absurd i.toInt_lt (not_lt.mpr hp)
  · have hlt := x.toInt_lt
    have hcast := toInt_ofNat_of_lt (hslot.trans hn)
    obtain ⟨hadd, hsum⟩ := add_over (P := P) (x := Int64.ofNat slot) (y := x) (by omega)
    rw [hx, hadd]
    split
    · exact Or.inl rfl
    · exact Or.inr ⟨_, rfl, by omega⟩

theorem windowBounds_documents {window : Document} {lower upper : Bson}
    (hw : Document.get window "documents" = some (.array [lower, upper])) :
    windowBounds P slot n (some window) = (do
      let low ← resolve P slot n true lower
      let high ← resolve P slot n false upper
      return (max low 0, min high (lastSlot n))) := by
  unfold windowBounds
  rw [Option.bind_some, hw]

/-- The window of a position is the integers' exactly when both bounds fit. -/
theorem windowBounds_iff (hslot : slot < n) (hn : n < 2 ^ 63) {window : Document} {lower upper : Bson}
    (hw : Document.get window "documents" = some (.array [lower, upper])) {p q : ℤ}
    (hp : position slot n true lower = some p) (hq : position slot n false upper = some q) :
    (windowBounds P slot n (some window)).map (fun b => (b.1.toInt, b.2.toInt)) =
        .ok (max 0 p, min ((n : ℤ) - 1) q) ↔ p < 2 ^ 63 ∧ q < 2 ^ 63 := by
  rw [windowBounds_documents hw]
  by_cases hpf : p < 2 ^ 63
  · obtain ⟨i, hi, rfl⟩ := resolve_fits (P := P) hslot hn hp hpf
    rw [hi]
    by_cases hqf : q < 2 ^ 63
    · obtain ⟨j, hj, rfl⟩ := resolve_fits (P := P) hslot hn hq hqf
      rw [hj]
      refine ⟨fun _ => ⟨hpf, hqf⟩, fun _ => ?_⟩
      show Except.ok (_, _) = _
      rw [toInt_max, toInt_min, toInt_lastSlot hn, max_comm, min_comm]
      rfl
    · refine ⟨fun h => ?_, fun h => absurd h.2 hqf⟩
      rcases resolve_over (P := P) hslot hn hq (not_lt.mp hqf) with hj | ⟨j, hj, hneg⟩
      · rw [hj] at h
        cases h
      · -- the upper end is before the partition
        rw [hj] at h
        have hhigh := congrArg Prod.snd (Except.ok.inj h)
        simp only [toInt_min, toInt_lastSlot hn] at hhigh
        omega
  · refine ⟨fun h => ?_, fun h => absurd h.1 hpf⟩
    rcases resolve_over (P := P) hslot hn hp (not_lt.mp hpf) with hi | ⟨i, hi, hneg⟩
    · rw [hi] at h
      cases h
    · rw [hi] at h
      cases hj : resolve P slot n false upper with
      | error e =>
        rw [hj] at h
        cases h
      | ok j =>
        -- the lower end is the first row
        rw [hj] at h
        have hlow := congrArg Prod.fst (Except.ok.inj h)
        have hzero : (0 : Int64).toInt = 0 := rfl
        simp only [toInt_max, hzero] at hlow
        omega

theorem rowAt_outside {rows : List Document} {idx : ℤ} (h : idx < 0 ∨ (rows.length : ℤ) ≤ idx) :
    rowAt rows idx = none := by
  unfold rowAt
  split
  · exact List.getElem?_eq_none (by omega)
  · rfl

theorem shiftDefault_ne_panic {X : Expressions} {spec row : Document} :
    shiftDefault X spec row ≠ .error .panic := by
  unfold shiftDefault
  split
  · unfold refused
    cases X.evaluate row _ <;> exact fun h => by cases h
  · exact fun h => by cases h

/-- A `$shift` is the integers' in a release build, and in a debug build when the sum fits. -/
theorem shiftValue_iff {X : Expressions} {spec : Document} {output : Bson} {m : Int64} {rows : List Document}
    (hn : rows.length < 2 ^ 63) (hm : offset spec = some m) (hout : Document.get spec "output" = some output)
    (pos : Fin rows.length) :
    shiftValue P X spec rows pos = shifted X spec output m.toInt rows pos ↔
      (P = .debug → (pos : ℤ) + m.toInt < 2 ^ 63) := by
  have hcast := toInt_ofNat_of_lt (pos.isLt.trans hn)
  have hle := m.le_toInt
  unfold shiftValue shifted
  rw [hm, hout]
  by_cases hfits : (pos : ℤ) + m.toInt < 2 ^ 63
  · obtain ⟨hadd, hsum⟩ := add_fits (P := P) (x := Int64.ofNat pos) (y := m) (by omega) (by omega)
    refine ⟨fun _ _ => hfits, fun _ => ?_⟩
    simp only [hadd]
    show shiftAt X spec output rows pos _ = _
    rw [hsum, hcast]
  · obtain ⟨hadd, hsum⟩ := add_over (P := P) (x := Int64.ofNat pos) (y := m) (by omega)
    have hnegative : rowAt rows (Int64.ofNat pos + m).toInt = none := rowAt_outside (Or.inl (by
      have hlt := m.toInt_lt
      have hpos := pos.isLt
      omega))
    have hpast : rowAt rows (pos + m.toInt) = none := rowAt_outside (Or.inr (by omega))
    have hshifted : shiftAt X spec output rows pos (pos + m.toInt) = shiftDefault X spec (rows.get pos) := by
      unfold shiftAt
      rw [hpast]
    rw [hshifted]
    simp only [hadd]
    cases P with
    | debug =>
      refine ⟨fun h => absurd h.symm ?_, fun h => absurd (h rfl) hfits⟩
      exact shiftDefault_ne_panic
    | release =>
      refine ⟨fun _ h => (nomatch h), fun _ => ?_⟩
      show shiftAt X spec output rows pos _ = _
      unfold shiftAt
      rw [hnegative]

/-- At every position of a partition, the window is the integers' exactly when both bounds' positions fit
    64 bits, and a `$shift` is in a release build always and in a debug build when its sum fits. -/
theorem positions_iff (P : Profile) (X : Expressions) {rows : List Document} (hn : rows.length < 2 ^ 63)
    (pos : Fin rows.length) {window : Document} {lower upper : Bson}
    (hw : Document.get window "documents" = some (.array [lower, upper])) {p q : ℤ}
    (hp : position pos rows.length true lower = some p) (hq : position pos rows.length false upper = some q)
    {spec : Document} {output : Bson} {m : Int64} (hm : offset spec = some m)
    (hout : Document.get spec "output" = some output) :
    ((windowBounds P pos rows.length (some window)).map (fun b => (b.1.toInt, b.2.toInt)) =
        .ok (max 0 p, min ((rows.length : ℤ) - 1) q) ↔ p < 2 ^ 63 ∧ q < 2 ^ 63) ∧
      (shiftValue P X spec rows pos = shifted X spec output m.toInt rows pos ↔
        (P = .debug → (pos : ℤ) + m.toInt < 2 ^ 63)) :=
  ⟨windowBounds_iff pos.isLt hn hw hp hq, shiftValue_iff hn hm hout pos⟩

end

/-- `{documents: [0, 9223372036854775807]}`. -/
def farWindow : Document := [("documents", .array [.int32 0, .int64 9223372036854775807])]

/-- At the second row of two the upper bound does not fit: a release build answers an empty window, a debug
    build panics, and the window is the row itself. -/
theorem windowBounds_far :
    (windowBounds .release 1 2 (some farWindow)).map (fun b => (b.1.toInt, b.2.toInt)) =
        .ok (1, -9223372036854775808) ∧
      windowBounds .debug 1 2 (some farWindow) = .error .panic ∧
      position 1 2 true (.int32 0) = some 1 ∧
      position 1 2 false (.int64 9223372036854775807) = some 9223372036854775808 ∧
      (max 0 1, min (2 - 1) 9223372036854775808) = ((1 : ℤ), (1 : ℤ)) := by
  decide

/-- Expressions that read the field they name. -/
def fieldExpressions : Expressions where
  evaluate row e := .ok (match e with
    | .string s => (Document.get row s).getD .null
    | _ => .null)
  evaluateOrMissing row e := .ok (match e with
    | .string s => (Document.get row s).getD .undefined
    | _ => .undefined)

/-- `{documents: [-1, "current"]}`. -/
def nearWindow : Document := [("documents", .array [.int32 (-1), .string "current"])]

/-- `{output: "x", by: -1}`. -/
def nearShift : Document := [("output", .string "x"), ("by", .int32 (-1))]

def nearRows : List Document := [[("x", .int32 7)], [("x", .int32 8)]]

theorem positions_iff_near :
    (windowBounds .release 1 2 (some nearWindow)).map (fun b => (b.1.toInt, b.2.toInt)) = .ok (0, 1) ∧
      shiftValue .release fieldExpressions nearShift nearRows ⟨1, by decide⟩ =
        shifted fieldExpressions nearShift (.string "x") (-1) nearRows ⟨1, by decide⟩ := by
  have hn : nearRows.length < 2 ^ 63 := by decide
  have hw : Document.get nearWindow "documents" = some (.array [.int32 (-1), .string "current"]) := rfl
  have hp : position 1 2 true (.int32 (-1)) = some 0 := rfl
  have hq : position 1 2 false (.string "current") = some 1 := rfl
  have hm : offset nearShift = some (-1) := rfl
  have hout : Document.get nearShift "output" = some (.string "x") := rfl
  have h := positions_iff .release fieldExpressions hn ⟨1, by decide⟩ hw hp hq hm hout
  exact ⟨h.1.mpr (by decide), h.2.mpr fun h => nomatch h⟩

end Secantus.WindowFields
