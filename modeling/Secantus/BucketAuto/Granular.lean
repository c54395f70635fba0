/-
  The buckets of a granularity, and both modes.

  Group values are non-negative numbers here, and numbers compare by their quantities whatever their types
  (`cmp_number`), as their keys do (`compare_key`). `granularBucket_spec` says what one turn of the loop leaves,
  `granularBuckets_spec` the whole loop. A bucket of zeros whose boundary is zero is the one that need not lie
  below its upper end (`ZeroBucket`).
-/
import Secantus.BucketAuto.Buckets
import Secantus.Query.Compare

namespace Secantus.BucketAuto

open Secantus Bson BsonOrder SortKey

/-! ## Numbers in order -/

/-- The quantity of a number. -/
def amount (v : Bson) : Quantity := (quantity v).getD .nan

def IsNumber (v : Bson) : Prop := quantity v = some (amount v)

theorem isNumber_of_some {v : Bson} {q : Quantity} (h : quantity v = some q) : IsNumber v := by
  unfold IsNumber amount
  rw [h]
  rfl

theorem form_of_quantity {v : Bson} {q : Quantity} (h : quantity v = some q) : form v = .number q := by
  cases v <;> first
    | cases h; rfl
    | cases h

theorem cmp_number {o : BinDataOrder} {a b : Bson} (ha : IsNumber a) (hb : IsNumber b) :
    BsonOrder.cmp o a b = (amount a).cmp (amount b) := by
  unfold BsonOrder.cmp
  rw [cmpBy_eq (by rw [Query.typeRank_number ha, Query.typeRank_number hb]), form_of_quantity ha,
    form_of_quantity hb]
  rfl

theorem quantity_zero : F64.quantity ⟨0⟩ = .fin 0 := by
  have hnan : F64.isNan ⟨0⟩ = false := by decide
  have hinf : F64.isInfinite ⟨0⟩ = false := by decide
  have hzero : F64.scaled ⟨0⟩ = 0 := by
    have hsig : F64.significand ⟨0⟩ = (0, -1074) := by decide
    have hneg : F64.negative ⟨0⟩ = false := by decide
    simp [F64.scaled, hsig, hneg]
  simp [F64.quantity, hnan, hinf, F64.value, hzero]

theorem isNumericZero_iff {v : Bson} (h : IsNumber v) : isNumericZero v = true ↔ amount v = .fin 0 := by
  cases v with
  | int32 n =>
    have hn : (n == 0) = true ↔ n.toInt = 0 := by
      rw [beq_iff_eq, ← Int32.toInt_inj]
      rfl
    change (n == 0) = true ↔ Quantity.fin n.toInt = .fin 0
    rw [hn, Quantity.fin.injEq, Int.cast_eq_zero]
  | int64 n =>
    have hn : (n == 0) = true ↔ n.toInt = 0 := by
      rw [beq_iff_eq, ← Int64.toInt_inj]
      rfl
    change (n == 0) = true ↔ Quantity.fin n.toInt = .fin 0
    rw [hn, Quantity.fin.injEq, Int.cast_eq_zero]
  | double d =>
    change (d.partialCmp ⟨0⟩ == some .eq) = true ↔ d.quantity = .fin 0
    rw [F64.partialCmp_spec, quantity_zero]
    cases d.quantity with
    | fin q => simp [Quantity.partialCmp, Quantity.cmp]
    | _ => simp [Quantity.partialCmp, Quantity.cmp]
  | decimal128 d =>
    unfold isNumericZero
    change _ ↔ d.value.quantity = .fin 0
    dsimp only
    cases d.value with
    | nan => simp [DecimalValue.quantity]
    | inf neg => cases neg <;> simp [DecimalValue.quantity]
    | finite neg coeff exp =>
      have hten : (10 : ℚ) ^ Decimal128.unbias exp ≠ 0 := zpow_ne_zero _ (by norm_num)
      have hsign : (if neg = true then (-1 : ℚ) else 1) ≠ 0 := by
        cases neg <;> norm_num
      change (coeff.val == 0) = true ↔ Quantity.fin _ = .fin 0
      rw [Quantity.fin.injEq, mul_eq_zero, or_iff_right hsign, mul_eq_zero, or_iff_left hten, Nat.cast_eq_zero,
        beq_iff_eq]
  | _ => cases h

theorem isLE_zero {p : ℚ} (h : 0 ≤ p) : (Quantity.cmp (.fin 0) (.fin p)).isLE := by
  rw [Ordering.isLE_iff_ne_gt]
  exact compare_le_iff_le.mpr h

/-- What the check of a granularity lets through: numbers from zero on. -/
theorem nonneg_of_valueError {v : Bson} (h : granularityValueError (some v) = none) :
    IsNumber v ∧ (Quantity.cmp (.fin 0) (amount v)).isLE := by
  have hpass : nanOrNegative (some v) = some (false, false) := by
    unfold granularityValueError at h
    cases hn : nanOrNegative (some v) with
    | none =>
      rw [hn] at h
      cases h
    | some p =>
      obtain ⟨nan, negative⟩ := p
      rw [hn] at h
      cases nan <;> cases negative <;> first
        | rfl
        | cases h
  cases v with
  | int32 n =>
    have hn : ¬n < 0 := by simpa [nanOrNegative] using hpass
    rw [Int32.lt_iff_toInt_lt] at hn
    exact ⟨rfl, isLE_zero (Int.cast_nonneg (Int.not_lt.mp hn))⟩
  | int64 n =>
    have hn : ¬n < 0 := by simpa [nanOrNegative] using hpass
    rw [Int64.lt_iff_toInt_lt] at hn
    exact ⟨rfl, isLE_zero (Int.cast_nonneg (Int.not_lt.mp hn))⟩
  | double d =>
    refine ⟨rfl, ?_⟩
    simp only [nanOrNegative, Option.some.injEq, Prod.mk.injEq, F64.partialCmp_spec, quantity_zero] at hpass
    obtain ⟨hnan, hneg⟩ := hpass
    change (Quantity.cmp (.fin 0) d.quantity).isLE = true
    cases hq : d.quantity with
    | nan =>
      unfold F64.quantity at hq
      rw [hnan, if_neg Bool.false_ne_true] at hq
      split at hq
      · split at hq <;> cases hq
      · cases hq
    | negInf =>
      rw [hq] at hneg
      cases hneg
    | posInf => rfl
    | fin q =>
      rw [hq] at hneg
      refine isLE_zero (not_lt.mp fun hlt => ?_)
      have hlt' : compare q 0 = .lt := compare_lt_iff_lt.mpr hlt
      simp [Quantity.partialCmp, Quantity.cmp, hlt'] at hneg
  | decimal128 d =>
    refine ⟨rfl, ?_⟩
    change (Quantity.cmp (.fin 0) d.value.quantity).isLE = true
    simp only [nanOrNegative] at hpass
    cases hv : d.value with
    | nan => simp [hv] at hpass
    | inf neg =>
      obtain rfl : neg = false := by simpa [hv] using hpass
      rfl
    | finite neg coeff exp =>
      have hneg : neg = true → coeff.val = 0 := by simpa [hv] using hpass
      have hten : (0 : ℚ) ≤ coeff.val * 10 ^ Decimal128.unbias exp := by positivity
      refine isLE_zero ?_
      cases neg with
      | false => simpa using hten
      | true => simp [hneg rfl]
  | _ => cases hpass

/-! ## The documents of a granularity -/

/-- A document of a granularity: its value a number from zero on, its key that number's. -/
structure Counted (x : Keyed) : Prop where
  number : IsNumber x.value
  nonneg : (Quantity.cmp (.fin 0) (amount x.value)).isLE
  key : x.key = rankNumber :: encodeNumber x.value

theorem compare_key {x y : Keyed} (hx : Counted x) (hy : Counted y) :
    compare x.key y.key = (amount x.value).cmp (amount y.value) := by
  rw [hx.key, hy.key, ((settled_encodeNumber hx.number hy.number).cons rankNumber rankNumber).compare_eq,
    Std.compare_self]
  rfl

/-- What the rounders are to do with a value: rounded down it is not above itself, rounded up it is above if it
    is above zero, and not below zero if it is zero. -/
structure Rounder.Rounds (r : Rounder) (o : BinDataOrder) (v : Bson) : Prop where
  up_number : ∀ u, r.up v = .ok u → IsNumber u
  down_number : ∀ d, r.down v = .ok d → IsNumber d
  down_le : ∀ d, r.down v = .ok d → (BsonOrder.cmp o d v).isLE
  lt_up : ∀ u, r.up v = .ok u → BsonOrder.cmp o (.int32 0) v = .lt → BsonOrder.cmp o v u = .lt
  zero_le_up : ∀ u, r.up v = .ok u → BsonOrder.cmp o (.int32 0) v = .eq → (BsonOrder.cmp o (.int32 0) u).isLE

/-- A bucket of zeros whose boundary is zero: its upper end is that boundary, or the next value rounded down. -/
def ZeroBucket (r : Rounder) (b : Bucket) (after : List Keyed) : Prop :=
  (∀ x ∈ b.docs, isNumericZero x.value = true) ∧
    ∃ x ∈ b.docs, ∃ boundary, r.up x.value = .ok boundary ∧ isNumericZero boundary = true ∧
      match after.head? with
      | none => b.max = boundary
      | some next => r.down next.value = .ok b.max

theorem fill_append (approx : ℕ) (isLast : Bool) (i : ℕ) (l : List Keyed) :
    (fill approx isLast i l).1 ++ (fill approx isLast i l).2 = l := by
  induction l generalizing i with
  | nil => rfl
  | cons x xs ih =>
    rw [fill]
    split
    · exact congrArg (x :: ·) (ih (i + 1))
    · rfl

theorem fill_last (approx i : ℕ) (l : List Keyed) : (fill approx true i l).2 = [] := by
  induction l generalizing i with
  | nil => rfl
  | cons x xs ih =>
    rw [fill, if_pos (.inr rfl)]
    exact ih (i + 1)

theorem absorb_left (falls : Bson → Bool) (l : List Keyed) :
    (absorb falls l).1 ++ (absorb falls l).2.left = l := by
  induction l with
  | nil => rfl
  | cons x xs ih =>
    rw [absorb]
    split
    · exact congrArg (x :: ·) ih
    · rfl

theorem absorb_falls (falls : Bson → Bool) (l : List Keyed) : ∀ x ∈ (absorb falls l).1, falls x.value = true := by
  induction l with
  | nil => nofun
  | cons x xs ih =>
    rw [absorb]
    split
    · rename_i hx
      intro y hy
      rcases List.mem_cons.mp hy with rfl | hy
      · exact hx
      · exact ih y hy
    · nofun

/-- What is left begins with the document carried over, which does not fall below the boundary. -/
theorem absorb_carry (falls : Bson → Bool) (l : List Keyed) :
    (absorb falls l).2.left.head? = (absorb falls l).2.carry ∧
      ∀ next ∈ (absorb falls l).2.carry, falls next.value = false := by
  induction l with
  | nil => exact ⟨rfl, nofun⟩
  | cons x xs ih =>
    rw [absorb]
    cases hx : falls x.value with
    | true => exact ih
    | false => exact ⟨rfl, fun next hn => by rw [← Option.some.inj hn, hx]⟩

/-- One turn of the loop: its share, what it absorbs, and the two ends. -/
structure Turn (S : Stage) (r : Rounder) (isLast : Bool) (previousMax : Option Bson) (cur : Keyed)
    (rest : List Keyed) (b : Bucket) (c : Cursor) (taken more : List Keyed) (boundary : Bson) : Prop where
  whole : taken ++ (more ++ c.left) = rest
  docs : b.docs = cur :: (taken ++ more)
  last : isLast = true → c.left = []
  up : r.up (curMax cur taken) = .ok boundary
  absorbed : ∀ x ∈ more,
    BsonOrder.cmp S.order boundary x.value = .gt ∨ BsonOrder.cmp S.order (curMax cur taken) x.value = .eq
  stopped : ∀ y ∈ c.left.head?,
    BsonOrder.cmp S.order boundary y.value ≠ .gt ∧ BsonOrder.cmp S.order (curMax cur taken) y.value ≠ .eq
  min : (∀ p ∈ previousMax, b.min = p) ∧ (previousMax = none → r.down cur.value = .ok b.min)
  max_zero : isNumericZero boundary = true → ∀ y ∈ c.left.head?, r.down y.value = .ok b.max
  max : isNumericZero boundary = false ∨ c.left.head? = none → b.max = boundary

theorem granularBucket_turn {S : Stage} {r : Rounder} {approx : ℕ} {isLast : Bool} {previousMax : Option Bson}
    {cur : Keyed} {rest : List Keyed} {b : Bucket} {c : Cursor}
    (hb : granularBucket S r approx isLast previousMax cur rest = .ok (b, c)) :
    ∃ taken more boundary, Turn S r isLast previousMax cur rest b c taken more boundary := by
  unfold granularBucket at hb
  obtain ⟨low, hlow, hb⟩ := Outcome.bind_eq_ok.mp hb
  obtain ⟨boundary, hup, hb⟩ := Outcome.bind_eq_ok.mp hb
  obtain ⟨high, hhigh, hb⟩ := Outcome.bind_eq_ok.mp hb
  obtain ⟨rfl, rfl⟩ := Prod.mk.inj (Except.ok.inj hb)
  have htaken := fill_append approx isLast 1 rest
  have hlast : isLast = true → (fill approx isLast 1 rest).2 = [] := by
    rintro rfl
    exact fill_last approx 1 rest
  generalize (fill approx isLast 1 rest).1 = taken at *
  generalize (fill approx isLast 1 rest).2 = behind at *
  generalize hfalls : (fun v => BsonOrder.cmp S.order boundary v == .gt ||
    BsonOrder.cmp S.order (curMax cur taken) v == .eq) = falls at *
  have hleft := absorb_left falls behind
  have hcarry := absorb_carry falls behind
  have habsorbed := absorb_falls falls behind
  generalize (absorb falls behind).1 = more at *
  generalize (absorb falls behind).2 = c at *
  refine ⟨taken, more, boundary, ?_, rfl, ?_, hup, ?_, ?_, ?_, ?_, ?_⟩
  · rw [hleft, htaken]
  · intro hl
    rw [hlast hl] at hleft
    exact (List.append_eq_nil_iff.mp hleft).2
  · intro x hx
    have h := habsorbed x hx
    rw [← hfalls] at h
    simpa using h
  · intro y hy
    have h := hcarry.2 y (hcarry.1 ▸ hy)
    rw [← hfalls] at h
    simpa using h
  · cases previousMax with
    | none => exact ⟨nofun, fun _ => hlow⟩
    | some p => exact ⟨fun p' hp => by rw [← Option.some.inj hp, Except.ok.inj hlow], nofun⟩
  · intro hz y hy
    have hc : c.carry = some y := hcarry.1 ▸ hy
    rw [hc, bucketMax, if_pos hz] at hhigh
    exact hhigh
  · intro hz
    rw [hcarry.1] at hz
    cases hc : c.carry with
    | none =>
      rw [hc] at hhigh
      exact (Except.ok.inj hhigh).symm
    | some next =>
      rw [hc] at hhigh hz
      have hz' := hz.resolve_right nofun
      rw [bucketMax, hz', if_neg Bool.false_ne_true] at hhigh
      exact (Except.ok.inj hhigh).symm

/-! ## One turn -/

section turn

variable {S : Stage} {r : Rounder} {isLast : Bool} {previousMax : Option Bson} {cur : Keyed} {rest : List Keyed}
  {b : Bucket} {c : Cursor} {taken more : List Keyed} {boundary : Bson}

theorem getLast_share (cur : Keyed) (taken : List Keyed) :
    (cur :: taken).getLast? = some (taken.getLastD cur) := by
  rw [List.getLast?_cons, List.getLastD_eq_getLast?]

theorem Turn.mem_docs (h : Turn S r isLast previousMax cur rest b c taken more boundary) {x : Keyed} :
    x ∈ b.docs ↔ x ∈ cur :: taken ∨ x ∈ more := by
  rw [h.docs, ← List.cons_append, List.mem_append]

theorem Turn.split (h : Turn S r isLast previousMax cur rest b c taken more boundary) :
    (cur :: taken) ++ (more ++ c.left) = cur :: rest := by
  rw [List.cons_append, h.whole]

theorem Turn.docs_left (h : Turn S r isLast previousMax cur rest b c taken more boundary) :
    b.docs ++ c.left = cur :: rest := by
  rw [h.docs, List.cons_append, List.append_assoc, h.whole]

variable (hs : Sorted (cur :: rest)) (hn : ∀ x ∈ cur :: rest, Counted x)
  (hr : ∀ x ∈ cur :: rest, r.Rounds S.order x.value)

include hs hn

theorem Turn.le_largest (h : Turn S r isLast previousMax cur rest b c taken more boundary) :
    taken.getLastD cur ∈ cur :: rest ∧
      ∀ x ∈ cur :: taken, ((amount x.value).cmp (amount (curMax cur taken))).isLE := by
  have hmem : ∀ x ∈ cur :: taken, x ∈ cur :: rest := fun x hx => h.split ▸ List.mem_append_left _ hx
  have htop := hmem _ (List.mem_of_getLast? (getLast_share cur taken))
  refine ⟨htop, fun x hx => ?_⟩
  have hle := le_getLast hs h.split (getLast_share cur taken) x hx
  rwa [compare_key (hn x (hmem x hx)) (hn _ htop)] at hle

include hr

/-- The boundary is a number, not below zero, and above the largest where that is above zero. -/
theorem Turn.boundary_spec (h : Turn S r isLast previousMax cur rest b c taken more boundary) :
    IsNumber boundary ∧
      ((Quantity.cmp (.fin 0) (amount (curMax cur taken))) = .lt →
        (amount (curMax cur taken)).cmp (amount boundary) = .lt) ∧
      ((Quantity.cmp (.fin 0) (amount (curMax cur taken))) = .eq →
        (Quantity.cmp (.fin 0) (amount boundary)).isLE) := by
  have htop := (h.le_largest hs hn).1
  have hnum : IsNumber (curMax cur taken) := (hn _ htop).number
  have hrounds : r.Rounds S.order (curMax cur taken) := hr _ htop
  have hb := hrounds.up_number _ h.up
  have hzero : IsNumber (.int32 0) := rfl
  refine ⟨hb, fun hlt => ?_, fun heq => ?_⟩
  · have := hrounds.lt_up _ h.up (by rw [cmp_number hzero hnum]; exact hlt)
    rwa [cmp_number hnum hb] at this
  · have := hrounds.zero_le_up _ h.up (by rw [cmp_number hzero hnum]; exact heq)
    rwa [cmp_number hzero hb] at this

theorem Turn.lt_left (h : Turn S r isLast previousMax cur rest b c taken more boundary) :
    ∀ x ∈ b.docs, ∀ y ∈ c.left, (amount x.value).cmp (amount y.value) = .lt := by
  obtain ⟨htop, hle⟩ := h.le_largest hs hn
  obtain ⟨hbn, -, -⟩ := h.boundary_spec hs hn hr
  have hall : ∀ x ∈ b.docs, x ∈ cur :: rest := fun x hx => h.docs_left ▸ List.mem_append_left _ hx
  have hleft : ∀ y ∈ c.left, y ∈ cur :: rest := fun y hy => h.docs_left ▸ List.mem_append_right _ hy
  intro x hx y hy
  obtain ⟨next, left', hc⟩ := List.exists_cons_of_ne_nil (List.ne_nil_of_mem hy)
  have hnext : next ∈ c.left := by
    rw [hc]
    exact List.mem_cons_self
  obtain ⟨hnot, hne⟩ := h.stopped next (by rw [hc]; rfl)
  have hnn := hn _ (hleft _ hnext)
  have htn : IsNumber (curMax cur taken) := (hn _ htop).number
  rw [cmp_number hbn hnn.number] at hnot
  rw [cmp_number htn hnn.number] at hne
  have hxn : (amount x.value).cmp (amount next.value) = .lt := by
    rcases h.mem_docs.mp hx with hx | hx
    · -- of the share: at most its largest, which is not above the next one and not equal to it
      have hln : (amount (curMax cur taken)).cmp (amount next.value) = .lt := by
        have hpair := List.pairwise_append.mp (h.split ▸ hs)
        have hkey := hpair.2.2 _ (List.mem_of_getLast? (getLast_share cur taken)) next
          (List.mem_append_right _ hnext)
        rw [compare_key (hn _ htop) hnn] at hkey
        exact (Ordering.isLE_iff_eq_lt_or_eq_eq.mp hkey).resolve_right hne
      exact Std.TransCmp.lt_of_isLE_of_lt (hle x hx) hln
    · -- absorbed: below the boundary, which the next one is not, or equal to the largest
      have hxm : x ∈ b.docs := h.mem_docs.mpr (.inr hx)
      rcases h.absorbed x hx with hgt | heq
      · rw [cmp_number hbn (hn _ (hall x hxm)).number] at hgt
        exact Std.TransCmp.lt_of_lt_of_isLE (Std.OrientedCmp.gt_iff_lt.mp hgt) (Ordering.isLE_iff_ne_gt.mpr hnot)
      · rw [cmp_number htn (hn _ (hall x hxm)).number] at heq
        have hpair := List.pairwise_append.mp (h.docs_left ▸ hs)
        have hkey := hpair.2.2 x hxm next hnext
        rw [compare_key (hn _ (hall x hxm)) hnn] at hkey
        refine (Ordering.isLE_iff_eq_lt_or_eq_eq.mp hkey).resolve_right fun hxe => hne ?_
        rw [Std.TransCmp.congr_left heq, hxe]
  have hny : ((amount next.value).cmp (amount y.value)).isLE := by
    have hkey := head_le (hc ▸ (hs.rest h.docs_left)) y (hc ▸ hy)
    rwa [compare_key hnn (hn _ (hleft y hy))] at hkey
  exact Std.TransCmp.lt_of_lt_of_isLE hxn hny

theorem Turn.cut (h : Turn S r isLast previousMax cur rest b c taken more boundary) :
    Cut (cur :: rest) b.docs c.left where
  whole := h.docs_left
  nonempty := by
    rw [h.docs]
    exact List.cons_ne_nil _ _
  apart x hx y hy := by
    rw [compare_key (hn x (h.docs_left ▸ List.mem_append_left _ hx))
      (hn y (h.docs_left ▸ List.mem_append_right _ hy))]
    exact h.lt_left hs hn hr x hx y hy

/-- Where the boundary is zero, every document of the bucket is. -/
theorem Turn.zeros (h : Turn S r isLast previousMax cur rest b c taken more boundary)
    (hz : isNumericZero boundary = true) : ∀ x ∈ b.docs, isNumericZero x.value = true := by
  obtain ⟨htop, hle⟩ := h.le_largest hs hn
  obtain ⟨hbn, hlt, -⟩ := h.boundary_spec hs hn hr
  have hb0 := (isNumericZero_iff hbn).mp hz
  have htn : IsNumber (curMax cur taken) := (hn _ htop).number
  have hl0 : amount (curMax cur taken) = .fin 0 := by
    rcases Ordering.isLE_iff_eq_lt_or_eq_eq.mp (hn _ htop).nonneg with hpos | heq
    · have hback := hlt hpos
      rw [hb0, ← Std.OrientedCmp.gt_iff_lt] at hback
      exact absurd (hback.symm.trans hpos) (by decide)
    · exact ((Quantity.cmp_eq_iff _ _).mp heq).symm
  intro x hx
  have hxc := hn x (h.docs_left ▸ List.mem_append_left _ hx)
  refine (isNumericZero_iff hxc.number).mpr (Eq.symm ((Quantity.cmp_eq_iff _ _).mp ?_))
  refine (Ordering.isLE_iff_eq_lt_or_eq_eq.mp hxc.nonneg).resolve_left fun hpos => ?_
  rcases h.mem_docs.mp hx with hx | hx
  · have hxl := hle x hx
    rw [hl0, Ordering.isLE_iff_ne_gt] at hxl
    exact hxl (Std.OrientedCmp.gt_iff_lt.mpr hpos)
  · rcases h.absorbed x hx with hgt | heq
    · rw [cmp_number hbn hxc.number, hb0, hpos] at hgt
      cases hgt
    · rw [cmp_number htn hxc.number, hl0, hpos] at heq
      cases heq

theorem Turn.lt_boundary (h : Turn S r isLast previousMax cur rest b c taken more boundary)
    (hz : isNumericZero boundary = false) : ∀ x ∈ b.docs, (amount x.value).cmp (amount boundary) = .lt := by
  obtain ⟨htop, hle⟩ := h.le_largest hs hn
  obtain ⟨hbn, hlt, hge⟩ := h.boundary_spec hs hn hr
  have htn : IsNumber (curMax cur taken) := (hn _ htop).number
  have hlb : (amount (curMax cur taken)).cmp (amount boundary) = .lt := by
    rcases Ordering.isLE_iff_eq_lt_or_eq_eq.mp (hn _ htop).nonneg with hpos | heq
    · exact hlt hpos
    · change (Quantity.cmp (.fin 0) (amount (curMax cur taken))) = .eq at heq
      rw [← Std.TransCmp.congr_left heq]
      refine (Ordering.isLE_iff_eq_lt_or_eq_eq.mp (hge heq)).resolve_right fun hb0 => ?_
      rw [(isNumericZero_iff hbn).mpr ((Quantity.cmp_eq_iff _ _).mp hb0).symm] at hz
      cases hz
  intro x hx
  have hxc := hn x (h.docs_left ▸ List.mem_append_left _ hx)
  rcases h.mem_docs.mp hx with hx | hx
  · exact Std.TransCmp.lt_of_isLE_of_lt (hle x hx) hlb
  · rcases h.absorbed x hx with hgt | heq
    · rw [cmp_number hbn hxc.number] at hgt
      exact Std.OrientedCmp.gt_iff_lt.mp hgt
    · rw [cmp_number htn hxc.number] at heq
      rw [← Std.TransCmp.congr_left heq]
      exact hlb

/-- The upper end: a number at most every document left, and above every one of the bucket unless it is a bucket
    of zeros. -/
theorem Turn.max_spec (h : Turn S r isLast previousMax cur rest b c taken more boundary) :
    IsNumber b.max ∧ (∀ y ∈ c.left, ((amount b.max).cmp (amount y.value)).isLE) ∧
      ((∀ x ∈ b.docs, (amount x.value).cmp (amount b.max) = .lt) ∨ ZeroBucket r b c.left) := by
  have hleft : ∀ y ∈ c.left, y ∈ cur :: rest := fun y hy => h.docs_left ▸ List.mem_append_right _ hy
  obtain ⟨hbn, -, -⟩ := h.boundary_spec hs hn hr
  have hfrom : ∀ next ∈ c.left.head?, ((amount b.max).cmp (amount next.value)).isLE →
      ∀ y ∈ c.left, ((amount b.max).cmp (amount y.value)).isLE := by
    intro next hnext hle y hy
    obtain ⟨left', hc⟩ := List.head?_eq_some_iff.mp hnext
    have hkey := head_le (hc ▸ (hs.rest h.docs_left)) y (hc ▸ hy)
    rw [compare_key (hn _ (hleft next (List.mem_of_mem_head? hnext))) (hn _ (hleft y hy))] at hkey
    exact Std.TransCmp.isLE_trans hle hkey
  cases hz : isNumericZero boundary with
  | false =>
    rw [h.max (.inl hz)] at hfrom ⊢
    refine ⟨hbn, fun y hy => ?_, .inl (h.lt_boundary hs hn hr hz)⟩
    obtain ⟨next, left', hc⟩ := List.exists_cons_of_ne_nil (List.ne_nil_of_mem hy)
    have hnext : next ∈ c.left.head? := by rw [hc]; rfl
    refine hfrom next hnext ?_ y hy
    have hnot := (h.stopped next hnext).1
    rw [cmp_number hbn (hn _ (hleft next (List.mem_of_mem_head? hnext))).number] at hnot
    exact Ordering.isLE_iff_ne_gt.mpr hnot
  | true =>
    have htop := h.mem_docs.mpr (.inl (List.mem_of_getLast? (getLast_share cur taken)))
    cases hhead : c.left.head? with
    | none =>
      have hmax := h.max (.inr hhead)
      refine ⟨hmax ▸ hbn, ?_, .inr ⟨h.zeros hs hn hr hz, _, htop, boundary, h.up, hz, ?_⟩⟩
      · rw [List.head?_eq_none_iff.mp hhead]
        nofun
      · rw [hhead]
        exact hmax
    | some next =>
      have hnext : next ∈ c.left := List.mem_of_mem_head? hhead
      have hdown := h.max_zero hz next hhead
      have hrounds := hr next (hleft next hnext)
      have hdn := hrounds.down_number _ hdown
      have hle := hrounds.down_le _ hdown
      rw [cmp_number hdn (hn _ (hleft next hnext)).number] at hle
      refine ⟨hdn, hfrom next hhead hle, .inr ⟨h.zeros hs hn hr hz, _, htop, boundary, h.up, hz, ?_⟩⟩
      rw [hhead]
      exact hdown

end turn

/-! ## The loop -/

/-- Where the ends of a granularity's buckets lie. -/
structure GranularEnds (S : Stage) (r : Rounder) (bs : List Bucket) : Prop where
  min : ∀ b ∈ bs, ∀ x ∈ b.docs, (BsonOrder.cmp S.order b.min x.value).isLE
  below : ∀ before b after, bs = before ++ b :: after →
    (∀ x ∈ b.docs, BsonOrder.cmp S.order x.value b.max = .lt) ∨ ZeroBucket r b (after.flatMap (·.docs))

theorem Cursor.next_none {c : Cursor} (h : c.next = none) : c.left = [] := by
  obtain ⟨carry, rest⟩ := c
  cases carry with
  | some x => cases h
  | none =>
    cases rest with
    | nil => rfl
    | cons y ys => cases h

theorem Cursor.next_some {c : Cursor} {cur : Keyed} {rest : List Keyed} (h : c.next = some (cur, rest)) :
    c.left = cur :: rest := by
  obtain ⟨carry, rest'⟩ := c
  cases carry with
  | some x =>
    cases h
    rfl
  | none =>
    cases rest' with
    | nil => cases h
    | cons y ys =>
      cases h
      rfl

/-- The loop of a granularity, from any turn on. -/
theorem granularBuckets_spec {S : Stage} {r : Rounder} {approx n : ℕ} :
    ∀ {fuel num : ℕ} {previousMax : Option Bson} {c : Cursor} {out : List Document},
      c.left.length ≤ fuel → (c.left ≠ [] → num < n) → Sorted c.left → (∀ x ∈ c.left, Counted x) →
      (∀ x ∈ c.left, r.Rounds S.order x.value) →
      (∀ p ∈ previousMax, IsNumber p ∧ ∀ y ∈ c.left, ((amount p).cmp (amount y.value)).isLE) →
      granularBuckets S r approx n fuel num previousMax c = .ok out →
      ∃ bs : List Bucket, bs.mapM S.accumulate = .ok out ∧ Split c.left bs ∧ bs.length ≤ n - num ∧
        GranularEnds S r bs ∧ ∀ b ∈ bs.head?, ∀ p ∈ previousMax, b.min = p := by
  intro fuel
  induction fuel with
  | zero =>
    intro num previousMax c out hfuel _ _ _ _ _ hout
    rw [List.eq_nil_of_length_eq_zero (Nat.le_zero.mp hfuel)]
    cases hout
    exact ⟨[], rfl, Split.nil, Nat.zero_le _, ⟨nofun, by simp⟩, nofun⟩
  | succ fuel ih =>
    intro num previousMax c out hfuel hnum hs hn hr hprev hout
    rw [granularBuckets] at hout
    cases hnext : c.next with
    | none =>
      rw [hnext] at hout
      rw [Cursor.next_none hnext]
      cases hout
      exact ⟨[], rfl, Split.nil, Nat.zero_le _, ⟨nofun, by simp⟩, nofun⟩
    | some p =>
      obtain ⟨cur, rest⟩ := p
      rw [Cursor.next_some hnext] at hfuel hnum hs hn hr hprev ⊢
      rw [hnext] at hout
      obtain ⟨⟨b, c'⟩, hb, hout⟩ := Outcome.bind_eq_ok.mp hout
      obtain ⟨d, hd, hout⟩ := Outcome.bind_eq_ok.mp hout
      obtain ⟨ds, hds, hout⟩ := Outcome.bind_eq_ok.mp hout
      cases hout
      obtain ⟨taken, more, boundary, turn⟩ := granularBucket_turn hb
      have hcut := turn.cut hs hn hr
      obtain ⟨hmaxn, hmaxle, hbelow⟩ := turn.max_spec hs hn hr
      have hin : ∀ x ∈ c'.left, x ∈ cur :: rest := fun x hx => hcut.whole ▸ List.mem_append_right _ hx
      have hdocs : ∀ x ∈ b.docs, x ∈ cur :: rest := fun x hx => hcut.whole ▸ List.mem_append_left _ hx
      have hlen : c'.left.length ≤ fuel := by
        have hl := congrArg List.length hcut.whole
        have hpos := List.length_pos_of_ne_nil hcut.nonempty
        rw [List.length_append, List.length_cons] at hl
        rw [List.length_cons] at hfuel
        omega
      have hlt : num < n := hnum (List.cons_ne_nil _ _)
      have hnum' : c'.left ≠ [] → num + 1 < n := by
        intro hne
        by_contra hge
        refine hne (turn.last (beq_iff_eq.mpr ?_))
        omega
      obtain ⟨bs, hbs, hsplit, hcount, hends, hhead⟩ := ih hlen hnum' (hs.rest hcut.whole)
        (fun x hx => hn x (hin x hx)) (fun x hx => hr x (hin x hx))
        (fun p hp => by rw [← Option.some.inj hp]; exact ⟨hmaxn, hmaxle⟩) hds
      -- The lower end: the last bucket's upper one, or the first value rounded down.
      have hmin : ∀ x ∈ b.docs, (BsonOrder.cmp S.order b.min x.value).isLE := by
        intro x hx
        have hxn := (hn x (hdocs x hx)).number
        cases previousMax with
        | some p =>
          obtain ⟨hpn, hple⟩ := hprev p rfl
          rw [turn.min.1 p rfl, cmp_number hpn hxn]
          exact hple x (hdocs x hx)
        | none =>
          have hdown := turn.min.2 rfl
          have hcur := hn cur List.mem_cons_self
          have hrounds := hr cur List.mem_cons_self
          have hdn := hrounds.down_number _ hdown
          have hdle := hrounds.down_le _ hdown
          rw [cmp_number hdn hcur.number] at hdle
          rw [cmp_number hdn hxn]
          have hkey := head_le hs x (hdocs x hx)
          rw [compare_key hcur (hn x (hdocs x hx))] at hkey
          exact Std.TransCmp.isLE_trans hdle hkey
      refine ⟨b :: bs, ?_, hsplit.cons hcut fun c hc => (hhead c hc _ rfl).symm, ?_, ⟨?_, ?_⟩, ?_⟩
      · rw [List.mapM_cons, hd, hbs]
        rfl
      · rw [List.length_cons]
        omega
      · intro b' hb'
        rcases List.mem_cons.mp hb' with rfl | hb'
        · exact hmin
        · exact hends.min b' hb'
      · intro before b' after heq
        cases before with
        | nil =>
          obtain ⟨rfl, rfl⟩ := List.cons.inj heq
          rw [hsplit.whole]
          refine hbelow.imp_left fun hall x hx => ?_
          rw [cmp_number (hn x (hdocs x hx)).number hmaxn]
          exact hall x hx
        | cons _ before => exact hends.below before b' after (List.cons.inj heq).2
      · intro b' hb' p hp
        rw [← Option.some.inj hb']
        exact turn.min.1 p hp

/-- The roundings of a value give something. -/
def Rounder.Defined (r : Rounder) (v : Bson) : Prop := (∃ u, r.up v = .ok u) ∧ ∃ d, r.down v = .ok d

theorem granularBucket_ok (S : Stage) {r : Rounder} {cur : Keyed} {rest : List Keyed}
    (hr : ∀ x ∈ cur :: rest, r.Defined x.value) (approx : ℕ) (isLast : Bool) (previousMax : Option Bson) :
    ∃ b c, granularBucket S r approx isLast previousMax cur rest = .ok (b, c) := by
  obtain ⟨low, hlow⟩ : ∃ low, curMin r previousMax cur = .ok low := by
    cases previousMax with
    | some p => exact ⟨p, rfl⟩
    | none => exact (hr cur List.mem_cons_self).2
  have hshare := fill_append approx isLast 1 rest
  have htop : (fill approx isLast 1 rest).1.getLastD cur ∈ cur :: rest := by
    rcases List.mem_cons.mp (List.mem_of_getLast? (getLast_share cur (fill approx isLast 1 rest).1)) with h | h
    · rw [h]
      exact List.mem_cons_self
    · have hmem := List.mem_append_left (fill approx isLast 1 rest).2 h
      rw [hshare] at hmem
      exact List.mem_cons_of_mem _ hmem
  obtain ⟨boundary, hup⟩ := (hr _ htop).1
  have hbehind : ∀ falls, ∀ x ∈ (absorb falls (fill approx isLast 1 rest).2).2.carry, x ∈ cur :: rest := by
    intro falls x hx
    have hleft := absorb_left falls (fill approx isLast 1 rest).2
    have hx' := List.mem_of_mem_head? (((absorb_carry falls (fill approx isLast 1 rest).2).1).symm ▸ hx)
    refine List.mem_cons_of_mem _ ?_
    rw [← hshare, ← hleft]
    exact List.mem_append_right _ (List.mem_append_right _ hx')
  obtain ⟨high, hhigh⟩ : ∃ high, bucketMax r boundary (absorb
      (fun v => BsonOrder.cmp S.order boundary v == .gt ||
        BsonOrder.cmp S.order (curMax cur (fill approx isLast 1 rest).1) v == .eq)
      (fill approx isLast 1 rest).2).2.carry = .ok high := by
    unfold bucketMax
    split
    · rename_i next hnext
      split
      · exact (hr next (hbehind _ next hnext)).2
      · exact ⟨_, rfl⟩
    · exact ⟨_, rfl⟩
  unfold granularBucket
  exact ⟨_, _, Outcome.bind_eq_ok.mpr ⟨low, hlow, Outcome.bind_eq_ok.mpr ⟨boundary, hup,
    Outcome.bind_eq_ok.mpr ⟨high, hhigh, rfl⟩⟩⟩⟩

theorem granularBuckets_ok {S : Stage} {r : Rounder} (hacc : ∀ b, ∃ d, S.accumulate b = .ok d)
    {approx n : ℕ} : ∀ {fuel num : ℕ} {previousMax : Option Bson} {c : Cursor},
      (∀ x ∈ c.left, r.Defined x.value) → ∃ out, granularBuckets S r approx n fuel num previousMax c = .ok out := by
  intro fuel
  induction fuel with
  | zero => exact fun _ => ⟨[], rfl⟩
  | succ fuel ih =>
    intro num previousMax c hr
    rw [granularBuckets]
    cases hnext : c.next with
    | none => exact ⟨[], rfl⟩
    | some p =>
      obtain ⟨cur, rest⟩ := p
      rw [Cursor.next_some hnext] at hr
      obtain ⟨b, c', hb⟩ := granularBucket_ok S hr approx (num + 1 == n) previousMax
      obtain ⟨taken, more, boundary, turn⟩ := granularBucket_turn hb
      obtain ⟨d, hd⟩ := hacc b
      obtain ⟨ds, hds⟩ : ∃ ds, granularBuckets S r approx n fuel (num + 1) (some b.max) c' = .ok ds :=
        ih fun x hx => hr x (turn.docs_left ▸ List.mem_append_right _ hx)
      exact ⟨d :: ds, Outcome.bind_eq_ok.mpr ⟨_, hb, Outcome.bind_eq_ok.mpr ⟨d, hd,
        Outcome.bind_eq_ok.mpr ⟨ds, hds, rfl⟩⟩⟩⟩

/-! ## The stage -/

/-- The sorted documents: those given, each under its group value's key. -/
structure Keys (S : Stage) (granular : Bool) (docs : List Document) (keyed : List Keyed) : Prop where
  perm : (keyed.map (·.doc)).Perm docs
  value : ∀ x ∈ keyed, groupValue S granular x.doc = .ok x.value
  key : ∀ x ∈ keyed, S.encodeSortValue x.value = .ok x.key
  sorted : Sorted keyed

theorem forall₂_trans {α β γ : Type} {R : α → β → Prop} {Q : β → γ → Prop} {l : List α} {m : List β}
    {n : List γ} (h : List.Forall₂ R l m) (h' : List.Forall₂ Q m n) :
    List.Forall₂ (fun a c => ∃ b, R a b ∧ Q b c) l n := by
  induction h generalizing n with
  | nil =>
    cases h'
    exact List.Forall₂.nil
  | cons hab _ ih =>
    cases h' with
    | cons hbc h' => exact List.Forall₂.cons ⟨_, hab, hbc⟩ (ih h')

theorem leKey_trans (a b c : Keyed) (hab : leKey a b = true) (hbc : leKey b c = true) : leKey a c = true := by
  unfold leKey at hab hbc ⊢
  exact Std.TransCmp.isLE_trans hab hbc

theorem leKey_total (a b : Keyed) : (leKey a b || leKey b a) = true := by
  unfold leKey
  have hswap : compare b.key a.key = (compare a.key b.key).swap := Std.OrientedCmp.eq_swap
  rw [hswap]
  cases compare a.key b.key <;> rfl

theorem sortedKeyed_keys {S : Stage} {granular : Bool} {docs : List Document} {keyed : List Keyed}
    (h : sortedKeyed S granular docs = .ok keyed) : Keys S granular docs keyed := by
  unfold sortedKeyed at h
  obtain ⟨pairs, hpairs, h⟩ := Outcome.bind_eq_ok.mp h
  obtain ⟨_, -, h⟩ := Outcome.bind_eq_ok.mp h
  obtain ⟨ks, hks, h⟩ := Outcome.bind_eq_ok.mp h
  obtain rfl := Except.ok.inj h
  have hp := (Outcome.forall₂_of_mapM hpairs).imp fun d p hdp => by
    obtain ⟨v, hv, hdp⟩ := Outcome.bind_eq_ok.mp hdp
    exact (show groupValue S granular p.2 = .ok p.1 ∧ p.2 = d by
      obtain rfl := Except.ok.inj hdp
      exact ⟨hv, rfl⟩)
  have hk := (Outcome.forall₂_of_mapM hks).imp fun p k hpk => by
    obtain ⟨b, hb, hpk⟩ := Outcome.bind_eq_ok.mp hpk
    exact (show S.encodeSortValue k.value = .ok k.key ∧ k.value = p.1 ∧ k.doc = p.2 by
      obtain rfl := Except.ok.inj hpk
      exact ⟨hb, rfl, rfl⟩)
  have hboth : List.Forall₂ (fun d k => d = k.doc ∧ groupValue S granular k.doc = .ok k.value ∧
      S.encodeSortValue k.value = .ok k.key) docs ks := by
    refine (forall₂_trans hp hk).imp fun d k ⟨p, hdp, hpk⟩ => ⟨?_, ?_, hpk.1⟩
    · rw [hpk.2.2, hdp.2]
    · rw [hpk.2.2, hpk.2.1, hdp.1]
  have hmap : docs = ks.map (·.doc) := by
    rw [← List.forall₂_eq_eq_eq, List.forall₂_map_right_iff]
    exact hboth.imp fun d k h => h.1
  have hall := Outcome.forall_mem_of_forall₂ (fun d k hk => hk.2) hboth
  have hperm := ks.mergeSort_perm leKey
  refine ⟨?_, fun x hx => (hall x (hperm.mem_iff.mp hx)).1, fun x hx => (hall x (hperm.mem_iff.mp hx)).2, ?_⟩
  · rw [hmap]
    exact hperm.map _
  · exact List.pairwise_mergeSort leKey_trans leKey_total ks

/-- The group values of a granularity are numbers from zero on. -/
theorem Keys.counted {S : Stage} {docs : List Document} {keyed : List Keyed} (h : Keys S true docs keyed) :
    ∀ x ∈ keyed, Counted x := by
  intro x hx
  have hv := h.value x hx
  rw [groupValue, if_pos rfl] at hv
  obtain ⟨v, -, hv⟩ := Outcome.bind_eq_ok.mp hv
  cases he : granularityValueError v with
  | some e =>
    rw [he] at hv
    cases hv
  | none =>
    rw [he] at hv
    cases v with
    | none => cases he
    | some v =>
      obtain rfl : v = x.value := Except.ok.inj hv
      obtain ⟨hnum, hge⟩ := nonneg_of_valueError he
      have hkey := h.key x hx
      rw [S.number _ _ hnum] at hkey
      exact ⟨hnum, hge, (Except.ok.inj hkey).symm⟩

/-- What the buckets of a mode are: in the plain mode they end at documents' values, in that of a granularity at
    rounded ones, and there the values of two buckets differ as numbers too. -/
def Ends (S : Stage) (keyed : List Keyed) (bs : List Bucket) : Option Rounder → Prop
  | none => PlainEnds keyed bs
  | some r => GranularEnds S r bs ∧
      bs.Pairwise fun b c => ∀ x ∈ b.docs, ∀ y ∈ c.docs, BsonOrder.cmp S.order x.value y.value = .lt

/-- $bucketAuto partitions its input: what it returns is accumulated from at most `nBuckets` buckets, none of them
    empty, which hold each document once, in the order of the group values' keys, with no key in two of them and
    each one's upper end the next one's lower end. And it returns unless what it calls fails. -/
theorem bucketAutoStage_partitions (S : Stage) {nBuckets : ℕ} (hn : 1 ≤ nBuckets) (granularity : Option Rounder)
    (docs : List Document)
    (hr : ∀ r ∈ granularity, ∀ d ∈ docs, ∀ v, groupValue S true d = .ok v → r.Rounds S.order v) :
    (∀ out, bucketAutoStage S nBuckets granularity docs = .ok out →
      ∃ keyed bs, Keys S granularity.isSome docs keyed ∧ bs.mapM S.accumulate = .ok out ∧ Split keyed bs ∧
        bs.length ≤ nBuckets ∧ Ends S keyed bs granularity) ∧
    ((∃ keyed, sortedKeyed S granularity.isSome docs = .ok keyed) → (∀ b, ∃ d, S.accumulate b = .ok d) →
      (∀ r ∈ granularity, ∀ d ∈ docs, ∀ v, groupValue S true d = .ok v → r.Defined v) →
      ∃ out, bucketAutoStage S nBuckets granularity docs = .ok out) := by
  constructor
  · intro out hout
    obtain ⟨keyed, hkeyed, hout⟩ := Outcome.bind_eq_ok.mp hout
    have hkeys := sortedKeyed_keys hkeyed
    cases granularity with
    | none =>
      obtain ⟨bs, hbs, hsplit, hlen, hends, -⟩ :=
        plainBuckets_spec S (Nat.le_max_left _ _) hkeys.sorted (fun _ => hn) hout
      exact ⟨keyed, bs, hkeys, hbs, hsplit, hlen, hends⟩
    | some r =>
      have hrounds : ∀ x ∈ keyed, r.Rounds S.order x.value := fun x hx =>
        hr r rfl x.doc (hkeys.perm.mem_iff.mp (List.mem_map_of_mem hx)) _ (hkeys.value x hx)
      obtain ⟨bs, hbs, hsplit, hlen, hends, -⟩ :=
        granularBuckets_spec (c := ⟨none, keyed⟩) (Nat.le_refl _) (fun _ => hn) hkeys.sorted hkeys.counted
          hrounds (by nofun) hout
      refine ⟨keyed, bs, hkeys, hbs, hsplit, hlen, hends, ?_⟩
      refine hsplit.apart.imp_of_mem fun {b c} hb hc h x hx y hy => ?_
      have hxc := hkeys.counted x (hsplit.mem hb hx)
      have hyc := hkeys.counted y (hsplit.mem hc hy)
      rw [cmp_number hxc.number hyc.number, ← compare_key hxc hyc]
      exact h x hx y hy
  · rintro ⟨keyed, hkeyed⟩ hacc hdef
    have hkeys := sortedKeyed_keys hkeyed
    cases granularity with
    | none =>
      obtain ⟨out, hout⟩ := plainBuckets_ok S hacc (max 1 (S.quotient keyed.length nBuckets)) nBuckets keyed
      exact ⟨out, Outcome.bind_eq_ok.mpr ⟨keyed, hkeyed, hout⟩⟩
    | some r =>
      have hdefined : ∀ x ∈ (Cursor.mk none keyed).left, r.Defined x.value := fun x hx =>
        hdef r rfl x.doc (hkeys.perm.mem_iff.mp (List.mem_map_of_mem hx)) _ (hkeys.value x hx)
      obtain ⟨out, hout⟩ : ∃ out, granularBuckets S r (max 1 (S.quotient keyed.length nBuckets)) nBuckets
          keyed.length 0 none ⟨none, keyed⟩ = .ok out := granularBuckets_ok hacc hdefined
      exact ⟨out, Outcome.bind_eq_ok.mpr ⟨keyed, hkeyed, hout⟩⟩

/-- Documents grouped by their field `x` and counted. -/
def counting : Stage where
  eval d := .ok ((Document.get d "x").getD .null)
  evalOrMissing d := .ok (Document.get d "x")
  blockingSort _ := .ok ()
  encodeSortValue v := (encodeValue .mongod v).mapError fun _ => .defer
  number v q h := by
    cases v <;> first
      | rfl
      | cases h
  order := .mongod
  quotient n b := (2 * n + b) / (2 * b)
  accumulateInto id docs := .ok [("_id", id), ("count", .int32 (Int32.ofNat docs.length))]

/-- A granularity that rounds to the double and to the half. -/
def doubling : Rounder where
  up
    | .int32 n => .ok (.int32 (2 * n))
    | _ => .error .defer
  down
    | .int32 n => .ok (.int32 (n / 2))
    | _ => .error .defer

theorem cmp_int32 (o : BinDataOrder) (a b : Int32) :
    BsonOrder.cmp o (.int32 a) (.int32 b) = compare (a.toInt : ℚ) b.toInt :=
  cmp_number (isNumber_of_some rfl) (isNumber_of_some rfl)

theorem doubling_rounds {n : Int32} (hdown : (n / 2).toInt ≤ n.toInt) (hup : 0 < n.toInt → n.toInt < (2 * n).toInt)
    (hzero : n.toInt = 0 → 0 ≤ (2 * n).toInt) : doubling.Rounds .mongod (.int32 n) where
  up_number u hu := by
    cases hu
    rfl
  down_number d hd := by
    cases hd
    rfl
  down_le d hd := by
    cases hd
    rw [cmp_int32, Ordering.isLE_iff_ne_gt]
    exact compare_le_iff_le.mpr (Int.cast_le.mpr hdown)
  lt_up u hu h := by
    cases hu
    rw [cmp_int32] at h ⊢
    exact compare_lt_iff_lt.mpr (Int.cast_lt.mpr (hup (Int.cast_lt.mp (compare_lt_iff_lt.mp h))))
  zero_le_up u hu h := by
    cases hu
    rw [cmp_int32] at h ⊢
    exact isLE_zero (Int.cast_nonneg (hzero (Int.cast_inj.mp (compare_eq_iff_eq.mp h).symm)))

theorem counting_one (n : Int32) (h : granularityValueError (some (.int32 n)) = none) :
    bucketAutoStage counting 1 (some doubling) [[("x", .int32 n)]] =
      .ok [[("_id", .document [("min", .int32 (n / 2)), ("max", .int32 (2 * n))]), ("count", .int32 1)]] := by
  have hvalue : groupValue counting true [("x", .int32 n)] = .ok (.int32 n) := by
    have hread : counting.evalOrMissing [("x", .int32 n)] = .ok (some (.int32 n)) := rfl
    unfold groupValue
    rw [if_pos rfl, hread]
    dsimp only [bind, Except.bind]
    rw [h]
    rfl
  have hkeyed : sortedKeyed counting true [[("x", .int32 n)]] =
      .ok [⟨rankNumber :: encodeNumber (.int32 n), .int32 n, [("x", .int32 n)]⟩] := by
    unfold sortedKeyed
    rw [List.mapM_cons, hvalue]
    change Except.ok (List.mergeSort [_] leKey) = _
    rw [List.mergeSort_singleton]
  unfold bucketAutoStage
  change (sortedKeyed counting true [[("x", .int32 n)]] >>= _) = _
  rw [hkeyed]
  rfl

/-- One document in a bucket from its half to its double. -/
theorem bucketAutoStage_partitions_one :
    bucketAutoStage counting 1 (some doubling) [[("x", .int32 3)]] =
        .ok [[("_id", .document [("min", .int32 1), ("max", .int32 6)]), ("count", .int32 1)]] ∧
      ∃ keyed bs, Keys counting true [[("x", .int32 3)]] keyed ∧
        bs.mapM counting.accumulate =
          .ok [[("_id", .document [("min", .int32 1), ("max", .int32 6)]), ("count", .int32 1)]] ∧
        Split keyed bs ∧ bs.length ≤ 1 ∧ Ends counting keyed bs (some doubling) := by
  have heval := counting_one 3 (by rfl)
  refine ⟨heval, (bucketAutoStage_partitions counting (Nat.le_refl 1) (some doubling) [[("x", .int32 3)]] ?_).1 _
    heval⟩
  intro r hr d hd v hv
  obtain rfl : doubling = r := Option.some.inj hr
  obtain rfl := List.mem_singleton.mp hd
  obtain rfl : .int32 3 = v := Except.ok.inj hv
  exact doubling_rounds (by decide) (by decide) (by decide)

/-- A zero may round up to zero: the bucket it is alone in then ends at it. -/
theorem bucketAutoStage_zero :
    doubling.Rounds .mongod (.int32 0) ∧
      bucketAutoStage counting 1 (some doubling) [[("x", .int32 0)]] =
        .ok [[("_id", .document [("min", .int32 0), ("max", .int32 0)]), ("count", .int32 1)]] ∧
      BsonOrder.cmp .mongod (.int32 0) (.int32 0) ≠ .lt :=
  ⟨doubling_rounds (by decide) (by decide) (by decide), counting_one 0 (by rfl), by decide⟩

end Secantus.BucketAuto
