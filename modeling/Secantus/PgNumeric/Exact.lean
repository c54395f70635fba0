/-
  A numeric predicate selects exactly the rows PostgreSQL's comparison is true of.

  * `narrow_exact`: comparing a decimal with the constant's bracket is comparing it with the constant;
  * `matchesFilter_numericFilter`: the filter of a comparison;
  * `matchesFilter_numericInFilter`: the filter of a list.
-/
import Secantus.PgNumeric.Select

namespace Secantus.PgNumeric

open Secantus Bson BsonOrder Query

/-! ## The order, NaN apart -/

theorem lt_bottom {y : Quantity} : y.cmp .nan ≠ .lt ∧ (y.cmp .negInf = .lt → y = .nan) := by
  cases y with
  | nan => exact ⟨nofun, fun _ => rfl⟩
  | negInf => exact ⟨nofun, nofun⟩
  | posInf => exact ⟨nofun, nofun⟩
  | fin q => exact ⟨nofun, nofun⟩

theorem cmp_lt_trans {x y z : Quantity} (h : x.cmp y = .lt) (h' : y.cmp z = .lt) : x.cmp z = .lt := by
  have hy : y ≠ .nan := by
    rintro rfl
    exact lt_bottom.1 h
  cases z with
  | nan => exact absurd h' lt_bottom.1
  | negInf => exact absurd (lt_bottom.2 h') hy
  | posInf =>
    cases x with
    | posInf => cases y <;> cases h
    | nan => rfl
    | negInf => rfl
    | fin p => rfl
  | fin r =>
    cases x with
    | nan => rfl
    | negInf => rfl
    | posInf => cases y <;> cases h
    | fin p =>
      cases y with
      | nan => exact absurd rfl hy
      | negInf => cases h
      | posInf => cases h'
      | fin q => exact compare_lt_iff_lt.mpr ((compare_lt_iff_lt.mp h).trans (compare_lt_iff_lt.mp h'))

theorem cmp_gt_iff {x y : Quantity} : x.cmp y = .gt ↔ y.cmp x = .lt := by
  rw [← Quantity.cmp_swap y x]
  cases y.cmp x <;> decide

theorem pgCmp_of_ne {x y : Quantity} (hx : x ≠ .nan) (hy : y ≠ .nan) : pgCmp x y = x.cmp y := by
  cases x with
  | nan => exact absurd rfl hx
  | negInf => cases y <;> first | exact absurd rfl hy | rfl
  | posInf => cases y <;> first | exact absurd rfl hy | rfl
  | fin p => cases y <;> first | exact absurd rfl hy | rfl

theorem partialCmp_of_ne {x y : Quantity} (hx : x ≠ .nan) (hy : y ≠ .nan) : x.partialCmp y = some (x.cmp y) := by
  cases x with
  | nan => exact absurd rfl hx
  | negInf => cases y <;> first | exact absurd rfl hy | rfl
  | posInf => cases y <;> first | exact absurd rfl hy | rfl
  | fin p => cases y <;> first | exact absurd rfl hy | rfl

theorem pgCmp_nan {y : Quantity} (hy : y ≠ .nan) : pgCmp .nan y = .gt ∧ pgCmp y .nan = .lt := by
  cases y with
  | nan => exact absurd rfl hy
  | negInf => exact ⟨rfl, rfl⟩
  | posInf => exact ⟨rfl, rfl⟩
  | fin q => exact ⟨rfl, rfl⟩

/-- Where a decimal is beside a constant between two neighbours: at most the lower or at least the upper. -/
theorem beside_between {lo hi d : Decimal128} {x : Quantity} (h : (Bracket.between lo hi).Holds x) :
    (d.quantity.cmp x = .lt ∧ d.quantity.cmp lo.quantity ≠ .gt ∧ d.quantity.cmp hi.quantity = .lt) ∨
      (d.quantity.cmp x = .gt ∧ d.quantity.cmp lo.quantity = .gt ∧ d.quantity.cmp hi.quantity ≠ .lt) := by
  obtain ⟨-, hlo, hhi, hnone⟩ := h
  have hne : d.quantity.cmp x ≠ .eq := by
    intro heq
    rw [Quantity.cmp_eq_iff] at heq
    rw [← heq] at hlo hhi
    exact hnone d ⟨hlo, hhi⟩
  cases hc : d.quantity.cmp x with
  | eq => exact absurd hc hne
  | lt =>
    have hd := cmp_lt_trans hc hhi
    exact .inl ⟨rfl, fun hgt => hnone d ⟨cmp_gt_iff.mp hgt, hd⟩, hd⟩
  | gt =>
    have hd := cmp_lt_trans hlo (cmp_gt_iff.mp hc)
    exact .inr ⟨rfl, cmp_gt_iff.mpr hd, fun hlt => hnone d ⟨hd, hlt⟩⟩

/-! ## The narrow arm -/

/-- What the narrow arm asks of a stored decimal. -/
def narrowTest (op : Comparison) (b : Bracket) (x : Quantity) : Bool :=
  match op, b.ends with
  | .eq, (true, lo, _) => x.cmp lo.quantity == .eq
  | .eq, (false, _, _) => false
  | .ne, (true, lo, _) => !(x.cmp lo.quantity == .eq)
  | .ne, (false, _, _) => true
  | .gt, (true, lo, _) => (x.partialCmp lo.quantity).any Comparison.gt.holds
  | .gt, (false, _, hi) => (x.partialCmp hi.quantity).any Comparison.ge.holds
  | .ge, (exact, lo, hi) => (x.partialCmp (if exact then lo else hi).quantity).any Comparison.ge.holds
  | .lt, (true, lo, _) => (x.partialCmp lo.quantity).any Comparison.lt.holds
  | .lt, (false, lo, _) => (x.partialCmp lo.quantity).any Comparison.le.holds
  | .le, (_, lo, _) => (x.partialCmp lo.quantity).any Comparison.le.holds

/-- Whether the NaN rows have an arm of their own. -/
def nanAbove : Comparison → Bool
  | .gt | .ge => true
  | _ => false

theorem between_ne_nan {lo hi : Decimal128} {x : Quantity} (h : (Bracket.between lo hi).Holds x) :
    hi.quantity ≠ .nan := by
  intro hq
  have hhi := h.2.2.1
  rw [hq] at hhi
  cases x <;> cases hhi

/-- Comparing a decimal with the bracket of a constant is comparing it with the constant. -/
theorem narrow_exact (op : Comparison) {b : Bracket} {c : Quantity} (hb : b.Holds c) (hc : c ≠ .nan)
    (d : Decimal128) :
    (narrowTest op b d.quantity || (nanAbove op && (d.quantity.cmp .nan == .eq))) =
      op.holds (pgCmp d.quantity c) := by
  by_cases hd : d.quantity = .nan
  · rw [hd, (pgCmp_nan hc).1]
    cases b with
    | exact lo =>
      obtain rfl : lo.quantity = c := hb
      have hlt : Quantity.nan.cmp lo.quantity = .lt := by
        cases hq : lo.quantity with
        | nan => exact absurd hq hc
        | negInf => rfl
        | posInf => rfl
        | fin q => rfl
      cases op <;> simp [narrowTest, Bracket.ends, nanAbove, hlt, Quantity.partialCmp, Comparison.holds] <;> rfl
    | between lo hi =>
      cases op <;> simp [narrowTest, Bracket.ends, nanAbove, Quantity.partialCmp, Comparison.holds, Quantity.cmp]
  · have hnan : (d.quantity.cmp .nan == .eq) = false := by
      rw [beq_eq_false_iff_ne, Ne, Quantity.cmp_eq_iff]
      exact hd
    rw [hnan, Bool.and_false, Bool.or_false, pgCmp_of_ne hd hc]
    cases b with
    | exact lo =>
      obtain rfl : lo.quantity = c := hb
      have hcmp := partialCmp_of_ne hd hc
      generalize hr : d.quantity.cmp lo.quantity = r at hcmp
      cases op <;> cases r <;> simp [narrowTest, Bracket.ends, Comparison.holds, hcmp, hr]
    | between lo hi =>
      have hlo := partialCmp_of_ne hd hb.1
      have hhi := partialCmp_of_ne hd (between_ne_nan hb)
      rcases beside_between (d := d) hb with ⟨h1, h2, h3⟩ | ⟨h1, h2, h3⟩
      · have h2' : (d.quantity.cmp lo.quantity != .gt) = true := bne_iff_ne.mpr h2
        rw [h1]
        cases op <;> simp [narrowTest, Bracket.ends, hlo, hhi, h2', h3, Comparison.holds]
      · have h3' : (d.quantity.cmp hi.quantity != .lt) = true := bne_iff_ne.mpr h3
        rw [h1]
        cases op <;> simp [narrowTest, Bracket.ends, hlo, hhi, h2, h3', Comparison.holds]

/-! ## Clauses -/

section Clauses

variable {E : Engines} {o : BinDataOrder} {doc : Document} {field : String} {v : Option Bson} {q : Option Quantity}

theorem matches_clause (hf : Field doc field v) (op : String) (hop : isPlainOperator op = true) (arg : Bson) :
    matchesFilter E o doc (clause field op arg) =
      opMatches E o [.plain v] op arg field true (fieldMatches E o [.plain v] field true arg) := by
  unfold clause
  rw [matchesFilter_single, hf.matchClause, fieldMatches_operator hop]

theorem matches_keyClause (hf : Field doc field v) (hs : Stored v q) (op : String)
    (hop : isPlainOperator op = true) (arg : Bson) :
    matchClause E o doc (field ++ "." ++ wideNumericSortKey) (.document [(op, arg)]) =
      opMatches E o [.plain ((wideKey v).map .string)] op arg (field ++ "." ++ wideNumericSortKey) true
        (fieldMatches E o [.plain ((wideKey v).map .string)] (field ++ "." ++ wideNumericSortKey) true arg) := by
  rw [hf.matchClause_child (by decide), fieldMatches_operator hop, stepFrom_key hs]

theorem isPlainOperator_mql (op : Comparison) : isPlainOperator op.mql = true := by
  cases op <;> decide

/-- The range operators, on a bound that is neither a NaN nor null. -/
theorem opMatches_range {op : Comparison} (hop : op ≠ .eq ∧ op ≠ .ne) {values : List Cand} {arg : Bson}
    {inner : Except Fallback Bool} (hcheck : operandCheck op.mql arg field = .ok ())
    (hbound : (isNanBound arg || isNull arg) = false) :
    opMatches E o values op.mql arg field true inner = cmpOp o arg op.holds true values := by
  have hinclusive : ∀ pred, inclusiveOp o arg pred true values = cmpOp o arg pred true values := by
    intro pred
    unfold inclusiveOp
    rw [hbound, if_neg (by decide)]
  unfold opMatches
  rw [hcheck]
  cases op with
  | eq => exact absurd rfl hop.1
  | ne => exact absurd rfl hop.2
  | lt => rfl
  | gt => rfl
  | le => exact hinclusive _
  | ge => exact hinclusive _

theorem decimal_bound {lo : Decimal128} (h : lo.quantity ≠ .nan) :
    (isNanBound (.decimal128 lo) || isNull (.decimal128 lo)) = false := by
  have hspec := Numeric.isNanBson_spec (.decimal128 lo)
  rw [← Bool.not_eq_true]
  intro hn
  exact h (Option.some.inj (hspec.mp ((Bool.or_false _).symm.trans hn)))

theorem operandCheck_decimal (op : Comparison) (lo : Decimal128) : operandCheck op.mql (.decimal128 lo) field = .ok () := by
  cases op <;> rfl

theorem operandCheck_string (op : Comparison) (k : String) : operandCheck op.mql (.string k) field = .ok () := by
  cases op <;> rfl

/-- A range on the field. -/
theorem matches_range (hf : Field doc field v) (hs : Stored v q) (op : Comparison) (hop : op ≠ .eq ∧ op ≠ .ne)
    {lo : Decimal128} (hlo : lo.quantity ≠ .nan) :
    matchesFilter E o doc (clause field op.mql (.decimal128 lo)) =
      .ok (decimalTest (fun x => (x.partialCmp lo.quantity).any op.holds) v) := by
  rw [matches_clause hf op.mql (isPlainOperator_mql op), opMatches_range hop (operandCheck_decimal op lo)
    (decimal_bound hlo)]
  exact cmpOp_decimal hs lo op.holds

theorem matches_bare (hf : Field doc field v) (hs : Stored v q) (lo : Decimal128) :
    matchesFilter E o doc [(field, .decimal128 lo)] =
      .ok (decimalTest (fun x => x.cmp lo.quantity == .eq) v) := by
  rw [matchesFilter_single, hf.matchClause]
  exact eqWithArray_decimal hs lo

theorem matches_ne_decimal (hf : Field doc field v) (hs : Stored v q) (lo : Decimal128) :
    matchesFilter E o doc (clause field "$ne" (.decimal128 lo)) =
      .ok (!decimalTest (fun x => x.cmp lo.quantity == .eq) v) := by
  rw [matches_clause hf "$ne" (by decide)]
  show (eqWithArray true (.decimal128 lo) [.plain v] >>= fun b => return !b) = _
  rw [eqWithArray_decimal hs lo]
  rfl

theorem matches_ne_null (hf : Field doc field v) (hs : Stored v q) :
    matchesFilter E o doc (clause field "$ne" .null) = .ok (!isSqlNull v) := by
  rw [matches_clause hf "$ne" (by decide)]
  show (eqWithArray true .null [.plain v] >>= fun b => return !b) = _
  rw [eqWithArray_null hs]
  rfl

/-- What a comparison asks of a stored sort key. -/
def keyTest (op : Comparison) (k : String) (key : Option String) : Bool :=
  match op with
  | .eq => key.any (· = k)
  | .ne => !key.any (· = k)
  | op => key.any fun s => op.holds (compare (utf8 s) (utf8 k))

theorem matches_key (hf : Field doc field v) (hs : Stored v q) (op : Comparison) (k : String) :
    matchClause E o doc (field ++ "." ++ wideNumericSortKey) (.document [(op.mql, .string k)]) =
      .ok (keyTest op k (wideKey v)) := by
  rw [matches_keyClause hf hs op.mql (isPlainOperator_mql op)]
  have hrange : ∀ op : Comparison, op ≠ .eq ∧ op ≠ .ne → ∀ inner, opMatches E o [.plain ((wideKey v).map .string)]
      op.mql (.string k) (field ++ "." ++ wideNumericSortKey) true inner =
      .ok ((wideKey v).any fun s => op.holds (compare (utf8 s) (utf8 k))) := by
    intro op hop inner
    rw [opMatches_range hop (operandCheck_string op k) rfl]
    exact cmpOp_key k op.holds (wideKey v)
  cases op with
  | eq => exact eqWithArray_key k (wideKey v)
  | ne =>
    show (eqWithArray true (.string k) [.plain ((wideKey v).map .string)] >>= fun b => return !b) = _
    rw [eqWithArray_key k (wideKey v)]
    rfl
  | lt => exact hrange .lt (by decide) _
  | le => exact hrange .le (by decide) _
  | gt => exact hrange .gt (by decide) _
  | ge => exact hrange .ge (by decide) _

/-- The wide arm: a document first, then what is asked of its key. -/
theorem matches_wideArm (hf : Field doc field v) (hs : Stored v q) {op : String} {arg : Bson} {b : Bool}
    (h : matchClause E o doc (field ++ "." ++ wideNumericSortKey) (.document [(op, arg)]) = .ok b) :
    matchesFilter E o doc (wideArm field op arg) = .ok ((wideKey v).isSome && b) := by
  have hdoc : matchClause E o doc field (.document [("$gte", .document [])]) = .ok (wideKey v).isSome := by
    rw [← matchesFilter_single]
    exact (matches_clause hf "$gte" (by decide) (.document [])).trans (cmpOp_document hs)
  unfold wideArm
  rw [matchesFilter, hdoc]
  cases (wideKey v).isSome with
  | false => rfl
  | true =>
    show matchesFilter E o doc [(field ++ "." ++ wideNumericSortKey, .document [(op, arg)])] = _
    rw [matchesFilter_single, h]
    rfl

/-! ## Arms -/

theorem matches_anyOf {arms : List Document} {bs : List Bool} (hne : arms ≠ [])
    (h : List.Forall₂ (fun arm b => matchesFilter E o doc arm = .ok b) arms bs) :
    matchesFilter E o doc (anyOf arms) = .ok (bs.any id) := by
  have hor := matchesFilter_or hne h
  unfold anyOf
  split
  · rename_i arm
    cases h with
    | cons harm hrest =>
      cases hrest
      rw [harm, List.any_cons, List.any_nil, Bool.or_false]
      rfl
  · exact hor

/-- The narrow arm asks `narrowTest` of the stored decimals. -/
theorem narrowArm_spec (hf : Field doc field v) (hs : Stored v q) {op : Comparison} (hop : op ≠ .ne) {b : Bracket}
    {c : Quantity} (hb : b.Holds c) (hc : c ≠ .nan) :
    ∃ arm bs, narrowArm field op.mql b.ends.1 b.ends.2.1 b.ends.2.2 = some arm ∧
      List.Forall₂ (fun arm b => matchesFilter E o doc arm = .ok b) arm.toList bs ∧
      bs.any id = decimalTest (narrowTest op b) v := by
  have hfalse : decimalTest (fun _ => false) v = false := by
    unfold decimalTest
    split
    · rfl
    · rfl
  have hone : ∀ {arm : Document} {f : Quantity → Bool}, matchesFilter E o doc arm = .ok (decimalTest f v) →
      List.Forall₂ (fun arm b => matchesFilter E o doc arm = .ok b) (some arm).toList [decimalTest f v] ∧
        [decimalTest f v].any id = decimalTest f v := fun h =>
    ⟨List.Forall₂.cons h List.Forall₂.nil, by rw [List.any_cons, List.any_nil, Bool.or_false]; rfl⟩
  cases b with
  | exact lo =>
    have hlo : lo.quantity ≠ .nan := fun h => hc (hb.symm.trans h)
    cases op with
    | ne => exact absurd rfl hop
    | eq => exact ⟨_, _, rfl, hone (matches_bare hf hs lo)⟩
    | lt => exact ⟨_, _, rfl, hone (matches_range hf hs .lt (by decide) hlo)⟩
    | le => exact ⟨_, _, rfl, hone (matches_range hf hs .le (by decide) hlo)⟩
    | gt => exact ⟨_, _, rfl, hone (matches_range hf hs .gt (by decide) hlo)⟩
    | ge => exact ⟨_, _, rfl, hone (matches_range hf hs .ge (by decide) hlo)⟩
  | between lo hi =>
    have hlo := hb.1
    have hhi := between_ne_nan hb
    cases op with
    | ne => exact absurd rfl hop
    | eq => exact ⟨none, [], rfl, List.Forall₂.nil, hfalse.symm⟩
    | lt => exact ⟨_, _, rfl, hone (matches_range hf hs .le (by decide) hlo)⟩
    | le => exact ⟨_, _, rfl, hone (matches_range hf hs .le (by decide) hlo)⟩
    | gt => exact ⟨_, _, rfl, hone (matches_range hf hs .ge (by decide) hhi)⟩
    | ge => exact ⟨_, _, rfl, hone (matches_range hf hs .ge (by decide) hhi)⟩

end Clauses

/-! ## The sort key of a wide document -/

theorem compare_keyString (a b : Canonical) :
    compare (utf8 (keyString a.text)) (utf8 (keyString b.text)) = pgCmp a.quantity b.quantity :=
  compare_sortKey a b

theorem keyString_eq_iff (a b : Canonical) :
    keyString a.text = keyString b.text ↔ pgCmp a.quantity b.quantity = .eq := by
  rw [← compare_keyString, Std.compare_eq_iff_eq]
  exact ⟨congrArg utf8, fun h => Library.bytesOf_injective h⟩

/-- A stored key against a constant's is the number against the constant. -/
theorem keyTest_wide (op : Comparison) (p : Plain) (t : Canonical) :
    keyTest op (keyString t.text) (some (keyString p.text)) = op.holds (pgCmp (.fin p.value) t.quantity) := by
  have heq : decide (keyString p.text = keyString t.text) = (pgCmp (.fin p.value) t.quantity == .eq) := by
    rw [Bool.eq_iff_iff, decide_eq_true_iff, beq_iff_eq]
    exact keyString_eq_iff (.plain p) t
  have hcmp : compare (utf8 (keyString p.text)) (utf8 (keyString t.text)) = pgCmp (.fin p.value) t.quantity :=
    compare_keyString (.plain p) t
  unfold keyTest
  cases op <;> simp only [Option.any_some, heq, hcmp, Comparison.holds]
  cases pgCmp (.fin p.value) t.quantity <;> rfl

end Secantus.PgNumeric
