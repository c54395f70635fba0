/-
  A numeric predicate, lowered to a filter, selects exactly the rows PostgreSQL's comparison is true of.

  * `matchesFilter_numericFilter`: the filter of a comparison;
  * `matchesFilter_numericInFilter`: the filter of a list of constants.
-/
import Secantus.PgNumeric.Exact

namespace Secantus.PgNumeric

open Secantus Bson BsonOrder Query

theorem text_eq_nan_iff (t : Canonical) : t.text = Canonical.nan.text ↔ t = .nan := by
  cases t with
  | nan => exact iff_of_true rfl rfl
  | inf neg => exact iff_of_false (by cases neg <;> decide) Canonical.noConfusion
  | plain p =>
    refine iff_of_false ?_ Canonical.noConfusion
    have hN : 'N' ∉ decimalChars := by decide
    exact text_ne_letters p hN (by decide)

theorem Reads.nan {fromStr : Text → Option Decimal128} (hr : Reads fromStr) :
    ∃ d, fromStr Canonical.nan.text = some d ∧ d.quantity = .nan := hr.rendered .nan

theorem quantity_ne_nan {t : Canonical} (h : t ≠ .nan) : t.quantity ≠ .nan := by
  cases t with
  | nan => exact absurd rfl h
  | inf neg => cases neg <;> exact Quantity.noConfusion
  | plain p => exact Quantity.noConfusion

section Filter

variable {E : Engines} {o : BinDataOrder} {doc : Document} {field : String} {v : Option Bson} {q : Option Quantity}

theorem matches_and {arms : List Document} {bs : List Bool} (hne : arms ≠ [])
    (h : List.Forall₂ (fun arm b => matchesFilter E o doc arm = .ok b) arms bs) :
    matchesFilter E o doc (combined "$and" arms) = .ok (bs.all id) := matchesFilter_and hne h

/-! ## A NaN constant -/

/-- The rows of a NaN constant, from the tests of its filter. -/
theorem nan_rows (hs : Stored v q) (op : Comparison) :
    op.test q .nan = match op with
      | .eq | .ge => decimalTest (fun x => x.cmp .nan == .eq) v
      | .ne | .lt => !decimalTest (fun x => x.cmp .nan == .eq) v && !isSqlNull v
      | .le => !isSqlNull v
      | .gt => false := by
  cases hs with
  | missing => cases op <;> rfl
  | null => cases op <;> rfl
  | wide p => cases op <;> rfl
  | decimal d =>
    unfold Comparison.test decimalTest isSqlNull
    dsimp only
    cases d.quantity with
    | nan => cases op <;> rfl
    | negInf => cases op <;> rfl
    | posInf => cases op <;> rfl
    | fin q => cases op <;> rfl

theorem matchesFilter_nanFilter (hf : Field doc field v) (hs : Stored v q) {nan : Decimal128}
    (hnan : nan.quantity = .nan) (op : Comparison) :
    ∃ f, nanFilter field op.mql nan = some f ∧ matchesFilter E o doc f = .ok (op.test q .nan) := by
  have hbare := matches_bare (E := E) (o := o) hf hs nan
  have hne := matches_ne_decimal (E := E) (o := o) hf hs nan
  have hnull := matches_ne_null (E := E) (o := o) hf hs
  rw [hnan] at hbare hne
  have hboth := matches_and (List.cons_ne_nil _ _) (.cons hne (.cons hnull .nil))
  rw [List.all_cons, List.all_cons, List.all_nil, Bool.and_true] at hboth
  rw [nan_rows hs op]
  cases op with
  | eq => exact ⟨_, rfl, hbare⟩
  | ne => exact ⟨_, rfl, hboth⟩
  | lt => exact ⟨_, rfl, hboth⟩
  | le => exact ⟨_, rfl, hnull⟩
  | gt => exact ⟨_, rfl, matches_clause hf "$in" (by decide) (.array [])⟩
  | ge => exact ⟨_, rfl, hbare⟩

/-! ## Any other constant -/

/-- The rows of a constant, from the tests of the three arms. -/
theorem arms_rows (hs : Stored v q) (op : Comparison) (hop : op ≠ .ne) {b : Bracket} {t : Canonical} (hb : b.Holds t.quantity)
    (ht : t ≠ .nan) :
    (decimalTest (narrowTest op b) v || ((wideKey v).isSome && keyTest op (keyString t.text) (wideKey v)) ||
      (nanAbove op && decimalTest (fun x => x.cmp .nan == .eq) v)) = op.test q t.quantity := by
  cases hs with
  | missing => cases op <;> rfl
  | null => cases op <;> rfl
  | decimal d =>
    show (narrowTest op b d.quantity || false && _ || (nanAbove op && (d.quantity.cmp .nan == .eq))) = _
    rw [Bool.false_and, Bool.or_false]
    exact narrow_exact op hb (quantity_ne_nan ht) d
  | wide p =>
    show (false || (true && keyTest op (keyString t.text) (some (keyString p.text))) || (nanAbove op && false)) = _
    rw [Bool.false_or, Bool.true_and, Bool.and_false, Bool.or_false]
    exact keyTest_wide op p t

/-- The rows of `<>`: neither the constant's decimal, nor its key, nor NULL. -/
theorem ne_rows (hs : Stored v q) {b : Bracket} {t : Canonical} (hb : b.Holds t.quantity) (ht : t ≠ .nan) :
    (!(b.ends.1 && decimalTest (fun x => x.cmp b.ends.2.1.quantity == .eq) v) &&
      (keyTest .ne (keyString t.text) (wideKey v) && !isSqlNull v)) = Comparison.ne.test q t.quantity := by
  cases hs with
  | missing => exact Bool.and_false _
  | null => exact Bool.and_false _
  | decimal d =>
    have hexact := narrow_exact .ne hb (quantity_ne_nan ht) d
    show (!(b.ends.1 && (d.quantity.cmp b.ends.2.1.quantity == .eq)) && (true && true)) = Comparison.ne.holds _
    rw [← hexact]
    cases b <;> simp [narrowTest, Bracket.ends, nanAbove]
  | wide p =>
    show (!(b.ends.1 && false) && (keyTest .ne (keyString t.text) (some (keyString p.text)) && true)) = _
    rw [Bool.and_false, Bool.not_false, Bool.true_and, Bool.and_true]
    exact keyTest_wide .ne p t

/-- The filter of a numeric comparison selects the row exactly when the comparison is true. -/
theorem matchesFilter_numericFilter {fromStr : Text → Option Decimal128} (hr : Reads fromStr)
    (hf : Field doc field v) (hs : Stored v q) {c : Bson} {x : Quantity} (hc : Constant c x) (op : Comparison) :
    ∃ f, numericFilter fromStr field op.mql c = some f ∧ matchesFilter E o doc f = .ok (op.test q x) := by
  obtain ⟨t, htext, rfl⟩ := hc.text
  obtain ⟨nan, hnan, hnanq⟩ := hr.nan
  unfold numericFilter
  rw [htext, hnan]
  simp only [Option.bind_eq_bind, Option.bind_some, Option.pure_def]
  by_cases ht : t = .nan
  · rw [if_pos ((text_eq_nan_iff t).mpr ht), ht]
    exact matchesFilter_nanFilter hf hs hnanq op
  · rw [if_neg (mt (text_eq_nan_iff t).mp ht)]
    obtain ⟨b, hb, hholds⟩ := decimal128Bracket_canonical hr t
    rw [hb, Option.bind_some]
    have hkey := matches_key (E := E) (o := o) hf hs op (keyString t.text)
    by_cases hop : op = .ne
    · subst hop
      refine ⟨_, if_pos rfl, ?_⟩
      have hnull := matches_ne_null (E := E) (o := o) hf hs
      have hlo := matches_ne_decimal (E := E) (o := o) hf hs b.ends.2.1
      rw [← matchesFilter_single] at hkey
      rw [← ne_rows hs hholds ht]
      cases he : b.ends.1 with
      | true =>
        have hall := matches_and (List.cons_ne_nil _ _) (.cons hlo (.cons hkey (.cons hnull .nil)))
        rw [List.all_cons, List.all_cons, List.all_cons, List.all_nil, Bool.and_true] at hall
        exact hall
      | false =>
        have hall := matches_and (List.cons_ne_nil _ _) (.cons hkey (.cons hnull .nil))
        rw [List.all_cons, List.all_cons, List.all_nil, Bool.and_true] at hall
        exact hall
    · have hmql : op.mql ≠ "$ne" := by
        cases op with
        | ne => exact absurd rfl hop
        | _ => decide
      obtain ⟨arm, bs, harm, hbs, hrows⟩ := narrowArm_spec (E := E) (o := o) hf hs hop hholds (quantity_ne_nan ht)
      have hwide := matches_wideArm hf hs hkey
      have hbare := matches_bare (E := E) (o := o) hf hs nan
      rw [hnanq] at hbare
      rw [if_neg hmql, harm, Option.bind_some]
      refine ⟨_, rfl, ?_⟩
      rw [← arms_rows hs op hop hholds ht, ← hrows]
      by_cases habove : nanAbove op = true
      · have hgt : op.mql = "$gt" ∨ op.mql = "$gte" := by
          cases op with
          | gt => exact .inl rfl
          | ge => exact .inr rfl
          | _ => cases habove
        rw [if_pos hgt, habove]
        have hall := matches_anyOf (by simp)
          (List.rel_append (List.rel_append hbs (.cons hwide .nil)) (.cons hbare .nil))
        rw [hall, List.any_append, List.any_append, List.any_cons, List.any_nil, List.any_cons, List.any_nil,
          Bool.or_false, Bool.or_false, Bool.true_and]
        rfl
      · have hgt : ¬(op.mql = "$gt" ∨ op.mql = "$gte") := by
          cases op with
          | gt => exact absurd rfl habove
          | ge => exact absurd rfl habove
          | _ => decide
        rw [if_neg hgt, List.append_nil, Bool.eq_false_of_not_eq_true habove, Bool.false_and, Bool.or_false]
        have hall := matches_anyOf (by simp) (List.rel_append hbs (.cons hwide .nil))
        rw [hall, List.any_append, List.any_cons, List.any_nil, Bool.or_false]
        rfl

/-! ## A list of constants -/

/-- A list of scalars that no `$in` refuses. -/
def IsPlainList (arr : List Bson) : Prop :=
  ∀ b ∈ arr, (∃ d, b = .decimal128 d) ∨ ∃ s, b = .string s

theorem inList_plain {values : List Cand} {op : String} {arr : List Bson} (h : IsPlainList arr) :
    inList E values op (.array arr) true = anyCandidate E values true arr := by
  have hok : inElementsOk arr = .ok () := by
    unfold inElementsOk
    rw [if_neg]
    rw [List.any_eq_true]
    rintro ⟨b, hb, hdict⟩
    obtain ⟨d, rfl⟩ | ⟨s, rfl⟩ := h b hb
    · cases hdict
    · cases hdict
  have hlist : inList E values op (.array arr) true = (inElementsOk arr >>= fun _ => anyCandidate E values true arr) :=
    rfl
  rw [hlist, hok]
  rfl

theorem operandCheck_plain {op : String} {arr : List Bson} (h : IsPlainList arr) :
    operandCheck op (.array arr) field = .ok () := by
  have hundef : arr.any isUndefined = false := by
    rw [List.any_eq_false]
    intro b hb
    obtain ⟨d, rfl⟩ | ⟨s, rfl⟩ := h b hb
    · exact Bool.false_ne_true
    · exact Bool.false_ne_true
  unfold operandCheck
  rw [if_neg (by simp [isRegularExpression]), if_neg (by simp [isRegularExpression]), if_neg (by simp [isUndefined])]
  dsimp only
  rw [hundef, Bool.and_false, if_neg (by decide)]

/-- The two list operators, from what the elements answer. -/
theorem opMatches_in {values : List Cand} {arr : List Bson} (h : IsPlainList arr) {b : Bool}
    (hb : anyCandidate E values true arr = .ok b) (field : String) (inner : Except Fallback Bool) :
    opMatches E o values "$in" (.array arr) field true inner = .ok b ∧
      opMatches E o values "$nin" (.array arr) field true inner = .ok !b := by
  have hlist : ∀ op, inList E values op (.array arr) true = .ok b := fun op => (inList_plain h).trans hb
  constructor
  · unfold opMatches
    rw [operandCheck_plain h]
    exact hlist "$in"
  · unfold opMatches
    rw [operandCheck_plain h]
    show (inList E values "$nin" (.array arr) true >>= fun b => return !b) = _
    rw [hlist "$nin"]
    rfl

theorem anyCandidate_map {α : Type} {values : List Cand} {g : α → Bson} {test : α → Bool}
    (h : ∀ x, isRegularExpression (g x) = false ∧ eqWithArray true (g x) values = .ok (test x)) (xs : List α) :
    anyCandidate E values true (xs.map g) = .ok (xs.any test) := by
  induction xs with
  | nil => rfl
  | cons x xs ih =>
    have hx : inCandidateMatches E values (g x) true = .ok (test x) := by
      unfold inCandidateMatches
      rw [(h x).1, if_neg (by decide)]
      exact (h x).2
    rw [List.map_cons, anyCandidate, hx, ih, List.any_cons]
    cases test x <;> rfl

/-- PostgreSQL's `IN`. -/
def inTest (stored : Option Quantity) (cs : List Quantity) : Bool := cs.any (Comparison.eq.test stored)

/-- PostgreSQL's `NOT IN`. -/
def notInTest (stored : Option Quantity) (cs : List Quantity) : Bool :=
  stored.isSome && cs.all (Comparison.ne.test stored)

/-- The lists of constants answer for the stored decimals and for the sort keys. -/
theorem inLists_spec {fromStr : Text → Option Decimal128} (hr : Reads fromStr) {cs : List Bson} {xs : List Quantity}
    (hc : List.Forall₂ Constant cs xs) :
    ∃ (ds : List Decimal128) (ks : List String), inLists fromStr cs = some (ds.map .decimal128, ks.map .string) ∧
      (∀ d : Decimal128, ds.any (fun e => d.quantity.cmp e.quantity == .eq) = xs.any (pgCmp d.quantity · == .eq)) ∧
      ∀ p : Plain, ks.any (fun k => keyString p.text = k) = xs.any (pgCmp (.fin p.value) · == .eq) := by
  induction hc with
  | nil => exact ⟨[], [], rfl, fun _ => rfl, fun _ => rfl⟩
  | @cons c x cs xs hc _ ih =>
    obtain ⟨ds, ks, hlists, hds, hks⟩ := ih
    obtain ⟨t, htext, rfl⟩ := hc.text
    obtain ⟨nan, hnan, hnanq⟩ := hr.nan
    rw [inLists, htext, Option.bind_eq_bind, Option.bind_some, hlists, hnan]
    by_cases ht : t = .nan
    · subst ht
      rw [if_pos rfl]
      refine ⟨nan :: ds, ks, rfl, fun d => ?_, fun p => ?_⟩
      · have heq : (d.quantity.cmp .nan == .eq) = (pgCmp d.quantity .nan == .eq) := by
          cases d.quantity <;> rfl
        rw [List.any_cons, List.any_cons, hds, hnanq, heq]
        rfl
      · rw [List.any_cons, hks]
        rfl
    · rw [if_neg (mt (text_eq_nan_iff t).mp ht)]
      obtain ⟨b, hb, hholds⟩ := decimal128Bracket_canonical hr t
      have hdec := fun d => narrow_exact .eq hholds (quantity_ne_nan ht) d
      have hkey : ∀ p : Plain, decide (keyString p.text = keyString t.text) =
          (pgCmp (.fin p.value) t.quantity == .eq) := fun p => keyTest_wide .eq p t
      rw [hb]
      cases b with
      | exact lo =>
        refine ⟨lo :: ds, keyString t.text :: ks, rfl, fun d => ?_, fun p => ?_⟩
        · rw [List.any_cons, List.any_cons, hds]
          exact congrArg (· || _) ((Bool.or_false _).symm.trans (hdec d))
        · rw [List.any_cons, List.any_cons, hks, hkey]
      | between lo hi =>
        refine ⟨ds, keyString t.text :: ks, rfl, fun d => ?_, fun p => ?_⟩
        · rw [List.any_cons, hds, ← show false = (pgCmp d.quantity t.quantity == .eq) from hdec d, Bool.false_or]
        · rw [List.any_cons, List.any_cons, hks, hkey]

theorem isPlainList_decimals (ds : List Decimal128) : IsPlainList (ds.map .decimal128) := by
  intro b hb
  obtain ⟨d, -, rfl⟩ := List.mem_map.mp hb
  exact .inl ⟨d, rfl⟩

theorem isPlainList_strings (ks : List String) : IsPlainList (ks.map .string) := by
  intro b hb
  obtain ⟨s, -, rfl⟩ := List.mem_map.mp hb
  exact .inr ⟨s, rfl⟩

theorem any_false {α : Type} (l : List α) : (l.any fun _ => false) = false := by
  rw [List.any_eq_false]
  exact fun _ _ => Bool.false_ne_true

/-- The rows of a list, from the tests of its two arms. -/
theorem in_rows (hs : Stored v q) {xs : List Quantity} {ds : List Decimal128} {ks : List String}
    (hds : ∀ d : Decimal128, ds.any (fun e => d.quantity.cmp e.quantity == .eq) = xs.any (pgCmp d.quantity · == .eq))
    (hks : ∀ p : Plain, ks.any (fun k => keyString p.text = k) = xs.any (pgCmp (.fin p.value) · == .eq)) :
    (ds.any fun e => decimalTest (fun x => x.cmp e.quantity == .eq) v) = inTest q xs ∧ wideKey v = none ∨
      (ds.any fun e => decimalTest (fun x => x.cmp e.quantity == .eq) v) = false ∧ (wideKey v).isSome ∧
        (ks.any fun k => (wideKey v).any (· = k)) = inTest q xs := by
  cases hs with
  | missing => exact .inl ⟨(any_false ds).trans (any_false xs).symm, rfl⟩
  | null => exact .inl ⟨(any_false ds).trans (any_false xs).symm, rfl⟩
  | decimal d => exact .inl ⟨hds d, rfl⟩
  | wide p => exact .inr ⟨any_false ds, rfl, hks p⟩

theorem notInTest_eq (hs : Stored v q) (xs : List Quantity) : notInTest q xs = (!inTest q xs && !isSqlNull v) := by
  have hnot : ∀ x, xs.all (Comparison.ne.test (some x)) = !inTest (some x) xs := by
    intro x
    unfold inTest
    rw [List.not_any_eq_all_not]
    rfl
  cases hs with
  | missing => exact (Bool.and_false _).symm
  | null => exact (Bool.and_false _).symm
  | decimal d => exact (Bool.true_and _).trans ((hnot _).trans (Bool.and_true _).symm)
  | wide p => exact (Bool.true_and _).trans ((hnot _).trans (Bool.and_true _).symm)

/-- The filter of a numeric list selects the row exactly when the list's test is true. -/
theorem matchesFilter_numericInFilter {fromStr : Text → Option Decimal128} (hr : Reads fromStr)
    (hf : Field doc field v) (hs : Stored v q) {cs : List Bson} {xs : List Quantity}
    (hc : List.Forall₂ Constant cs xs) (negated : Bool) :
    ∃ f, numericInFilter fromStr field cs negated = some f ∧
      matchesFilter E o doc f = .ok (if negated then notInTest q xs else inTest q xs) := by
  obtain ⟨ds, ks, hlists, hds, hks⟩ := inLists_spec hr hc
  have hrows := in_rows hs hds hks
  have hnarrow : anyCandidate E [.plain v] true (ds.map .decimal128) =
      .ok (ds.any fun e => decimalTest (fun x => x.cmp e.quantity == .eq) v) :=
    anyCandidate_map (fun e => ⟨rfl, eqWithArray_decimal hs e⟩) ds
  have hwide : anyCandidate E [.plain ((wideKey v).map .string)] true (ks.map .string) =
      .ok (ks.any fun k => (wideKey v).any (· = k)) :=
    anyCandidate_map (fun k => ⟨rfl, eqWithArray_key k (wideKey v)⟩) ks
  have hin := opMatches_in (o := o) (isPlainList_decimals ds) hnarrow field
  have hkey := opMatches_in (o := o) (isPlainList_strings ks) hwide (field ++ "." ++ wideNumericSortKey)
  unfold numericInFilter
  rw [hlists]
  simp only [Option.bind_eq_bind, Option.bind_some, Option.pure_def]
  cases negated with
  | true =>
    have hnin := (matches_clause hf "$nin" (by decide) _).trans (hin _).2
    have hknin := (matchesFilter_single _ _).trans ((matches_keyClause hf hs "$nin" (by decide) _).trans (hkey _).2)
    have hnull := matches_ne_null (E := E) (o := o) hf hs
    refine ⟨_, rfl, (matches_and (List.cons_ne_nil _ _) (.cons hnin (.cons hknin (.cons hnull .nil)))).trans ?_⟩
    rw [if_pos rfl, notInTest_eq hs, List.all_cons, List.all_cons, List.all_cons, List.all_nil, Bool.and_true]
    rcases hrows with ⟨h1, h2⟩ | ⟨h1, -, h2⟩
    · have hnone : (ks.any fun k => (wideKey v).any (· = k)) = false := by
        rw [h2]
        exact any_false ks
      rw [h1, hnone]
      rfl
    · rw [h1, h2]
      rfl
  | false =>
    have hin' := (matches_clause hf "$in" (by decide) _).trans (hin _).1
    have hkin := matches_wideArm hf hs ((matches_keyClause hf hs "$in" (by decide) _).trans (hkey _).1)
    refine ⟨_, rfl, (matchesFilter_or (List.cons_ne_nil _ _) (.cons hin' (.cons hkin .nil))).trans ?_⟩
    rw [if_neg (by decide), List.any_cons, List.any_cons, List.any_nil, Bool.or_false]
    rcases hrows with ⟨h1, h2⟩ | ⟨h1, h2, h3⟩
    · rw [h1, h2]
      exact congrArg Except.ok (Bool.or_false _)
    · rw [h1, h2, h3]
      rfl

end Filter

end Secantus.PgNumeric
