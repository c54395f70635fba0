/-
  `order::cmp` as an order.

  The comparator is the byte order of keys whose rank byte is `type_rank` itself, so it
  inherits the laws of a total preorder from the byte order wherever key order and
  comparator agree. They part where a symbol (or a DBPointer inside a scope) meets a
  document: both have rank 50, no arm compares them, and the last arm answers `Equal`, so
  every document is equal to the symbol while the documents differ among themselves.

  * `cmp_swap`: exchanging the operands reverses the answer, without exception;
  * `cmp_preorder`: the three laws, for values of which no two come to such a pair.
-/
import Secantus.SortKey.OrderPreserving

namespace Secantus.BsonOrder

open Secantus Bson SortKey ByteOrder

/-- `type_rank` as the rank byte. -/
def full : Scheme where
  rank := typeRank
  keyed := fun _ => true
  rank_ne_zero v := by
    rw [typeRank_eq]
    cases form v <;> simp [Form.rank]
  rank_eq h := h
  rank_lt _ _ h := .inl h

mutual

theorem allValues_true : ∀ v : Bson, allValues (fun _ => true) v = true
  | .document d => by
    unfold allValues
    exact allFields_true d
  | .array l => by
    unfold allValues
    exact allElements_true l
  | .javaScriptCodeWithScope c s => by
    unfold allValues
    exact allFields_true s
  | .double _ | .string _ | .binary _ | .undefined | .objectId _ | .boolean _ | .dateTime _ | .null
  | .regularExpression _ | .dbPointer _ _ | .javaScriptCode _ | .symbol _ | .int32 _
  | .timestamp _ | .int64 _ | .decimal128 _ | .minKey | .maxKey => rfl

theorem allFields_true : ∀ d : Document, allFields (fun _ => true) d = true
  | [] => rfl
  | (_, v) :: d => by
    unfold allFields
    rw [allValues_true v, allFields_true d]
    rfl

theorem allElements_true : ∀ l : List Bson, allElements (fun _ => true) l = true
  | [] => rfl
  | v :: l => by
    unfold allElements
    rw [allValues_true v, allElements_true l]
    rfl

end

theorem compare_totalKey {o : BinDataOrder} {a b : Bson}
    (h : reaches valueClash noElement o a b = false) :
    compare (totalKey typeRank o a) (totalKey typeRank o b) = cmp o a b :=
  (open_totalKey full (allValues_true a) (allValues_true b) h).compare_eq

/-! ## Exchanging the operands -/

theorem bindataCmp_swap (o : BinDataOrder) (x y : Binary) :
    bindataCmp o y x = (bindataCmp o x y).swap := by
  cases o <;> simp only [bindataCmp, Ordering.swap_then, ← Std.OrientedOrd.eq_swap]

theorem pairStep_swap (o : BinDataOrder) :
    PairStep (fun a b => cmp o b a = (cmp o a b).swap)
      (fun d e => docCmp o e d = (docCmp o d e).swap)
      (fun l m => arrayCmp o m l = (arrayCmp o l m).swap) where
  value a b hdoc harr hscope := by
    unfold cmp
    by_cases hr : typeRank a = typeRank b
    · rw [cmpBy_eq hr, cmpBy_eq hr.symm]
      generalize form a = f at *
      generalize form b = g at *
      cases f <;> cases g <;> first
        | rfl
        | exact Std.OrientedOrd.eq_swap
        | exact hdoc _ _ rfl rfl
        | exact harr _ _ rfl rfl
        | exact (Quantity.cmp_swap _ _).symm
        | exact bindataCmp_swap o _ _
        | skip
      case timestamp.timestamp x y =>
        simp only [Form.cmp, Ordering.swap_then, ← Std.OrientedOrd.eq_swap]
      case regex.regex x y =>
        simp only [Form.cmp, regexCmp, Ordering.swap_then, ← Std.OrientedOrd.eq_swap]
      case scoped.scoped c s c' s' =>
        have h := hscope c s c' s' rfl rfl
        unfold docCmp at h
        simp only [Form.cmp, Ordering.swap_then, ← Std.OrientedOrd.eq_swap, h]
    · rw [cmpBy_of_rank_ne hr, cmpBy_of_rank_ne (Ne.symm hr)]
      exact Std.OrientedOrd.eq_swap
  doc_nil_nil := rfl
  doc_nil_cons _ _ := rfl
  doc_cons_nil _ _ := rfl
  doc_cons_cons k v d k' v' e hv htail := by
    unfold cmp at hv
    unfold docCmp at htail ⊢
    unfold docCmpBy
    simp only [Ordering.swap_then, ← Std.OrientedOrd.eq_swap, hv, htail]
  arr_nil_nil := rfl
  arr_nil_cons _ _ := rfl
  arr_cons_nil _ _ := rfl
  arr_cons_cons v l v' m hv htail := by
    unfold cmp at hv
    unfold arrayCmp at htail ⊢
    unfold arrayCmpBy
    simp only [Ordering.swap_then, hv, htail]

theorem cmp_swap (o : BinDataOrder) (a b : Bson) : cmp o b a = (cmp o a b).swap :=
  (pairStep_swap o).values a b

/-! ## The laws -/

/-- The comparator is a total preorder on values of which no two come, when compared, to a
    symbol or DBPointer against a document (or to a raw text carrier against a plain value of
    the same text, which no decoded carrier has). -/
theorem cmp_preorder {o : BinDataOrder} {a b c : Bson}
    (hab : reaches valueClash noElement o a b = false)
    (hbc : reaches valueClash noElement o b c = false)
    (hac : reaches valueClash noElement o a c = false) :
    cmp o a b = (cmp o b a).swap ∧
      (cmp o a b ≠ .gt → cmp o b c ≠ .gt → cmp o a c ≠ .gt) ∧
      (cmp o a b = .eq → cmp o a c = cmp o b c) := by
  refine ⟨cmp_swap o b a, ?_, ?_⟩
  · rw [← compare_totalKey hab, ← compare_totalKey hbc, ← compare_totalKey hac]
    intro h1 h2
    have h3 := Std.TransOrd.isLE_trans (Ordering.isLE_iff_ne_gt.mpr h1)
      (Ordering.isLE_iff_ne_gt.mpr h2)
    exact Ordering.isLE_iff_ne_gt.mp h3
  · rw [← compare_totalKey hab, ← compare_totalKey hbc, ← compare_totalKey hac]
    intro h
    rw [Std.compare_eq_iff_eq.mp h]

/-- Three documents with numbers of three types. -/
theorem cmp_preorder_numbers :
    let a : Bson := .document [("n", .int32 1)]
    let b : Bson := .document [("n", .int64 2)]
    let c : Bson := .document [("n", .int64 2), ("m", .null)]
    (isSortable a = true ∧ isSortable b = true ∧ isSortable c = true) ∧
      cmp .mongod a b = (cmp .mongod b a).swap ∧
      (cmp .mongod a b ≠ .gt → cmp .mongod b c ≠ .gt → cmp .mongod a c ≠ .gt) ∧
      (cmp .mongod a b = .eq → cmp .mongod a c = cmp .mongod b c) :=
  ⟨by decide, cmp_preorder (by decide) (by decide) (by decide)⟩

/-- A symbol is equal to `{a: 1}` and to `{a: 2}`, of which one is below the other. -/
theorem cmp_symbol_not_transitive :
    let s : Bson := .symbol "s"
    let x : Bson := .document [("a", .int32 1)]
    let y : Bson := .document [("a", .int32 2)]
    (isSortable s = true ∧ isSortable x = true ∧ isSortable y = true) ∧
      cmp .mongod s x = .eq ∧ cmp .mongod s y = .eq ∧ cmp .mongod x y = .lt ∧
      ¬(cmp .mongod s x = .eq → cmp .mongod s y = cmp .mongod x y) ∧
      ¬(cmp .mongod y s ≠ .gt → cmp .mongod s x ≠ .gt → cmp .mongod y x ≠ .gt) := by
  decide

end Secantus.BsonOrder
