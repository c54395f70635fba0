/-
  `encode_value` against `order::cmp`.

  The bytes of two encodable values are in the order of the comparator unless, at the
  element that decides, one document holds MinKey and the other `undefined`, and MinKey's
  field name is the larger: the encoder gives both the rank byte 1, so the names decide,
  while the comparator ranks MinKey below `undefined` before it looks at the names.

  * `encodeValue_eq`: the encoder writes the key of the stored scheme;
  * `cmpBy_keyRank`: comparing documents by the stored rank byte is the comparator, or its
    reverse at such an element;
  * `compare_encodeValue_iff`: key order is `cmp` exactly when no such element is reached.
-/
import Secantus.SortKey.KeyOrder
import Secantus.Library.Outcome

namespace Secantus.SortKey

open Secantus Bson BsonOrder ByteOrder

/-! ## Equal keys, equal values -/

theorem typeRank_eq_of_cmp {rank : Bson → UInt8} {o : BinDataOrder} {a b : Bson}
    (h : cmpBy rank o a b = .eq) : typeRank a = typeRank b := by
  by_contra hne
  rw [cmpBy_of_rank_ne hne] at h
  exact hne (Std.compare_eq_iff_eq.mp h)

/-- Equality does not depend on the rank documents compare their elements by. -/
theorem pairStep_eq (rank : Bson → UInt8) (o : BinDataOrder) :
    PairStep (fun a b => cmpBy rank o a b = .eq → BsonOrder.cmp o a b = .eq)
      (fun d e => docCmpBy rank o d e = .eq → docCmp o d e = .eq)
      (fun l m => arrayCmpBy rank o l m = .eq → arrayCmp o l m = .eq) where
  value a b hdoc harr hscope h := by
    have hr := typeRank_eq_of_cmp h
    rw [cmpBy_eq hr] at h
    unfold BsonOrder.cmp
    rw [cmpBy_eq hr]
    generalize form a = f at *
    generalize form b = g at *
    cases f <;> cases g <;> first
      | exact h
      | exact hdoc _ _ rfl rfl h
      | exact harr _ _ rfl rfl h
      | skip
    case scoped.scoped c s c' s' =>
      obtain ⟨h1, h2⟩ := Ordering.then_eq_eq.mp h
      exact Ordering.then_eq_eq.mpr ⟨h1, hscope c s c' s' rfl rfl h2⟩
  doc_nil_nil _ := rfl
  doc_nil_cons _ _ h := nomatch h
  doc_cons_nil _ _ h := nomatch h
  doc_cons_cons k v d k' v' e hv htail h := by
    unfold docCmpBy at h
    obtain ⟨-, h⟩ := Ordering.then_eq_eq.mp h
    obtain ⟨hk, h⟩ := Ordering.then_eq_eq.mp h
    obtain ⟨hc, h⟩ := Ordering.then_eq_eq.mp h
    have hr := typeRank_eq_of_cmp hc
    have hcv := hv hc
    have htl := htail h
    unfold docCmp docCmpBy
    unfold BsonOrder.cmp at hcv
    unfold docCmp at htl
    rw [hr, Std.compare_self, hk, hcv, htl]
    rfl
  arr_nil_nil _ := rfl
  arr_nil_cons _ _ h := nomatch h
  arr_cons_nil _ _ h := nomatch h
  arr_cons_cons v l v' m hv htail h := by
    unfold arrayCmpBy at h
    obtain ⟨hc, h⟩ := Ordering.then_eq_eq.mp h
    have hcv := hv hc
    have htl := htail h
    unfold arrayCmp arrayCmpBy
    unfold BsonOrder.cmp at hcv
    unfold arrayCmp at htl
    rw [hcv, htl]
    rfl

/-- Keys under a scheme are in the order of the comparator by the scheme's rank. -/
theorem open_totalKey (S : Scheme) {o : BinDataOrder} {a b : Bson}
    (ha : allValues S.keyed a = true) (hb : allValues S.keyed b = true)
    (h : reaches valueClash noElement o a b = false) :
    Open 0 (cmpBy S.rank o a b) (totalKey S.rank o a) (totalKey S.rank o b) :=
  (pairStep_totalKey S fun h => (pairStep_eq S.rank o).values _ _ h).values a b ha hb h

/-! ## The stored scheme -/

/-- The rank byte the encoder writes for a form. -/
def storedRank : Form → UInt8
  | .minKey | .undefined => rankMinKey
  | .null => rankNull
  | .number _ => rankNumber
  | .text _ => rankString
  | .document _ | .other => rankDocument
  | .array _ => rankArray
  | .binary _ => rankBinData
  | .objectId _ => rankObjectId
  | .boolean _ => rankBool
  | .dateTime _ => rankDate
  | .timestamp _ => rankTimestamp
  | .regex _ | .rawRegex _ | .rawPointer _ => rankRegex
  | .code _ => rankJavaScript
  | .scoped _ _ | .rawScoped _ => rankJavaScriptScope
  | .maxKey => rankMaxKey

/-- The rank byte of a value's key. -/
def keyRank (v : Bson) : UInt8 := storedRank (form v)

/-- A DBPointer whose text is not UTF-8 has no rank byte of its own. -/
def hasRank (v : Bson) : Bool :=
  match form v with
  | .rawPointer _ => false
  | _ => true

/-- The encoder's rank bytes. -/
def stored : Scheme where
  rank := keyRank
  keyed := hasRank
  rank_ne_zero v := by
    unfold keyRank
    cases form v <;> simp [storedRank, rankMinKey, rankNull, rankNumber, rankString, rankDocument,
      rankArray, rankBinData, rankObjectId, rankBool, rankDate, rankTimestamp, rankRegex,
      rankJavaScript, rankJavaScriptScope, rankMaxKey]
  rank_eq {a b} h := by
    rw [typeRank_eq, typeRank_eq] at h
    unfold keyRank
    generalize form a = f at *
    generalize form b = g at *
    cases f <;> cases g <;> first
      | rfl
      | simp [Form.rank] at h
  rank_lt {a b} ha hb h := by
    rw [typeRank_eq, typeRank_eq] at h
    unfold hasRank at ha hb
    unfold keyRank
    generalize form a = f at *
    generalize form b = g at *
    cases f <;> cases g <;> first
      | (simp [Form.rank] at h; done)
      | (simp at ha; done)
      | (simp at hb; done)
      | exact .inr ⟨rfl, rfl, rfl⟩
      | exact .inl (by simp [storedRank, rankMinKey, rankNull, rankNumber, rankString,
          rankDocument, rankArray, rankBinData, rankObjectId, rankBool, rankDate, rankTimestamp,
          rankRegex, rankJavaScript, rankJavaScriptScope, rankMaxKey])

/-! ## The encoder writes keys of the stored scheme -/

theorem hasRank_of_plain {v : Bson} (hr : asRawText v = none) (hi : asInvalidUtf8 v = none) :
    hasRank v = true := by
  unfold hasRank
  rw [form_of_plain hr hi]
  cases v <;> rfl

theorem allValues_carrier {v : Bson} (h : asRawText v ≠ none ∨ asInvalidUtf8 v ≠ none)
    (hv : hasRank v = true) : allValues hasRank v = true := by
  have hd : ∃ k b, v = .document [(k, .binary b)] := by
    rcases h with h | h
    · unfold asRawText at h
      split at h
      · exact ⟨_, _, rfl⟩
      · exact absurd rfl h
    · unfold asInvalidUtf8 carrierBytes at h
      split at h
      · split at h
        · exact ⟨_, _, rfl⟩
        · exact absurd rfl h
      · exact absurd rfl h
  obtain ⟨k, b, rfl⟩ := hd
  have hb : hasRank (.binary b) = true := rfl
  simp [allValues, allFields, hv, hb]

mutual

theorem encodeValue_eq {o : BinDataOrder} (ho : o ≠ .format4) : ∀ (v : Bson) {k : Bytes},
    encodeValue o v = .ok k → k = totalKey keyRank o v ∧ allValues hasRank v = true := by
  intro v k h
  rcases carrier_cases v with ⟨t, raw, hr, hi, hf⟩ | ⟨s, hr, hi, hf⟩ | ⟨hr, hi, hf⟩
  · have hkey : keyRank v = storedRank (rawForm t raw) := by rw [keyRank, hf]
    have hrank : t ≠ .dbPointer → hasRank v = true := by
      intro ht
      unfold hasRank
      rw [hf]
      cases t <;> first | rfl | exact absurd rfl ht
    have hall := fun ht => allValues_carrier (.inl (by simp [hr])) (hrank ht)
    rw [totalKey_eq, hkey, hf]
    unfold encodeValue at h
    rw [hr] at h
    cases t <;> simp only [Except.ok.injEq, reduceCtorEq] at h
    · exact ⟨h ▸ rfl, hall (by decide)⟩
    · exact ⟨h ▸ rfl, hall (by decide)⟩
    · exact ⟨h ▸ rfl, hall (by decide)⟩
    · exact ⟨h ▸ rfl, hall (by decide)⟩
  · have hkey : keyRank v = rankString := by rw [keyRank, hf, storedRank]
    have hrank : hasRank v = true := by rw [hasRank, hf]
    rw [totalKey_eq, hkey, hf]
    unfold encodeValue at h
    rw [hr, hi] at h
    simp only [Except.ok.injEq] at h
    exact ⟨h ▸ rfl, allValues_carrier (.inr (by simp [hi])) hrank⟩
  · have hkey : keyRank v = storedRank (plainForm v) := by rw [keyRank, hf]
    have hrank := hasRank_of_plain hr hi
    rw [totalKey_eq, hkey, hf]
    unfold encodeValue at h
    rw [hr, hi] at h
    have hleaf : ∀ {k' : Bytes}, k' = k →
        (∀ d, v ≠ .document d) → (∀ l, v ≠ .array l) → (∀ c s, v ≠ .javaScriptCodeWithScope c s) →
        k' = storedRank (plainForm v) :: body keyRank o (encodeNumber v) (plainForm v) →
        k = storedRank (plainForm v) :: body keyRank o (encodeNumber v) (plainForm v) ∧
          allValues hasRank v = true := by
      rintro k' rfl hnd hna hns hk
      refine ⟨hk, ?_⟩
      unfold allValues
      rw [hrank]
      cases v <;> first | rfl | exact absurd rfl (hnd _) | exact absurd rfl (hna _) |
        exact absurd rfl (hns _ _)
    cases v with
    | document d =>
      obtain ⟨x, hx, hk⟩ := Outcome.bind_eq_ok.mp h
      obtain ⟨rfl, hall⟩ := encodeDoc_eq ho d hx
      simp only [Except.ok.injEq] at hk
      exact ⟨hk ▸ rfl, by simp [allValues, hrank, hall]⟩
    | array l =>
      obtain ⟨x, hx, hk⟩ := Outcome.bind_eq_ok.mp h
      obtain ⟨rfl, hall⟩ := encodeArray_eq ho l hx
      simp only [Except.ok.injEq] at hk
      exact ⟨hk ▸ rfl, by simp [allValues, hrank, hall]⟩
    | javaScriptCodeWithScope code scope =>
      simp only [ho, if_false] at h
      obtain ⟨x, hx, hk⟩ := Outcome.bind_eq_ok.mp h
      obtain ⟨rfl, hall⟩ := encodeDoc_eq ho scope hx
      simp only [Except.ok.injEq] at hk
      exact ⟨hk ▸ rfl, by simp [allValues, hrank, hall]⟩
    | symbol s => cases h
    | dbPointer ns id => cases h
    | binary b =>
      have hb : binaryKey o b = encodeBinary o b := by rw [binaryKey, if_neg ho]
      exact hleaf (Except.ok.inj h) (fun _ => nofun) (fun _ => nofun) (fun _ _ => nofun)
        (by rw [← hb]; rfl)
    | maxKey =>
      simp only [ho, if_false, Except.ok.injEq] at h
      exact hleaf h (fun _ => nofun) (fun _ => nofun) (fun _ _ => nofun) rfl
    | _ =>
      exact hleaf (Except.ok.inj h) (fun _ => nofun) (fun _ => nofun) (fun _ _ => nofun) rfl

theorem encodeDoc_eq {o : BinDataOrder} (ho : o ≠ .format4) : ∀ (d : Document) {k : Bytes},
    encodeDoc o d = .ok k → k = totalDoc keyRank o d ∧ allFields hasRank d = true
  | [], k, h => ⟨(Except.ok.inj h).symm, rfl⟩
  | (name, v) :: d, k, h => by
    unfold encodeDoc at h
    obtain ⟨x, hx, h⟩ := Outcome.bind_eq_ok.mp h
    obtain ⟨y, hy, h⟩ := Outcome.bind_eq_ok.mp h
    obtain ⟨rfl, hv⟩ := encodeValue_eq ho v hx
    obtain ⟨rfl, hd⟩ := encodeDoc_eq ho d hy
    exact ⟨(Except.ok.inj h).symm, by simp [allFields, hv, hd]⟩

theorem encodeArray_eq {o : BinDataOrder} (ho : o ≠ .format4) : ∀ (l : List Bson) {k : Bytes},
    encodeArray o l = .ok k → k = totalArray keyRank o l ∧ allElements hasRank l = true
  | [], k, h => ⟨(Except.ok.inj h).symm, rfl⟩
  | v :: l, k, h => by
    unfold encodeArray at h
    obtain ⟨x, hx, h⟩ := Outcome.bind_eq_ok.mp h
    obtain ⟨y, hy, h⟩ := Outcome.bind_eq_ok.mp h
    obtain ⟨rfl, hv⟩ := encodeValue_eq ho v hx
    obtain ⟨rfl, hl⟩ := encodeArray_eq ho l hy
    exact ⟨(Except.ok.inj h).symm, by simp [allElements, hv, hl]⟩

end

/-! ## Where the stored rank parts from the comparator -/

/-- Two elements that the stored rank byte orders against the comparator: MinKey against
    `undefined`, with the larger name on MinKey. -/
def rankClash : Element → Element → Bool
  | (k, .minKey), (k', .undefined) => compare (utf8 k) (utf8 k') = .gt
  | (k, .undefined), (k', .minKey) => compare (utf8 k) (utf8 k') = .lt
  | _, _ => false

def noValue (_ _ : Bson) : Bool := false

theorem form_minKey {v : Bson} (h : form v = .minKey) : v = .minKey := by
  have hplain := plainForm_of_form h (fun t _ => by cases t <;> nofun) nofun
  cases v <;> cases hplain
  rfl

theorem form_undefined {v : Bson} (h : form v = .undefined) : v = .undefined := by
  have hplain := plainForm_of_form h (fun t _ => by cases t <;> nofun) nofun
  cases v <;> cases hplain
  rfl

/-- Two values of different type ranks hold no elements to compare. -/
theorem reaches_of_rank_ne {o : BinDataOrder} {a b : Bson} (h : typeRank a ≠ typeRank b) :
    reaches noValue rankClash o a b = false := by
  rw [typeRank_eq, typeRank_eq] at h
  rw [reaches_eq]
  simp only [noValue, Bool.false_or]
  generalize form a = f at *
  generalize form b = g at *
  cases f <;> cases g <;> first
    | rfl
    | exact absurd rfl h

/-- Ranks that differ compare the same way in both tables, MinKey and `undefined` apart. -/
theorem compare_keyRank {v v' : Bson} (hv : hasRank v = true) (hv' : hasRank v' = true)
    (h : typeRank v ≠ typeRank v') :
    compare (keyRank v) (keyRank v') = compare (typeRank v) (typeRank v') ∨
    (v = .minKey ∧ v' = .undefined) ∨ (v = .undefined ∧ v' = .minKey) := by
  have hne : (typeRank v).toNat ≠ (typeRank v').toNat := fun h0 => h (UInt8.toNat_inj.mp h0)
  rcases Nat.lt_or_gt_of_ne hne with hlt | hgt
  · rcases stored.rank_lt hv hv' (UInt8.lt_iff_toNat_lt.mpr hlt) with hr | ⟨h1, h2, -⟩
    · left
      rw [compare_toNat, compare_toNat, compare_lt_iff_lt.mpr hlt, compare_lt_iff_lt]
      exact UInt8.lt_iff_toNat_lt.mp hr
    · exact .inr (.inl ⟨form_minKey h1, form_undefined h2⟩)
  · rcases stored.rank_lt hv' hv (UInt8.lt_iff_toNat_lt.mpr hgt) with hr | ⟨h1, h2, -⟩
    · left
      rw [compare_toNat, compare_toNat, compare_gt_iff_gt.mpr hgt, compare_gt_iff_gt]
      exact UInt8.lt_iff_toNat_lt.mp hr
    · exact .inr (.inr ⟨form_undefined h2, form_minKey h1⟩)

/-- The comparator by stored rank agrees with `order` unless `clash`, and then reverses it. -/
def Agrees (clash : Bool) (byRank order : Ordering) : Prop :=
  (clash = false → byRank = order) ∧ (clash = true → byRank = order.swap ∧ order ≠ .eq)

theorem Agrees.refl (order : Ordering) : Agrees false order order := ⟨fun _ => rfl, nofun⟩

/-- A first comparison that agrees, with a second one that is only looked at when equal. -/
theorem Agrees.then {c c' : Bool} {x y x' y' : Ordering} (h : Agrees c x y)
    (h' : y = .eq → Agrees c' x' y') :
    Agrees (c || (decide (y = .eq) && c')) (x.then x') (y.then y') := by
  cases c with
  | true =>
    obtain ⟨hx, hy⟩ := h.2 rfl
    refine ⟨nofun, fun _ => ?_⟩
    have hx' : x ≠ .eq := by
      rw [hx]
      simpa using hy
    rw [then_of_ne hx', then_of_ne hy]
    exact ⟨hx, hy⟩
  | false =>
    have hx := h.1 rfl
    subst hx
    by_cases hc : x = .eq
    · subst hc
      simpa using h' rfl
    · rw [then_of_ne hc, then_of_ne hc]
      simp [Agrees, hc]

theorem keyRank_minKey_undefined : compare (keyRank .minKey) (keyRank .undefined) = .eq := by
  decide

theorem keyRank_undefined_minKey : compare (keyRank .undefined) (keyRank .minKey) = .eq := by
  decide

/-- One element's rank and name. -/
theorem agrees_element {k k' : String} {v v' : Bson} (hv : hasRank v = true)
    (hv' : hasRank v' = true) {x x' y y' : Ordering} {c : Bool}
    (hval : typeRank v = typeRank v' → k = k' → Agrees c (x.then x') (y.then y'))
    (hx : typeRank v ≠ typeRank v' → x = compare (typeRank v) (typeRank v')) :
    Agrees (rankClash (k, v) (k', v') ||
        (decide (typeRank v = typeRank v') && decide (k = k') && c))
      ((compare (keyRank v) (keyRank v')).then ((compare (utf8 k) (utf8 k')).then (x.then x')))
      ((compare (typeRank v) (typeRank v')).then
        ((compare (utf8 k) (utf8 k')).then (y.then y'))) := by
  by_cases hr : typeRank v = typeRank v'
  · have hnc : rankClash (k, v) (k', v') = false := by
      cases v <;> cases v' <;> first
        | rfl
        | exact absurd hr (by decide)
    have hkr : keyRank v = keyRank v' := stored.rank_eq hr
    rw [hnc, hr, hkr, Std.compare_self, Std.compare_self]
    by_cases hk : k = k'
    · subst hk
      rw [Std.compare_self]
      simpa using hval hr rfl
    · have hne : compare (utf8 k) (utf8 k') ≠ .eq := fun h =>
        hk (utf8_injective (Std.compare_eq_iff_eq.mp h))
      simp only [Ordering.eq_then, then_of_ne hne, hk, decide_false, Bool.and_false,
        Bool.false_and, Bool.or_false]
      exact Agrees.refl _
  · have hne : compare (typeRank v) (typeRank v') ≠ .eq := fun h =>
      hr (Std.compare_eq_iff_eq.mp h)
    simp only [hr, decide_false, Bool.false_and, Bool.or_false, then_of_ne hne]
    rcases compare_keyRank hv hv' hr with h | ⟨rfl, rfl⟩ | ⟨rfl, rfl⟩
    · have hnc : rankClash (k, v) (k', v') = false := by
        cases v <;> cases v' <;> first
          | rfl
          | exact absurd h (by decide)
      rw [hnc, h, then_of_ne hne]
      exact Agrees.refl _
    · -- the rank bytes are equal, so the names decide, against the ranks when larger
      have h10 : compare (typeRank .minKey) (typeRank .undefined) = .lt := by decide
      rw [keyRank_minKey_undefined, Ordering.eq_then, hx hr, h10]
      cases hn : compare (utf8 k) (utf8 k') <;> simp [rankClash, hn, Agrees]
    · have h10 : compare (typeRank .undefined) (typeRank .minKey) = .gt := by decide
      rw [keyRank_undefined_minKey, Ordering.eq_then, hx hr, h10]
      cases hn : compare (utf8 k) (utf8 k') <;> simp [rankClash, hn, Agrees]

/-- Comparing elements by the stored rank is the comparator, or its reverse at a clash. -/
theorem pairStep_agrees (o : BinDataOrder) :
    PairStep
      (fun a b => allValues hasRank a = true → allValues hasRank b = true →
        Agrees (reaches noValue rankClash o a b) (cmpBy keyRank o a b) (BsonOrder.cmp o a b))
      (fun d e => allFields hasRank d = true → allFields hasRank e = true →
        Agrees (reachesDoc noValue rankClash o d e) (docCmpBy keyRank o d e) (docCmp o d e))
      (fun l m => allElements hasRank l = true → allElements hasRank m = true →
        Agrees (reachesArray noValue rankClash o l m) (arrayCmpBy keyRank o l m)
          (arrayCmp o l m)) where
  value a b hdoc harr hscope ha hb := by
    by_cases hr : typeRank a = typeRank b
    · unfold BsonOrder.cmp
      rw [cmpBy_eq hr, cmpBy_eq hr, reaches_eq]
      simp only [noValue, Bool.false_or]
      have hd := fun d e hd he => hdoc d e hd he (allFields_of_document hd ha)
        (allFields_of_document he hb)
      have hl := fun l m hl hm => harr l m hl hm (allElements_of_array hl ha)
        (allElements_of_array hm hb)
      have hs := fun c s c' s' hs hs' => hscope c s c' s' hs hs' (allFields_of_scoped hs ha)
        (allFields_of_scoped hs' hb)
      clear hdoc harr hscope
      generalize form a = f at *
      generalize form b = g at *
      cases f <;> cases g <;> first
        | exact Agrees.refl _
        | exact hd _ _ rfl rfl
        | exact hl _ _ rfl rfl
        | skip
      case scoped.scoped c s c' s' =>
        have h := (Agrees.refl (compare c c')).then fun _ => hs c s c' s' rfl rfl
        simpa [Form.reaches, Form.cmp, docCmp, Std.compare_eq_iff_eq] using h
    · rw [reaches_of_rank_ne hr]
      unfold BsonOrder.cmp
      rw [cmpBy_of_rank_ne hr, cmpBy_of_rank_ne hr]
      exact Agrees.refl _
  doc_nil_nil _ _ := Agrees.refl _
  doc_nil_cons _ _ _ _ := Agrees.refl _
  doc_cons_nil _ _ _ _ := Agrees.refl _
  doc_cons_cons k v d k' v' e hv htail ha hb := by
    obtain ⟨hva, hda⟩ := allFields_cons ha
    obtain ⟨hvb, heb⟩ := allFields_cons hb
    unfold docCmp reachesDoc docCmpBy
    refine agrees_element (allValues_self hva) (allValues_self hvb) ?_ cmpBy_of_rank_ne
    intro _ _
    exact (hv hva hvb).then fun _ => htail hda heb
  arr_nil_nil _ _ := Agrees.refl _
  arr_nil_cons _ _ _ _ := Agrees.refl _
  arr_cons_nil _ _ _ _ := Agrees.refl _
  arr_cons_cons v l v' m hv htail ha hb := by
    obtain ⟨hva, hla⟩ := allElements_cons ha
    obtain ⟨hvb, hmb⟩ := allElements_cons hb
    unfold arrayCmp reachesArray arrayCmpBy
    exact (hv hva hvb).then fun _ => htail hla hmb

/-! ## The encoder against the comparator -/

/-- The keys of two encodable values compare as the comparator by the stored rank. -/
theorem open_encodeValue {o : BinDataOrder} (ho : o ≠ .format4) {a b : Bson} {ka kb : Bytes}
    (ha : encodeValue o a = .ok ka) (hb : encodeValue o b = .ok kb)
    (hclash : reaches valueClash noElement o a b = false) : Open 0 (cmpBy keyRank o a b) ka kb := by
  obtain ⟨rfl, hva⟩ := encodeValue_eq ho a ha
  obtain ⟨rfl, hvb⟩ := encodeValue_eq ho b hb
  exact open_totalKey stored hva hvb hclash

/-- The comparator by the stored rank on encodable values: `cmp`, or its reverse. -/
theorem agrees_encodeValue {o : BinDataOrder} (ho : o ≠ .format4) {a b : Bson} {ka kb : Bytes}
    (ha : encodeValue o a = .ok ka) (hb : encodeValue o b = .ok kb) :
    Agrees (reaches noValue rankClash o a b) (cmpBy keyRank o a b) (BsonOrder.cmp o a b) :=
  (pairStep_agrees o).values a b (encodeValue_eq ho a ha).2 (encodeValue_eq ho b hb).2

/-- Key order is `cmp` exactly when the comparison comes to no element that holds MinKey on
    one side and `undefined` on the other with the larger name on MinKey. (Format 4 is a key
    format only; it compares as mongod. A raw text carrier's text is not UTF-8, so it is
    never the text of a plain value.) -/
theorem compare_encodeValue_iff {o : BinDataOrder} (ho : o ≠ .format4) {a b : Bson} {ka kb : Bytes}
    (ha : encodeValue o a = .ok ka) (hb : encodeValue o b = .ok kb)
    (hclash : reaches valueClash noElement o a b = false) :
    compare ka kb = BsonOrder.cmp o a b ↔ reaches noValue rankClash o a b = false := by
  rw [(open_encodeValue ho ha hb hclash).compare_eq]
  obtain ⟨hagree, hreverse⟩ := agrees_encodeValue ho ha hb
  cases hr : reaches noValue rankClash o a b with
  | false => exact ⟨fun _ => rfl, fun _ => hagree hr⟩
  | true =>
    obtain ⟨hswap, hne⟩ := hreverse hr
    refine ⟨fun h => ?_, nofun⟩
    rw [hswap] at h
    cases hc : BsonOrder.cmp o a b with
    | eq => exact absurd hc hne
    | lt =>
      rw [hc] at h
      cases h
    | gt =>
      rw [hc] at h
      cases h

/-- A document with a nested number against one with a nested string. -/
theorem compare_encodeValue_nested :
    (compare ([5, 3, 97, 0, 0, 193, 128, 0, 255, 51, 0, 255, 0, 0, 0] : Bytes)
          [5, 4, 97, 0, 0, 120, 0, 0, 0] =
        BsonOrder.cmp .mongod (.document [("a", .int32 5)]) (.document [("a", .string "x")]) ↔
      reaches noValue rankClash .mongod (.document [("a", .int32 5)])
        (.document [("a", .string "x")]) = false) ∧
    BsonOrder.cmp .mongod (.document [("a", .int32 5)]) (.document [("a", .string "x")]) = .lt :=
  ⟨compare_encodeValue_iff (by decide) (by rfl) (by rfl) (by decide), by decide⟩

/-- `{b: MinKey}` sorts below `{a: undefined}`, and its key above. -/
theorem encodeValue_minKey_above_undefined :
    ∃ ka kb, encodeValue .mongod (.document [("b", .minKey)]) = .ok ka ∧
      encodeValue .mongod (.document [("a", .undefined)]) = .ok kb ∧
      compare ka kb = .gt ∧
      BsonOrder.cmp .mongod (.document [("b", .minKey)]) (.document [("a", .undefined)]) = .lt :=
  ⟨[5, 1, 98, 0, 0, 0, 0, 0], [5, 1, 97, 0, 0, 128, 0, 0, 0], by rfl, by rfl, by decide, by decide⟩

end Secantus.SortKey
