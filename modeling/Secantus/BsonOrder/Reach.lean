/-
  Which pairs a comparison comes to.

  Comparing two documents compares their elements one pair at a time, and stops at the
  first that differs. `reaches pv pe a b` asks whether, on the way, the comparison of `a`
  and `b` comes to two values with `pv`, or to two elements (name and value) with `pe`.
  It is a function of the two values alone, so a condition stated with it is a condition
  on the inputs of the comparison.

  `allValues p v` asks `p` of `v` and of every value inside it.
-/
import Secantus.Bson.Document
import Secantus.BsonOrder.Form

namespace Secantus.BsonOrder

open Secantus Bson

/-- Whether a value is no carrier document. -/
def isPlain (v : Bson) : Bool := (asRawText v).isNone && (asInvalidUtf8 v).isNone

/-- A name and its value. -/
abbrev Element := String × Bson

mutual

def reaches (pv : Bson → Bson → Bool) (pe : Element → Element → Bool) (o : BinDataOrder)
    (a b : Bson) : Bool :=
  pv a b ||
    match a, b with
    | .document d, .document e =>
      isPlain (.document d) && isPlain (.document e) && reachesDoc pv pe o d e
    | .array l, .array m => reachesArray pv pe o l m
    | .javaScriptCodeWithScope c s, .javaScriptCodeWithScope c' s' =>
      c = c' && reachesDoc pv pe o s s'
    | _, _ => false

def reachesDoc (pv : Bson → Bson → Bool) (pe : Element → Element → Bool) (o : BinDataOrder) :
    Document → Document → Bool
  | (k, v) :: d, (k', v') :: e =>
    pe (k, v) (k', v') ||
      (typeRank v = typeRank v' && k = k' &&
        (reaches pv pe o v v' || (cmp o v v' = .eq && reachesDoc pv pe o d e)))
  | _, _ => false

def reachesArray (pv : Bson → Bson → Bool) (pe : Element → Element → Bool) (o : BinDataOrder) :
    List Bson → List Bson → Bool
  | v :: l, v' :: m => reaches pv pe o v v' || (cmp o v v' = .eq && reachesArray pv pe o l m)
  | _, _ => false

end

mutual

def allValues (p : Bson → Bool) (v : Bson) : Bool :=
  p v &&
    match v with
    | .document d => allFields p d
    | .array l => allElements p l
    | .javaScriptCodeWithScope _ s => allFields p s
    | _ => true

def allFields (p : Bson → Bool) : Document → Bool
  | [] => true
  | (_, v) :: d => allValues p v && allFields p d

def allElements (p : Bson → Bool) : List Bson → Bool
  | [] => true
  | v :: l => allValues p v && allElements p l

end

theorem utf8_injective {s t : String} (h : utf8 s = utf8 t) : s = t := by
  unfold utf8 at h
  have h1 : s.toByteArray.data = t.toByteArray.data := Array.toList_inj.mp h
  apply String.toByteArray_inj.mp
  cases hs : s.toByteArray
  cases ht : t.toByteArray
  rw [hs, ht] at h1
  congr

section

variable {pv : Bson → Bson → Bool} {pe : Element → Element → Bool} {o : BinDataOrder}

/-- What two forms of one rank go on to compare. -/
def Form.reaches (pv : Bson → Bson → Bool) (pe : Element → Element → Bool) (o : BinDataOrder) :
    Form → Form → Bool
  | .document d, .document e => reachesDoc pv pe o d e
  | .array l, .array m => reachesArray pv pe o l m
  | .scoped c s, .scoped c' s' => c = c' && reachesDoc pv pe o s s'
  | _, _ => false

theorem isPlain_iff (d : Document) :
    isPlain (.document d) = true ↔ form (.document d) = .document d := by
  rcases carrier_cases (.document d) with ⟨t, raw, hr, -, hf⟩ | ⟨s, -, hi, hf⟩ | ⟨hr, hi, hf⟩
  · rw [hf]
    cases t <;> simp [isPlain, hr, rawForm]
  · simp [hf, isPlain, hi]
  · simp [hf, isPlain, hr, hi, plainForm]

theorem Form.reaches_left {d : Document} {f : Form} (h : isPlain (.document d) = false) :
    Form.reaches pv pe o (form (.document d)) f = false := by
  rcases carrier_cases (.document d) with ⟨t, raw, hr, -, hf⟩ | ⟨s, -, hi, hf⟩ | ⟨hr, hi, hf⟩
  · rw [hf]
    cases t <;> rfl
  · rw [hf]
    rfl
  · simp [isPlain, hr, hi] at h

theorem Form.reaches_right {d : Document} {f : Form} (h : isPlain (.document d) = false) :
    Form.reaches pv pe o f (form (.document d)) = false := by
  rcases carrier_cases (.document d) with ⟨t, raw, hr, -, hf⟩ | ⟨s, -, hi, hf⟩ | ⟨hr, hi, hf⟩
  · rw [hf]
    cases f <;> cases t <;> rfl
  · rw [hf]
    cases f <;> rfl
  · simp [isPlain, hr, hi] at h

theorem utf8_eq_iff {s t : String} : utf8 s = utf8 t ↔ s = t :=
  ⟨utf8_injective, fun h => by rw [h]⟩

theorem reaches_eq (a b : Bson) :
    reaches pv pe o a b = (pv a b || Form.reaches pv pe o (form a) (form b)) := by
  have hdoc : ∀ (d : Document) (v : Bson), (∀ e, v ≠ .document e) →
      Form.reaches pv pe o (form (.document d)) (form v) = false ∧
      Form.reaches pv pe o (form v) (form (.document d)) = false := by
    intro d v hv
    have hf : ∀ e, form v ≠ .document e := fun e h => hv e (form_document h)
    generalize form v = f at hf
    cases hp : isPlain (.document d) with
    | false => exact ⟨Form.reaches_left hp, Form.reaches_right hp⟩
    | true =>
      rw [(isPlain_iff d).mp hp]
      cases f <;> first
        | exact ⟨rfl, rfl⟩
        | exact absurd rfl (hf _)
  unfold reaches
  congr 1
  cases a <;> cases b <;> first
    | rfl
    | exact (hdoc _ _ (by intro e h; cases h)).1.symm
    | exact (hdoc _ _ (by intro e h; cases h)).2.symm
    | skip
  case document.document d e =>
    cases hd : isPlain (.document d) with
    | false => simp [hd, Form.reaches_left hd]
    | true =>
      cases he : isPlain (.document e) with
      | false => simp [hd, he, Form.reaches_right he]
      | true => simp [hd, he, (isPlain_iff d).mp hd, (isPlain_iff e).mp he, Form.reaches]
  case javaScriptCodeWithScope.javaScriptCodeWithScope c s c' s' =>
    change (decide (c = c') && _) = (decide (utf8 c = utf8 c') && _)
    rw [decide_eq_decide.mpr utf8_eq_iff]

theorem not_pv_of_not_reaches {a b : Bson} (h : reaches pv pe o a b = false) : pv a b = false := by
  rw [reaches_eq] at h
  exact (Bool.or_eq_false_iff.mp h).1

theorem reachesDoc_of_document {a b : Bson} {d e : Document} (ha : form a = .document d)
    (hb : form b = .document e) (h : reaches pv pe o a b = false) :
    reachesDoc pv pe o d e = false := by
  rw [reaches_eq, ha, hb] at h
  exact (Bool.or_eq_false_iff.mp h).2

theorem reachesArray_of_array {a b : Bson} {l m : List Bson} (ha : form a = .array l)
    (hb : form b = .array m) (h : reaches pv pe o a b = false) :
    reachesArray pv pe o l m = false := by
  rw [reaches_eq, ha, hb] at h
  exact (Bool.or_eq_false_iff.mp h).2

theorem reachesDoc_of_scoped {a b : Bson} {c : Bytes} {s s' : Document} (ha : form a = .scoped c s)
    (hb : form b = .scoped c s') (h : reaches pv pe o a b = false) :
    reachesDoc pv pe o s s' = false := by
  rw [reaches_eq, ha, hb] at h
  simpa [Form.reaches] using (Bool.or_eq_false_iff.mp h).2

/-- What not reaching anything in two documents says of their first elements. -/
theorem reachesDoc_cons {k k' : String} {v v' : Bson} {d e : Document}
    (h : reachesDoc pv pe o ((k, v) :: d) ((k', v') :: e) = false) :
    pe (k, v) (k', v') = false ∧ (typeRank v = typeRank v' → k = k' →
      reaches pv pe o v v' = false ∧ (cmp o v v' = .eq → reachesDoc pv pe o d e = false)) := by
  unfold reachesDoc at h
  obtain ⟨h1, h2⟩ := Bool.or_eq_false_iff.mp h
  refine ⟨h1, fun hr hk => ?_⟩
  simp only [hr, hk, decide_true, Bool.true_and] at h2
  obtain ⟨h3, h4⟩ := Bool.or_eq_false_iff.mp h2
  refine ⟨h3, fun hc => ?_⟩
  simpa [hc] using h4

theorem reachesArray_cons {v v' : Bson} {l m : List Bson}
    (h : reachesArray pv pe o (v :: l) (v' :: m) = false) :
    reaches pv pe o v v' = false ∧ (cmp o v v' = .eq → reachesArray pv pe o l m = false) := by
  unfold reachesArray at h
  obtain ⟨h1, h2⟩ := Bool.or_eq_false_iff.mp h
  refine ⟨h1, fun hc => ?_⟩
  simpa [hc] using h2

variable {p : Bson → Bool}

theorem allValues_self {v : Bson} (h : allValues p v = true) : p v = true := by
  unfold allValues at h
  exact (Bool.and_eq_true_iff.mp h).1

theorem allValues_document {d : Document} (h : allValues p (.document d) = true) :
    allFields p d = true := by
  unfold allValues at h
  exact (Bool.and_eq_true_iff.mp h).2

theorem allValues_array {l : List Bson} (h : allValues p (.array l) = true) :
    allElements p l = true := by
  unfold allValues at h
  exact (Bool.and_eq_true_iff.mp h).2

theorem allFields_of_document {v : Bson} {d : Document} (hv : form v = .document d)
    (h : allValues p v = true) : allFields p d = true := by
  obtain rfl := form_document hv
  exact allValues_document h

theorem allElements_of_array {v : Bson} {l : List Bson} (hv : form v = .array l)
    (h : allValues p v = true) : allElements p l = true := by
  obtain rfl := form_array hv
  exact allValues_array h

theorem allFields_of_scoped {v : Bson} {c : Bytes} {s : Document} (hv : form v = .scoped c s)
    (h : allValues p v = true) : allFields p s = true := by
  obtain ⟨x, rfl, -⟩ := form_scoped hv
  unfold allValues at h
  exact (Bool.and_eq_true_iff.mp h).2

theorem allFields_cons {k : String} {v : Bson} {d : Document}
    (h : allFields p ((k, v) :: d) = true) : allValues p v = true ∧ allFields p d = true := by
  unfold allFields at h
  exact Bool.and_eq_true_iff.mp h

theorem allElements_cons {v : Bson} {l : List Bson} (h : allElements p (v :: l) = true) :
    allValues p v = true ∧ allElements p l = true := by
  unfold allElements at h
  exact Bool.and_eq_true_iff.mp h

end

end Secantus.BsonOrder
