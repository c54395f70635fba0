/-
  The comparator by form.

  A carrier document is a string, a regex, a symbol or a piece of JavaScript to the
  comparator, and the four number types are one. `form` reads a value as what the
  comparator takes it for; `cmpBy_eq` then says what `cmp` computes on two values of one
  rank, without carriers and without number types. `pair_induction` is the induction that
  follows the comparator's own recursion: into documents, arrays and scopes.

  The two ways to compare binary numbers (`numeric.rs`): `fast_cmp`, without digits, and `classify`
  then `cmp`.

  An int32, int64 or double is a `BinaryNumber`, and its quantity is exact: an integer, an infinity,
  a NaN or the dyadic rational of the double's bits. Both ways compare quantities and leave a NaN
  unordered (`fastCmp_eq_slowCmp`); the sort order above them puts it below every number.
-/
import Secantus.BsonOrder.Compare
import Secantus.Bson.Quantity

namespace Secantus.BsonOrder

open Secantus Bson

/-- What the comparator takes a value for. -/
inductive Form where
  | minKey
  | undefined
  | null
  | number (q : Quantity)
  | text (s : Bytes)
  | document (d : Document)
  /-- A symbol or a DBPointer, which the comparator ranks with the documents. -/
  | other
  | array (a : List Bson)
  | binary (b : Binary)
  | objectId (oid : ObjectId)
  | boolean (b : Bool)
  | dateTime (millis : Int64)
  | timestamp (t : Timestamp)
  | regex (r : Regex)
  | rawRegex (s : Bytes)
  | rawPointer (s : Bytes)
  | code (s : Bytes)
  | scoped (code : Bytes) (scope : Document)
  | rawScoped (s : Bytes)
  | maxKey

/-- The form of a raw text carrier. -/
def rawForm (t : RawType) (raw : Bytes) : Form :=
  match t with
  | .regex => .rawRegex raw
  | .dbPointer => .rawPointer raw
  | .javaScript => .code (rawTextBytes .javaScript raw)
  | .symbol => .text (rawTextBytes .symbol raw)
  | .javaScriptScope => .rawScoped raw

/-- The form of a value that is no carrier. -/
def plainForm : Bson → Form
  | .minKey => .minKey
  | .undefined => .undefined
  | .null => .null
  | .int32 n => .number (.fin n.toInt)
  | .int64 n => .number (.fin n.toInt)
  | .double d => .number d.quantity
  | .decimal128 d => .number d.quantity
  | .string s => .text (utf8 s)
  | .document d => .document d
  | .symbol _ | .dbPointer _ _ => .other
  | .array a => .array a
  | .binary b => .binary b
  | .objectId oid => .objectId oid
  | .boolean b => .boolean b
  | .dateTime n => .dateTime n
  | .timestamp t => .timestamp t
  | .regularExpression r => .regex r
  | .javaScriptCode s => .code (utf8 s)
  | .javaScriptCodeWithScope c s => .scoped (utf8 c) s
  | .maxKey => .maxKey

def form (v : Bson) : Form :=
  match asRawText v with
  | some (t, raw) => rawForm t raw
  | none =>
    match asInvalidUtf8 v with
    | some s => .text s
    | none => plainForm v

def Form.rank : Form → UInt8
  | .minKey => 10
  | .undefined => 15
  | .null => 20
  | .number _ => 30
  | .text _ => 40
  | .document _ | .other => 50
  | .array _ => 60
  | .binary _ => 70
  | .objectId _ => 80
  | .boolean _ => 90
  | .dateTime _ => 100
  | .timestamp _ => 110
  | .regex _ | .rawRegex _ => 120
  | .rawPointer _ => 122
  | .code _ => 125
  | .scoped _ _ | .rawScoped _ => 127
  | .maxKey => 130

/-- The comparison of two forms of one rank. -/
def Form.cmp (rank : Bson → UInt8) (o : BinDataOrder) : Form → Form → Ordering
  | .number p, .number q => p.cmp q
  | .text s, .text t => compare s t
  | .document d, .document e => docCmpBy rank o d e
  | .array l, .array m => arrayCmpBy rank o l m
  | .binary x, .binary y => bindataCmp o x y
  | .objectId x, .objectId y => compare x.bytes y.bytes
  | .boolean x, .boolean y => compare x y
  | .dateTime x, .dateTime y => compare x.toInt y.toInt
  | .timestamp x, .timestamp y =>
    (compare x.time.toNat y.time.toNat).then (compare x.increment.toNat y.increment.toNat)
  | .regex x, .regex y => regexCmp x y
  | .regex x, .rawRegex t => compare (utf8 x.pattern) t
  | .rawRegex s, .regex y => compare s (utf8 y.pattern)
  | .rawRegex s, .rawRegex t => compare s t
  | .rawPointer s, .rawPointer t => compare s t
  | .code s, .code t => compare s t
  | .scoped c s, .scoped c' s' => (compare c c').then (docCmpBy rank o s s')
  | .scoped c _, .rawScoped t => compare c t
  | .rawScoped s, .scoped c _ => compare s c
  | .rawScoped s, .rawScoped t => compare s t
  | _, _ => .eq

/-! ## Reading a value's form -/

theorem form_of_raw {v : Bson} {t : RawType} {raw : Bytes} (h : asRawText v = some (t, raw)) :
    form v = rawForm t raw := by
  unfold form
  rw [h]

theorem form_of_invalid {v : Bson} {s : Bytes} (h : asInvalidUtf8 v = some s) :
    form v = .text s := by
  have hr : asRawText v = none := by
    cases hr : asRawText v with
    | none => rfl
    | some p =>
      rw [asInvalidUtf8_of_asRawText hr] at h
      cases h
  unfold form
  rw [hr, h]

theorem form_of_plain {v : Bson} (hr : asRawText v = none) (hi : asInvalidUtf8 v = none) :
    form v = plainForm v := by
  unfold form
  rw [hr, hi]

/-- A value is a raw text carrier, an invalid-UTF-8 string's carrier, or plain. -/
theorem carrier_cases (v : Bson) :
    (∃ t raw, asRawText v = some (t, raw) ∧ asInvalidUtf8 v = none ∧ form v = rawForm t raw) ∨
    (∃ s, asRawText v = none ∧ asInvalidUtf8 v = some s ∧ form v = .text s) ∨
    (asRawText v = none ∧ asInvalidUtf8 v = none ∧ form v = plainForm v) := by
  cases hr : asRawText v with
  | some p =>
    obtain ⟨t, raw⟩ := p
    exact .inl ⟨t, raw, rfl, asInvalidUtf8_of_asRawText hr, form_of_raw hr⟩
  | none =>
    cases hi : asInvalidUtf8 v with
    | some s => exact .inr (.inl ⟨s, rfl, rfl, form_of_invalid hi⟩)
    | none => exact .inr (.inr ⟨rfl, rfl, form_of_plain hr hi⟩)

theorem asRawText_document {v : Bson} {p : RawType × Bytes} (h : asRawText v = some p) :
    ∃ d, v = .document d := by
  unfold asRawText at h
  split at h
  · exact ⟨_, rfl⟩
  · cases h

theorem asInvalidUtf8_document {v : Bson} {s : Bytes} (h : asInvalidUtf8 v = some s) :
    ∃ d, v = .document d := by
  unfold asInvalidUtf8 at h
  split at h
  · exact ⟨_, rfl⟩
  · cases h

theorem typeRank_eq (v : Bson) : typeRank v = (form v).rank := by
  rcases carrier_cases v with ⟨t, raw, hr, -, hf⟩ | ⟨s, hr, hi, hf⟩ | ⟨hr, hi, hf⟩
  · rw [hf]
    unfold typeRank
    rw [hr]
    cases t <;> rfl
  · rw [hf]
    unfold typeRank
    rw [hr, hi]
    rfl
  · rw [hf]
    unfold typeRank
    rw [hr, hi]
    cases v <;> rfl

theorem numberCmp_eq {a b : Bson} {p q : Quantity} (ha : quantity a = some p)
    (hb : quantity b = some q) : numberCmp a b = p.cmp q := by
  have hna := Numeric.isNanBson_spec a
  have hnb := Numeric.isNanBson_spec b
  rw [ha, Option.some.injEq] at hna
  rw [hb, Option.some.injEq] at hnb
  by_cases hp : p = .nan
  · have h1 := hna.mpr hp
    subst hp
    by_cases hq : q = .nan
    · have h2 := hnb.mpr hq
      subst hq
      simp [numberCmp, h1, h2, Quantity.cmp]
    · have h2 : Numeric.isNanBson b = false := by
        simpa [hq] using hnb
      cases q <;> simp_all [numberCmp, Quantity.cmp]
  · have h1 : Numeric.isNanBson a = false := by
      simpa [hp] using hna
    by_cases hq : q = .nan
    · have h2 := hnb.mpr hq
      subst hq
      cases p <;> simp_all [numberCmp, Quantity.cmp]
    · have h2 : Numeric.isNanBson b = false := by
        simpa [hq] using hnb
      have hpq : p.partialCmp q = some (p.cmp q) := by
        cases p <;> cases q <;> simp_all [Quantity.partialCmp]
      unfold numberCmp
      simp only [h1, h2, Bool.or_self, Bool.false_eq_true, if_false]
      cases hf : Numeric.fastCmp a b with
      | some r =>
        obtain ⟨p', q', hp', hq', rfl⟩ := Numeric.fastCmp_spec hf
        rw [ha, Option.some.injEq] at hp'
        rw [hb, Option.some.injEq] at hq'
        subst hp' hq'
        rw [hpq]
        rfl
      | none =>
        obtain ⟨x, hx, hxwf, hxq⟩ := Numeric.exists_classify ha
        obtain ⟨y, hy, hywf, hyq⟩ := Numeric.exists_classify hb
        rw [hx, hy]
        dsimp only
        rw [Numeric.cmp_spec hxwf hywf, hxq, hyq, hpq]
        rfl

/-! ## `cmp` on forms -/

/-- Two plain values of one rank. -/
theorem cmpBy_plain {rank : Bson → UInt8} {o : BinDataOrder} {a b : Bson} (ha : asRawText a = none)
    (ha' : asInvalidUtf8 a = none) (hb : asRawText b = none) (hb' : asInvalidUtf8 b = none)
    (h : typeRank a = typeRank b) :
    cmpBy rank o a b = (plainForm a).cmp rank o (plainForm b) := by
  have hr : (plainForm a).rank = (plainForm b).rank := by
    rw [typeRank_eq, typeRank_eq, form_of_plain ha ha', form_of_plain hb hb'] at h
    exact h
  have hraw : rawTextCmp a b = none := by simp [rawTextCmp, ha, hb]
  have hnum : ∀ p q, quantity a = some p → quantity b = some q → numberCmp a b = p.cmp q :=
    fun p q => numberCmp_eq
  unfold cmpBy
  rw [if_neg (not_not.mpr h), hraw]
  -- most pairs have different ranks; of the rest all but the numbers read off an arm
  cases a <;> cases b <;> first
    | (simp [plainForm, Form.rank] at hr; done)
    | simp [carrierPair, strBytes, ha', hb', plainForm, Form.cmp, numberCmp, Numeric.isNanBson,
        Numeric.fastCmp, Numeric.classify] <;> done
    | exact hnum _ _ rfl rfl

theorem strBytes_of_raw {v : Bson} {p : RawType × Bytes} (h : asRawText v = some p) :
    strBytes v = none := by
  obtain ⟨d, rfl⟩ := asRawText_document h
  exact asInvalidUtf8_of_asRawText h

theorem strBytes_of_invalid {v : Bson} {s : Bytes} (h : asInvalidUtf8 v = some s) :
    strBytes v = some s := by
  obtain ⟨d, rfl⟩ := asInvalidUtf8_document h
  exact h

theorem textOf_of_raw {v : Bson} {t : RawType} {raw : Bytes} (h : asRawText v = some (t, raw)) :
    textOf v = some (rawTextBytes t raw) := by
  unfold textOf
  rw [h]

theorem textOf_of_invalid {v : Bson} {s : Bytes} (hr : asRawText v = none)
    (h : asInvalidUtf8 v = some s) : textOf v = some s := by
  obtain ⟨d, rfl⟩ := asInvalidUtf8_document h
  unfold textOf
  rw [hr]
  exact h

theorem carrierPair_eq {a b : Bson} (h : ∀ x y, a = .string x → b = .string y → False) :
    carrierPair a b = (strBytes a).bind fun x => (strBytes b).map fun y => (x, y) := by
  unfold carrierPair
  split
  · exact (h _ _ rfl rfl).elim
  · cases strBytes a <;> cases strBytes b <;> rfl

/-- The text a form compares by, when it is one a raw text carrier can meet. -/
def Form.textual : Form → Option Bytes
  | .text s | .code s | .rawRegex s | .rawPointer s | .rawScoped s => some s
  | .regex r => some (utf8 r.pattern)
  | .scoped c _ => some c
  | _ => none

theorem textOf_plain {v : Bson} (hr : asRawText v = none) (hi : asInvalidUtf8 v = none)
    (hs : ∀ s, v ≠ .symbol s) : textOf v = (plainForm v).textual := by
  unfold textOf
  rw [hr]
  cases v <;> first | rfl | exact hi | exact absurd rfl (hs _)

theorem carrierPair_of_raw {a b : Bson} (h : asRawText a ≠ none ∨ asRawText b ≠ none) :
    carrierPair a b = none := by
  rcases h with hr | hr
  · obtain ⟨p, hp⟩ := Option.ne_none_iff_exists'.mp hr
    rw [carrierPair_eq, strBytes_of_raw hp]
    · rfl
    · rintro s t rfl -
      simp [asRawText] at hr
  · obtain ⟨p, hp⟩ := Option.ne_none_iff_exists'.mp hr
    rw [carrierPair_eq, strBytes_of_raw hp]
    · cases strBytes a <;> rfl
    · rintro s t - rfl
      simp [asRawText] at hr

/-- Two values of one rank of which one is a raw text carrier compare by their texts. -/
theorem cmpBy_raw {rank : Bson → UInt8} {o : BinDataOrder} {a b : Bson} {x y : Bytes}
    (h : typeRank a = typeRank b) (hraw : asRawText a ≠ none ∨ asRawText b ≠ none)
    (ha : textOf a = some x) (hb : textOf b = some y) : cmpBy rank o a b = compare x y := by
  have hrc : rawTextCmp a b = some (compare x y) := by
    unfold rawTextCmp
    rw [if_neg, ha, hb]
    · rfl
    · rcases hraw with hr | hr
      · simp [hr]
      · simp [hr]
  unfold cmpBy
  rw [if_neg (not_not.mpr h), carrierPair_of_raw hraw, hrc]

/-- `cmp` on two values of one rank is the comparison of their forms. -/
theorem cmpBy_eq {rank : Bson → UInt8} {o : BinDataOrder} {a b : Bson}
    (h : typeRank a = typeRank b) : cmpBy rank o a b = (form a).cmp rank o (form b) := by
  have hr := h
  rw [typeRank_eq, typeRank_eq] at hr
  rcases carrier_cases a with ⟨t, raw, ha, ha', hfa⟩ | ⟨s, ha, ha', hfa⟩ | ⟨ha, ha', hfa⟩
  · -- a raw text carrier on the left
    have hta := textOf_of_raw ha
    have hne : asRawText a ≠ none ∨ asRawText b ≠ none := .inl (by simp [ha])
    rcases carrier_cases b with ⟨u, raw', hb, hb', hfb⟩ | ⟨s', hb, hb', hfb⟩ | ⟨hb, hb', hfb⟩
    · rw [cmpBy_raw h hne hta (textOf_of_raw hb)]
      rw [hfa, hfb] at hr ⊢
      cases t <;> cases u <;> first
        | rfl
        | simp [rawForm, Form.rank] at hr
    · rw [cmpBy_raw h hne hta (textOf_of_invalid hb hb')]
      rw [hfa, hfb] at hr ⊢
      cases t <;> first
        | rfl
        | simp [rawForm, Form.rank] at hr
    · rw [hfa, hfb] at hr ⊢
      have htb := textOf_plain hb hb'
      cases t <;> cases b <;> first
        | (simp [rawForm, plainForm, Form.rank] at hr; done)
        | exact cmpBy_raw h hne hta (htb fun _ => nofun)
  · rcases carrier_cases b with ⟨u, raw', hb, hb', hfb⟩ | ⟨s', hb, hb', hfb⟩ | ⟨hb, hb', hfb⟩
    · rw [cmpBy_raw h (.inr (by simp [hb])) (textOf_of_invalid ha ha') (textOf_of_raw hb)]
      rw [hfa, hfb] at hr ⊢
      cases u <;> first
        | rfl
        | simp [rawForm, Form.rank] at hr
    · -- two strings, neither UTF-8
      obtain ⟨d, rfl⟩ := asInvalidUtf8_document ha'
      have hcp : carrierPair (.document d) b = some (s, s') := by
        rw [carrierPair_eq (by nofun), strBytes_of_invalid ha', strBytes_of_invalid hb']
        rfl
      unfold cmpBy
      rw [if_neg (not_not.mpr h), hcp, hfa, hfb]
      rfl
    · obtain ⟨d, rfl⟩ := asInvalidUtf8_document ha'
      rw [hfa, hfb] at hr
      cases b <;> first
        | (simp [plainForm, Form.rank] at hr; done)
        | skip
      rename_i t
      have hcp : carrierPair (.document d) (.string t) = some (s, utf8 t) := by
        rw [carrierPair_eq (by nofun), strBytes_of_invalid ha']
        rfl
      unfold cmpBy
      rw [if_neg (not_not.mpr h), hcp, hfa, hfb]
      rfl
  · rcases carrier_cases b with ⟨u, raw', hb, hb', hfb⟩ | ⟨s', hb, hb', hfb⟩ | ⟨hb, hb', hfb⟩
    · rw [hfa, hfb] at hr ⊢
      have htb := textOf_of_raw hb
      have hne : asRawText a ≠ none ∨ asRawText b ≠ none := .inr (by simp [hb])
      have hta := textOf_plain ha ha'
      cases u <;> cases a <;> first
        | (simp [rawForm, plainForm, Form.rank] at hr; done)
        | exact cmpBy_raw h hne (hta fun _ => nofun) htb
    · obtain ⟨d, rfl⟩ := asInvalidUtf8_document hb'
      rw [hfa, hfb] at hr
      cases a <;> first
        | (simp [plainForm, Form.rank] at hr; done)
        | skip
      rename_i t
      have hcp : carrierPair (.string t) (.document d) = some (utf8 t, s') := by
        rw [carrierPair_eq (by nofun), strBytes_of_invalid hb']
        rfl
      unfold cmpBy
      rw [if_neg (not_not.mpr h), hcp, hfa, hfb]
      rfl
    · rw [cmpBy_plain ha ha' hb hb' h, hfa, hfb]

theorem cmpBy_of_rank_ne {rank : Bson → UInt8} {o : BinDataOrder} {a b : Bson}
    (h : typeRank a ≠ typeRank b) : cmpBy rank o a b = compare (typeRank a) (typeRank b) := by
  unfold cmpBy
  rw [if_pos h]

/-! ## Induction along the comparison -/

/-- A form that no carrier has is a plain value's. -/
theorem plainForm_of_form {v : Bson} {f : Form} (h : form v = f) (hraw : ∀ t raw, rawForm t raw ≠ f)
    (htext : ∀ s, Form.text s ≠ f) : plainForm v = f := by
  rcases carrier_cases v with ⟨t, raw, -, -, hf⟩ | ⟨s, -, -, hf⟩ | ⟨-, -, hf⟩
  · exact absurd (hf.symm.trans h) (hraw t raw)
  · exact absurd (hf.symm.trans h) (htext s)
  · exact hf.symm.trans h

theorem form_document {v : Bson} {d : Document} (h : form v = .document d) : v = .document d := by
  have hplain := plainForm_of_form h (fun t _ => by cases t <;> nofun) nofun
  cases v <;> cases hplain
  rfl

theorem form_array {v : Bson} {l : List Bson} (h : form v = .array l) : v = .array l := by
  have hplain := plainForm_of_form h (fun t _ => by cases t <;> nofun) nofun
  cases v <;> cases hplain
  rfl

theorem form_scoped {v : Bson} {c : Bytes} {s : Document} (h : form v = .scoped c s) :
    ∃ code, v = .javaScriptCodeWithScope code s ∧ utf8 code = c := by
  have hplain := plainForm_of_form h (fun t _ => by cases t <;> nofun) nofun
  cases v <;> cases hplain
  exact ⟨_, rfl, rfl⟩

section PairInduction

variable {P : Bson → Bson → Prop} {Pd : Document → Document → Prop}
  {Pa : List Bson → List Bson → Prop}

/-- What a proof along the comparison provides: a step for two values from their documents,
    arrays or scopes, and steps for two documents and two arrays. -/
structure PairStep (P : Bson → Bson → Prop) (Pd : Document → Document → Prop)
    (Pa : List Bson → List Bson → Prop) : Prop where
  value : ∀ a b,
    (∀ d e, form a = .document d → form b = .document e → Pd d e) →
    (∀ l m, form a = .array l → form b = .array m → Pa l m) →
    (∀ c s c' s', form a = .scoped c s → form b = .scoped c' s' → Pd s s') → P a b
  doc_nil_nil : Pd [] []
  doc_nil_cons : ∀ f e, Pd [] (f :: e)
  doc_cons_nil : ∀ f d, Pd (f :: d) []
  doc_cons_cons : ∀ k v d k' v' e, P v v' → Pd d e → Pd ((k, v) :: d) ((k', v') :: e)
  arr_nil_nil : Pa [] []
  arr_nil_cons : ∀ v m, Pa [] (v :: m)
  arr_cons_nil : ∀ v l, Pa (v :: l) []
  arr_cons_cons : ∀ v l v' m, P v v' → Pa l m → Pa (v :: l) (v' :: m)

mutual

theorem PairStep.values (h : PairStep P Pd Pa) (a b : Bson) : P a b := by
  refine h.value a b ?_ ?_ ?_
  · intro d e hd _
    match a, form_document hd with
    | .document d, rfl => exact PairStep.docs h d e
  · intro l m hl _
    match a, form_array hl with
    | .array l, rfl => exact PairStep.arrs h l m
  · intro c s c' s' hs _
    match a, form_scoped hs with
    | .javaScriptCodeWithScope _ sc, ⟨_, heq, _⟩ =>
      have ih := PairStep.docs h sc s'
      cases heq
      exact ih

theorem PairStep.docs (h : PairStep P Pd Pa) : ∀ d e, Pd d e
  | [], [] => h.doc_nil_nil
  | [], f :: e => h.doc_nil_cons f e
  | f :: d, [] => h.doc_cons_nil f d
  | (k, v) :: d, (k', v') :: e =>
    h.doc_cons_cons k v d k' v' e (PairStep.values h v v') (PairStep.docs h d e)

theorem PairStep.arrs (h : PairStep P Pd Pa) : ∀ l m, Pa l m
  | [], [] => h.arr_nil_nil
  | [], v :: m => h.arr_nil_cons v m
  | v :: l, [] => h.arr_cons_nil v l
  | v :: l, v' :: m => h.arr_cons_cons v l v' m (PairStep.values h v v') (PairStep.arrs h l m)

end

end PairInduction

/-! ## Two comparisons of binary numbers -/

/-- The numbers `fast_cmp` is for. -/
inductive BinaryNumber where
  | int32 (n : Int32)
  | int64 (n : Int64)
  | double (d : F64)
  deriving DecidableEq

namespace BinaryNumber

def toBson : BinaryNumber → Bson
  | .int32 n => .int32 n
  | .int64 n => .int64 n
  | .double d => .double d

/-- The exact value. -/
def quantity : BinaryNumber → Quantity
  | .int32 n => .fin n.toInt
  | .int64 n => .fin n.toInt
  | .double d => d.quantity

theorem quantity_toBson (x : BinaryNumber) : Secantus.quantity x.toBson = some x.quantity := by
  cases x <;> rfl

theorem fastCmp_isSome (x y : BinaryNumber) : (Numeric.fastCmp x.toBson y.toBson).isSome := by
  cases x <;> cases y <;> rfl

end BinaryNumber

/-- `classify` then `cmp`; `none` when a value is no number. -/
def slowCmp (a b : Bson) : Option (Option Ordering) :=
  match Numeric.classify a, Numeric.classify b with
  | some x, some y => some (Numeric.cmp x y)
  | _, _ => none

theorem slowCmp_eq {a b : Bson} {p q : Quantity} (ha : quantity a = some p)
    (hb : quantity b = some q) : slowCmp a b = some (p.partialCmp q) := by
  obtain ⟨x, hx, hxwf, hxq⟩ := Numeric.exists_classify ha
  obtain ⟨y, hy, hywf, hyq⟩ := Numeric.exists_classify hb
  unfold slowCmp
  rw [hx, hy]
  show some (Numeric.cmp x y) = some (p.partialCmp q)
  rw [Numeric.cmp_spec hxwf hywf, hxq, hyq]

theorem fastCmp_eq (x y : BinaryNumber) :
    Numeric.fastCmp x.toBson y.toBson = some (x.quantity.partialCmp y.quantity) := by
  obtain ⟨r, hr⟩ := Option.isSome_iff_exists.mp (x.fastCmp_isSome y)
  obtain ⟨p, q, hp, hq, rfl⟩ := Numeric.fastCmp_spec hr
  rw [x.quantity_toBson, Option.some.injEq] at hp
  rw [y.quantity_toBson, Option.some.injEq] at hq
  rw [hr, hp, hq]

theorem partialCmp_eq_none_iff (p q : Quantity) :
    p.partialCmp q = none ↔ p = .nan ∨ q = .nan := by
  cases p <;> cases q <;> simp [Quantity.partialCmp]

/-- For every two binary numbers the fast path is the slow one, and both are the order of the exact
    values, unordered exactly when one is a NaN. Where numbers are sorted, the order is that of the
    exact values with NaN lowest. -/
theorem fastCmp_eq_slowCmp (x y : BinaryNumber) :
    Numeric.fastCmp x.toBson y.toBson = slowCmp x.toBson y.toBson ∧
      Numeric.fastCmp x.toBson y.toBson = some (x.quantity.partialCmp y.quantity) ∧
      (Numeric.fastCmp x.toBson y.toBson = some none ↔ x.quantity = .nan ∨ y.quantity = .nan) ∧
      numberCmp x.toBson y.toBson = x.quantity.cmp y.quantity := by
  have hfast := fastCmp_eq x y
  refine ⟨?_, hfast, ?_, numberCmp_eq x.quantity_toBson y.quantity_toBson⟩
  · rw [hfast, slowCmp_eq x.quantity_toBson y.quantity_toBson]
  · rw [hfast, Option.some.injEq]
    exact partialCmp_eq_none_iff _ _

/-- A NaN against one is unordered, not below it. -/
theorem fastCmp_nan_one :
    Numeric.fastCmp (BinaryNumber.double F64.nan).toBson (BinaryNumber.int32 1).toBson = some none ∧
      (BinaryNumber.double F64.nan).quantity.cmp (BinaryNumber.int32 1).quantity = .lt := by
  have hnan : F64.nan.quantity = .nan := if_pos (by decide)
  constructor
  · rfl
  · show F64.nan.quantity.cmp (.fin _) = .lt
    rw [hnan]
    rfl

end Secantus.BsonOrder
