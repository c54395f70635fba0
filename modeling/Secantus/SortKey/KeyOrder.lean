/-
  Keys are in the order of the comparator.

  `totalKey` is the encoder without its refusals and with the rank byte as a parameter: a
  `Scheme` names the rank of every value and says which values it ranks as the comparator
  does. The stored scheme (`keyRank`) is the encoder's: it gives `undefined` the rank byte
  of MinKey. The full scheme is `type_rank` itself.

  `open_totalKey`: under a scheme, and as long as the comparison does not come to a raw
  text carrier with the text of a plain value, or to a symbol or DBPointer against a
  document, two keys are in the order of `cmpBy rank`.
-/
import Secantus.BsonOrder.Reach
import Secantus.SortKey.NumberKey

namespace Secantus.SortKey

open Secantus Bson BsonOrder ByteOrder

/-! ## Escaped bytes -/

theorem zero_lt {b : UInt8} (h : b ≠ 0) : compare 0 b = .lt := by
  rw [compare_toNat, compare_lt_iff_lt]
  have h1 : b.toNat ≠ 0 := fun h0 => h (UInt8.toNat_inj.mp h0)
  exact Nat.pos_of_ne_zero h1

theorem lt_zero {b : UInt8} (h : b ≠ 0) : compare b 0 = .gt := by
  rw [compare_toNat, compare_gt_iff_gt]
  have h1 : b.toNat ≠ 0 := fun h0 => h (UInt8.toNat_inj.mp h0)
  exact Nat.pos_of_ne_zero h1

theorem open_escape (x y : Bytes) : Open 0 (compare x y) (escape x) (escape y) :=
  ByteOrder.open_escape (fun _ => zero_lt) (fun _ => lt_zero) (by decide) x y

theorem settled_closed {o : Ordering} {x y : Bytes} (h : compare x y = o) :
    Settled o (escape x ++ compoundSep) (escape y ++ compoundSep) :=
  settled_escape_sep (fun _ => zero_lt) (fun _ => lt_zero) (by decide) h

/-! ## Keys with the rank as a parameter -/

/-- The key of BinData in the order it compares by: format 4 compares as mongod. -/
def binaryKey (o : BinDataOrder) (b : Binary) : Bytes :=
  encodeBinary (if o = .format4 then .mongod else o) b

mutual

def totalKey (rank : Bson → UInt8) (o : BinDataOrder) (v : Bson) : Bytes :=
  rank v ::
    match asRawText v with
    | some (t, raw) => escape (rawTextBytes t raw)
    | none =>
      match asInvalidUtf8 v with
      | some s => escape s
      | none =>
        match v with
        | .undefined => [undefinedTail]
        | .int32 n => encodeNumber (.int32 n)
        | .int64 n => encodeNumber (.int64 n)
        | .double d => encodeNumber (.double d)
        | .decimal128 d => encodeNumber (.decimal128 d)
        | .string s => escape (utf8 s)
        | .javaScriptCode s => escape (utf8 s)
        | .javaScriptCodeWithScope code scope =>
          escape (utf8 code) ++ compoundSep ++ totalDoc rank o scope
        | .document d => totalDoc rank o d
        | .array a => totalArray rank o a
        | .binary b => binaryKey o b
        | .objectId oid => oid.bytes
        | .boolean b => [if b then 1 else 0]
        | .dateTime n => signedInt64Sortable n
        | .timestamp t => beBytes 4 t.time.toNat ++ beBytes 4 t.increment.toNat
        | .regularExpression r =>
          escape (utf8 r.pattern) ++ compoundSep ++ escape (regexSortKey r).2
        | _ => []

def totalDoc (rank : Bson → UInt8) (o : BinDataOrder) : Document → Bytes
  | [] => [elementsEnd]
  | (name, v) :: d =>
    (elementValue (totalKey rank o v)).1 ::
      (escape (utf8 name) ++ compoundSep ++ (elementValue (totalKey rank o v)).2 ++
        totalDoc rank o d)

def totalArray (rank : Bson → UInt8) (o : BinDataOrder) : List Bson → Bytes
  | [] => [elementsEnd]
  | v :: a =>
    (elementValue (totalKey rank o v)).1 ::
      ((elementValue (totalKey rank o v)).2 ++ totalArray rank o a)

end

/-- A rank byte for every value, and the values it ranks as the comparator does; MinKey and
    `undefined` may share one. -/
structure Scheme where
  rank : Bson → UInt8
  keyed : Bson → Bool
  rank_ne_zero : ∀ v, rank v ≠ 0
  rank_eq : ∀ {a b}, typeRank a = typeRank b → rank a = rank b
  rank_lt : ∀ {a b}, keyed a → keyed b → typeRank a < typeRank b →
    rank a < rank b ∨ (form a = .minKey ∧ form b = .undefined ∧ rank a = rank b)

/-- The bytes of a form after its rank; a number's are its own. -/
def body (rank : Bson → UInt8) (o : BinDataOrder) (number : Bytes) : Form → Bytes
  | .undefined => [undefinedTail]
  | .number _ => number
  | .text s | .code s | .rawRegex s | .rawPointer s | .rawScoped s => escape s
  | .document d => totalDoc rank o d
  | .array a => totalArray rank o a
  | .binary b => binaryKey o b
  | .objectId oid => oid.bytes
  | .boolean b => [if b then 1 else 0]
  | .dateTime n => signedInt64Sortable n
  | .timestamp t => beBytes 4 t.time.toNat ++ beBytes 4 t.increment.toNat
  | .regex r => escape (utf8 r.pattern) ++ compoundSep ++ escape (regexSortKey r).2
  | .scoped c s => escape c ++ compoundSep ++ totalDoc rank o s
  | .minKey | .null | .maxKey | .other => []

theorem totalKey_eq (rank : Bson → UInt8) (o : BinDataOrder) (v : Bson) :
    totalKey rank o v = rank v :: body rank o (encodeNumber v) (form v) := by
  rcases carrier_cases v with ⟨t, raw, hr, -, hf⟩ | ⟨s, hr, hi, hf⟩ | ⟨hr, hi, hf⟩
  · unfold totalKey
    rw [hf, hr]
    cases t <;> rfl
  · unfold totalKey
    rw [hf, hr, hi]
    rfl
  · unfold totalKey
    rw [hf, hr, hi]
    cases v <;> rfl

theorem form_number {v : Bson} {q : Quantity} (h : form v = .number q) : quantity v = some q := by
  have hplain := plainForm_of_form h (fun t _ => by cases t <;> nofun) nofun
  cases v <;> cases hplain <;> rfl

/-! ## Values of one rank -/

theorem open_refl (x : Bytes) : Open 0 .eq x x := (settled_refl x).toOpen 0

/-- A closed text with more behind it, against a bare text: they decide unless equal. -/
theorem open_closed_text {c t : Bytes} (h : c ≠ t) (rest : Bytes) :
    Open 0 (compare c t) (escape c ++ compoundSep ++ rest) (escape t) :=
  open_closed_bare (fun _ => zero_lt) (fun _ => lt_zero) (by decide) h rest

theorem open_text_closed {c t : Bytes} (h : c ≠ t) (rest : Bytes) :
    Open 0 (compare t c) (escape t) (escape c ++ compoundSep ++ rest) := by
  have h1 := (open_closed_text h rest).swap
  rwa [← Std.OrientedOrd.eq_swap] at h1

theorem settled_signedInt64 (x y : Int64) :
    Settled (compare x.toInt y.toInt) (signedInt64Sortable x) (signedInt64Sortable y) := by
  have hx := Numeric.int64_range x
  have hy := Numeric.int64_range y
  have hc : compare (x.toInt + 2 ^ 63).toNat (y.toInt + 2 ^ 63).toNat =
      compare x.toInt y.toInt := by
    rcases lt_trichotomy x.toInt y.toInt with h | h | h
    · rw [compare_lt_iff_lt.mpr h, compare_lt_iff_lt]
      omega
    · rw [h, compare_eq_iff_eq.mpr rfl, compare_eq_iff_eq.mpr rfl]
    · rw [compare_gt_iff_gt.mpr h, compare_gt_iff_gt]
      omega
  rw [← hc]
  exact settled_beBytes (by omega) (by omega)

theorem settled_timestamp (x y : Timestamp) :
    Settled ((compare x.time.toNat y.time.toNat).then
        (compare x.increment.toNat y.increment.toNat))
      (beBytes 4 x.time.toNat ++ beBytes 4 x.increment.toNat)
      (beBytes 4 y.time.toNat ++ beBytes 4 y.increment.toNat) :=
  (settled_beBytes x.time.toNat_lt y.time.toNat_lt).append
    (settled_beBytes x.increment.toNat_lt y.increment.toNat_lt)

theorem open_binary (o : BinDataOrder) (x y : Binary) :
    Open 0 (bindataCmp o x y) (binaryKey o x) (binaryKey o y) := by
  have hx : x.bytes.length < 256 ^ 4 := lt_of_lt_of_le x.size_lt (by decide)
  have hy : y.bytes.length < 256 ^ 4 := lt_of_lt_of_le y.size_lt (by decide)
  have hmongod := ((settled_beBytes hx hy).append
    (settled_singleton x.subtype y.subtype)).appendOpen (open_escape x.bytes y.bytes)
  rw [Ordering.then_assoc] at hmongod
  cases o with
  | format4 => exact hmongod
  | mongod => exact hmongod
  | bytes => exact ((settled_closed rfl).append (settled_singleton x.subtype y.subtype)).toOpen 0

theorem open_boolean (x y : Bool) :
    Open 0 (compare x y) ([if x then 1 else 0] : Bytes) [if y then 1 else 0] := by
  have h := (settled_singleton (if x then 1 else 0 : UInt8) (if y then 1 else 0)).toOpen 0
  have hc : compare (if x then 1 else 0 : UInt8) (if y then 1 else 0) = compare x y := by
    cases x <;> cases y <;> decide
  rwa [hc] at h

theorem open_regex (x y : Regex) :
    Open 0 (regexCmp x y) (escape (utf8 x.pattern) ++ compoundSep ++ escape (regexSortKey x).2)
      (escape (utf8 y.pattern) ++ compoundSep ++ escape (regexSortKey y).2) :=
  (settled_closed rfl).appendOpen (open_escape _ _)

/-! ## Documents and arrays -/

/-- The pairs of values at which keys and comparator part: a symbol or DBPointer against a
    document, and a raw text carrier against a plain value of the same text. -/
def formClash : Form → Form → Bool
  | .other, .document _ | .document _, .other => true
  | .regex r, .rawRegex t | .rawRegex t, .regex r => utf8 r.pattern = t
  | .scoped c _, .rawScoped t | .rawScoped t, .scoped c _ => c = t
  | _, _ => false

def valueClash (a b : Bson) : Bool := formClash (form a) (form b)

def noElement (_ _ : Element) : Bool := false

section Main

variable (S : Scheme) {o : BinDataOrder}

theorem open_of_rank_ne {a b : Bson} (ha : S.keyed a) (hb : S.keyed b)
    (h : typeRank a ≠ typeRank b) :
    Open 0 (compare (typeRank a) (typeRank b)) (totalKey S.rank o a) (totalKey S.rank o b) := by
  have hlt : ∀ {x y : Bson}, S.keyed x → S.keyed y → typeRank x < typeRank y →
      Open 0 .lt (totalKey S.rank o x) (totalKey S.rank o y) := by
    intro x y hx hy hxy
    rw [totalKey_eq, totalKey_eq]
    rcases S.rank_lt hx hy hxy with hr | ⟨hfx, hfy, hr⟩
    · have hc : compare (S.rank x) (S.rank y) = .lt := by
        rw [compare_toNat, compare_lt_iff_lt]
        exact UInt8.lt_iff_toNat_lt.mp hr
      have h1 := (settled_singleton (S.rank x) (S.rank y)).extend (by rw [hc]; decide)
        (body S.rank o (encodeNumber x) (form x)) (body S.rank o (encodeNumber y) (form y))
      rw [hc] at h1
      exact h1.toOpen 0
    · -- MinKey's key is the rank alone, `undefined`'s goes on
      rw [hfx, hfy, hr]
      have h1 : Open 0 .lt ([] : Bytes) [undefinedTail] := ⟨rfl, fun s t => rfl⟩
      have h2 := h1.cons (S.rank y) (S.rank y)
      rwa [Std.compare_self] at h2
  have hne : (typeRank a).toNat ≠ (typeRank b).toNat := fun h0 => h (UInt8.toNat_inj.mp h0)
  rw [compare_toNat]
  rcases Nat.lt_or_gt_of_ne hne with h1 | h1
  · rw [compare_lt_iff_lt.mpr h1]
    exact hlt ha hb (UInt8.lt_iff_toNat_lt.mpr h1)
  · rw [compare_gt_iff_gt.mpr h1]
    exact (hlt hb ha (UInt8.lt_iff_toNat_lt.mpr h1)).swap

/-- Two values of one rank, once their documents, arrays and scopes are settled. -/
theorem open_body {a b : Bson} (hr : (form a).rank = (form b).rank)
    (hclash : valueClash a b = false)
    (hdoc : ∀ d e, form a = .document d → form b = .document e →
      Settled (docCmpBy S.rank o d e) (totalDoc S.rank o d) (totalDoc S.rank o e))
    (harr : ∀ l m, form a = .array l → form b = .array m →
      Settled (arrayCmpBy S.rank o l m) (totalArray S.rank o l) (totalArray S.rank o m))
    (hscope : ∀ c s s', form a = .scoped c s → form b = .scoped c s' →
      Settled (docCmpBy S.rank o s s') (totalDoc S.rank o s) (totalDoc S.rank o s')) :
    Open 0 ((form a).cmp S.rank o (form b)) (body S.rank o (encodeNumber a) (form a))
      (body S.rank o (encodeNumber b) (form b)) := by
  have hnum : ∀ p q, form a = .number p → form b = .number q →
      Settled (p.cmp q) (encodeNumber a) (encodeNumber b) :=
    fun p q hp hq => settled_encodeNumber (form_number hp) (form_number hq)
  unfold valueClash at hclash
  generalize form a = f at *
  generalize form b = g at *
  cases f <;> cases g <;> first
    | (simp [Form.rank] at hr; done)
    | exact open_refl _
    | exact open_escape _ _
    | exact (hnum _ _ rfl rfl).toOpen 0
    | exact (hdoc _ _ rfl rfl).toOpen 0
    | exact (harr _ _ rfl rfl).toOpen 0
    | exact open_binary o _ _
    | exact (settled_signedInt64 _ _).toOpen 0
    | exact (settled_timestamp _ _).toOpen 0
    | exact (settled_of_length_eq ((ObjectId.size_eq _).trans (ObjectId.size_eq _).symm)).toOpen 0
    | exact open_boolean _ _
    | exact open_regex _ _
    | (simp [formClash] at hclash; done)
    | exact open_closed_text (by simpa [formClash] using hclash) _
    | exact open_text_closed (by simpa [formClash] using hclash) _
    | skip
  case scoped.scoped c s c' s' =>
    -- different code decides; the same code leaves it to the scopes
    by_cases hc : c = c'
    · subst hc
      exact ((settled_closed rfl).append (hscope c s s' rfl rfl)).toOpen 0
    · have hne : compare c c' ≠ .eq := fun h => hc (Std.compare_eq_iff_eq.mp h)
      have h1 := (settled_closed (o := compare c c') rfl).extend hne (totalDoc S.rank o s)
        (totalDoc S.rank o s')
      have h2 : (compare c c').then (docCmpBy S.rank o s s') = compare c c' := by
        cases h : compare c c' with
        | eq => exact absurd h hne
        | lt => rfl
        | gt => rfl
      change Open 0 ((compare c c').then (docCmpBy S.rank o s s')) _ _
      rw [h2]
      exact h1.toOpen 0

theorem then_of_ne {x y : Ordering} (h : x ≠ .eq) : x.then y = x := by
  cases x with
  | eq => exact absurd rfl h
  | lt => rfl
  | gt => rfl

theorem totalKey_head (v : Bson) : (elementValue (totalKey S.rank o v)).1 = S.rank v := by
  rw [totalKey_eq]
  rfl

/-- The tail of an element's key, escaped and closed, once the rank bytes are equal. -/
theorem settled_element {a b : Bson} {r : Ordering} (hr : S.rank a = S.rank b)
    (h : compare (totalKey S.rank o a) (totalKey S.rank o b) = r) :
    Settled r (elementValue (totalKey S.rank o a)).2 (elementValue (totalKey S.rank o b)).2 := by
  rw [totalKey_eq, totalKey_eq, List.compare_cons_cons, hr, Std.compare_self] at h
  rw [totalKey_eq, totalKey_eq]
  exact settled_closed h

/-- Key order is comparator order, for documents and arrays as well: the induction. -/
theorem pairStep_totalKey
    (heq : ∀ {a b : Bson}, cmpBy S.rank o a b = .eq → cmp o a b = .eq) :
    PairStep
      (fun a b => allValues S.keyed a = true → allValues S.keyed b = true →
        reaches valueClash noElement o a b = false →
        Open 0 (cmpBy S.rank o a b) (totalKey S.rank o a) (totalKey S.rank o b))
      (fun d e => allFields S.keyed d = true → allFields S.keyed e = true →
        reachesDoc valueClash noElement o d e = false →
        Settled (docCmpBy S.rank o d e) (totalDoc S.rank o d) (totalDoc S.rank o e))
      (fun l m => allElements S.keyed l = true → allElements S.keyed m = true →
        reachesArray valueClash noElement o l m = false →
        Settled (arrayCmpBy S.rank o l m) (totalArray S.rank o l) (totalArray S.rank o m)) where
  value a b hdoc harr hscope ha hb hreach := by
    by_cases hr : typeRank a = typeRank b
    · rw [cmpBy_eq hr, totalKey_eq, totalKey_eq, S.rank_eq hr]
      have h := open_body S (by rw [← typeRank_eq, ← typeRank_eq, hr])
        (not_pv_of_not_reaches hreach)
        (fun d e hd he => hdoc d e hd he (allFields_of_document hd ha)
          (allFields_of_document he hb) (reachesDoc_of_document hd he hreach))
        (fun l m hl hm => harr l m hl hm (allElements_of_array hl ha)
          (allElements_of_array hm hb) (reachesArray_of_array hl hm hreach))
        (fun c s s' hs hs' => hscope c s c s' hs hs' (allFields_of_scoped hs ha)
          (allFields_of_scoped hs' hb) (reachesDoc_of_scoped hs hs' hreach))
      have h1 := h.cons (S.rank b) (S.rank b)
      rwa [Std.compare_self] at h1
    · rw [cmpBy_of_rank_ne hr]
      exact open_of_rank_ne S (allValues_self ha) (allValues_self hb) hr
  doc_nil_nil _ _ _ := settled_refl _
  doc_nil_cons f e _ _ _ := by
    obtain ⟨k, v⟩ := f
    have hc : compare elementsEnd (S.rank v) = .lt := zero_lt (S.rank_ne_zero v)
    have h := (settled_singleton elementsEnd (S.rank v)).extend (by rw [hc]; decide) []
      (escape (utf8 k) ++ compoundSep ++ (elementValue (totalKey S.rank o v)).2 ++
        totalDoc S.rank o e)
    rw [hc] at h
    simpa [totalDoc, docCmpBy, totalKey_head] using h
  doc_cons_nil f d _ _ _ := by
    obtain ⟨k, v⟩ := f
    have hc : compare (S.rank v) elementsEnd = .gt := lt_zero (S.rank_ne_zero v)
    have h := (settled_singleton (S.rank v) elementsEnd).extend (by rw [hc]; decide)
      (escape (utf8 k) ++ compoundSep ++ (elementValue (totalKey S.rank o v)).2 ++
        totalDoc S.rank o d) []
    rw [hc] at h
    simpa [totalDoc, docCmpBy, totalKey_head] using h
  doc_cons_cons k v d k' v' e hv htail ha hb hreach := by
    obtain ⟨hva, hda⟩ := allFields_cons ha
    obtain ⟨hvb, heb⟩ := allFields_cons hb
    obtain ⟨-, hgo⟩ := reachesDoc_cons hreach
    unfold totalDoc docCmpBy
    rw [totalKey_head, totalKey_head]
    by_cases hr : S.rank v = S.rank v'
    · by_cases hk : k = k'
      · subst hk
        -- the elements' values decide, and only equal ones leave it to the rest
        have hopen : Open 0 (cmpBy S.rank o v v') (totalKey S.rank o v) (totalKey S.rank o v') := by
          by_cases htr : typeRank v = typeRank v'
          · exact hv hva hvb (hgo htr rfl).1
          · rw [cmpBy_of_rank_ne htr]
            exact open_of_rank_ne S (allValues_self hva) (allValues_self hvb) htr
        have hval := settled_element S hr hopen.compare_eq
        have hname := settled_closed (o := compare (utf8 k) (utf8 k)) rfl
        by_cases hc : cmpBy S.rank o v v' = .eq
        · have htr : typeRank v = typeRank v' := by
            by_contra hne
            rw [cmpBy_of_rank_ne hne] at hc
            exact hne (Std.compare_eq_iff_eq.mp hc)
          have h := (hname.append (hval.append (htail hda heb ((hgo htr rfl).2 (heq hc))))).cons
            (S.rank v) (S.rank v')
          simpa [List.append_assoc] using h
        · have h := ((hname.append hval).cons (S.rank v) (S.rank v')).extend
            (by simp [hr, Std.compare_self, hc]) (totalDoc S.rank o d) (totalDoc S.rank o e)
          rw [then_of_ne hc]
          simpa [List.append_assoc] using h
      · have hname := settled_closed (o := compare (utf8 k) (utf8 k')) rfl
        have hne : compare (utf8 k) (utf8 k') ≠ .eq := fun h =>
          hk (utf8_injective (Std.compare_eq_iff_eq.mp h))
        have h := (hname.cons (S.rank v) (S.rank v')).extend (by simp [hr, Std.compare_self, hne])
          ((elementValue (totalKey S.rank o v)).2 ++ totalDoc S.rank o d)
          ((elementValue (totalKey S.rank o v')).2 ++ totalDoc S.rank o e)
        rw [then_of_ne hne]
        simpa [List.append_assoc] using h
    · have hne : compare (S.rank v) (S.rank v') ≠ .eq := fun h =>
        hr (Std.compare_eq_iff_eq.mp h)
      rw [then_of_ne hne]
      exact (settled_singleton (S.rank v) (S.rank v')).extend hne _ _
  arr_nil_nil _ _ _ := settled_refl _
  arr_nil_cons v m _ _ _ := by
    have hc : compare elementsEnd (S.rank v) = .lt := zero_lt (S.rank_ne_zero v)
    have h := (settled_singleton elementsEnd (S.rank v)).extend (by rw [hc]; decide) []
      ((elementValue (totalKey S.rank o v)).2 ++ totalArray S.rank o m)
    rw [hc] at h
    simpa [totalArray, arrayCmpBy, totalKey_head] using h
  arr_cons_nil v l _ _ _ := by
    have hc : compare (S.rank v) elementsEnd = .gt := lt_zero (S.rank_ne_zero v)
    have h := (settled_singleton (S.rank v) elementsEnd).extend (by rw [hc]; decide)
      ((elementValue (totalKey S.rank o v)).2 ++ totalArray S.rank o l) []
    rw [hc] at h
    simpa [totalArray, arrayCmpBy, totalKey_head] using h
  arr_cons_cons v l v' m hv htail ha hb hreach := by
    obtain ⟨hva, hla⟩ := allElements_cons ha
    obtain ⟨hvb, hmb⟩ := allElements_cons hb
    obtain ⟨hrv, hgo⟩ := reachesArray_cons hreach
    have hopen := hv hva hvb hrv
    unfold totalArray arrayCmpBy
    rw [totalKey_head, totalKey_head]
    by_cases hr : S.rank v = S.rank v'
    · have hval := settled_element S hr hopen.compare_eq
      by_cases hc : cmpBy S.rank o v v' = .eq
      · have h := (hval.append (htail hla hmb (hgo (heq hc)))).cons (S.rank v) (S.rank v')
        rw [hr, Std.compare_self, Ordering.eq_then] at h
        rwa [hr]
      · have h := (hval.cons (S.rank v) (S.rank v')).extend
          (by simp [hr, Std.compare_self, hc]) (totalArray S.rank o l) (totalArray S.rank o m)
        rw [hr, Std.compare_self, Ordering.eq_then] at h
        rw [then_of_ne hc, hr]
        simpa using h
    · -- the rank bytes decide, and the whole keys with them
      have hne : compare (S.rank v) (S.rank v') ≠ .eq := fun h =>
        hr (Std.compare_eq_iff_eq.mp h)
      have hcv : cmpBy S.rank o v v' = compare (S.rank v) (S.rank v') := by
        rw [← hopen.compare_eq, totalKey_eq, totalKey_eq, List.compare_cons_cons, then_of_ne hne]
      rw [hcv, then_of_ne hne]
      exact (settled_singleton (S.rank v) (S.rank v')).extend hne _ _

end Main

end Secantus.SortKey
