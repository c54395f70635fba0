/-
  The matcher's equality and comparison of two values (`query.rs`), without a collation.

  Equality is by value for numbers, element by element for arrays and in field order for
  documents. A comparison is bracketed by type, except that a MinKey or MaxKey bound is compared
  with every type through `bsonLt`, the `<` of the cross-type order.

  The matcher's equality on plain scalars: two numbers are equal when their quantities are
  (`eqScalar_number`), values of different types never, and equality is that of the sort keys
  (`eqScalar_plain`), in whatever BinData order a key was made.
-/
import Secantus.Bson.Equality
import Secantus.Wire.Format
import Secantus.SortKey.KeyOrder

namespace Secantus.Query

open Secantus Bson BsonOrder

/-! ## `bson_lt` -/

/-- `lt_rank`: a symbol ranks with the strings, undefined with null. -/
def ltRank : Bson → UInt8
  | .symbol _ => typeRank (.string "")
  | .undefined => typeRank .null
  | v => typeRank v

def ltText : Bson → Option String
  | .string s | .symbol s | .javaScriptCode s | .javaScriptCodeWithScope s _ => some s
  | _ => none

/-- `db_pointer_value`: the namespace's length, the namespace and its terminator, the id. -/
def dbPointerValue (ns : String) (id : ObjectId) : Bytes :=
  Wire.leBytes 4 ((utf8 ns).length + 1) ++ utf8 ns ++ [0] ++ id.bytes

/-- `DB_POINTER_RANK`. -/
def dbPointerRank : UInt8 := 122

/-- The comparisons of `bson_lt` on two values of one rank that hold no others. -/
def scalarLt (o : BinDataOrder) (a b : Bson) : Option Bool :=
  match a, b with
  | .boolean x, .boolean y => some (compare x y == .lt)
  | .dateTime x, .dateTime y => some (x.toInt < y.toInt)
  | .timestamp x, .timestamp y =>
    some ((compare x.time.toNat y.time.toNat).then (compare x.increment.toNat y.increment.toNat) == .lt)
  | .objectId x, .objectId y => some (compare x.bytes y.bytes == .lt)
  | .binary x, .binary y => some (bindataCmp o x y == .lt)
  | .javaScriptCodeWithScope x s, .javaScriptCodeWithScope y t =>
    some ((compare (utf8 x) (utf8 y)).then (docCmp o s t) == .lt)
  | .regularExpression x, .regularExpression y => some (regexCmp x y == .lt)
  | .minKey, .minKey | .maxKey, .maxKey => some false
  | a, b =>
    match ltText a with
    | some x => (ltText b).map fun y => compare (utf8 x) (utf8 y) == .lt
    | none =>
      if Numeric.isNanBson a || Numeric.isNanBson b then some (Numeric.isNanBson a && !Numeric.isNanBson b)
      else
        match Numeric.fastCmp a b with
        | some r => some (r == some .lt)
        | none =>
          match Numeric.classify a, Numeric.classify b with
          | some x, some y => some (Numeric.cmp x y == some .lt)
          | _, _ => none

mutual

/-- `bson_lt`; `none` defers. -/
def bsonLt (o : BinDataOrder) (a b : Bson) : Option Bool :=
  match a, b with
  | .dbPointer n x, .dbPointer m y =>
    some ((compare (dbPointerValue n x).length (dbPointerValue m y).length).then
      (compare (dbPointerValue n x) (dbPointerValue m y)) == .lt)
  | .dbPointer _ _, other => some (dbPointerRank < ltRank other)
  | other, .dbPointer _ _ => some (ltRank other < dbPointerRank)
  | a, b =>
    if ltRank a ≠ ltRank b then some (ltRank a < ltRank b)
    else if ltRank a = typeRank .null then some false
    else
      match carrierPair a b with
      | some (x, y) => some (compare x y == .lt)
      | none =>
        match a, b with
        | .document x, .document y => bsonLtFields o x y
        | .array x, .array y => bsonLtElements o x y
        | a, b => scalarLt o a b
termination_by sizeOf a + sizeOf b

/-- Type rank, then name, then value; then the shorter document first. -/
def bsonLtFields (o : BinDataOrder) (x y : Document) : Option Bool :=
  match x, y with
  | (ak, av) :: as, (bk, bv) :: bs =>
    if ltRank av ≠ ltRank bv then some (ltRank av < ltRank bv)
    else if ak ≠ bk then some (compare (utf8 ak) (utf8 bk) == .lt)
    else do
      if ← bsonLt o av bv then return true
      if ← bsonLt o bv av then return false
      bsonLtFields o as bs
  | [], y => some (0 < y.length)
  | _ :: _, [] => some false
termination_by sizeOf x + sizeOf y

def bsonLtElements (o : BinDataOrder) (x y : List Bson) : Option Bool :=
  match x, y with
  | av :: as, bv :: bs => do
    if ← bsonLt o av bv then return true
    if ← bsonLt o bv av then return false
    bsonLtElements o as bs
  | [], y => some (0 < y.length)
  | _ :: _, [] => some false
termination_by sizeOf x + sizeOf y

end

/-- Both directions of `bson_lt`. -/
def bsonOrdering (o : BinDataOrder) (a b : Bson) : Except Fallback Ordering :=
  match bsonLt o a b with
  | none => .error .defer
  | some true => .ok .lt
  | some false =>
    match bsonLt o b a with
    | none => .error .defer
    | some true => .ok .gt
    | some false => .ok .eq

/-! ## `eq_scalar` -/

/-- `regexutil::regex_eq`: the options compare as sets. -/
def regexEq (a b : Regex) : Bool :=
  a.pattern = b.pattern && sortedOptions a.options = sortedOptions b.options

/-- Equality with an expected value that is neither an array nor a document. -/
def eqPlain (v expected : Bson) : Except Fallback Bool :=
  match v, expected with
  | .symbol a, .symbol b => .ok (a = b)
  | .javaScriptCode a, .javaScriptCode b => .ok (a = b)
  | .javaScriptCodeWithScope c s, .javaScriptCodeWithScope c' s' => .ok (c = c' && eqvDoc s s')
  | .symbol x, .string y | .string x, .symbol y => .ok (x = y)
  | v, expected =>
    if isJavaScript expected then .ok false
    else
      match expected with
      | .symbol _ => .ok false
      | .regularExpression want =>
        match v with
        | .regularExpression got => .ok (regexEq got want)
        | _ => .ok false
      | expected =>
        if isExotic expected then .error .defer
        else if isBoolean v != isBoolean expected then .ok false
        else
          match v, expected with
          | .boolean a, .boolean b => .ok (a = b)
          | v, expected =>
            if Numeric.isNanBson v && Numeric.isNanBson expected then .ok true
            else
              match Numeric.fastEq v expected with
              | some r => .ok r
              | none =>
                match Numeric.classify v, Numeric.classify expected with
                | some na, some nb => .ok (Numeric.eq na nb)
                | _, _ =>
                  match v, expected with
                  | .string a, .string b => .ok (a = b)
                  | .null, .null => .ok true
                  | .objectId a, .objectId b => .ok (a = b)
                  | .dateTime a, .dateTime b => .ok (a = b)
                  | .timestamp a, .timestamp b => .ok (a = b)
                  | .binary a, .binary b => .ok (a.subtype = b.subtype && a.bytes = b.bytes)
                  | .minKey, .minKey | .maxKey, .maxKey => .ok true
                  | _, _ => .ok false

mutual

def eqScalar (v expected : Bson) : Except Fallback Bool :=
  match expected, v with
  | .array exp, .array val => if val.length ≠ exp.length then .ok false else arrayEq val exp
  | .array _, _ => .ok false
  | .document exp, .document val => if val.length ≠ exp.length then .ok false else docEq val exp
  | .document _, _ => .ok false
  | expected, v => eqPlain v expected

/-- `array_eq`, the lengths equal. -/
def arrayEq : List Bson → List Bson → Except Fallback Bool
  | x :: a, y :: b => do
    if ← eqScalar x y then arrayEq a b else .ok false
  | _, _ => .ok true

/-- `doc_eq`, the lengths equal: name and value pairs, in field order. -/
def docEq : Document → Document → Except Fallback Bool
  | (ka, va) :: a, (kb, vb) :: b =>
    if ka ≠ kb then .ok false
    else do
      if ← eqScalar va vb then docEq a b else .ok false
  | _, _ => .ok true

end

/-! ## `compare_values` -/

/-- Arrays compare by the full order, element by element. -/
def compareElements (o : BinDataOrder) : List Bson → List Bson → Except Fallback Ordering
  | x :: xs, y :: ys => do
    match ← bsonOrdering o x y with
    | .eq => compareElements o xs ys
    | other => .ok other
  | xs, ys => .ok (compare xs.length ys.length)

def stringText : Bson → Option String
  | .string s | .symbol s => some s
  | _ => none

/-- `compare_values`: `none` when the types do not compare. -/
def compareValues (o : BinDataOrder) (a b : Bson) : Except Fallback (Option Ordering) :=
  match b with
  | .minKey | .maxKey => (bsonOrdering o a b).map some
  | b =>
    if isBoolean a || isBoolean b then
      match a, b with
      | .boolean x, .boolean y => .ok (some (compare x y))
      | _, _ => .ok none
    else
      match Numeric.fastCmp a b with
      | some r => .ok r
      | none =>
        match Numeric.classify a, Numeric.classify b with
        | some na, some nb => .ok (Numeric.cmp na nb)
        | _, _ =>
          match carrierPair a b with
          | some (x, y) => .ok (some (compare x y))
          | none =>
            match a, b with
            | .document _, .document _ => (bsonOrdering o a b).map some
            | .document _, _ | _, .document _ => .ok none
            | .array xs, .array ys => (compareElements o xs ys).map some
            | .array _, _ | _, .array _ => .ok none
            | .javaScriptCode x, .javaScriptCode y => .ok (some (compare (utf8 x) (utf8 y)))
            | .javaScriptCodeWithScope _ _, .javaScriptCodeWithScope _ _ => .ok (some (cmp o a b))
            | .string x, .string y => .ok (some (compare (utf8 x) (utf8 y)))
            | .dateTime x, .dateTime y => .ok (some (compare x.toInt y.toInt))
            | .timestamp x, .timestamp y =>
              .ok (some ((compare x.time.toNat y.time.toNat).then
                (compare x.increment.toNat y.increment.toNat)))
            | .objectId x, .objectId y => .ok (some (compare x.bytes y.bytes))
            | .binary x, .binary y => .ok (some (bindataCmp o x y))
            | a, b =>
              -- a symbol is a string; JavaScript, a pointer and undefined compare with no other type
              match stringText a, stringText b with
              | some x, some y => .ok (some (compare (utf8 x) (utf8 y)))
              | _, _ => .ok none

open Secantus Bson BsonOrder SortKey ByteOrder

def plainScalar : Bson → Bool
  | .int32 _ | .int64 _ | .double _ | .string _ | .objectId _ | .dateTime _ | .boolean _ | .decimal128 _ => true
  | _ => false

/-! ## Numbers -/

theorem partialCmp_beq {p q : Quantity} (h : ¬(p = .nan ∧ q = .nan)) :
    (p.partialCmp q == some .eq) = (p.cmp q == .eq) := by
  cases p with
  | nan =>
    cases q with
    | nan => exact absurd ⟨rfl, rfl⟩ h
    | negInf => rfl
    | fin q => rfl
    | posInf => rfl
  | negInf => cases q <;> rfl
  | fin p => cases q <;> rfl
  | posInf => cases q <;> rfl

/-- What is left of `eq_scalar` on two numbers. -/
theorem eqScalar_numbers {a b : Bson} {p q : Quantity} (ha : quantity a = some p) (hb : quantity b = some q) :
    eqScalar a b =
      if Numeric.isNanBson a && Numeric.isNanBson b then .ok true
      else
        match Numeric.fastEq a b with
        | some r => .ok r
        | none =>
          match Numeric.classify a, Numeric.classify b with
          | some na, some nb => .ok (Numeric.eq na nb)
          | _, _ => .ok false := by
  cases a <;> first
    | cases ha; done
    | cases b <;> first
      | cases hb; done
      | rfl

theorem eqScalar_number {a b : Bson} {p q : Quantity} (ha : quantity a = some p) (hb : quantity b = some q) :
    eqScalar a b = .ok (p.cmp q == .eq) := by
  have hna := Numeric.isNanBson_spec a
  have hnb := Numeric.isNanBson_spec b
  rw [ha, Option.some.injEq] at hna
  rw [hb, Option.some.injEq] at hnb
  rw [eqScalar_numbers ha hb]
  by_cases hnan : p = .nan ∧ q = .nan
  · obtain ⟨rfl, rfl⟩ := hnan
    rw [hna.mpr rfl, hnb.mpr rfl]
    rfl
  · rw [if_neg (by rwa [Bool.and_eq_true, hna, hnb]), ← partialCmp_beq hnan]
    unfold Numeric.fastEq
    cases hf : Numeric.fastCmp a b with
    | some r =>
      obtain ⟨p', q', hp', hq', rfl⟩ := Numeric.fastCmp_spec hf
      rw [ha, Option.some.injEq] at hp'
      rw [hb, Option.some.injEq] at hq'
      subst hp' hq'
      rfl
    | none =>
      obtain ⟨x, hx, hxwf, hxq⟩ := Numeric.exists_classify ha
      obtain ⟨y, hy, hywf, hyq⟩ := Numeric.exists_classify hb
      have heq := Numeric.eq_spec hxwf hywf
      rw [Numeric.cmp_spec hxwf hywf, hxq, hyq] at heq
      rw [hx, hy, ← heq]
      rfl

/-! ## Keys -/

theorem typeRank_number {v : Bson} {q : Quantity} (h : quantity v = some q) : typeRank v = 30 := by
  cases v <;> first
    | cases h; done
    | rfl

/-- A plain scalar, its type and its key. -/
theorem plainScalar_cases {o : BinDataOrder} {v : Bson} (hv : plainScalar v = true) :
    (∃ q, quantity v = some q ∧ typeRank v = 30 ∧ encodeValue o v = .ok (rankNumber :: encodeNumber v)) ∨
      (∃ s, v = .string s ∧ typeRank v = 40 ∧ encodeValue o v = .ok (rankString :: escape (utf8 s))) ∨
      (∃ oid, v = .objectId oid ∧ typeRank v = 80 ∧ encodeValue o v = .ok (rankObjectId :: oid.bytes)) ∨
      (∃ n, v = .dateTime n ∧ typeRank v = 100 ∧ encodeValue o v = .ok (rankDate :: signedInt64Sortable n)) ∨
      ∃ b, v = .boolean b ∧ typeRank v = 90 ∧ encodeValue o v = .ok [rankBool, if b then 1 else 0] := by
  cases v with
  | int32 n => exact Or.inl ⟨_, rfl, rfl, rfl⟩
  | int64 n => exact Or.inl ⟨_, rfl, rfl, rfl⟩
  | double d => exact Or.inl ⟨_, rfl, rfl, rfl⟩
  | decimal128 d => exact Or.inl ⟨_, rfl, rfl, rfl⟩
  | string s => exact Or.inr (Or.inl ⟨s, rfl, rfl, rfl⟩)
  | objectId oid => exact Or.inr (Or.inr (Or.inl ⟨oid, rfl, rfl, rfl⟩))
  | dateTime n => exact Or.inr (Or.inr (Or.inr (Or.inl ⟨n, rfl, rfl, rfl⟩)))
  | boolean b => exact Or.inr (Or.inr (Or.inr (Or.inr ⟨b, rfl, rfl, rfl⟩)))
  | _ => cases hv

theorem encodeValue_plainScalar (o : BinDataOrder) {v : Bson} (hv : plainScalar v = true) :
    ∃ k, encodeValue o v = .ok k := by
  rcases plainScalar_cases (o := o) hv with ⟨_, -, -, h⟩ | ⟨_, -, -, h⟩ | ⟨_, -, -, h⟩ | ⟨_, -, -, h⟩ | ⟨_, -, -, h⟩
  all_goals exact ⟨_, h⟩

theorem eqScalar_apart {a b : Bson} (ha : plainScalar a = true) (hb : plainScalar b = true)
    (h : typeRank a ≠ typeRank b) : eqScalar a b = .ok false := by
  cases a <;> first
    | cases ha; done
    | cases b <;> first
      | cases hb; done
      | exact absurd rfl h
      | rfl
      | simp [eqScalar, eqPlain, isJavaScript, isExotic, isBoolean, Numeric.isNanBson, Numeric.fastEq,
          Numeric.fastCmp, Numeric.classify]

theorem eqScalar_ranks_apart {a b : Bson} (ha : plainScalar a = true) (hb : plainScalar b = true)
    (h : typeRank a ≠ typeRank b) {ra rb : UInt8} (hr : ra ≠ rb) (x y : Bytes) :
    eqScalar a b = .ok (decide (ra :: x = rb :: y)) := by
  rw [eqScalar_apart ha hb h, decide_eq_false fun heq => hr (List.cons.inj heq).1]

/-- A comparison that a pair of keys settles is their equality. -/
theorem beq_of_settled {c : Ordering} {x y : Bytes} (h : Settled c x y) (r : UInt8) :
    (c == .eq) = decide (r :: x = r :: y) := by
  rw [Bool.eq_iff_iff, beq_iff_eq, decide_eq_true_eq, List.cons.injEq, ← h.compare_eq, Std.compare_eq_iff_eq]
  exact (and_iff_right rfl).symm

theorem eqScalar_plain {o o' : BinDataOrder} {a b : Bson} (ha : plainScalar a = true) (hb : plainScalar b = true)
    {ka kb : Bytes} (hka : encodeValue o a = .ok ka) (hkb : encodeValue o' b = .ok kb) :
    eqScalar a b = .ok (decide (ka = kb)) := by
  rcases plainScalar_cases (o := o) ha with ⟨p, hpa, hta, hka'⟩ | ⟨s, hva, hta, hka'⟩ | ⟨oid, hva, hta, hka'⟩ |
      ⟨n, hva, hta, hka'⟩ | ⟨x, hva, hta, hka'⟩ <;>
    rcases plainScalar_cases (o := o') hb with ⟨q, hqb, htb, hkb'⟩ | ⟨t, hvb, htb, hkb'⟩ |
      ⟨oid', hvb, htb, hkb'⟩ | ⟨m, hvb, htb, hkb'⟩ | ⟨y, hvb, htb, hkb'⟩
  all_goals
    rw [hka', Except.ok.injEq] at hka
    rw [hkb', Except.ok.injEq] at hkb
    rw [← hka, ← hkb]
  all_goals first
    | exact eqScalar_ranks_apart ha hb (by rw [hta, htb]; decide) (by decide) _ _
    | skip
  · -- two numbers
    rw [eqScalar_number hpa hqb, beq_of_settled (settled_encodeNumber hpa hqb)]
  · subst hva hvb
    have heq : SortKey.escape (utf8 s) = SortKey.escape (utf8 t) ↔ s = t := by
      rw [← utf8_eq_iff]
      exact (Function.LeftInverse.injective (unescape_escape 0x00 0xFF)).eq_iff
    have hplain : eqScalar (.string s) (.string t) = .ok (s = t) := rfl
    simp [hplain, heq]
  · subst hva hvb
    have heq : oid.bytes = oid'.bytes ↔ oid = oid' := by
      cases oid
      cases oid'
      rw [ObjectId.mk.injEq]
    have hplain : eqScalar (.objectId oid) (.objectId oid') = .ok (oid = oid') := rfl
    simp [hplain, heq]
  · subst hva hvb
    have heq : compare n.toInt m.toInt = .eq ↔ n = m := by
      rw [compare_eq_iff_eq, Int64.toInt_inj]
    have hplain : eqScalar (.dateTime n) (.dateTime m) = .ok (n = m) := rfl
    rw [hplain, ← beq_of_settled (settled_signedInt64 n m), beq_eq_decide]
    simp [heq]
  · subst hva hvb
    cases x <;> cases y <;> rfl

end Secantus.Query
