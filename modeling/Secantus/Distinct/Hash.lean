/-
  `hash_bson` and `ident_hash`: the bytes a hasher is fed for an identity.

  Feeding walks a document in the order of its fields, where `==` compares it as a map. Two equal
  identities are fed alike exactly when the documents in them, outside the scope of a code, have
  their fields in one order (`told`).
-/
import Secantus.Bson.Equality
import Secantus.Bson.Quantity
import Secantus.Wire.Format

namespace Secantus.Distinct

open Secantus Bson Library Wire

/-! ## What the hasher is fed -/

/-- The bits `hash_f64` hashes: every NaN alike, `-0` as `0`. -/
def hashF64 (d : F64) : UInt64 :=
  if d.isNan then 0xFFFFFFFFFFFFFFFF else if d.eqv ⟨0⟩ then 0 else d.bits

/-- A `usize`, as `Hash` writes it. -/
def feedUsize (n : ℕ) : Bytes := leBytes 8 n

/-- A `str`, as `Hash` writes it: its bytes and a byte no text has. -/
def feedStr (s : String) : Bytes := utf8 s ++ [0xFF]

/-- A slice of bytes, as `Hash` writes it. -/
def feedBytes (bs : Bytes) : Bytes := feedUsize bs.length ++ bs

/-- `mem::discriminant`: the place of the variant among `Bson`'s. -/
def discriminant : Bson → ℕ
  | .double _ => 0
  | .string _ => 1
  | .array _ => 2
  | .document _ => 3
  | .boolean _ => 4
  | .null => 5
  | .regularExpression _ => 6
  | .javaScriptCode _ => 7
  | .javaScriptCodeWithScope _ _ => 8
  | .int32 _ => 9
  | .int64 _ => 10
  | .timestamp _ => 11
  | .binary _ => 12
  | .objectId _ => 13
  | .dateTime _ => 14
  | .symbol _ => 15
  | .decimal128 _ => 16
  | .undefined => 17
  | .maxKey => 18
  | .minKey => 19
  | .dbPointer _ _ => 20

mutual

def hashBson (v : Bson) : Bytes := feedUsize (discriminant v) ++ hashPayload v

/-- `hash_bson`, past the variant. -/
def hashPayload : Bson → Bytes
  | .double d => leBytes 8 (hashF64 d).toNat
  | .string s => feedStr s
  | .int32 n => leBytes 4 n.toUInt32.toNat
  | .int64 n => leBytes 8 n.toUInt64.toNat
  | .boolean b => [if b then 1 else 0]
  | .array a => feedUsize a.length ++ hashElements a
  | .document d => feedUsize d.length ++ hashFields d
  | .decimal128 d => feedBytes d.bytes
  | .binary b => feedBytes b.bytes
  | .dateTime t => leBytes 8 t.toUInt64.toNat
  | .objectId o => feedBytes o.bytes
  | .timestamp t => leBytes 4 t.time.toNat ++ leBytes 4 t.increment.toNat
  | .symbol s | .javaScriptCode s => feedStr s
  | .regularExpression r => feedStr r.pattern ++ feedStr r.options
  | .undefined | .null | .dbPointer _ _ | .javaScriptCodeWithScope _ _ | .minKey | .maxKey => []

def hashElements : List Bson → Bytes
  | [] => []
  | v :: a => hashBson v ++ hashElements a

def hashFields : Document → Bytes
  | [] => []
  | (k, v) :: d => feedStr k ++ hashBson v ++ hashFields d

end

/-! ## One order of fields -/

mutual

/-- The documents of two values, outside the scope of a code, have their fields in one order. -/
def SameOrder (a b : Bson) : Prop :=
  match a, b with
  | .document x, .document y => SameOrderFields x y
  | .array x, .array y => SameOrderElements x y
  | _, _ => True

def SameOrderFields : Document → Document → Prop
  | [], [] => True
  | (k, v) :: x, (k', w) :: y => k = k' ∧ SameOrder v w ∧ SameOrderFields x y
  | _, _ => False

def SameOrderElements : List Bson → List Bson → Prop
  | [], [] => True
  | v :: x, w :: y => SameOrder v w ∧ SameOrderElements x y
  | _, _ => False

end

mutual

/-- One field a name, in every document outside the scope of a code. -/
def FieldsOnce : Bson → Prop
  | .document d => (Document.keys d).Nodup ∧ FieldsOnceFields d
  | .array a => FieldsOnceElements a
  | _ => True

def FieldsOnceFields : Document → Prop
  | [] => True
  | (_, v) :: d => FieldsOnce v ∧ FieldsOnceFields d

def FieldsOnceElements : List Bson → Prop
  | [] => True
  | v :: a => FieldsOnce v ∧ FieldsOnceElements a

end

/-! ## Equal scalars are fed alike -/

theorem toNat_bits (d : F64) :
    d.bits.toNat = (if d.negative then 2 ^ 63 else 0) + d.rawExp * 2 ^ 52 + d.frac := by
  have hneg : d.negative = decide (d.bits.toNat / 2 ^ 63 = 1) := by
    unfold F64.negative
    rw [Bool.eq_iff_iff, beq_iff_eq, decide_eq_true_eq, ← UInt64.toNat_inj]
    simp [Nat.shiftRight_eq_div_pow]
  have hexp : d.rawExp = d.bits.toNat / 2 ^ 52 % 2 ^ 11 := by
    unfold F64.rawExp
    rw [UInt64.toNat_and]
    exact (Nat.and_two_pow_sub_one_eq_mod _ 11).trans (by simp [Nat.shiftRight_eq_div_pow])
  have hfrac : d.frac = d.bits.toNat % 2 ^ 52 := by
    unfold F64.frac
    rw [UInt64.toNat_and]
    exact Nat.and_two_pow_sub_one_eq_mod _ 52
  have hlt := d.bits.toNat_lt
  rw [hneg, hexp, hfrac]
  split
  · rename_i h
    rw [decide_eq_true_eq] at h
    omega
  · rename_i h
    rw [decide_eq_true_eq] at h
    omega

/-- A finite double's magnitude, in units of `2^-1074`. -/
def magnitude (rawExp frac : ℕ) : ℕ := if rawExp = 0 then frac else (frac + 2 ^ 52) * 2 ^ (rawExp - 1)

theorem scaled_eq (d : F64) :
    d.scaled = if d.negative then -(magnitude d.rawExp d.frac : ℤ) else magnitude d.rawExp d.frac := by
  have hm : ((d.significand.1 : ℤ) * 2 ^ (d.significand.2 + 1074).toNat) = magnitude d.rawExp d.frac := by
    unfold F64.significand magnitude
    by_cases h : d.rawExp = 0
    · rw [if_pos h, if_pos h]
      simp
    · rw [if_neg h, if_neg h]
      have hexp : ((d.rawExp : ℤ) - 1075 + 1074).toNat = d.rawExp - 1 := by omega
      simp only [hexp]
      push_cast
      rfl
  unfold F64.scaled
  simp only [hm]

theorem magnitude_lt {r r' f f' : ℕ} (hr : r < r') (hf : f < 2 ^ 52) :
    magnitude r f < magnitude r' f' := by
  have hr' : r' ≠ 0 := by omega
  have hbase : 2 ^ 52 * 2 ^ (r' - 1) ≤ magnitude r' f' := by
    unfold magnitude
    rw [if_neg hr']
    exact Nat.mul_le_mul_right _ (by omega)
  refine lt_of_lt_of_le ?_ hbase
  unfold magnitude
  by_cases h0 : r = 0
  · rw [if_pos h0]
    exact lt_of_lt_of_le hf (Nat.le_mul_of_pos_right _ (Nat.two_pow_pos _))
  · rw [if_neg h0]
    calc (f + 2 ^ 52) * 2 ^ (r - 1) < (2 ^ 52 * 2) * 2 ^ (r - 1) :=
          Nat.mul_lt_mul_of_pos_right (by omega) (Nat.two_pow_pos _)
      _ = 2 ^ 52 * 2 ^ r := by
          rw [mul_assoc, ← pow_succ']
          congr 2
          omega
      _ ≤ 2 ^ 52 * 2 ^ (r' - 1) := Nat.mul_le_mul_left _ (Nat.pow_le_pow_right (by decide) (by omega))

theorem magnitude_injective {r r' f f' : ℕ} (hf : f < 2 ^ 52) (hf' : f' < 2 ^ 52)
    (h : magnitude r f = magnitude r' f') : r = r' ∧ f = f' := by
  have hr : r = r' := by
    rcases Nat.lt_trichotomy r r' with hlt | heq | hlt
    · exact absurd h (magnitude_lt hlt hf).ne
    · exact heq
    · exact absurd h.symm (magnitude_lt hlt hf').ne
  subst hr
  refine ⟨rfl, ?_⟩
  unfold magnitude at h
  split at h
  · exact h
  · have := Nat.eq_of_mul_eq_mul_right (Nat.two_pow_pos _) h
    omega

theorem bits_eq {x y : F64} (hn : x.negative = y.negative) (hr : x.rawExp = y.rawExp)
    (hf : x.frac = y.frac) : x.bits = y.bits := by
  rw [← UInt64.toNat_inj, toNat_bits, toNat_bits, hn, hr, hf]

theorem bits_eq_of_scaled {x y : F64} (h : x.scaled = y.scaled) (h0 : x.scaled ≠ 0) : x.bits = y.bits := by
  have hmag : magnitude x.rawExp x.frac = magnitude y.rawExp y.frac ∧ x.negative = y.negative := by
    rw [scaled_eq] at h0
    rw [scaled_eq, scaled_eq] at h
    cases hnx : x.negative <;> cases hny : y.negative <;> simp only [hnx, hny, if_true, if_false,
      Bool.false_eq_true, reduceCtorEq, and_true, and_false] at h h0 ⊢ <;> omega
  obtain ⟨hr, hf⟩ := magnitude_injective x.frac_lt y.frac_lt hmag.1
  exact bits_eq hmag.2 hr hf

theorem eqv_iff (x y : F64) :
    x.eqv y = true ↔ (x.isNan || y.isNan) = false ∧
      if x.isInfinite || y.isInfinite then
        x.isInfinite = true ∧ y.isInfinite = true ∧ x.negative = y.negative
      else x.scaled = y.scaled := by
  unfold F64.eqv F64.partialCmp
  rw [beq_iff_eq]
  cases hnan : x.isNan || y.isNan with
  | true => simp
  | false =>
    rw [if_neg Bool.false_ne_true]
    cases hinf : x.isInfinite || y.isInfinite with
    | true =>
      rw [if_pos rfl, if_pos rfl, Option.some.injEq, compare_eq_iff_eq]
      cases hx : x.isInfinite <;> cases hy : y.isInfinite <;> cases hnx : x.negative <;>
        cases hny : y.negative <;> simp_all
    | false =>
      rw [if_neg Bool.false_ne_true, if_neg Bool.false_ne_true, Option.some.injEq, compare_eq_iff_eq]
      simp

theorem eqv_zero_iff (x : F64) :
    x.eqv ⟨0⟩ = true ↔ x.isNan = false ∧ x.isInfinite = false ∧ x.scaled = 0 := by
  rw [eqv_iff]
  have hnan : (⟨0⟩ : F64).isNan = false := by decide
  have hinf : (⟨0⟩ : F64).isInfinite = false := by decide
  have hscaled : (⟨0⟩ : F64).scaled = 0 := by decide
  rw [hnan, hinf, hscaled]
  cases x.isInfinite <;> simp

theorem hashF64_of_eqv {x y : F64} (h : x.eqv y = true) : hashF64 x = hashF64 y := by
  rw [eqv_iff] at h
  obtain ⟨hnan, h⟩ := h
  obtain ⟨hx, hy⟩ := Bool.or_eq_false_iff.mp hnan
  have hzero : x.eqv ⟨0⟩ = y.eqv ⟨0⟩ ∧ (x.eqv ⟨0⟩ = false → x.bits = y.bits) := by
    rw [Bool.eq_iff_iff, ← Bool.not_eq_true, eqv_zero_iff, eqv_zero_iff]
    split at h
    · obtain ⟨hix, hiy, hn⟩ := h
      refine ⟨by simp [hix, hiy], fun _ => ?_⟩
      unfold F64.isInfinite at hix hiy
      rw [Bool.and_eq_true, beq_iff_eq, beq_iff_eq] at hix hiy
      exact bits_eq hn (hix.1.trans hiy.1.symm) (hix.2.trans hiy.2.symm)
    · rename_i hinf
      obtain ⟨hix, hiy⟩ := Bool.or_eq_false_iff.mp (Bool.not_eq_true _ ▸ hinf)
      refine ⟨by rw [hx, hy, hix, hiy, h], ?_⟩
      intro hne
      exact bits_eq_of_scaled h fun h0 => hne ⟨hx, hix, h0⟩
  unfold hashF64
  rw [hx, hy, hzero.1]
  cases hz : y.eqv ⟨0⟩ with
  | true => rfl
  | false => exact hzero.2 (hzero.1.trans hz)

theorem hashBson_of_eqv_leaf {v b : Bson} (hv : v.isLeaf = true) (h : eqv v b = true) :
    hashBson v = hashBson b := by
  obtain rfl | ⟨x, y, rfl, rfl, hxy⟩ := eq_of_eqv_leaf hv h
  · rfl
  · rw [hashBson, hashBson, hashPayload, hashPayload, hashF64_of_eqv hxy]
    rfl

/-! ## Equal values fed alike -/

theorem append_cons_inj {α : Type*} {a : α} {x y r r' : List α} (hx : a ∉ x) (hy : a ∉ y) :
    x ++ a :: r = y ++ a :: r' ↔ x = y ∧ r = r' := by
  constructor
  · intro h
    induction x generalizing y with
    | nil =>
      cases y with
      | nil => exact ⟨rfl, by simpa using h⟩
      | cons c y =>
        obtain ⟨rfl, -⟩ := List.cons.inj h
        exact absurd List.mem_cons_self hy
    | cons b x ih =>
      cases y with
      | nil =>
        obtain ⟨rfl, -⟩ := List.cons.inj h
        exact absurd List.mem_cons_self hx
      | cons c y =>
        obtain ⟨rfl, htail⟩ := List.cons.inj h
        obtain ⟨rfl, hr⟩ := ih (fun hm => hx (List.mem_cons_of_mem b hm))
          (fun hm => hy (List.mem_cons_of_mem b hm)) htail
        exact ⟨rfl, hr⟩
  · intro h
    rw [h.1, h.2]

theorem feedStr_append_iff {s t : String} {r r' : Bytes} :
    feedStr s ++ r = feedStr t ++ r' ↔ s = t ∧ r = r' := by
  show bytesOf s ++ [0xFF] ++ r = bytesOf t ++ [0xFF] ++ r' ↔ _
  rw [List.append_assoc, List.append_assoc, List.singleton_append, List.singleton_append,
    append_cons_inj (ff_notMem_bytesOf s) (ff_notMem_bytesOf t)]
  refine and_congr_left' ⟨bytesOf_injective, fun h => by rw [h]⟩

theorem eqvFields_cons_of_notMem {x y : Document} {k : String} {w : Bson} (hk : k ∉ Document.keys x) :
    eqvFields x ((k, w) :: y) = eqvFields x y := by
  induction x with
  | nil => rfl
  | cons f x ih =>
    obtain ⟨k', v⟩ := f
    rw [Document.keys_cons, List.mem_cons, not_or] at hk
    rw [eqvFields, eqvFields, ih hk.2, Document.get_cons, if_neg hk.1]

/-- Feeding tells the order of fields of values equal to this one, and where they end. -/
def Told (a : Bson) : Prop :=
  ∀ (b : Bson) (r r' : Bytes), FieldsOnce a → FieldsOnce b → eqv a b = true →
    (hashBson a ++ r = hashBson b ++ r' ↔ SameOrder a b ∧ r = r')

theorem told_fields {x : Document} (ih : ∀ f ∈ x, Told f.2) (y : Document) (r r' : Bytes)
    (hx : (Document.keys x).Nodup) (hx' : FieldsOnceFields x) (hy : (Document.keys y).Nodup)
    (hy' : FieldsOnceFields y) (hlen : x.length = y.length) (h : eqvFields x y = true) :
    hashFields x ++ r = hashFields y ++ r' ↔ SameOrderFields x y ∧ r = r' := by
  induction x generalizing y with
  | nil =>
    obtain rfl := List.eq_nil_of_length_eq_zero hlen.symm
    simp [hashFields, SameOrderFields]
  | cons f x ihx =>
    obtain ⟨k, v⟩ := f
    cases y with
    | nil => cases hlen
    | cons g y =>
      obtain ⟨k', w⟩ := g
      rw [Document.keys_cons, List.nodup_cons] at hx hy
      rw [FieldsOnceFields] at hx' hy'
      rw [hashFields, hashFields, SameOrderFields, List.append_assoc, List.append_assoc, List.append_assoc,
        List.append_assoc, feedStr_append_iff]
      by_cases hk : k = k'
      · subst hk
        rw [eqvFields, Bool.and_eq_true, Document.get_cons, if_pos rfl,
          eqvFields_cons_of_notMem hx.1] at h
        rw [ih (k, v) List.mem_cons_self w _ _ hx'.1 hy'.1 h.1,
          ihx (fun f hf => ih f (List.mem_cons_of_mem _ hf)) y hx.2 hx'.2 hy.2 hy'.2
            (Nat.succ.inj hlen) h.2]
        tauto
      · simp [hk]

theorem told_elements {x : List Bson} (ih : ∀ v ∈ x, Told v) (y : List Bson) (r r' : Bytes)
    (hx : FieldsOnceElements x) (hy : FieldsOnceElements y) (h : eqvElements x y = true) :
    hashElements x ++ r = hashElements y ++ r' ↔ SameOrderElements x y ∧ r = r' := by
  induction x generalizing y with
  | nil =>
    cases y with
    | nil => simp [hashElements, SameOrderElements]
    | cons w y => cases h
  | cons v x ihx =>
    cases y with
    | nil => cases h
    | cons w y =>
      rw [FieldsOnceElements] at hx hy
      rw [eqvElements, Bool.and_eq_true] at h
      rw [hashElements, hashElements, SameOrderElements, List.append_assoc, List.append_assoc,
        ih v List.mem_cons_self w _ _ hx.1 hy.1 h.1,
        ihx (fun v hv => ih v (List.mem_cons_of_mem _ hv)) y hx.2 hy.2 h.2, and_assoc]

theorem told (a : Bson) : Told a := by
  induction a using Bson.induction with
  | document x ih =>
    intro b r r' ha hb h
    cases b with
    | document y =>
      rw [eqv, Bool.and_eq_true, decide_eq_true_eq] at h
      rw [FieldsOnce] at ha hb
      simp only [hashBson, hashPayload, discriminant, List.append_assoc, List.append_cancel_left_eq, h.1,
        SameOrder]
      exact told_fields ih y r r' ha.1 ha.2 hb.1 hb.2 h.1 h.2
    | _ => cases h
  | array x ih =>
    intro b r r' ha hb h
    cases b with
    | array y =>
      rw [eqv] at h
      rw [FieldsOnce] at ha hb
      simp only [hashBson, hashPayload, discriminant, List.append_assoc, List.append_cancel_left_eq,
        (eqvElements_getElem h).1, SameOrder]
      exact told_elements ih y r r' ha hb h
    | _ => cases h
  | scope c x =>
    intro b r r' _ _ h
    cases b with
    | javaScriptCodeWithScope c' y =>
      simp only [hashBson, hashPayload, discriminant, List.append_nil, List.append_cancel_left_eq,
        SameOrder, true_and]
    | _ => cases h
  | leaf v hv =>
    intro b r r' _ _ h
    have horder : SameOrder v b := by
      unfold SameOrder
      split <;> first | cases hv | trivial
    rw [hashBson_of_eqv_leaf hv h, List.append_cancel_left_eq]
    simp only [horder, true_and]

end Secantus.Distinct
