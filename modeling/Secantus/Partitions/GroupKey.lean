/-
  The canonical key of `$group` (`group.rs`), with no collation: numbers by their normalised digits, so that
  the number types meet; documents field by field, in order.

  Two values have one key exactly when they are equal (`gkey_eq_iff`): numbers by value, a NaN to a NaN, and
  every other value only to itself.
-/
import Secantus.Bson.Equality
import Secantus.Bson.Quantity

namespace Secantus.Partitions

open Secantus

/-! ## Keys -/

/-- The keys of `GKey` that hold no others. -/
inductive Atom where
  | null
  | num (n : NumVal)
  | bool (b : Bool)
  | minKey
  | maxKey
  | timestamp (time increment : UInt32)
  | binary (subtype : UInt8) (bytes : Bytes)
  | regex (pattern options : String)
  | code (code : String)
  | str (s : String)
  | date (millis : Int64)
  | oid (bytes : Bytes)
  | nan
  deriving DecidableEq

inductive GKey where
  | atom (a : Atom)
  | doc (fields : List (String × GKey))
  | arr (items : List GKey)

/-- The key of a number. -/
def numberKey (v : Bson) : Except Fallback Atom :=
  match Numeric.classify v with
  | some .nan => .ok .nan
  | some n => .ok (.num n)
  | none => .error .defer

/-- `gkey` on a value that holds no others. -/
def atomKey (v : Bson) : Except Fallback Atom :=
  match v with
  | .null => .ok .null
  | .boolean b => .ok (.bool b)
  | .int32 n => numberKey (.int32 n)
  | .int64 n => numberKey (.int64 n)
  | .double d => numberKey (.double d)
  | .decimal128 d => numberKey (.decimal128 d)
  | .string s => .ok (.str s)
  | .dateTime t => .ok (.date t)
  | .objectId o => .ok (.oid o.bytes)
  | .minKey => .ok .minKey
  | .maxKey => .ok .maxKey
  | .timestamp t => .ok (.timestamp t.time t.increment)
  | .binary b => .ok (.binary b.subtype b.bytes)
  | .regularExpression r => .ok (.regex r.pattern r.options)
  | .javaScriptCode c => .ok (.code c)
  | _ => .error .defer

mutual

def gkey (v : Bson) : Except Fallback GKey :=
  match v with
  | .document d => (gkeyFields d).map .doc
  | .array a => (gkeyItems a).map .arr
  | v => (atomKey v).map .atom

def gkeyFields : Document → Except Fallback (List (String × GKey))
  | [] => .ok []
  | (k, v) :: d => do
    let key ← gkey v
    let fields ← gkeyFields d
    return (k, key) :: fields

def gkeyItems : List Bson → Except Fallback (List GKey)
  | [] => .ok []
  | v :: a => do
    let key ← gkey v
    let items ← gkeyItems a
    return key :: items

end

/-! ## Equality of keys -/

mutual

def GKey.decEq (a b : GKey) : Decidable (a = b) :=
  match a, b with
  | .atom x, .atom y => decidable_of_iff (x = y) (by simp)
  | .doc x, .doc y =>
    have := GKey.decEqFields x y
    decidable_of_iff (x = y) (by simp)
  | .arr x, .arr y =>
    have := GKey.decEqItems x y
    decidable_of_iff (x = y) (by simp)
  | .atom _, .doc _ | .atom _, .arr _ | .doc _, .atom _ | .doc _, .arr _ | .arr _, .atom _ | .arr _, .doc _ =>
    .isFalse (by simp)

def GKey.decEqFields (x y : List (String × GKey)) : Decidable (x = y) :=
  match x, y with
  | [], [] => .isTrue rfl
  | [], _ :: _ | _ :: _, [] => .isFalse (by simp)
  | (k, a) :: x, (l, b) :: y =>
    have := GKey.decEq a b
    have := GKey.decEqFields x y
    decidable_of_iff ((k = l ∧ a = b) ∧ x = y) (by simp)

def GKey.decEqItems (x y : List GKey) : Decidable (x = y) :=
  match x, y with
  | [], [] => .isTrue rfl
  | [], _ :: _ | _ :: _, [] => .isFalse (by simp)
  | a :: x, b :: y =>
    have := GKey.decEq a b
    have := GKey.decEqItems x y
    decidable_of_iff (a = b ∧ x = y) (by simp)

end

instance : DecidableEq GKey := GKey.decEq

/-! ## Equal values -/

/-- Numbers are equal by value, other values when they are one. -/
def SameAtom (v w : Bson) : Prop :=
  match quantity v, quantity w with
  | some p, some q => p = q
  | none, none => v = w
  | _, _ => False

mutual

/-- Values are equal: numbers by value across types, documents field by field, in order. -/
def Same (v w : Bson) : Prop :=
  match v, w with
  | .document x, .document y => SameFields x y
  | .array x, .array y => SameItems x y
  | v, w => SameAtom v w

def SameFields : Document → Document → Prop
  | [], [] => True
  | (k, v) :: x, (l, w) :: y => k = l ∧ Same v w ∧ SameFields x y
  | _, _ => False

def SameItems : List Bson → List Bson → Prop
  | [], [] => True
  | v :: x, w :: y => Same v w ∧ SameItems x y
  | _, _ => False

end

/-! ## Keys of numbers -/

theorem eq_of_numeric_eq {a b : NumVal} (h : Numeric.eq a b = true) : a = b := by
  cases a <;> cases b <;> simp_all [Numeric.eq]

theorem quantity_injective {a b : NumVal} (ha : a.Wf) (hb : b.Wf) : a.quantity = b.quantity ↔ a = b := by
  constructor
  · intro h
    have hcmp := Numeric.cmp_spec ha hb
    rw [h] at hcmp
    have heq := Numeric.eq_spec ha hb
    rw [hcmp] at heq
    cases hq : b.quantity with
    | nan =>
      have hnan : ∀ {n : NumVal}, n.quantity = .nan → n = .nan := by
        intro n hn
        cases n with
        | nan => rfl
        | inf s =>
          by_cases hs : s = 1 <;> simp [NumVal.quantity, hs] at hn
        | zero => cases hn
        | finite s d e => cases hn
      rw [hnan (h.trans hq), hnan hq]
    | _ =>
      refine eq_of_numeric_eq (heq.trans ?_)
      have hself := (Quantity.cmp_eq_iff b.quantity b.quantity).mpr rfl
      rw [hq] at hself ⊢
      simp [Quantity.partialCmp, hself]
  · exact fun h => by rw [h]

/-- The key of normalised digits. -/
def digitsKey : NumVal → Atom
  | .nan => .nan
  | n => .num n

theorem digitsKey_injective {a b : NumVal} (h : digitsKey a = digitsKey b) : a = b := by
  cases a <;> cases b <;> simp_all [digitsKey]

theorem numberKey_spec {v : Bson} {q : Quantity} (h : quantity v = some q) :
    ∃ n : NumVal, n.Wf ∧ n.quantity = q ∧ numberKey v = .ok (digitsKey n) := by
  obtain ⟨n, hc, hwf, hq⟩ := Numeric.exists_classify h
  refine ⟨n, hwf, hq, ?_⟩
  unfold numberKey
  rw [hc]
  cases n <;> rfl

theorem atomKey_number {v : Bson} {q : Quantity} (h : quantity v = some q) : atomKey v = numberKey v := by
  cases v <;> first
    | rfl
    | cases h

theorem binary_eq_iff (a b : Binary) : a.subtype = b.subtype ∧ a.bytes = b.bytes ↔ a = b := by
  cases a
  cases b
  simp

theorem objectId_eq_iff (a b : ObjectId) : a.bytes = b.bytes ↔ a = b := by
  cases a
  cases b
  simp

theorem timestamp_eq_iff (a b : Timestamp) : a.time = b.time ∧ a.increment = b.increment ↔ a = b := by
  cases a
  cases b
  simp

theorem regex_eq_iff (a b : Regex) : a.pattern = b.pattern ∧ a.options = b.options ↔ a = b := by
  cases a
  cases b
  simp

/-- The keys of two values that are no numbers are those values. -/
theorem plainKey_eq_iff {v w : Bson} {a b : Atom} (hv : quantity v = none) (hw : quantity w = none)
    (ha : atomKey v = .ok a) (hb : atomKey w = .ok b) : a = b ↔ v = w := by
  cases v <;> first
    | cases hv; done
    | cases ha; done
    | cases w <;> first
      | cases hw; done
      | cases hb; done
      | cases ha
        cases hb
        simp [binary_eq_iff, objectId_eq_iff, timestamp_eq_iff, regex_eq_iff]

theorem atomKey_eq_iff {v w : Bson} {a b : Atom} (ha : atomKey v = .ok a) (hb : atomKey w = .ok b) :
    a = b ↔ SameAtom v w := by
  unfold SameAtom
  cases hv : quantity v with
  | some p =>
    obtain ⟨n, hn, hnq, hnk⟩ := numberKey_spec hv
    rw [atomKey_number hv, hnk] at ha
    obtain rfl := Except.ok.inj ha
    cases hw : quantity w with
    | some q =>
      obtain ⟨m, hm, hmq, hmk⟩ := numberKey_spec hw
      rw [atomKey_number hw, hmk] at hb
      obtain rfl := Except.ok.inj hb
      simp only
      rw [← hnq, ← hmq, quantity_injective hn hm]
      exact ⟨digitsKey_injective, fun h => by rw [h]⟩
    | none =>
      refine iff_of_false ?_ id
      rintro rfl
      cases w <;> first
        | cases hw; done
        | cases n <;> cases hb
  | none =>
    cases hw : quantity w with
    | some q =>
      obtain ⟨m, -, -, hmk⟩ := numberKey_spec hw
      rw [atomKey_number hw, hmk] at hb
      obtain rfl := Except.ok.inj hb
      refine iff_of_false ?_ id
      rintro rfl
      cases v <;> first
        | cases hv; done
        | cases m <;> cases ha
    | none => exact plainKey_eq_iff hv hw ha hb

/-! ## Keys of values -/

theorem map_ok {ε α β : Type} {f : α → β} {x : Except ε α} {b : β} (h : x.map f = .ok b) :
    ∃ a, x = .ok a ∧ b = f a := by
  cases x with
  | error e => cases h
  | ok a => exact ⟨a, rfl, (Except.ok.inj h).symm⟩

theorem gkeyFields_cons {k : String} {v : Bson} {d : Document} {ks : List (String × GKey)}
    (h : gkeyFields ((k, v) :: d) = .ok ks) :
    ∃ key fields, gkey v = .ok key ∧ gkeyFields d = .ok fields ∧ ks = (k, key) :: fields := by
  rw [gkeyFields] at h
  cases hv : gkey v with
  | error e =>
    rw [hv] at h
    cases h
  | ok key =>
    cases hd : gkeyFields d with
    | error e =>
      rw [hv, hd] at h
      cases h
    | ok fields =>
      rw [hv, hd] at h
      exact ⟨key, fields, rfl, rfl, (Except.ok.inj h).symm⟩

theorem gkeyItems_cons {v : Bson} {a : List Bson} {ks : List GKey} (h : gkeyItems (v :: a) = .ok ks) :
    ∃ key items, gkey v = .ok key ∧ gkeyItems a = .ok items ∧ ks = key :: items := by
  rw [gkeyItems] at h
  cases hv : gkey v with
  | error e =>
    rw [hv] at h
    cases h
  | ok key =>
    cases ha : gkeyItems a with
    | error e =>
      rw [hv, ha] at h
      cases h
    | ok items =>
      rw [hv, ha] at h
      exact ⟨key, items, rfl, rfl, (Except.ok.inj h).symm⟩

/-- Keys tell a value from the others it is not equal to. -/
def KeyTells (v : Bson) : Prop :=
  ∀ w a b, gkey v = .ok a → gkey w = .ok b → (a = b ↔ Same v w)

theorem keyTells_fields {x : Document} (ih : ∀ f ∈ x, KeyTells f.2) {y : Document} {ks ls : List (String × GKey)}
    (hk : gkeyFields x = .ok ks) (hl : gkeyFields y = .ok ls) : ks = ls ↔ SameFields x y := by
  induction x generalizing y ks ls with
  | nil =>
    rw [gkeyFields] at hk
    obtain rfl := Except.ok.inj hk
    cases y with
    | nil =>
      rw [gkeyFields] at hl
      obtain rfl := Except.ok.inj hl
      simp [SameFields]
    | cons g y =>
      obtain ⟨key, fields, -, -, rfl⟩ := gkeyFields_cons hl
      simp [SameFields]
  | cons f x ihx =>
    obtain ⟨k, v⟩ := f
    obtain ⟨key, fields, hv, hx, rfl⟩ := gkeyFields_cons hk
    cases y with
    | nil =>
      rw [gkeyFields] at hl
      obtain rfl := Except.ok.inj hl
      simp [SameFields]
    | cons g y =>
      obtain ⟨l, w⟩ := g
      obtain ⟨key', fields', hw, hy, rfl⟩ := gkeyFields_cons hl
      rw [SameFields, ← ih (k, v) List.mem_cons_self w key key' hv hw,
        ← ihx (fun f hf => ih f (List.mem_cons_of_mem _ hf)) hx hy]
      simp [and_assoc]

theorem keyTells_items {x : List Bson} (ih : ∀ v ∈ x, KeyTells v) {y : List Bson} {ks ls : List GKey}
    (hk : gkeyItems x = .ok ks) (hl : gkeyItems y = .ok ls) : ks = ls ↔ SameItems x y := by
  induction x generalizing y ks ls with
  | nil =>
    rw [gkeyItems] at hk
    obtain rfl := Except.ok.inj hk
    cases y with
    | nil =>
      rw [gkeyItems] at hl
      obtain rfl := Except.ok.inj hl
      simp [SameItems]
    | cons w y =>
      obtain ⟨key, items, -, -, rfl⟩ := gkeyItems_cons hl
      simp [SameItems]
  | cons v x ihx =>
    obtain ⟨key, items, hv, hx, rfl⟩ := gkeyItems_cons hk
    cases y with
    | nil =>
      rw [gkeyItems] at hl
      obtain rfl := Except.ok.inj hl
      simp [SameItems]
    | cons w y =>
      obtain ⟨key', items', hw, hy, rfl⟩ := gkeyItems_cons hl
      rw [SameItems, ← ih v List.mem_cons_self w key key' hv hw,
        ← ihx (fun v hv => ih v (List.mem_cons_of_mem _ hv)) hx hy]
      simp

/-- A value that holds no others, or holds some but has no key. -/
def isAtom : Bson → Bool
  | .document _ | .array _ => false
  | _ => true

theorem gkey_atom {v : Bson} {a : GKey} (hv : isAtom v = true) (h : gkey v = .ok a) :
    ∃ key, atomKey v = .ok key ∧ a = .atom key := by
  cases v <;> first
    | cases hv; done
    | (rw [gkey] at h
       · exact map_ok h
       all_goals simp)

theorem gkey_document {d : Document} {a : GKey} (h : gkey (.document d) = .ok a) :
    ∃ ks, gkeyFields d = .ok ks ∧ a = .doc ks := by
  rw [gkey] at h
  exact map_ok h

theorem gkey_array {items : List Bson} {a : GKey} (h : gkey (.array items) = .ok a) :
    ∃ ks, gkeyItems items = .ok ks ∧ a = .arr ks := by
  rw [gkey] at h
  exact map_ok h

theorem same_atom {v w : Bson} (h : isAtom v = true ∨ isAtom w = true) : Same v w ↔ SameAtom v w := by
  cases v <;> cases w <;> first
    | rfl
    | exact absurd h (by simp [isAtom])
    | simp [Same]

/-- A value that holds others is not equal to one that holds none. -/
theorem not_sameAtom {v w : Bson} (h : isAtom v ≠ isAtom w) : ¬SameAtom v w := by
  unfold SameAtom
  intro hsame
  split at hsame
  · rename_i p q hp hq
    have hatom : ∀ {v : Bson} {q : Quantity}, quantity v = some q → isAtom v = true := by
      intro v q hv
      cases v <;> first
        | rfl
        | cases hv
    exact h ((hatom hp).trans (hatom hq).symm)
  · exact h (by rw [hsame])
  · exact hsame

theorem keyTells (v : Bson) : KeyTells v := by
  have hatom : ∀ v, isAtom v = true → KeyTells v := by
    intro v hv w a b ha hb
    obtain ⟨key, hkey, rfl⟩ := gkey_atom hv ha
    rw [same_atom (Or.inl hv)]
    by_cases hw : isAtom w = true
    · obtain ⟨key', hkey', rfl⟩ := gkey_atom hw hb
      rw [GKey.atom.injEq]
      exact atomKey_eq_iff hkey hkey'
    · refine iff_of_false ?_ (not_sameAtom (by simp [hv, hw]))
      rintro rfl
      cases w with
      | document y =>
        obtain ⟨_, -, h⟩ := gkey_document hb
        cases h
      | array y =>
        obtain ⟨_, -, h⟩ := gkey_array hb
        cases h
      | _ => exact hw rfl
  induction v using Bson.induction with
  | document x ih =>
    intro w a b ha hb
    obtain ⟨ks, hks, rfl⟩ := gkey_document ha
    cases w with
    | document y =>
      obtain ⟨ls, hls, rfl⟩ := gkey_document hb
      rw [GKey.doc.injEq, Same]
      exact keyTells_fields ih hks hls
    | array y =>
      obtain ⟨ls, -, rfl⟩ := gkey_array hb
      simp [Same, SameAtom, quantity]
    | _ =>
      obtain ⟨key, -, rfl⟩ := gkey_atom rfl hb
      refine iff_of_false (fun heq => by cases heq) fun h => ?_
      rw [same_atom (Or.inr rfl)] at h
      exact not_sameAtom (by simp [isAtom]) h
  | array x ih =>
    intro w a b ha hb
    obtain ⟨ks, hks, rfl⟩ := gkey_array ha
    cases w with
    | array y =>
      obtain ⟨ls, hls, rfl⟩ := gkey_array hb
      rw [GKey.arr.injEq, Same]
      exact keyTells_items ih hks hls
    | document y =>
      obtain ⟨ls, -, rfl⟩ := gkey_document hb
      simp [Same, SameAtom, quantity]
    | _ =>
      obtain ⟨key, -, rfl⟩ := gkey_atom rfl hb
      refine iff_of_false (fun heq => by cases heq) fun h => ?_
      rw [same_atom (Or.inr rfl)] at h
      exact not_sameAtom (by simp [isAtom]) h
  | scope c s => exact hatom _ rfl
  | leaf v hv =>
    refine hatom v ?_
    cases v <;> first
      | rfl
      | cases hv

theorem gkey_eq_iff {v w : Bson} {a b : GKey} (ha : gkey v = .ok a) (hb : gkey w = .ok b) : a = b ↔ Same v w :=
  keyTells v w a b ha hb

end Secantus.Partitions
