/-
  The BSON format: what stands in a document's bytes, and the bytes it stands as.

  An `Item` is a value as its bytes have it: texts and names are byte strings, UTF-8 or not. `WellFormed`
  is the format's own conditions on a document: names end at a NUL and none is there twice, lengths are
  `i32`, the options of a regex are in order. Array elements are named by their positions.
-/
import Secantus.Library.Utf8
import Secantus.Paths.Basic

namespace Secantus.Wire

open Secantus Secantus.Library

/-- `n` in `w` little-endian bytes. -/
def leBytes : (w : ℕ) → ℕ → Bytes
  | 0, _ => []
  | w + 1, n => UInt8.ofNat (n % 256) :: leBytes w (n / 256)

/-- An `i32` length. -/
def le32 (n : ℕ) : Bytes := leBytes 4 n

/-- A value in a document's bytes. -/
inductive Item where
  | double (d : F64)
  | string (text : Bytes)
  | document (fields : List (Bytes × Item))
  | array (items : List Item)
  | binary (b : Binary)
  | undefined
  | objectId (oid : ObjectId)
  | boolean (b : Bool)
  | dateTime (millis : Int64)
  | null
  | regex (pattern options : Bytes)
  | dbPointer (ns : Bytes) (id : ObjectId)
  | javaScript (code : Bytes)
  | symbol (text : Bytes)
  | javaScriptScope (code : Bytes) (scope : List (Bytes × Item))
  | int32 (n : Int32)
  | timestamp (t : Timestamp)
  | int64 (n : Int64)
  | decimal128 (d : Decimal128)
  | minKey
  | maxKey

/-- The fields of a document, in order. -/
abbrev Fields := List (Bytes × Item)

/-- The element type of a value. -/
def Item.tag : Item → UInt8
  | .double _ => 0x01
  | .string _ => 0x02
  | .document _ => 0x03
  | .array _ => 0x04
  | .binary _ => 0x05
  | .undefined => 0x06
  | .objectId _ => 0x07
  | .boolean _ => 0x08
  | .dateTime _ => 0x09
  | .null => 0x0A
  | .regex _ _ => 0x0B
  | .dbPointer _ _ => 0x0C
  | .javaScript _ => 0x0D
  | .symbol _ => 0x0E
  | .javaScriptScope _ _ => 0x0F
  | .int32 _ => 0x10
  | .timestamp _ => 0x11
  | .int64 _ => 0x12
  | .decimal128 _ => 0x13
  | .minKey => 0xFF
  | .maxKey => 0x7F

/-- A length-prefixed, NUL-terminated text. -/
def textBytes (text : Bytes) : Bytes := le32 (text.length + 1) ++ (text ++ [0])

/-- A document's bytes around those of its elements. -/
def framed (body : Bytes) : Bytes := le32 (body.length + 5) ++ (body ++ [0])

/-- The bytes of binary data. The old generic subtype has its length a second time. -/
def binaryBytes (b : Binary) : Bytes :=
  if b.subtype = 2 then le32 (b.bytes.length + 4) ++ (2 :: (le32 b.bytes.length ++ b.bytes))
  else le32 b.bytes.length ++ (b.subtype :: b.bytes)

mutual

/-- The bytes of a value, after its type and name. -/
def Item.payload : Item → Bytes
  | .double d => leBytes 8 d.bits.toNat
  | .string text => textBytes text
  | .document fields => framed (fieldsBytes fields)
  | .array items => framed (itemsBytes 0 items)
  | .binary b => binaryBytes b
  | .undefined | .null | .minKey | .maxKey => []
  | .objectId oid => oid.bytes
  | .boolean b => [if b then 1 else 0]
  | .dateTime n => leBytes 8 n.toUInt64.toNat
  | .regex pattern options => pattern ++ (0 :: (options ++ [0]))
  | .dbPointer ns id => textBytes ns ++ id.bytes
  | .javaScript code => textBytes code
  | .symbol text => textBytes text
  | .javaScriptScope code scope =>
    le32 ((textBytes code ++ framed (fieldsBytes scope)).length + 4) ++
      (textBytes code ++ framed (fieldsBytes scope))
  | .int32 n => leBytes 4 n.toUInt32.toNat
  | .timestamp t => leBytes 4 t.increment.toNat ++ leBytes 4 t.time.toNat
  | .int64 n => leBytes 8 n.toUInt64.toNat
  | .decimal128 d => d.bytes

/-- The elements of a document. -/
def fieldsBytes : Fields → Bytes
  | [] => []
  | (name, v) :: fields => v.tag :: (name ++ (0 :: (v.payload ++ fieldsBytes fields)))

/-- The elements of an array, from position `i`. -/
def itemsBytes : ℕ → List Item → Bytes
  | _, [] => []
  | i, v :: items => v.tag :: (utf8 (toString i) ++ (0 :: (v.payload ++ itemsBytes (i + 1) items)))

end

/-- The bytes of a document. -/
def docBytes (fields : Fields) : Bytes := framed (fieldsBytes fields)

/-! ## Text -/

/-- These bytes are UTF-8. -/
def isText (bs : Bytes) : Bool := (fromUtf8? bs).isSome

mutual

/-- Every text and name in the value is UTF-8. -/
def Item.allText : Item → Bool
  | .string text | .javaScript text | .symbol text | .dbPointer text _ => isText text
  | .regex pattern options => isText pattern && isText options
  | .javaScriptScope code scope => isText code && fieldsText scope
  | .document fields => fieldsText fields
  | .array items => itemsText items
  | _ => true

def fieldsText : Fields → Bool
  | [] => true
  | (name, v) :: fields => isText name && v.allText && fieldsText fields

def itemsText : List Item → Bool
  | [] => true
  | v :: items => v.allText && itemsText items

end

/-! ## Well-formed documents -/

mutual

/-- The format's conditions on a value, lengths apart. -/
def Item.Shaped : Item → Prop
  | .document fields => (fields.map Prod.fst).Nodup ∧ FieldsShaped fields
  | .array items => ItemsShaped items
  | .javaScriptScope _ scope => (scope.map Prod.fst).Nodup ∧ FieldsShaped scope
  | .regex pattern options => 0 ∉ pattern ∧ 0 ∉ options ∧
      ∀ s, isText pattern = true → fromUtf8? options = some s → s.toList.Pairwise (· ≤ ·)
  | _ => True

def FieldsShaped : Fields → Prop
  | [] => True
  | (name, v) :: fields => 0 ∉ name ∧ v.Shaped ∧ FieldsShaped fields

def ItemsShaped : List Item → Prop
  | [] => True
  | v :: items => v.Shaped ∧ ItemsShaped items

end

/-- A well-formed document. -/
structure WellFormed (fields : Fields) : Prop where
  nodup : (fields.map Prod.fst).Nodup
  shaped : FieldsShaped fields
  size : (docBytes fields).length < 2 ^ 31

/-! ## Lengths -/

@[simp] theorem length_leBytes (w n : ℕ) : (leBytes w n).length = w := by
  induction w generalizing n with
  | zero => rfl
  | succ w ih => simp [leBytes, ih]

@[simp] theorem length_le32 (n : ℕ) : (le32 n).length = 4 := length_leBytes 4 n

theorem ofLeBytes_leBytes {w n : ℕ} (h : n < 256 ^ w) : ofLeBytes (leBytes w n) = n := by
  induction w generalizing n with
  | zero =>
    simp only [Nat.pow_zero, Nat.lt_one_iff] at h
    simp [h, leBytes, ofLeBytes]
  | succ w ih =>
    have hdiv : n / 256 < 256 ^ w := by
      rw [Nat.div_lt_iff_lt_mul (by decide), ← Nat.pow_succ]
      exact h
    have hbyte : (UInt8.ofNat (n % 256)).toNat = n % 256 := by
      rw [UInt8.toNat_ofNat']
      exact Nat.mod_eq_of_lt (Nat.mod_lt _ (by decide))
    rw [leBytes, ofLeBytes, ih hdiv, hbyte]
    omega

theorem length_textBytes (text : Bytes) : (textBytes text).length = text.length + 5 := by
  simp [textBytes]
  omega

theorem length_framed (body : Bytes) : (framed body).length = body.length + 5 := by
  simp [framed]
  omega

end Secantus.Wire
