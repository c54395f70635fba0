/-
  The codec loses nothing: a well-formed document read and written again is the same bytes
  (`write_fromBytes`), and the escape of a name is undone and keeps names apart.
-/
import Secantus.Wire.Reading

namespace Secantus.Wire

open Secantus Secantus.Library

/-! ## Carriers -/

theorem generic_bytes {bytes : Bytes} (h : bytes.length < 2 ^ 31) : (generic bytes).bytes = bytes := by
  rw [generic, dif_pos h]

theorem ofKey_key (raw : Bson.RawType) : Bson.RawType.ofKey raw.key = some raw := by
  cases raw <;> decide

theorem asRawText_rawText (raw : Bson.RawType) {bytes : Bytes} (h : bytes.length < 2 ^ 31) :
    Bson.asRawText (Bson.rawText raw (generic bytes)) = some (raw, bytes) := by
  simp [Bson.asRawText, Bson.rawText, ofKey_key, generic_bytes h]

theorem asRawText_invalidUtf8 (b : Binary) : Bson.asRawText (Bson.invalidUtf8 b) = none := by
  have hkey : Bson.RawType.ofKey Bson.invalidUtf8Key = none := by decide
  simp [Bson.asRawText, Bson.invalidUtf8, hkey]

theorem asInvalidUtf8_invalidUtf8 {bytes : Bytes} (h : bytes.length < 2 ^ 31) :
    Bson.asInvalidUtf8 (Bson.invalidUtf8 (generic bytes)) = some bytes := by
  simp [Bson.asInvalidUtf8, Bson.invalidUtf8, Bson.carrierBytes, generic_bytes h]

/-- A document that was read is no carrier: its names are not a carrier's key. -/
theorem document_not_carrier {fields : Fields} (h : FieldsShaped fields) :
    Bson.asRawText (.document (carryFields fields)) = none ∧
      Bson.asInvalidUtf8 (.document (carryFields fields)) = none := by
  match fields with
  | [] => exact ⟨rfl, rfl⟩
  | (_, _) :: (_, _) :: fields => simp [carryFields, Bson.asRawText, Bson.asInvalidUtf8, Bson.carrierBytes]
  | [(name, v)] =>
    obtain ⟨hutf8, hraw⟩ := nameOf_ne_carrier (FieldsShaped.of_mem h List.mem_cons_self).1
    have hkey : Bson.RawType.ofKey (nameOf name) = none := by
      rw [Bson.RawType.ofKey, List.find?_eq_none]
      intro t _
      simpa using (hraw t).symm
    simp only [carryFields]
    constructor
    · unfold Bson.asRawText
      split
      · rename_i k b heq
        simp only [Bson.document.injEq, List.cons.injEq, Prod.mk.injEq, and_true] at heq
        rw [← heq.1, hkey]
        exact ite_self _
      · rfl
    · unfold Bson.asInvalidUtf8 Bson.carrierBytes
      simp only
      split
      · rename_i k b heq
        simp only [List.cons.injEq, Prod.mk.injEq, and_true] at heq
        rw [if_neg fun hand => hutf8 (heq.1.trans hand.1)]
      · rfl

/-! ## Writing what was read -/

/-- What `write_element` has to give for a value. -/
def Written (C : Crate) (v : Item) : Prop :=
  ∀ key, writeElement C key v.carry = .ok (head v.tag key ++ v.payload)

theorem writeFields_carryFields {C : Crate} {fields : Fields} (hv : ∀ f ∈ fields, Written C f.2)
    (hname : ∀ f ∈ fields, 0 ∉ f.1) : writeFields C (carryFields fields) = .ok (fieldsBytes fields) := by
  induction fields with
  | nil => rw [carryFields, writeFields, fieldsBytes]
  | cons f fields ih =>
    obtain ⟨name, v⟩ := f
    have hrest := ih (fun f hf => hv f (List.mem_cons_of_mem _ hf))
      (fun f hf => hname f (List.mem_cons_of_mem _ hf))
    have hkey := keyBytes_nameOf (hname (name, v) List.mem_cons_self)
    rw [carryFields, writeFields, hkey]
    simp only [hv (name, v) List.mem_cons_self name, hrest]
    rw [fieldsBytes]
    simp [head]

theorem writeItems_carryItems {C : Crate} {items : List Item} (hv : ∀ v ∈ items, Written C v) (i : ℕ) :
    writeItems C i (carryItems items) = .ok (itemsBytes i items) := by
  induction items generalizing i with
  | nil => rw [carryItems, writeItems, itemsBytes]
  | cons v items ih =>
    have hrest := ih (fun w hw => hv w (List.mem_cons_of_mem _ hw)) (i + 1)
    rw [carryItems, writeItems]
    simp only [hv v List.mem_cons_self _, hrest]
    rw [itemsBytes]
    simp [head]

theorem rawTag_of_rawType? {t : UInt8} {raw : Bson.RawType} (h : rawType? t = some raw) :
    rawTag raw = t := by
  unfold rawType? at h
  split_ifs at h with h1 h2 h3 h4 h5
  · cases h
    exact h1.symm
  · cases h
    exact h2.symm
  · cases h
    exact h3.symm
  · cases h
    exact h4.symm
  · cases h
    exact h5.symm

theorem written_raw {C : Crate} {v : Item} {raw : Bson.RawType} (htag : rawType? v.tag = some raw)
    (hcarry : v.carry = Bson.rawText raw (generic v.payload)) (hlen : v.payload.length < 2 ^ 31) :
    Written C v := by
  intro key
  unfold writeElement
  rw [hcarry, asRawText_rawText raw hlen, ← rawTag_of_rawType? htag]

theorem written_alone {C : Crate} {v : Item} (hC : C.Reads [([], v)]) (htext : v.allText = true)
    (hplain : ∀ key, writeElement C key v.carry = (C.encode [("", v.carry)]).map fun bytes =>
      head (bytes.getD 4 0) key ++ (bytes.drop 6).dropLast) : Written C v := by
  intro key
  have hfields : fieldsText [([], v)] = true := by
    have hnil : isText [] = true := by decide
    simp [fieldsText, htext, hnil]
  have hencode := hC.encode_text hfields
  simp only [carryFields, nameOf_nil] at hencode
  have htag : (docBytes [([], v)]).getD 4 0 = v.tag := by
    rw [docBytes_single, List.getD_eq_getElem?_getD, List.getElem?_append_right (by simp), length_le32]
    rfl
  have hpayload : ((docBytes [([], v)]).drop 6).dropLast = v.payload := by
    rw [docBytes_single, show (6 : ℕ) = 4 + 2 from rfl, ← List.drop_drop,
      List.drop_left' (length_le32 _)]
    simp
  rw [hplain, hencode]
  show Except.ok (head ((docBytes [([], v)]).getD 4 0) key ++ ((docBytes [([], v)]).drop 6).dropLast) = _
  rw [htag, hpayload]

/-- A value with nothing inside goes back through the crate when its texts are UTF-8. -/
theorem writeElement_leaf {C : Crate} {v : Item} (hleaf : v.isLeaf = true) (htext : v.allText = true)
    (key : Bytes) : writeElement C key v.carry = (C.encode [("", v.carry)]).map fun bytes =>
      head (bytes.getD 4 0) key ++ (bytes.drop 6).dropLast := by
  cases v with
  | regex pattern options =>
    simp only [Item.allText, Bool.and_eq_true, isText, Option.isSome_iff_exists] at htext
    obtain ⟨⟨p, hp⟩, o, ho⟩ := htext
    rw [Item.carry, hp, ho]
    rfl
  | dbPointer text _ | javaScript text | symbol text =>
    rw [Item.allText, isText, Option.isSome_iff_exists] at htext
    obtain ⟨s, hs⟩ := htext
    rw [Item.carry, textOr, hs]
    rfl
  | string text | document fields | array items | javaScriptScope code scope => cases hleaf
  | _ =>
    rw [Item.carry]
    rfl

/-- Every value of a well-formed document is written as it stood. -/
theorem written_of_shaped (C : Crate) (v : Item) : v.Shaped → v.payload.length < 2 ^ 31 →
    (∀ x ∈ v.leaves, C.Reads [([], x)]) → Written C v := by
  induction v using Item.induction with
  | string text =>
    intro _ hlen hC
    have hread : C.Reads [([], .string text)] := hC _ (by simp [Item.leaves])
    cases htext : fromUtf8? text with
    | some s =>
      refine written_alone hread (by rw [Item.allText, isText, htext]; rfl) (fun key => ?_)
      rw [Item.carry, stringFromBytes, htext]
      rfl
    | none =>
      intro key
      have hshort : text.length < 2 ^ 31 := by
        rw [Item.payload, length_textBytes] at hlen
        omega
      unfold writeElement
      rw [Item.carry, stringFromBytes, htext, Item.payload]
      simp only [asRawText_invalidUtf8, asInvalidUtf8_invalidUtf8 hshort]
      rfl
  | document fields ih =>
    intro hshaped hlen hC key
    rw [Item.Shaped] at hshaped
    rw [Item.payload] at hlen
    obtain ⟨hraw, hutf8⟩ := document_not_carrier hshaped.2
    have hbody : writeFields C (carryFields fields) = .ok (fieldsBytes fields) := by
      refine writeFields_carryFields (fun f hf => ih f hf (hshaped.2.of_mem hf).2 ?_ ?_)
        (fun f hf => (hshaped.2.of_mem hf).1)
      · have := payload_lt_of_mem hf
        rw [length_framed] at hlen
        omega
      · exact fun x hx => hC x (by rw [Item.leaves]; exact leaves_subset_of_mem hf x hx)
    unfold writeElement
    simp only [Item.carry, hraw, hutf8, hbody, Item.payload, Item.tag]
    rfl
  | array items ih =>
    intro hshaped hlen hC key
    rw [Item.Shaped] at hshaped
    rw [Item.payload] at hlen
    have hbody : writeItems C 0 (carryItems items) = .ok (itemsBytes 0 items) := by
      refine writeItems_carryItems (fun v hv => ih v hv (hshaped.of_mem hv) ?_ ?_) 0
      · have := payload_lt_of_mem_items hv 0
        rw [length_framed] at hlen
        omega
      · exact fun x hx => hC x (by rw [Item.leaves]; exact leaves_subset_of_mem_items hv x hx)
    unfold writeElement
    simp only [Item.carry, Bson.asRawText, Bson.asInvalidUtf8, hbody, Item.payload, Item.tag]
    rfl
  | scope code scope ih =>
    intro hshaped hlen hC
    cases htext : (Item.javaScriptScope code scope).allText with
    | false =>
      obtain ⟨raw, hraw, hcarry⟩ := carry_of_not_text (by simp [Item.tag]) htext
      exact written_raw hraw hcarry hlen
    | true =>
      intro key
      rw [Item.Shaped] at hshaped
      rw [Item.payload, List.length_append, List.length_append] at hlen
      rw [Item.allText, Bool.and_eq_true, isText, Option.isSome_iff_exists] at htext
      obtain ⟨⟨s, hs⟩, hscope⟩ := htext
      have hcode : utf8 s = code := fromUtf8?_eq_some_iff.mp hs
      have hbody : writeFields C (carryFields scope) = .ok (fieldsBytes scope) := by
        refine writeFields_carryFields (fun f hf => ih f hf (hshaped.2.of_mem hf).2 ?_ ?_)
          (fun f hf => (hshaped.2.of_mem hf).1)
        · have := payload_lt_of_mem hf
          rw [length_framed] at hlen
          omega
        · intro x hx
          refine hC x ?_
          rw [Item.leaves]
          exact List.mem_cons_of_mem _ (leaves_subset_of_mem hf x hx)
      unfold writeElement
      simp only [Item.carry, if_pos hscope, textOr, hs, Bson.asRawText, Bson.asInvalidUtf8, hbody,
        Item.payload, Item.tag]
      rw [← hcode]
      rfl
  | leaf v hleaf =>
    intro hshaped hlen hC
    have hself : v ∈ v.leaves := by cases v <;> simp_all [Item.isLeaf, Item.leaves]
    have htag : v.tag ≠ 0x02 ∧ v.tag ≠ 0x03 ∧ v.tag ≠ 0x04 := by
      cases v <;> simp_all [Item.isLeaf, Item.tag]
    cases htext : v.allText with
    | false =>
      obtain ⟨raw, hraw, hcarry⟩ := carry_of_not_text htag htext
      exact written_raw hraw hcarry hlen
    | true =>
      exact written_alone (hC v hself) htext (writeElement_leaf hleaf htext)

theorem writeDoc_carryFields {C : Crate} {fields : Fields} (h : WellFormed fields)
    (hC : ∀ v ∈ leavesFields fields, C.Reads [([], v)]) :
    writeDoc C (carryFields fields) = .ok (docBytes fields) := by
  have hsize := h.size
  rw [docBytes, length_framed] at hsize
  have hbody : writeFields C (carryFields fields) = .ok (fieldsBytes fields) := by
    refine writeFields_carryFields (fun f hf => written_of_shaped C f.2 (h.shaped.of_mem hf).2 ?_ ?_)
      (fun f hf => (h.shaped.of_mem hf).1)
    · have := payload_lt_of_mem hf
      omega
    · exact fun x hx => hC x (leaves_subset_of_mem hf x hx)
  rw [writeDoc, hbody]
  rfl

/-! ## The whole codec -/

/-- `from_bytes` takes the declared length, which is all of a well-formed document. -/
theorem fromBytes_docBytes (C : Crate) {fields : Fields} (h : WellFormed fields) :
    fromBytes C (docBytes fields) =
      match C.decode (docBytes fields) with
      | .ok d => .ok d
      | .error .utf8Encoding => readDoc C (docBytes fields)
      | .error e => .error (.crate e) := by
  have hsize := h.size
  have hlen : (docBytes fields).length = (fieldsBytes fields).length + 5 := length_framed _
  have hdeclared : i32Le ((docBytes fields).take 4) = (docBytes fields).length := by
    rw [hlen, docBytes, framed, i32Le_le32 (by omega)]
  have hexact : (if 4 ≤ (docBytes fields).length ∧ 0 ≤ i32Le ((docBytes fields).take 4) ∧
      (i32Le ((docBytes fields).take 4)).toNat ≤ (docBytes fields).length then
        (docBytes fields).take (i32Le ((docBytes fields).take 4)).toNat
      else docBytes fields) = docBytes fields := by
    rw [hdeclared, Int.toNat_natCast, List.take_length, ite_self]
  unfold fromBytes
  simp only
  rewrite [hexact]
  rfl

/-- A document read: as the crate has it, or in its carried form. -/
theorem fromBytes_eq_carryFields {C : Crate} {fields : Fields} (h : WellFormed fields)
    (hC : C.Documented fields) : fromBytes C (docBytes fields) = .ok (carryFields fields) := by
  rw [fromBytes_docBytes C h]
  cases htext : fieldsText fields with
  | true => rw [hC.whole.decode_text htext]
  | false =>
    rw [hC.whole.decode_other htext]
    exact readDoc_docBytes h hC.alone

theorem write_carryFields {C : Crate} {fields : Fields} (h : WellFormed fields)
    (hC : C.Documented fields) : write C (carryFields fields) = .ok (docBytes fields) := by
  rw [write]
  cases htext : fieldsText fields with
  | true => rw [hC.whole.encode_text htext]
  | false =>
    obtain ⟨key, hkey⟩ := hC.whole.encode_nul htext
    rw [hkey]
    exact writeDoc_carryFields h hC.alone

/-- The codec is lossless: a well-formed document that is read and written again is the same bytes, and
    the escape of a name that could stand in a document is undone and told apart. -/
theorem write_fromBytes {C : Crate} {fields : Fields} (h : WellFormed fields) (hC : C.Documented fields) :
    (∃ d, fromBytes C (docBytes fields) = .ok d ∧ write C d = .ok (docBytes fields)) ∧
      (∀ name : Bytes, 0 ∉ name → keyBytes (escapeKey name) = some name) ∧
      (∀ name name' : Bytes, 0 ∉ name → 0 ∉ name' → escapeKey name = escapeKey name' → name = name') := by
  refine ⟨⟨carryFields fields, fromBytes_eq_carryFields h hC, write_carryFields h hC⟩,
    fun name hname => keyBytes_escapeKey hname, fun name name' hname hname' heq => ?_⟩
  have hkeys : some name = some name' := by
    rw [← keyBytes_escapeKey hname, heq, keyBytes_escapeKey hname']
  exact Option.some.inj hkeys

/-- `{"s": <FF>, <FE>: null}`: a string and a name that are not UTF-8. -/
def notText : Fields := [([0x73], .string [0xFF]), ([0xFE], .null)]

/-- The crate on `notText` and its values: it holds the null, and none of the rest. -/
def notTextCrate : Crate where
  decode bytes := if bytes = docBytes [([], .null)] then .ok [("", .null)] else .error .utf8Encoding
  encode d :=
    match d with
    | [("", .null)] => .ok (docBytes [([], .null)])
    | _ => .error (.invalidCString "\x00")

theorem notText_wellFormed : WellFormed notText where
  nodup := by decide
  shaped := by
    simp only [notText, FieldsShaped, Item.Shaped]
    decide
  size := by decide

theorem notTextCrate_decode {bytes : Bytes} (h : bytes ≠ docBytes [([], .null)]) :
    notTextCrate.decode bytes = .error .utf8Encoding := if_neg h

theorem notTextCrate_documented : notTextCrate.Documented notText where
  whole :=
    { decode_text := fun h => absurd h (by decide)
      decode_other := fun _ => notTextCrate_decode (by decide)
      encode_text := fun h => absurd h (by decide)
      encode_nul := fun _ => ⟨"\x00", rfl⟩ }
  alone := by
    intro v hv
    have hleaves : leavesFields notText = [.string [0xFF], .null] := rfl
    rw [hleaves] at hv
    rcases List.mem_cons.mp hv with rfl | hv
    · exact
        { decode_text := fun h => absurd h (by decide)
          decode_other := fun _ => notTextCrate_decode (by decide)
          encode_text := fun h => absurd h (by decide)
          encode_nul := fun _ => ⟨"\x00", rfl⟩ }
    · rw [List.mem_singleton.mp hv]
      exact
        { decode_text := fun _ => by
            simp only [carryFields, nameOf_nil, Item.carry]
            simp [notTextCrate]
          decode_other := fun h => absurd h (by decide)
          encode_text := fun _ => by
            simp only [carryFields, nameOf_nil, Item.carry]
            rfl
          encode_nul := fun h => absurd h (by decide) }

theorem write_fromBytes_notText :
    ∃ d, fromBytes notTextCrate (docBytes notText) = .ok d ∧
      write notTextCrate d = .ok (docBytes notText) :=
  (write_fromBytes notText_wellFormed notTextCrate_documented).1

/-- A name with a NUL is not undone, and is escaped as another is: `escape_key` reads the NUL as its own
    mark. -/
theorem escapeKey_nul : keyBytes (escapeKey [0]) ≠ some [0] ∧
    escapeKey [0xFF] = escapeKey [0, 0x66, 0x66] := by
  decide

end Secantus.Wire
