/-
  How a document is held after it was read: text as text, what is not UTF-8 as carriers and escaped
  names. `Crate.Reads` is what the `bson` crate documents of one well-formed document: it decodes and
  encodes UTF-8, says so when a text is not, and refuses to encode a key with a NUL in it.

  `read_doc` on the bytes of a well-formed document gives the document's carried form.

  The size of a value is found from its type and its first bytes (`valueSize_payload`), so `read_value`
  takes exactly its bytes; a value the crate cannot hold comes back as its raw bytes
  (`readValue_payload`). Distinct names are held as distinct keys, so no field replaces another.
-/
import Secantus.Wire.Codec

namespace Secantus.Wire

open Secantus Secantus.Library

/-- A text of one of the other types: as text, or its raw bytes. -/
def textOr (raw : Bson.RawType) (payload text : Bytes) (f : String → Bson) : Bson :=
  match fromUtf8? text with
  | some s => f s
  | none => Bson.rawText raw (generic payload)

mutual

/-- The value an item is held as. -/
def Item.carry : Item → Bson
  | .double d => .double d
  | .string text => stringFromBytes text
  | .document fields => .document (carryFields fields)
  | .array items => .array (carryItems items)
  | .binary b => .binary b
  | .undefined => .undefined
  | .objectId oid => .objectId oid
  | .boolean b => .boolean b
  | .dateTime n => .dateTime n
  | .null => .null
  | .regex pattern options =>
    match fromUtf8? pattern, fromUtf8? options with
    | some p, some o => .regularExpression ⟨p, o⟩
    | _, _ => Bson.rawText .regex (generic (Item.regex pattern options).payload)
  | .dbPointer ns id =>
    textOr .dbPointer (Item.dbPointer ns id).payload ns fun s => .dbPointer s id
  | .javaScript code => textOr .javaScript (Item.javaScript code).payload code .javaScriptCode
  | .symbol text => textOr .symbol (Item.symbol text).payload text .symbol
  | .javaScriptScope code scope =>
    if fieldsText scope then
      textOr .javaScriptScope (Item.javaScriptScope code scope).payload code fun s =>
        .javaScriptCodeWithScope s (carryFields scope)
    else Bson.rawText .javaScriptScope (generic (Item.javaScriptScope code scope).payload)
  | .int32 n => .int32 n
  | .timestamp t => .timestamp t
  | .int64 n => .int64 n
  | .decimal128 d => .decimal128 d
  | .minKey => .minKey
  | .maxKey => .maxKey

def carryFields : Fields → Document
  | [] => []
  | (name, v) :: fields => (nameOf name, v.carry) :: carryFields fields

def carryItems : List Item → List Bson
  | [] => []
  | v :: items => v.carry :: carryItems items

end

/-! ## The crate -/

/-- What the crate does with one well-formed document. -/
structure Crate.Reads (C : Crate) (fields : Fields) : Prop where
  decode_text : fieldsText fields = true → C.decode (docBytes fields) = .ok (carryFields fields)
  decode_other : fieldsText fields = false → C.decode (docBytes fields) = .error .utf8Encoding
  encode_text : fieldsText fields = true → C.encode (carryFields fields) = .ok (docBytes fields)
  encode_nul : fieldsText fields = false → ∃ key, C.encode (carryFields fields) = .error (.invalidCString key)

mutual

/-- The values that go through the crate on their own, at any depth. -/
def Item.leaves : Item → List Item
  | .document fields => leavesFields fields
  | .array items => leavesItems items
  | .javaScriptScope code scope => .javaScriptScope code scope :: leavesFields scope
  | v => [v]

def leavesFields : Fields → List Item
  | [] => []
  | (_, v) :: fields => v.leaves ++ leavesFields fields

def leavesItems : List Item → List Item
  | [] => []
  | v :: items => v.leaves ++ leavesItems items

end

/-- What the crate does with a well-formed document and with each of its values alone, as the one field
    of a document, under the empty name. -/
structure Crate.Documented (C : Crate) (fields : Fields) : Prop where
  whole : C.Reads fields
  alone : ∀ v ∈ leavesFields fields, C.Reads [([], v)]

/-! ## Induction over items -/

/-- An item that goes through the crate whole and has no documents inside. -/
def Item.isLeaf : Item → Bool
  | .string _ | .document _ | .array _ | .javaScriptScope _ _ => false
  | _ => true

/-- Induction over an item and the items inside it. -/
theorem Item.induction {P : Item → Prop} (string : ∀ text, P (.string text))
    (document : ∀ fields : Fields, (∀ f ∈ fields, P f.2) → P (.document fields))
    (array : ∀ items : List Item, (∀ v ∈ items, P v) → P (.array items))
    (scope : ∀ code (scope : Fields), (∀ f ∈ scope, P f.2) → P (.javaScriptScope code scope))
    (leaf : ∀ v : Item, v.isLeaf = true → P v) (v : Item) : P v :=
  match v with
  | .string text => string text
  | .document fields => document fields fun ⟨_, v⟩ _ => Item.induction string document array scope leaf v
  | .array items => array items fun v _ => Item.induction string document array scope leaf v
  | .javaScriptScope code s => scope code s fun ⟨_, v⟩ _ => Item.induction string document array scope leaf v
  | .double _ | .binary _ | .undefined | .objectId _ | .boolean _ | .dateTime _ | .null | .regex _ _
  | .dbPointer _ _ | .javaScript _ | .symbol _ | .int32 _ | .timestamp _ | .int64 _ | .decimal128 _
  | .minKey | .maxKey => leaf _ rfl
decreasing_by
  all_goals
    have hmem := List.sizeOf_lt_of_mem ‹_ ∈ _›
    simp only [Item.document.sizeOf_spec, Item.array.sizeOf_spec, Item.javaScriptScope.sizeOf_spec,
      Prod.mk.sizeOf_spec] at hmem ⊢
    omega

/-! ## The fields of a document and the elements of an array -/

theorem payload_lt_of_mem {fields : Fields} {f : Bytes × Item} (h : f ∈ fields) :
    f.2.payload.length + 2 ≤ (fieldsBytes fields).length := by
  induction fields with
  | nil => cases h
  | cons g fields ih =>
    obtain ⟨name, v⟩ := g
    simp only [fieldsBytes, List.length_cons, List.length_append]
    rcases List.mem_cons.mp h with rfl | h
    · simp only
      omega
    · have := ih h
      omega

theorem payload_lt_of_mem_items {items : List Item} {v : Item} (h : v ∈ items) (i : ℕ) :
    v.payload.length + 2 ≤ (itemsBytes i items).length := by
  induction items generalizing i with
  | nil => cases h
  | cons w items ih =>
    simp only [itemsBytes, List.length_cons, List.length_append]
    rcases List.mem_cons.mp h with rfl | h
    · omega
    · have := ih h (i + 1)
      omega

theorem leaves_subset_of_mem {fields : Fields} {f : Bytes × Item} (h : f ∈ fields) :
    ∀ x ∈ f.2.leaves, x ∈ leavesFields fields := by
  induction fields with
  | nil => cases h
  | cons g fields ih =>
    obtain ⟨name, v⟩ := g
    intro x hx
    rw [leavesFields, List.mem_append]
    rcases List.mem_cons.mp h with rfl | h
    · exact Or.inl hx
    · exact Or.inr (ih h x hx)

theorem leaves_subset_of_mem_items {items : List Item} {v : Item} (h : v ∈ items) :
    ∀ x ∈ v.leaves, x ∈ leavesItems items := by
  induction items with
  | nil => cases h
  | cons w items ih =>
    intro x hx
    rw [leavesItems, List.mem_append]
    rcases List.mem_cons.mp h with rfl | h
    · exact Or.inl hx
    · exact Or.inr (ih h x hx)

theorem FieldsShaped.of_mem {fields : Fields} (h : FieldsShaped fields) {f : Bytes × Item}
    (hf : f ∈ fields) : 0 ∉ f.1 ∧ f.2.Shaped := by
  induction fields with
  | nil => cases hf
  | cons g fields ih =>
    obtain ⟨name, v⟩ := g
    rw [FieldsShaped] at h
    rcases List.mem_cons.mp hf with rfl | hf
    · exact ⟨h.1, h.2.1⟩
    · exact ih h.2.2 hf

theorem ItemsShaped.of_mem {items : List Item} (h : ItemsShaped items) {v : Item} (hv : v ∈ items) :
    v.Shaped := by
  induction items with
  | nil => cases hv
  | cons w items ih =>
    rw [ItemsShaped] at h
    rcases List.mem_cons.mp hv with rfl | hv
    · exact h.1
    · exact ih h.2 hv

/-! ## Lengths and terminators -/

theorem i32Le_le32 {n : ℕ} (h : n < 2 ^ 31) (rest : Bytes) :
    i32Le ((le32 n ++ rest).take 4) = n := by
  have htake : (le32 n ++ rest).take 4 = le32 n := by
    rw [List.take_left' (length_le32 n)]
  have hval : ofLeBytes (le32 n) = n := ofLeBytes_leBytes (by omega)
  simp only [i32Le, htake, hval, if_pos h]

theorem rdLen_le32 {n : ℕ} (h : n < 2 ^ 31) {min : ℤ} (hmin : min ≤ n) (rest : Bytes) :
    rdLen (le32 n ++ rest) min = .ok n := by
  have hlen : ¬ (le32 n ++ rest).length < 4 := by simp
  simp only [rdLen, if_neg hlen, i32Le_le32 h, if_neg (not_lt.mpr hmin), Int.toNat_natCast]

theorem idxOf?_zero {bs : Bytes} (h : 0 ∉ bs) (rest : Bytes) :
    (bs ++ (0 :: rest)).idxOf? 0 = some bs.length := by
  induction bs with
  | nil => simp [List.idxOf?_cons]
  | cons b bs ih =>
    have hb : b ≠ 0 := fun hb => h (hb ▸ List.mem_cons_self)
    have hbs : 0 ∉ bs := fun hbs => h (List.mem_cons_of_mem _ hbs)
    rw [List.cons_append, List.idxOf?_cons, ih hbs]
    simp [hb]

theorem rdLen_textBytes {text : Bytes} (h : (textBytes text).length < 2 ^ 31) (rest : Bytes) :
    rdLen (textBytes text ++ rest) 1 = .ok (text.length + 1) := by
  rw [length_textBytes] at h
  rw [textBytes, List.append_assoc]
  exact rdLen_le32 (by omega) (by omega) _

theorem rdLen_framed {body : Bytes} (h : (framed body).length < 2 ^ 31) (rest : Bytes) :
    rdLen (framed body ++ rest) 5 = .ok (framed body).length := by
  rw [length_framed] at h ⊢
  rw [framed, List.append_assoc]
  exact rdLen_le32 (by omega) (by omega) _

theorem rdLen_binaryBytes {b : Binary} (h : (binaryBytes b).length < 2 ^ 31) (rest : Bytes) :
    (rdLen (binaryBytes b ++ rest) 0).map (5 + ·) = .ok (binaryBytes b).length := by
  unfold binaryBytes at h ⊢
  split at h
  · rename_i hold
    simp only [List.length_append, length_le32, List.length_cons] at h
    rw [if_pos hold, List.append_assoc, rdLen_le32 (by omega) (by omega)]
    show Except.ok (5 + (b.bytes.length + 4)) = _
    simp only [List.length_append, length_le32, List.length_cons]
    congr 1
    omega
  · rename_i hnew
    have hsize := b.size_lt
    rw [if_neg hnew, List.append_assoc, rdLen_le32 hsize (by omega)]
    show Except.ok (5 + b.bytes.length) = _
    simp only [List.length_append, length_le32, List.length_cons]
    congr 1
    omega

theorem valueSize_text {text : Bytes} (h : (textBytes text).length < 2 ^ 31) (rest : Bytes) :
    (rdLen (textBytes text ++ rest) 1).map (4 + ·) = .ok (textBytes text).length := by
  rw [rdLen_textBytes h, length_textBytes]
  show Except.ok (4 + (text.length + 1)) = _
  congr 1
  omega

/-- The texts in a value that end at a NUL hold none. -/
def Item.Delimited : Item → Prop
  | .regex pattern options => 0 ∉ pattern ∧ 0 ∉ options
  | _ => True

theorem Item.Shaped.delimited {v : Item} (h : v.Shaped) : v.Delimited := by
  cases v with
  | regex pattern options =>
    rw [Item.Shaped] at h
    exact ⟨h.1, h.2.1⟩
  | _ => trivial

theorem valueSize_payload (v : Item) (hv : v.Delimited) (hlen : v.payload.length < 2 ^ 31)
    (rest : Bytes) : valueSize v.tag (v.payload ++ rest) = .ok v.payload.length := by
  cases v with
  | string text =>
    rw [Item.payload] at hlen ⊢
    exact valueSize_text hlen rest
  | javaScript code =>
    rw [Item.payload] at hlen ⊢
    exact valueSize_text hlen rest
  | symbol text =>
    rw [Item.payload] at hlen ⊢
    exact valueSize_text hlen rest
  | document fields =>
    rw [Item.payload] at hlen ⊢
    exact rdLen_framed hlen rest
  | array items =>
    rw [Item.payload] at hlen ⊢
    exact rdLen_framed hlen rest
  | javaScriptScope code scope =>
    rw [Item.payload] at hlen ⊢
    generalize hbody : textBytes code ++ framed (fieldsBytes scope) = body at hlen ⊢
    have hpos : 5 ≤ body.length + 4 := by
      rw [← hbody, List.length_append, length_textBytes]
      omega
    rw [List.length_append, length_le32] at hlen ⊢
    show rdLen (le32 (body.length + 4) ++ body ++ rest) 5 = _
    rw [List.append_assoc, rdLen_le32 (by omega) (by omega)]
    congr 1
    omega
  | binary b =>
    rw [Item.payload] at hlen ⊢
    exact rdLen_binaryBytes hlen rest
  | dbPointer ns id =>
    rw [Item.payload] at hlen ⊢
    have htext : (textBytes ns).length < 2 ^ 31 := by
      rw [List.length_append] at hlen
      omega
    have hsize : ∀ rest, valueSize 0x0C rest = (rdLen rest 1).map (4 + · + 12) := fun _ => rfl
    have hsum : 4 + (ns.length + 1) + 12 = ns.length + 5 + 12 := by omega
    rw [List.append_assoc, List.length_append, length_textBytes, id.size_eq, Item.tag, hsize,
      rdLen_textBytes htext, ← hsum]
    rfl
  | regex pattern options =>
    obtain ⟨hp, ho⟩ := hv
    have hfirst : (pattern ++ (0 :: (options ++ [0])) ++ rest).idxOf? 0 = some pattern.length := by
      rw [List.append_assoc, List.cons_append]
      exact idxOf?_zero hp _
    have hsecond : ((pattern ++ (0 :: (options ++ [0])) ++ rest).drop (pattern.length + 1)).idxOf? 0 =
        some options.length := by
      have hdrop : (pattern ++ (0 :: (options ++ [0])) ++ rest).drop (pattern.length + 1) =
          options ++ (0 :: rest) := by
        rw [List.append_assoc, ← List.drop_drop, List.drop_left]
        simp
      rw [hdrop]
      exact idxOf?_zero ho _
    simp only [Item.tag, Item.payload, valueSize, hfirst, hsecond]
    show Except.ok (pattern.length + 1 + options.length + 1) = _
    simp only [List.length_append, List.length_cons, List.length_nil]
    congr 1
    omega
  | double d => simp [Item.tag, Item.payload, valueSize]
  | undefined => rfl
  | objectId oid => simp [Item.tag, Item.payload, valueSize, oid.size_eq]
  | boolean b => simp [Item.tag, Item.payload, valueSize]
  | dateTime n => simp [Item.tag, Item.payload, valueSize]
  | null => rfl
  | int32 n => simp [Item.tag, Item.payload, valueSize]
  | timestamp t => simp [Item.tag, Item.payload, valueSize]
  | int64 n => simp [Item.tag, Item.payload, valueSize]
  | decimal128 d => simp [Item.tag, Item.payload, valueSize, d.size_eq]
  | minKey => rfl
  | maxKey => rfl

/-! ## One value through the crate -/

theorem nameOf_nil : nameOf [] = "" := by decide

theorem docBytes_single (v : Item) :
    docBytes [([], v)] = le32 (v.payload.length + 7) ++ (v.tag :: 0 :: (v.payload ++ [0])) := by
  simp [docBytes, framed, fieldsBytes]

theorem single_text {C : Crate} {v : Item} (hC : C.Reads [([], v)]) (h : v.allText = true) :
    single C v.tag v.payload = .ok v.carry := by
  have htext : fieldsText [([], v)] = true := by
    have hnil : isText [] = true := by decide
    simp [fieldsText, h, hnil]
  rw [single, ← docBytes_single, hC.decode_text htext]
  simp [carryFields, nameOf_nil, Document.get_cons]

theorem single_other {C : Crate} {v : Item} (hC : C.Reads [([], v)]) (h : v.allText = false) :
    single C v.tag v.payload = .error (.crate .utf8Encoding) := by
  have htext : fieldsText [([], v)] = false := by simp [fieldsText, h]
  rw [single, ← docBytes_single, hC.decode_other htext]

/-! ## Documents -/

theorem readDoc_framed (C : Crate) {body : Bytes} (h : (framed body).length < 2 ^ 31) :
    readDoc C (framed body) = readFields C body [] := by
  have hlen := rdLen_framed h []
  rw [List.append_nil] at hlen
  have hlast : (framed body).getLast? = some 0 := by
    simp [framed, ← List.append_assoc]
  have hbody : ((framed body).drop 4).dropLast = body := by
    rw [framed, List.drop_left' (length_le32 _), List.dropLast_concat]
  rw [readDoc, hlen]
  simp only [ne_eq, not_true_eq_false, hlast, or_self, if_false, hbody]

/-- One element. -/
theorem readFields_element {C : Crate} {v : Item}
    (hv : ∀ rest, readValue C v.tag (v.payload ++ rest) = .ok (v.carry, v.payload.length))
    {name : Bytes} (hname : 0 ∉ name) (rest : Bytes) {out : Document}
    (hout : nameOf name ∉ Document.keys out) :
    readFields C (v.tag :: (name ++ (0 :: (v.payload ++ rest)))) out =
      readFields C rest (out ++ [(nameOf name, v.carry)]) := by
  have hdrop : (name ++ (0 :: (v.payload ++ rest))).drop (name.length + 1) = v.payload ++ rest := by
    rw [← List.drop_drop, List.drop_left]
    rfl
  rw [readFields]
  simp only [idxOf?_zero hname, hdrop, hv, List.drop_left, List.take_left]
  rw [Document.insert_of_notMem hout]

/-- The fields of a document whose values are read back. -/
theorem readFields_fieldsBytes {C : Crate} {fields : Fields}
    (hv : ∀ f ∈ fields, ∀ rest,
      readValue C f.2.tag (f.2.payload ++ rest) = .ok (f.2.carry, f.2.payload.length))
    (hname : ∀ f ∈ fields, 0 ∉ f.1) (hnodup : (fields.map Prod.fst).Nodup) (out : Document)
    (hout : ∀ f ∈ fields, nameOf f.1 ∉ Document.keys out) :
    readFields C (fieldsBytes fields) out = .ok (out ++ carryFields fields) := by
  induction fields generalizing out with
  | nil =>
    rw [fieldsBytes, readFields, carryFields, List.append_nil]
  | cons f fields ih =>
    obtain ⟨name, v⟩ := f
    obtain ⟨hfresh, hrest⟩ := List.nodup_cons.mp hnodup
    rw [fieldsBytes, readFields_element (hv (name, v) List.mem_cons_self)
      (hname (name, v) List.mem_cons_self) _ (hout (name, v) List.mem_cons_self)]
    rw [ih (fun f hf => hv f (List.mem_cons_of_mem _ hf))
      (fun f hf => hname f (List.mem_cons_of_mem _ hf)) hrest _ ?_]
    · rw [carryFields, List.append_assoc]
      rfl
    · intro f hf hmem
      simp only [Document.keys, List.map_append, List.mem_append, List.map_cons, List.map_nil,
        List.mem_singleton] at hmem
      rcases hmem with hmem | heq
      · exact hout f (List.mem_cons_of_mem _ hf) hmem
      · -- two names held as one key would be one name
        have hsame : f.1 = name := nameOf_injective (hname f (List.mem_cons_of_mem _ hf))
          (hname (name, v) List.mem_cons_self) heq
        exact hfresh (List.mem_map.mpr ⟨f, hf, hsame⟩)

/-- The elements of an array as `read_doc` has them, under their positions. -/
def carryFrom : ℕ → List Item → Document
  | _, [] => []
  | i, v :: items => (toString i, v.carry) :: carryFrom (i + 1) items

theorem map_snd_carryFrom (i : ℕ) (items : List Item) :
    (carryFrom i items).map Prod.snd = carryItems items := by
  induction items generalizing i with
  | nil => rfl
  | cons v items ih => rw [carryFrom, List.map_cons, ih, carryItems]

theorem nameOf_toString (i : ℕ) : nameOf (utf8 (toString i)) = toString i := by
  rw [nameOf, utf8_eq_bytesOf, fromUtf8?_bytesOf]

theorem zero_notMem_toString (i : ℕ) : 0 ∉ utf8 (toString i) := by
  rw [zero_mem_utf8_iff]
  intro hmem
  have hdigits := Paths.isDigits_toString i
  simp only [Paths.isDigits, Bool.and_eq_true, List.all_eq_true] at hdigits
  exact absurd (hdigits.2 _ hmem) (by decide)

theorem readFields_itemsBytes {C : Crate} {items : List Item}
    (hv : ∀ v ∈ items, ∀ rest,
      readValue C v.tag (v.payload ++ rest) = .ok (v.carry, v.payload.length))
    (i : ℕ) (out : Document) (hout : ∀ j, i ≤ j → toString j ∉ Document.keys out) :
    readFields C (itemsBytes i items) out = .ok (out ++ carryFrom i items) := by
  induction items generalizing i out with
  | nil => rw [itemsBytes, readFields, carryFrom, List.append_nil]
  | cons v items ih =>
    have hfresh : nameOf (utf8 (toString i)) ∉ Document.keys out := by
      rw [nameOf_toString]
      exact hout i le_rfl
    rw [itemsBytes, readFields_element (hv v List.mem_cons_self) (zero_notMem_toString i) _ hfresh,
      nameOf_toString, ih (fun w hw => hv w (List.mem_cons_of_mem _ hw)) (i + 1) _ ?_]
    · rw [carryFrom, List.append_assoc]
      rfl
    · intro j hj hmem
      simp only [Document.keys, List.map_append, List.mem_append, List.map_cons, List.map_nil,
        List.mem_singleton] at hmem
      rcases hmem with hmem | heq
      · exact hout j (by omega) hmem
      · have := Paths.toString_inj heq
        omega

theorem isText_eq_false {bs : Bytes} (h : isText bs = false) : fromUtf8? bs = none := by
  simpa [isText] using h

/-- A value that goes through the crate and has a text that is not UTF-8 is held as its raw bytes. -/
theorem carry_of_not_text {v : Item} (htag : v.tag ≠ 0x02 ∧ v.tag ≠ 0x03 ∧ v.tag ≠ 0x04)
    (h : v.allText = false) :
    ∃ raw, rawType? v.tag = some raw ∧ v.carry = Bson.rawText raw (generic v.payload) := by
  cases v with
  | regex pattern options =>
    refine ⟨.regex, rfl, ?_⟩
    simp only [Item.allText, Bool.and_eq_false_iff] at h
    rw [Item.carry]
    rcases h with h | h
    · rw [isText_eq_false h]
    · rw [isText_eq_false h]
      cases fromUtf8? pattern <;> rfl
  | dbPointer ns id =>
    refine ⟨.dbPointer, rfl, ?_⟩
    rw [Item.allText] at h
    rw [Item.carry, textOr, isText_eq_false h]
  | javaScript code =>
    refine ⟨.javaScript, rfl, ?_⟩
    rw [Item.allText] at h
    rw [Item.carry, textOr, isText_eq_false h]
  | symbol text =>
    refine ⟨.symbol, rfl, ?_⟩
    rw [Item.allText] at h
    rw [Item.carry, textOr, isText_eq_false h]
  | javaScriptScope code scope =>
    refine ⟨.javaScriptScope, rfl, ?_⟩
    simp only [Item.allText, Bool.and_eq_false_iff] at h
    rw [Item.carry]
    rcases h with h | h
    · rw [textOr, isText_eq_false h]
      exact ite_self _
    · rw [if_neg (by simp [h])]
  | string text => exact absurd rfl htag.1
  | document fields => exact absurd rfl htag.2.1
  | array items => exact absurd rfl htag.2.2
  | _ => simp [Item.allText] at h

/-- A value that goes through the crate whole. -/
theorem readValue_alone {C : Crate} {v : Item} (hC : C.Reads [([], v)])
    (htag : v.tag ≠ 0x02 ∧ v.tag ≠ 0x03 ∧ v.tag ≠ 0x04) (hshaped : v.Shaped)
    (hlen : v.payload.length < 2 ^ 31) (rest : Bytes) :
    readValue C v.tag (v.payload ++ rest) = .ok (v.carry, v.payload.length) := by
  have hshort : ¬ (v.payload ++ rest).length < v.payload.length := by simp
  rw [readValue, valueSize_payload v hshaped.delimited hlen]
  simp only [if_neg hshort, List.take_left, if_neg htag.1, if_neg htag.2.1, if_neg htag.2.2]
  cases htext : v.allText with
  | true =>
    rw [single_text hC htext]
    cases rawType? v.tag <;> rfl
  | false =>
    obtain ⟨raw, hraw, hcarry⟩ := carry_of_not_text htag htext
    rw [single_other hC htext, hraw, hcarry]
    rfl

/-- A value of a well-formed document is read as its carried form, and exactly its bytes are taken. -/
theorem readValue_payload (C : Crate) (v : Item) : v.Shaped → v.payload.length < 2 ^ 31 →
    (∀ x ∈ v.leaves, C.Reads [([], x)]) →
    ∀ rest, readValue C v.tag (v.payload ++ rest) = .ok (v.carry, v.payload.length) := by
  induction v using Item.induction with
  | string text =>
    intro hshaped hlen _ rest
    have hlast : (textBytes text).getLast? = some 0 := by simp [textBytes, ← List.append_assoc]
    have htext : ((textBytes text).drop 4).dropLast = text := by
      rw [textBytes, List.drop_left' (length_le32 _), List.dropLast_concat]
    rw [readValue, valueSize_payload _ hshaped.delimited hlen]
    simp only [Item.tag, Item.payload, List.take_left, if_true, hlast, htext, Item.carry]
    simp [Except.map]
  | document fields ih =>
    intro hshaped hlen hC rest
    have hsize := valueSize_payload _ hshaped.delimited hlen rest
    rw [Item.Shaped] at hshaped
    rw [Item.payload] at hlen hsize ⊢
    have hshort : ¬ (framed (fieldsBytes fields) ++ rest).length < (framed (fieldsBytes fields)).length := by
      simp
    have hread : readDoc C (framed (fieldsBytes fields)) = .ok (carryFields fields) := by
      rw [readDoc_framed C hlen]
      refine readFields_fieldsBytes (fun f hf => ih f hf (hshaped.2.of_mem hf).2 ?_ ?_)
        (fun f hf => (hshaped.2.of_mem hf).1) hshaped.1 [] (fun _ _ => List.not_mem_nil)
      · have := payload_lt_of_mem hf
        rw [length_framed] at hlen
        omega
      · exact fun x hx => hC x (by rw [Item.leaves]; exact leaves_subset_of_mem hf x hx)
    rw [readValue, hsize]
    simp only [if_neg hshort, List.take_left, Item.tag, hread, Item.carry]
    rfl
  | array items ih =>
    intro hshaped hlen hC rest
    have hsize := valueSize_payload _ hshaped.delimited hlen rest
    rw [Item.Shaped] at hshaped
    rw [Item.payload] at hlen hsize ⊢
    have hshort : ¬ (framed (itemsBytes 0 items) ++ rest).length < (framed (itemsBytes 0 items)).length := by
      simp
    have hread : readDoc C (framed (itemsBytes 0 items)) = .ok (carryFrom 0 items) := by
      rw [readDoc_framed C hlen]
      refine readFields_itemsBytes (fun v hv => ih v hv (hshaped.of_mem hv) ?_ ?_) 0 []
        (fun _ _ => List.not_mem_nil)
      · have := payload_lt_of_mem_items hv 0
        rw [length_framed] at hlen
        omega
      · exact fun x hx => hC x (by rw [Item.leaves]; exact leaves_subset_of_mem_items hv x hx)
    rw [readValue, hsize]
    simp only [if_neg hshort, List.take_left, Item.tag, hread, Item.carry]
    rw [← map_snd_carryFrom 0 items]
    rfl
  | scope code scope ih =>
    intro hshaped hlen hC rest
    refine readValue_alone (hC _ ?_) (by simp [Item.tag]) hshaped hlen rest
    rw [Item.leaves]
    exact List.mem_cons_self
  | leaf v hleaf =>
    intro hshaped hlen hC rest
    have hself : v ∈ v.leaves := by cases v <;> simp_all [Item.isLeaf, Item.leaves]
    have htag : v.tag ≠ 0x02 ∧ v.tag ≠ 0x03 ∧ v.tag ≠ 0x04 := by
      cases v <;> simp_all [Item.isLeaf, Item.tag]
    exact readValue_alone (hC v hself) htag hshaped hlen rest

theorem readDoc_docBytes {C : Crate} {fields : Fields} (h : WellFormed fields)
    (hC : ∀ v ∈ leavesFields fields, C.Reads [([], v)]) :
    readDoc C (docBytes fields) = .ok (carryFields fields) := by
  have hsize := h.size
  unfold docBytes at hsize ⊢
  rw [readDoc_framed C hsize]
  refine readFields_fieldsBytes (fun f hf => readValue_payload C f.2 (h.shaped.of_mem hf).2 ?_ ?_)
    (fun f hf => (h.shaped.of_mem hf).1) h.nodup [] (fun _ _ => List.not_mem_nil)
  · have := payload_lt_of_mem hf
    rw [length_framed] at hsize
    omega
  · exact fun x hx => hC x (leaves_subset_of_mem hf x hx)

end Secantus.Wire
