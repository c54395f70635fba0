/-
  What `insert` refuses about a document before it reaches storage (crud.rs of secantus-commands): an `_id` of a type
  mongod cannot hold, a `$`-prefixed field inside an `_id` document, nesting past the limit. The stages check the
  decoded document (`insert_document_error`), the command its bytes (`raw_document_error`).

  The raw documents of the `bson` crate are a parameter, with what it documents of the bytes of one document and of
  those inside it (`RawCrate.Documented`).

  The two agree but where a document nests past the limit in fewer bytes than the raw check walks
  (`preChecks_agree_iff`): a level under the empty name takes seven bytes and not eight (`length_nested`).
-/
import Secantus.Frame.CursorReply

namespace Secantus.Insert

open Secantus Secantus.Library Secantus.Wire

/-! ## The errors -/

/-- The error of one document, without the fields that no check sets. -/
structure WriteError where
  index : Int32
  code : Int32
  errmsg : String
  deriving DecidableEq

def idTypeError (index : ℕ) (typeName : String) : WriteError :=
  ⟨Int32.ofNat index, 53, "The '_id' value cannot be of type " ++ typeName⟩

def idDollarError (index : ℕ) (field : String) : WriteError :=
  ⟨Int32.ofNat index, 52, "_id fields may not contain '$'-prefixed fields: " ++ field ++ " is not valid for storage."⟩

def maxNestingDepth : ℕ := 180

def tooDeepError (index : ℕ) : WriteError :=
  ⟨Int32.ofNat index, 15,
    "cannot insert document because it exceeds " ++ toString maxNestingDepth ++ " levels of nesting"⟩

/-- `text`: an error's code and message. -/
def WriteError.text (e : WriteError) : Int32 × String := (e.code, e.errmsg)

/-! ## The checks of a decoded document -/

def isDollar (key : String) : Bool := key.toList.head? == some '$'

mutual

/-- `within` of `id_dollar_field`. -/
def dollarWithin : Bson → Option String
  | .document d => dollarFields (Document.containsKey d "$ref" && Document.containsKey d "$id") d
  | .array items => dollarItems items
  | _ => none

/-- The loop of `id_dollar_field` over a document, a DBRef or not. -/
def dollarFields (dbref : Bool) : Document → Option String
  | [] => none
  | (key, value) :: d =>
    let reference := dbref && (key == "$ref" || key == "$id" || key == "$db")
    if isDollar key && !reference then some key
    else
      match dollarWithin value with
      | some found => some found
      | none => dollarFields dbref d

def dollarItems : List Bson → Option String
  | [] => none
  | v :: items =>
    match dollarWithin v with
    | some found => some found
    | none => dollarItems items

end

def idDollarField (id : Document) : Option String :=
  dollarFields (Document.containsKey id "$ref" && Document.containsKey id "$id") id

mutual

def tooDeep (above : ℕ) : Bson → Bool
  | .document d => decide (maxNestingDepth < above + 1) || tooDeepValues (above + 1) d
  | .array a => decide (maxNestingDepth < above + 1) || tooDeepItems (above + 1) a
  | _ => false

/-- `too_deep` of any of a document's values. -/
def tooDeepValues (above : ℕ) : Document → Bool
  | [] => false
  | (_, v) :: d => tooDeep above v || tooDeepValues above d

def tooDeepItems (above : ℕ) : List Bson → Bool
  | [] => false
  | v :: a => tooDeep above v || tooDeepItems above a

end

/-- The `match` on the `_id`, of one that is there. -/
def idValueError : Bson → Option WriteError
  | .array _ => some (idTypeError 0 "array")
  | .regularExpression _ => some (idTypeError 0 "regex")
  | .document id => (idDollarField id).map (idDollarError 0)
  | _ => none

def idError (d : Document) : Option WriteError := (Document.get d "_id").bind idValueError

def insertDocumentError (d : Document) : Option (Int32 × String) :=
  match idError d with
  | some e => some e.text
  | none => if tooDeepValues 1 d then some (tooDeepError 0).text else none

/-! ## The checks of the bytes -/

/-- `RawBsonRef`, as far as the checks look at it: the bytes of a document or of an array. -/
inductive RawBsonRef where
  | document (bytes : Bytes)
  | array (bytes : Bytes)
  | regularExpression
  | other

/-- The raw documents of the `bson` crate. -/
structure RawCrate where
  /-- `RawDocument::from_bytes` takes the bytes. -/
  fromBytes : Bytes → Bool
  /-- `get`, none for an error too. -/
  get : Bytes → String → Option RawBsonRef
  /-- The values of `iter().flatten()`. -/
  values : Bytes → List RawBsonRef
  /-- `into_iter().flatten()` of an array. -/
  items : Bytes → List RawBsonRef
  /-- `Document::try_from`. -/
  decode : Bytes → Option Document

/-- A document nested to the limit was to hold at least this many bytes. -/
def deepDocumentBytes : ℕ := maxNestingDepth * 8

def rawTooDeep (C : RawCrate) (above : ℕ) : RawBsonRef → Bool
  | .document d =>
    if maxNestingDepth < above + 1 then true else (C.values d).any fun v => rawTooDeep C (above + 1) v
  | .array a =>
    if maxNestingDepth < above + 1 then true else (C.items a).any fun v => rawTooDeep C (above + 1) v
  | _ => false
termination_by maxNestingDepth - above

/-- The `match` on the `_id`, of one that is there. -/
def rawIdValueError (C : RawCrate) (index : ℕ) : RawBsonRef → Option WriteError
  | .document id => ((C.decode id).bind idDollarField).map (idDollarError index)
  | .array _ => some (idTypeError index "array")
  | .regularExpression => some (idTypeError index "regex")
  | .other => none

def rawIdError (C : RawCrate) (raw : Bytes) (index : ℕ) : Option WriteError :=
  (C.get raw "_id").bind (rawIdValueError C index)

def rawDocumentError (C : RawCrate) (raw : Bytes) (index : ℕ) : Option WriteError :=
  if C.fromBytes raw then
    match rawIdError C raw index with
    | some e => some e
    | none =>
      if deepDocumentBytes ≤ raw.length && rawTooDeep C 0 (.document raw) then some (tooDeepError index) else none
  else none

/-! ## The crate -/

/-- A value in its raw form. -/
def rawRef : Item → RawBsonRef
  | .document fields => .document (docBytes fields)
  | .array items => .array (framed (itemsBytes 0 items))
  | .regex _ _ => .regularExpression
  | _ => .other

mutual

/-- The crate iterates over the documents and arrays in a value, at any depth. -/
def RawCrate.Iterates (C : RawCrate) : Item → Prop
  | .document fields => C.values (docBytes fields) = fields.map (fun f => rawRef f.2) ∧ C.IteratesFields fields
  | .array items => C.items (framed (itemsBytes 0 items)) = items.map rawRef ∧ C.IteratesItems items
  | _ => True

def RawCrate.IteratesFields (C : RawCrate) : Fields → Prop
  | [] => True
  | (_, v) :: fields => C.Iterates v ∧ C.IteratesFields fields

def RawCrate.IteratesItems (C : RawCrate) : List Item → Prop
  | [] => True
  | v :: items => C.Iterates v ∧ C.IteratesItems items

end

/-- What the crate documents of the bytes of one well-formed document. -/
structure RawCrate.Documented (C : RawCrate) (fields : Fields) : Prop where
  fromBytes : C.fromBytes (docBytes fields) = true
  /-- `get` finds the field of that name. -/
  get : C.get (docBytes fields) "_id" = (fields.find? fun f => f.1 == utf8 "_id").map fun f => rawRef f.2
  iterates : C.Iterates (.document fields)
  /-- An `_id` document decodes. -/
  decode : ∀ id, (utf8 "_id", .document id) ∈ fields → C.decode (docBytes id) = some (carryFields id)

/-! ## Both forms of a value -/

theorem text_of_mem {fields : Fields} (h : fieldsText fields = true) {f : Bytes × Item} (hf : f ∈ fields) :
    f.2.allText = true := by
  induction fields with
  | nil => cases hf
  | cons g fields ih =>
    obtain ⟨name, v⟩ := g
    rw [fieldsText, Bool.and_eq_true, Bool.and_eq_true] at h
    rcases List.mem_cons.mp hf with rfl | hf
    · exact h.1.2
    · exact ih h.2 hf

theorem text_of_mem_items {items : List Item} (h : itemsText items = true) {v : Item} (hv : v ∈ items) :
    v.allText = true := by
  induction items with
  | nil => cases hv
  | cons w items ih =>
    rw [itemsText, Bool.and_eq_true] at h
    rcases List.mem_cons.mp hv with rfl | hv
    · exact h.1
    · exact ih h.2 hv

theorem RawCrate.IteratesFields.of_mem {C : RawCrate} {fields : Fields} (h : C.IteratesFields fields)
    {f : Bytes × Item} (hf : f ∈ fields) : C.Iterates f.2 := by
  induction fields with
  | nil => cases hf
  | cons g fields ih =>
    obtain ⟨name, v⟩ := g
    rw [RawCrate.IteratesFields] at h
    rcases List.mem_cons.mp hf with rfl | hf
    · exact h.1
    · exact ih h.2 hf

theorem RawCrate.IteratesItems.of_mem {C : RawCrate} {items : List Item} (h : C.IteratesItems items) {v : Item}
    (hv : v ∈ items) : C.Iterates v := by
  induction items with
  | nil => cases hv
  | cons w items ih =>
    rw [RawCrate.IteratesItems] at h
    rcases List.mem_cons.mp hv with rfl | hv
    · exact h.1
    · exact ih h.2 hv

/-- A value that is no document, array or regex. -/
def isPlain : Bson → Bool
  | .document _ | .array _ | .regularExpression _ => false
  | _ => true

/-- Text is held as text, so what is none of the three types in the bytes is none when decoded. -/
theorem isPlain_carry {v : Item} (htext : v.allText = true) (hother : rawRef v = .other) : isPlain v.carry = true := by
  have hread : ∀ {text : Bytes}, isText text = true → ∃ s, fromUtf8? text = some s := fun h =>
    Option.isSome_iff_exists.mp h
  cases v with
  | document | array | regex => cases hother
  | string text =>
    obtain ⟨s, hs⟩ := hread htext
    rw [Item.carry, stringFromBytes, hs]
    rfl
  | dbPointer text _ | javaScript text | symbol text =>
    obtain ⟨s, hs⟩ := hread htext
    rw [Item.carry, textOr, hs]
    rfl
  | javaScriptScope code scope =>
    rw [Item.allText, Bool.and_eq_true] at htext
    obtain ⟨s, hs⟩ := hread htext.1
    rw [Item.carry, if_pos htext.2, textOr, hs]
    rfl
  | _ =>
    rw [Item.carry]
    rfl

theorem carry_regex {pattern options : Bytes} (htext : (Item.regex pattern options).allText = true) :
    ∃ r, (Item.regex pattern options).carry = .regularExpression r := by
  rw [Item.allText, Bool.and_eq_true] at htext
  obtain ⟨p, hp⟩ := Option.isSome_iff_exists.mp htext.1
  obtain ⟨o, ho⟩ := Option.isSome_iff_exists.mp htext.2
  exact ⟨⟨p, o⟩, by rw [Item.carry, hp, ho]⟩

/-! ## The depth -/

theorem tooDeep_of_isPlain {v : Bson} (h : isPlain v = true) (above : ℕ) : tooDeep above v = false := by
  cases v with
  | document | array | regularExpression => cases h
  | _ => rfl

theorem tooDeepValues_carry (above : ℕ) (fields : Fields) :
    tooDeepValues above (carryFields fields) = fields.any fun f => tooDeep above f.2.carry := by
  induction fields with
  | nil => rfl
  | cons f fields ih =>
    obtain ⟨name, v⟩ := f
    rw [carryFields, tooDeepValues, ih, List.any_cons]

theorem tooDeepItems_carry (above : ℕ) (items : List Item) :
    tooDeepItems above (carryItems items) = items.any fun v => tooDeep above v.carry := by
  induction items with
  | nil => rfl
  | cons v items ih => rw [carryItems, tooDeepItems, ih, List.any_cons]

theorem any_eq_of_forall {α : Type} {l : List α} {p q : α → Bool} (h : ∀ x ∈ l, p x = q x) : l.any p = l.any q := by
  induction l with
  | nil => rfl
  | cons x l ih =>
    rw [List.any_cons, List.any_cons, h x List.mem_cons_self, ih fun y hy => h y (List.mem_cons_of_mem x hy)]

theorem rawTooDeep_rawRef {C : RawCrate} (v : Item) (htext : v.allText = true) (hC : C.Iterates v) (above : ℕ) :
    rawTooDeep C above (rawRef v) = tooDeep above v.carry := by
  have hplain : ∀ {v : Item}, v.allText = true → rawRef v = .other → ∀ above,
      rawTooDeep C above (rawRef v) = tooDeep above v.carry := by
    intro v htext hother above
    rw [hother, rawTooDeep, tooDeep_of_isPlain (isPlain_carry htext hother)]
    all_goals
      intro bytes heq
      cases heq
  have hguard : ∀ (above : ℕ) {x y : Bool}, x = y →
      (if maxNestingDepth < above + 1 then true else x) = (decide (maxNestingDepth < above + 1) || y) := by
    intro above x y hxy
    by_cases h : maxNestingDepth < above + 1
    · rw [if_pos h, decide_eq_true h, Bool.true_or]
    · rw [if_neg h, decide_eq_false h, Bool.false_or, hxy]
  revert htext hC above
  refine Item.induction (P := fun v => v.allText = true → C.Iterates v → ∀ above,
    rawTooDeep C above (rawRef v) = tooDeep above v.carry) ?_ ?_ ?_ ?_ ?_ v
  · intro text htext _
    exact hplain htext rfl
  · intro fields ih htext hC above
    rw [Item.allText] at htext
    rw [RawCrate.Iterates] at hC
    rw [rawRef, rawTooDeep, Item.carry, tooDeep, hC.1, tooDeepValues_carry, List.any_map]
    exact hguard above (any_eq_of_forall fun f hf => ih f hf (text_of_mem htext hf) (hC.2.of_mem hf) (above + 1))
  · intro items ih htext hC above
    rw [Item.allText] at htext
    rw [RawCrate.Iterates] at hC
    rw [rawRef, rawTooDeep, Item.carry, tooDeep, hC.1, tooDeepItems_carry, List.any_map]
    exact hguard above (any_eq_of_forall fun w hw => ih w hw (text_of_mem_items htext hw) (hC.2.of_mem hw) (above + 1))
  · intro code scope _ htext _
    exact hplain htext rfl
  · intro v hleaf htext _ above
    cases v with
    | string | document | array | javaScriptScope => cases hleaf
    | regex pattern options =>
      obtain ⟨r, hr⟩ := carry_regex htext
      rw [hr, rawRef, rawTooDeep, tooDeep]
      all_goals
        intro d heq
        cases heq
    | _ => exact hplain htext rfl above

/-! ## The `_id` -/

theorem get_carryFields {fields : Fields} (hname : ∀ f ∈ fields, 0 ∉ f.1) :
    Document.get (carryFields fields) "_id" = (fields.find? fun f => f.1 == utf8 "_id").map fun f => f.2.carry := by
  induction fields with
  | nil => rfl
  | cons f fields ih =>
    obtain ⟨name, v⟩ := f
    have hid : nameOf (utf8 "_id") = "_id" := by decide
    rw [carryFields, Document.get_cons, List.find?_cons]
    by_cases h : name = utf8 "_id"
    · subst h
      rw [if_pos hid, beq_self_eq_true]
      rfl
    · have hne : nameOf name ≠ "_id" := fun heq =>
        h (nameOf_injective (hname _ List.mem_cons_self) (by decide) (heq.trans hid.symm))
      rw [if_neg hne, beq_eq_false_iff_ne.mpr h, ih fun g hg => hname g (List.mem_cons_of_mem _ hg)]

theorem idValueError_of_isPlain {v : Bson} (h : isPlain v = true) : idValueError v = none := by
  cases v with
  | document | array | regularExpression => cases h
  | _ => rfl

theorem rawIdError_text {C : RawCrate} {fields : Fields} (h : WellFormed fields) (htext : fieldsText fields = true)
    (hC : C.Documented fields) (index : ℕ) :
    (rawIdError C (docBytes fields) index).map WriteError.text = (idError (carryFields fields)).map WriteError.text := by
  rw [rawIdError, idError, hC.get, get_carryFields fun f hf => (h.shaped.of_mem hf).1]
  cases hfind : fields.find? fun f => f.1 == utf8 "_id" with
  | none => rfl
  | some f =>
    obtain ⟨name, v⟩ := f
    have hmem := List.mem_of_find?_eq_some hfind
    have hname : name = utf8 "_id" := by simpa using List.find?_some hfind
    have hv := text_of_mem htext hmem
    have hplain : rawRef v = .other → (rawIdValueError C index (rawRef v)).map WriteError.text =
        (idValueError v.carry).map WriteError.text := by
      intro hother
      rw [hother, idValueError_of_isPlain (isPlain_carry hv hother), rawIdValueError]
    rw [Option.map_some, Option.map_some, Option.bind_some, Option.bind_some]
    cases v with
    | document id =>
      subst hname
      rw [rawRef, rawIdValueError, hC.decode id hmem, Option.bind_some, Item.carry, idValueError, Option.map_map,
        Option.map_map]
      rfl
    | array items =>
      rw [rawRef, Item.carry]
      rfl
    | regex pattern options =>
      obtain ⟨r, hr⟩ := carry_regex hv
      rw [hr, rawRef]
      rfl
    | _ => exact hplain rfl

/-! ## Both checks -/

/-- The two checks agree but where a document is nested past the limit in fewer bytes than the raw check walks, and
    nothing is wrong with its `_id`. -/
theorem preChecks_agree_iff {C : RawCrate} {fields : Fields} (h : WellFormed fields) (htext : fieldsText fields = true)
    (hC : C.Documented fields) (index : ℕ) :
    (rawDocumentError C (docBytes fields) index).map WriteError.text = insertDocumentError (carryFields fields) ↔
      ¬(tooDeepValues 1 (carryFields fields) = true ∧ (docBytes fields).length < deepDocumentBytes ∧
        idError (carryFields fields) = none) := by
  have hid := rawIdError_text h htext hC index
  have hdeep : rawTooDeep C 0 (.document (docBytes fields)) = tooDeepValues 1 (carryFields fields) := by
    have hwhole := rawTooDeep_rawRef (.document fields) htext hC.iterates 0
    rw [rawRef, Item.carry, tooDeep] at hwhole
    exact hwhole
  unfold rawDocumentError insertDocumentError
  rw [if_pos hC.fromBytes, hdeep]
  cases hraw : rawIdError C (docBytes fields) index with
  | some e =>
    cases hdec : idError (carryFields fields) with
    | none =>
      rw [hraw, hdec] at hid
      cases hid
    | some e' =>
      rw [hraw, hdec] at hid
      simp only [reduceCtorEq, and_false, not_false_eq_true, iff_true]
      exact hid
  | none =>
    cases hdec : idError (carryFields fields) with
    | some e' =>
      rw [hraw, hdec] at hid
      cases hid
    | none =>
      cases tooDeepValues 1 (carryFields fields) with
      | false => simp
      | true =>
        by_cases hlen : deepDocumentBytes ≤ (docBytes fields).length
        · rw [decide_eq_true hlen]
          exact iff_of_true rfl fun hshort => by omega
        · rw [decide_eq_false hlen]
          exact iff_of_false (fun hnone => by cases hnone) fun hnot => hnot ⟨rfl, by omega, rfl⟩

/-! ## The most compact nesting -/

/-- `n` documents one in another, each under the empty name, in a document. -/
def nested : ℕ → Fields
  | 0 => []
  | n + 1 => [([], .document (nested n))]

/-- A level takes seven bytes: its length, its end, and the type and the end of the name it stands under. -/
theorem length_nested (n : ℕ) : (docBytes (nested n)).length = 7 * n + 5 := by
  induction n with
  | zero => rfl
  | succ n ih =>
    rw [docBytes, length_framed] at ih ⊢
    rw [nested, fieldsBytes, Item.payload, fieldsBytes]
    simp only [List.length_cons, List.length_append, List.length_nil, length_framed]
    omega

theorem nested_shaped (n : ℕ) : ((nested n).map Prod.fst).Nodup ∧ FieldsShaped (nested n) := by
  induction n with
  | zero => exact ⟨List.nodup_nil, trivial⟩
  | succ n ih => exact ⟨List.nodup_singleton _, List.not_mem_nil, ih, trivial⟩

theorem nested_text (n : ℕ) : fieldsText (nested n) = true := by
  induction n with
  | zero => rfl
  | succ n ih =>
    have hnil : isText [] = true := by decide
    rw [nested, fieldsText, Item.allText, ih, hnil]
    rfl

theorem nested_wellFormed {n : ℕ} (hn : n < 2 ^ 20) : WellFormed (nested n) where
  nodup := (nested_shaped n).1
  shaped := (nested_shaped n).2
  size := by
    rw [length_nested]
    omega

theorem nested_delimited (n : ℕ) : Frame.Delimited (nested n) := by
  intro f hf
  cases n with
  | zero => cases hf
  | succ n =>
    obtain rfl := List.mem_singleton.mp hf
    exact ⟨List.not_mem_nil, trivial⟩

theorem nested_tooDeep {n above : ℕ} (hn : 0 < n) (h : maxNestingDepth < above + n) :
    tooDeepValues above (carryFields (nested n)) = true := by
  induction n generalizing above with
  | zero => cases hn
  | succ n ih =>
    rw [nested, carryFields, tooDeepValues, Item.carry, tooDeep]
    cases n with
    | zero => rw [decide_eq_true h, Bool.true_or, Bool.true_or]
    | succ n => rw [ih (Nat.succ_pos n) (by omega), Bool.or_true, Bool.true_or]

/-- An element in its raw form. -/
def refOf (e : Frame.RawElement) : RawBsonRef :=
  if e.tag = 0x03 then .document e.value
  else if e.tag = 0x04 then .array e.value
  else if e.tag = 0x0B then .regularExpression
  else .other

def elementsOf (bytes : Bytes) : Option (List Frame.RawElement) :=
  match Frame.rawElements bytes with
  | .ok elements => elements
  | .error _ => none

/-- Raw documents that are read by the walk over a reply's elements; only the empty one is decoded. -/
def walkCrate : RawCrate where
  fromBytes bytes := (elementsOf bytes).isSome
  get bytes key := (((elementsOf bytes).getD []).find? fun e => e.key == utf8 key).map refOf
  values bytes := ((elementsOf bytes).getD []).map refOf
  items bytes := ((elementsOf bytes).getD []).map refOf
  decode bytes := if bytes = docBytes [] then some [] else none

theorem elementsOf_nested {n : ℕ} (hn : n < 2 ^ 20) :
    elementsOf (docBytes (nested n)) = some ((nested n).map Frame.RawElement.of) := by
  rw [elementsOf, Frame.rawElements_docBytes (nested_delimited n) (nested_wellFormed hn).size]

theorem walkCrate_iterates {n : ℕ} (hn : n < 2 ^ 20) : walkCrate.Iterates (.document (nested n)) := by
  induction n with
  | zero =>
    refine ⟨?_, trivial⟩
    show ((elementsOf (docBytes (nested 0))).getD []).map refOf = _
    rw [elementsOf_nested hn]
    rfl
  | succ n ih =>
    refine ⟨?_, ih (by omega), trivial⟩
    show ((elementsOf (docBytes (nested (n + 1)))).getD []).map refOf = _
    rw [elementsOf_nested hn]
    rfl

theorem walkCrate_documented {n : ℕ} (hn : n < 2 ^ 20) : walkCrate.Documented (nested n) where
  fromBytes := by
    show (elementsOf (docBytes (nested n))).isSome = true
    rw [elementsOf_nested hn]
    rfl
  get := by
    show (((elementsOf (docBytes (nested n))).getD []).find? _).map refOf = _
    rw [elementsOf_nested hn]
    cases n with
    | zero => rfl
    | succ n => rfl
  iterates := walkCrate_iterates hn
  decode := by
    intro id hid
    cases n with
    | zero => cases hid
    | succ n =>
      have hne : utf8 "_id" ≠ [] := by decide
      exact absurd (congrArg Prod.fst (List.mem_singleton.mp hid)) hne

theorem preChecks_agree_iff_nested :
    (rawDocumentError walkCrate (docBytes (nested 1)) 0).map WriteError.text = insertDocumentError (carryFields (nested 1)) ↔
      ¬(tooDeepValues 1 (carryFields (nested 1)) = true ∧ (docBytes (nested 1)).length < deepDocumentBytes ∧
        idError (carryFields (nested 1)) = none) :=
  preChecks_agree_iff (nested_wellFormed (by decide)) (nested_text 1) (walkCrate_documented (by decide)) 0

/-- Documents 181 deep under empty names take 1265 bytes: their depth is an error of the decoded document only. -/
theorem preChecks_miss_nested :
    WellFormed (nested 180) ∧ fieldsText (nested 180) = true ∧ walkCrate.Documented (nested 180) ∧
      (docBytes (nested 180)).length = 1265 ∧ rawDocumentError walkCrate (docBytes (nested 180)) 0 = none ∧
      insertDocumentError (carryFields (nested 180)) =
        some (15, "cannot insert document because it exceeds 180 levels of nesting") := by
  have hC : walkCrate.Documented (nested 180) := walkCrate_documented (by decide)
  have hlen : (docBytes (nested 180)).length = 1265 := length_nested 180
  have hid : idError (carryFields (nested 180)) = none := by
    rw [nested, carryFields, idError, nameOf_nil, Document.get_cons, if_neg (by decide)]
    rfl
  refine ⟨nested_wellFormed (by decide), nested_text 180, hC, hlen, ?_, ?_⟩
  · rw [rawDocumentError, if_pos hC.fromBytes, rawIdError, hC.get, hlen]
    rfl
  · rw [insertDocumentError, hid, nested_tooDeep (by decide) (by decide)]
    rfl

end Secantus.Insert
