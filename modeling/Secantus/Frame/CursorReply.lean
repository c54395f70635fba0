/-
  A cursor's batch spliced into an encoded reply (`encode_cursor_reply` of secantus-wire/src/lib.rs), and the
  walk over the elements of a document under it.

  Of the bytes of a document the walk gives the document's elements in order, and they are all that stands between
  its length and its end (`rawElements_docBytes`); on any other bytes it ends too, with every index in range
  (`rawElements_returns`). Each length of the reply is written over four zeros once what it counts is there
  (`patchLen_eq`).
-/
import Secantus.Frame.Sections

namespace Secantus.Frame

open Secantus Secantus.Library Secantus.Wire

/-! ## The elements of a document -/

/-- One element of an encoded document: its type, key and value bytes. -/
structure RawElement where
  tag : UInt8
  key : Bytes
  value : Bytes

def rdI32Checked (b : Bytes) (at_ : ℕ) : Option Int32 :=
  if at_ + 4 ≤ b.length then some (number (window b at_ 4)) else none

/-- `len_at` of `value_size`. -/
def lenAt (rest : Bytes) (at_ : ℕ) (min : ℤ) : Option ℕ :=
  match rdI32Checked rest at_ with
  | some n => if min ≤ n.toInt then some (asUsize n) else none
  | none => none

/-- The size that the type `t` and the start of `rest` give a value (the `match` of `value_size`). -/
def sizeOf (t : UInt8) (rest : Bytes) : Checked (Option ℕ) :=
  if t = 0x01 ∨ t = 0x09 ∨ t = 0x11 ∨ t = 0x12 then return some 8
  else if t = 0x02 ∨ t = 0x0D ∨ t = 0x0E then return (lenAt rest 0 1).map (4 + ·)
  else if t = 0x03 ∨ t = 0x04 ∨ t = 0x0F then return lenAt rest 0 5
  else if t = 0x05 then return (lenAt rest 0 0).map (5 + ·)
  else if t = 0x06 ∨ t = 0x0A ∨ t = 0x7F ∨ t = 0xFF then return some 0
  else if t = 0x07 then return some 12
  else if t = 0x08 then return some 1
  else if t = 0x0B then
    match rest.idxOf? 0 with
    | none => return none
    | some p => do
      let options ← slice rest (p + 1) rest.length
      return (options.idxOf? 0).map (p + 1 + · + 1)
  else if t = 0x0C then return (lenAt rest 0 1).map (4 + · + 12)
  else if t = 0x10 then return some 4
  else if t = 0x13 then return some 16
  else return none

/-- The size of a BSON value of type `t` at the start of `rest`. -/
def valueSize (t : UInt8) (rest : Bytes) : Checked (Option ℕ) := do
  let size ← sizeOf t rest
  return size.filter (· ≤ rest.length)

/-- The loop of `raw_elements` from the element at `i`. -/
def elementsFrom (doc : Bytes) (stop i : ℕ) (out : List RawElement) : Checked (Option (List RawElement)) :=
  if i < stop then do
    let t ← index doc i
    let rest ← slice doc (i + 1) stop
    match rest.idxOf? 0 with
    | none => return none
    | some n =>
      let kEnd := i + 1 + n
      let key ← slice doc (i + 1) kEnd
      let rest ← slice doc (kEnd + 1) stop
      match ← valueSize t rest with
      | none => return none
      | some size =>
        if kEnd + 1 + size ≤ doc.length then
          elementsFrom doc stop (kEnd + 1 + size) (out ++ [⟨t, key, window doc (kEnd + 1) size⟩])
        else return none
  else return if i = stop then some out else none
termination_by stop - i

/-- The top-level elements of one encoded document, or `none` when it is malformed. -/
def rawElements (doc : Bytes) : Checked (Option (List RawElement)) :=
  match rdI32Checked doc 0 with
  | none => return none
  | some n =>
    if n.toInt < 0 ∨ asUsize n < 5 ∨ doc.length < asUsize n then return none
    else do
      let last ← index doc (asUsize n - 1)
      if last ≠ 0 then return none
      else elementsFrom doc (asUsize n - 1) 4 []

/-! ## The reply -/

def internal {α : Type} (m : String) : Checked α := protocol ("encode_cursor_reply: " ++ m)

/-- The length of what stands from `start` on, written there. -/
def patchLen (out : Bytes) (start : ℕ) : Checked Bytes :=
  if start + 4 ≤ out.length then
    .ok (out.take start ++ (i32Bytes (Int32.ofNat (out.length - start)) ++ out.drop (start + 4)))
  else .error .outOfRange

/-- The length a document of the batch declares. -/
def batchLen (blob : Bytes) : Option ℕ :=
  match rdI32Checked blob 0 with
  | some n => if 0 ≤ n.toInt ∧ 5 ≤ asUsize n ∧ asUsize n ≤ blob.length then some (asUsize n) else none
  | none => none

/-- The loop over the batch, from index `i`. -/
def pushBatch (out : Bytes) (i : ℕ) : List Bytes → Checked Bytes
  | [] => return out
  | blob :: batch =>
    match batchLen blob with
    | none => internal "malformed batch document"
    | some len => do
      let doc ← slice blob 0 len
      pushBatch (out ++ (0x03 :: (utf8 (toString i) ++ (0 :: doc)))) (i + 1) batch

/-- The cursor document: the batch first, then its own elements without its length and NUL. -/
def pushCursor (batchField : String) (batch : List Bytes) (out value : Bytes) : Checked Bytes := do
  let cursorStart := out.length
  let out := out ++ ([0, 0, 0, 0] ++ (0x04 :: (utf8 batchField ++ [0])))
  let arrayStart := out.length
  let out ← pushBatch (out ++ [0, 0, 0, 0]) 0 batch
  let out ← patchLen (out ++ [0]) arrayStart
  let own ← slice value 4 (value.length - 1)
  patchLen (out ++ (own ++ [0])) cursorStart

/-- The loop over the envelope's elements, with `have_cursor`. -/
def pushElements (batchField : String) (batch : List Bytes) (out : Bytes) (haveCursor : Bool) :
    List RawElement → Checked (Bytes × Bool)
  | [] => return (out, haveCursor)
  | e :: elements =>
    let out := out ++ (e.tag :: (e.key ++ [0]))
    if e.key ≠ utf8 "cursor" then pushElements batchField batch (out ++ e.value) haveCursor elements
    else if e.tag ≠ 0x03 then internal "reply `cursor` field is not a document"
    else do
      let out ← pushCursor batchField batch out e.value
      pushElements batchField batch out true elements

def encodeCursorReply (envelope : Bytes) (batchField : String) (batch : List Bytes) : Checked Bytes := do
  match ← rawElements envelope with
  | none => internal "malformed envelope"
  | some elements =>
    let (out, haveCursor) ← pushElements batchField batch [0, 0, 0, 0] false elements
    if !haveCursor then internal "reply has no `cursor` field"
    else patchLen (out ++ [0]) 0

/-! ## The size of a value -/

theorem slice_range {buf : Bytes} {i j : ℕ} (hij : i ≤ j) (hj : j ≤ buf.length) :
    slice buf i j = .ok (window buf i (j - i)) := by
  rw [slice, if_pos ⟨hij, hj⟩, window]

theorem slice_at {buf a b c : Bytes} {i j : ℕ} (h : buf = a ++ (b ++ c)) (hi : i = a.length)
    (hj : j = a.length + b.length) : slice buf i j = .ok b := by
  subst h hi hj
  rw [slice_eq (by simp), window_append]

theorem i32Le_eq {bs : Bytes} (h : bs.length = 4) : i32Le bs = (number bs).toInt := by
  have hlt := ofLeBytes_lt bs
  rw [h] at hlt
  have hval : (UInt32.ofNat (ofLeBytes bs)).toNat = ofLeBytes bs := by
    rw [UInt32.toNat_ofNat']
    exact Nat.mod_eq_of_lt hlt
  unfold i32Le number
  rw [toInt_toInt32, hval]

theorem lenAt_zero (rest : Bytes) {min : ℤ} (hmin : 0 ≤ min) : lenAt rest 0 min = (rdLen rest min).toOption := by
  unfold lenAt rdI32Checked rdLen
  rw [Nat.zero_add]
  by_cases h : 4 ≤ rest.length
  · have hlen : (window rest 0 4).length = 4 := length_window (by omega)
    have hi := i32Le_eq hlen
    rw [if_pos h, if_neg (by omega)]
    show (if min ≤ (number (window rest 0 4)).toInt then some (asUsize (number (window rest 0 4))) else none) =
      (if i32Le (window rest 0 4) < min then _ else .ok (i32Le (window rest 0 4)).toNat : Except Error ℕ).toOption
    rw [hi]
    by_cases hle : min ≤ (number (window rest 0 4)).toInt
    · have husize := @asUsize_of_nonneg (number (window rest 0 4)) (by omega)
      have hnat : asUsize (number (window rest 0 4)) = (number (window rest 0 4)).toInt.toNat := by omega
      rw [if_pos hle, if_neg (by omega), hnat]
      rfl
    · rw [if_neg hle, if_pos (by omega)]
      rfl
  · rw [if_neg h, if_pos (by omega)]
    rfl

theorem ite_both {P : Prop} [Decidable P] {x y : Checked (Option ℕ)} {u v : Except Error ℕ}
    (hx : P → x = .ok u.toOption) (hy : ¬P → y = .ok v.toOption) :
    (if P then x else y) = .ok (if P then u else v).toOption := by
  by_cases h : P
  · rw [if_pos h, if_pos h]
    exact hx h
  · rw [if_neg h, if_neg h]
    exact hy h

theorem toOption_map {α β : Type} (f : α → β) (x : Except Error α) : (x.map f).toOption = x.toOption.map f := by
  cases x <;> rfl

theorem sizeOf_eq (t : UInt8) (rest : Bytes) : sizeOf t rest = .ok (Wire.valueSize t rest).toOption := by
  have h0 : lenAt rest 0 0 = _ := lenAt_zero rest (by decide)
  have h1 : lenAt rest 0 1 = _ := lenAt_zero rest (by decide)
  have h5 : lenAt rest 0 5 = _ := lenAt_zero rest (by decide)
  unfold sizeOf Wire.valueSize
  refine ite_both (fun _ => rfl) fun _ => ite_both (fun _ => ?_) fun _ => ite_both (fun _ => ?_) fun _ =>
    ite_both (fun _ => ?_) fun _ => ite_both (fun _ => rfl) fun _ => ite_both (fun _ => rfl) fun _ =>
    ite_both (fun _ => rfl) fun _ => ite_both (fun _ => ?_) fun _ => ite_both (fun _ => ?_) fun _ =>
    ite_both (fun _ => rfl) fun _ => ite_both (fun _ => rfl) fun _ => rfl
  · rw [h1, toOption_map]
    rfl
  · rw [h5]
    rfl
  · rw [h0, toOption_map]
    rfl
  · cases hp : rest.idxOf? 0 with
    | none => rfl
    | some p =>
      obtain ⟨name, after, rfl, -, rfl⟩ := idxOf?_zero_iff.mp hp
      have hdrop : (name ++ 0 :: after).drop (name.length + 1) = after := by
        rw [← List.drop_drop, List.drop_left]
        rfl
      have hslice : slice (name ++ 0 :: after) (name.length + 1) (name ++ 0 :: after).length = .ok after :=
        slice_at (a := name ++ [0]) (c := []) (by simp) (by simp) (by simp; omega)
      simp only
      rw [hslice, hdrop, ok_bind]
      cases after.idxOf? 0 <;> rfl
  · rw [h1, toOption_map]
    rfl

theorem valueSize_eq (t : UInt8) (rest : Bytes) :
    valueSize t rest = .ok ((Wire.valueSize t rest).toOption.filter (· ≤ rest.length)) := by
  rw [valueSize, sizeOf_eq]
  rfl

theorem valueSize_item {v : Item} (hv : v.Delimited) (hlen : v.payload.length < 2 ^ 31) (rest : Bytes) :
    valueSize v.tag (v.payload ++ rest) = .ok (some v.payload.length) := by
  rw [valueSize_eq, valueSize_payload v hv hlen]
  simp [Except.toOption]

/-! ## The walk -/

/-- No name in the document's elements, and no other text of theirs that ends at a NUL, holds one. -/
def Delimited (fields : Fields) : Prop := ∀ f ∈ fields, 0 ∉ f.1 ∧ f.2.Delimited

/-- A field as an element. -/
def RawElement.of (f : Bytes × Item) : RawElement := ⟨f.2.tag, f.1, f.2.payload⟩

def RawElement.bytes (e : RawElement) : Bytes := e.tag :: (e.key ++ (0 :: e.value))

theorem fieldsBytes_eq_flatMap (fields : Fields) :
    fieldsBytes fields = (fields.map RawElement.of).flatMap RawElement.bytes := by
  induction fields with
  | nil => rfl
  | cons f fields ih =>
    obtain ⟨name, v⟩ := f
    rw [fieldsBytes, ih, List.map_cons, List.flatMap_cons]
    simp [RawElement.of, RawElement.bytes]

/-- From the start of some of a document's elements the walk gives these. -/
theorem elementsFrom_fields {doc : Bytes} {stop : ℕ} (hstop : stop < 2 ^ 31) (fields : Fields)
    (hd : Delimited fields) (before after : Bytes) (out : List RawElement)
    (hdoc : doc = before ++ (fieldsBytes fields ++ after)) (hend : stop = before.length + (fieldsBytes fields).length) :
    elementsFrom doc stop before.length out = .ok (some (out ++ fields.map RawElement.of)) := by
  induction fields generalizing before out with
  | nil =>
    rw [elementsFrom, if_neg (by simp [hend, fieldsBytes]), if_pos (by simp [hend, fieldsBytes])]
    simp
    rfl
  | cons f fields ih =>
    obtain ⟨name, v⟩ := f
    obtain ⟨hname, hv⟩ := hd _ List.mem_cons_self
    have hbytes : fieldsBytes ((name, v) :: fields) = v.tag :: (name ++ (0 :: (v.payload ++ fieldsBytes fields))) := by
      rw [fieldsBytes]
    rw [hbytes] at hdoc hend
    simp only [List.length_cons, List.length_append] at hend
    have hlen : v.payload.length < 2 ^ 31 := by omega
    have hindex : index doc before.length = .ok v.tag := by
      rw [index, hdoc]
      simp
    have hrest : slice doc (before.length + 1) stop = .ok (name ++ (0 :: (v.payload ++ fieldsBytes fields))) :=
      slice_at (a := before ++ [v.tag]) (c := after) (by simp [hdoc]) (by simp) (by simp [hend]; omega)
    have hkey : slice doc (before.length + 1) (before.length + 1 + name.length) = .ok name :=
      slice_at (a := before ++ [v.tag]) (c := 0 :: (v.payload ++ fieldsBytes fields) ++ after) (by simp [hdoc])
        (by simp) (by simp)
    have hvalue : slice doc (before.length + 1 + name.length + 1) stop = .ok (v.payload ++ fieldsBytes fields) :=
      slice_at (a := before ++ (v.tag :: (name ++ [0]))) (c := after) (by simp [hdoc]) (by simp; omega)
        (by simp [hend]; omega)
    have hwindow : window doc (before.length + 1 + name.length + 1) v.payload.length = v.payload := by
      have hlen : before.length + 1 + name.length + 1 = (before ++ (v.tag :: (name ++ [0]))).length := by
        simp
        omega
      have hsplit : doc = (before ++ (v.tag :: (name ++ [0]))) ++ (v.payload ++ (fieldsBytes fields ++ after)) := by
        simp [hdoc]
      rw [hlen, hsplit, window_append]
    have hnext : before.length + 1 + name.length + 1 + v.payload.length =
        (before ++ (v.tag :: (name ++ (0 :: v.payload)))).length := by
      simp
      omega
    rw [elementsFrom, if_pos (by omega), hindex, ok_bind, hrest, ok_bind, idxOf?_zero hname]
    simp only
    rw [hkey, ok_bind, hvalue, ok_bind, valueSize_item hv hlen, ok_bind]
    simp only
    rw [if_pos (by simp [hdoc]; omega), hwindow, hnext,
      ih (fun g hg => hd g (List.mem_cons_of_mem _ hg)) _ _ (by simp [hdoc]) (by simp [hend]; omega)]
    simp [RawElement.of]

theorem rawElements_docBytes {fields : Fields} (hd : Delimited fields) (hlen : (docBytes fields).length < 2 ^ 31) :
    rawElements (docBytes fields) = .ok (some (fields.map RawElement.of)) := by
  have hsize : (docBytes fields).length = (fieldsBytes fields).length + 5 := length_framed _
  have hsplit : docBytes fields = le32 ((fieldsBytes fields).length + 5) ++ (fieldsBytes fields ++ [0]) := rfl
  have hread : rdI32Checked (docBytes fields) 0 = some (number (le32 ((fieldsBytes fields).length + 5))) := by
    have hwindow := window_append [] (le32 ((fieldsBytes fields).length + 5)) (fieldsBytes fields ++ [0])
    rw [length_le32] at hwindow
    rw [rdI32Checked, if_pos (by omega), hsplit]
    exact congrArg (fun bs => some (number bs)) hwindow
  have hnum := number_le32 (n := (fieldsBytes fields).length + 5) (by omega)
  have husize := asUsize_number (n := (fieldsBytes fields).length + 5) (by omega)
  have hlast : index (docBytes fields) ((fieldsBytes fields).length + 5 - 1) = .ok 0 := by
    have hplace : (fieldsBytes fields).length + 5 - 1 =
        (le32 ((fieldsBytes fields).length + 5) ++ fieldsBytes fields).length := by
      simp
      omega
    rw [index, hplace, hsplit, ← List.append_assoc, List.getElem?_append_right le_rfl, Nat.sub_self]
    rfl
  have hwalk : elementsFrom (docBytes fields) ((fieldsBytes fields).length + 5 - 1) _ [] = _ :=
    elementsFrom_fields (by omega) fields hd (le32 ((fieldsBytes fields).length + 5)) [0] [] hsplit (by simp; omega)
  rw [length_le32, List.nil_append] at hwalk
  unfold rawElements
  rw [hread]
  simp only
  rw [husize, if_neg (by omega), hlast, ok_bind, if_neg (by simp), hwalk]

theorem elementsFrom_returns {doc : Bytes} {stop : ℕ} (hstop : stop ≤ doc.length) (n i : ℕ) (hn : stop - i ≤ n)
    (out : List RawElement) : Returns (elementsFrom doc stop i out) := by
  induction n generalizing i out with
  | zero =>
    rw [elementsFrom, if_neg (by omega)]
    exact returns_pure _
  | succ n ih =>
    rw [elementsFrom]
    refine returns_ite (fun hi => ?_) fun _ => returns_pure _
    rw [index_eq (by omega), ok_bind, slice_range (by omega) hstop, ok_bind]
    cases hkey : (window doc (i + 1) (stop - (i + 1))).idxOf? 0 with
    | none => exact returns_pure _
    | some k =>
      obtain ⟨name, after, hsplit, -, rfl⟩ := idxOf?_zero_iff.mp hkey
      have hlength := congrArg List.length hsplit
      rw [length_window (by omega), List.length_append, List.length_cons] at hlength
      simp only
      rw [slice_eq (by omega), ok_bind, slice_range (by omega) hstop, ok_bind, valueSize_eq, ok_bind]
      cases (Wire.valueSize doc[i] _).toOption.filter _ with
      | none => exact returns_pure _
      | some size => exact returns_ite (fun _ => ih _ (by omega) _) fun _ => returns_pure _

theorem rawElements_returns (doc : Bytes) : Returns (rawElements doc) := by
  unfold rawElements
  cases rdI32Checked doc 0 with
  | none => exact returns_pure _
  | some n =>
    refine returns_ite (fun _ => returns_pure _) fun hn => ?_
    rw [index_eq (by omega), ok_bind]
    exact returns_ite (fun _ => returns_pure _) fun _ => elementsFrom_returns (by omega) _ _ le_rfl _

/-! ## The lengths of the reply -/

theorem i32Bytes_ofNat {n : ℕ} (h : n < 2 ^ 31) : i32Bytes (Int32.ofNat n) = le32 n := by
  have hn : (Int32.ofNat n).toUInt32.toNat = n := by
    show n % 2 ^ 32 = n
    exact Nat.mod_eq_of_lt (by omega)
  rw [i32Bytes, u32Bytes, hn]

theorem patchLen_eq (out before body : Bytes) (hout : out = before ++ ([0, 0, 0, 0] ++ (body ++ [0])))
    (hlen : (framed body).length < 2 ^ 31) : patchLen out before.length = .ok (before ++ framed body) := by
  rw [length_framed] at hlen
  have hlength : out.length = before.length + (body.length + 5) := by
    rw [hout]
    simp only [List.length_append, List.length_cons, List.length_nil]
    omega
  have hsub : before.length + (body.length + 5) - before.length = body.length + 5 := by omega
  have hdrop : out.drop (before.length + 4) = body ++ [0] := by
    rw [hout, ← List.drop_drop, List.drop_left]
    rfl
  have htake : out.take before.length = before := by
    rw [hout, List.take_left]
  rw [patchLen, if_pos (by omega), hlength, hsub, i32Bytes_ofNat hlen, htake, hdrop, framed]

/-! ## The splice -/

theorem fieldsBytes_append (a b : Fields) : fieldsBytes (a ++ b) = fieldsBytes a ++ fieldsBytes b := by
  rw [fieldsBytes_eq_flatMap, fieldsBytes_eq_flatMap, fieldsBytes_eq_flatMap, List.map_append, List.flatMap_append]

theorem batchLen_docBytes {fields : Fields} (hlen : (docBytes fields).length < 2 ^ 31) :
    batchLen (docBytes fields) = some (docBytes fields).length := by
  have hsize : (docBytes fields).length = (fieldsBytes fields).length + 5 := length_framed _
  have hwindow : window (docBytes fields) 0 4 = le32 (docBytes fields).length := by
    rw [hsize]
    exact List.take_left' (length_le32 _)
  have hnum := number_le32 hlen
  rw [batchLen, rdI32Checked, if_pos (by omega), hwindow]
  simp only
  rw [asUsize_number hlen, if_pos ⟨by omega, by omega, le_rfl⟩]

theorem pushBatch_docBytes (batch : List Fields) (hlen : ∀ d ∈ batch, (docBytes d).length < 2 ^ 31) (out : Bytes)
    (i : ℕ) : pushBatch out i (batch.map docBytes) = .ok (out ++ itemsBytes i (batch.map Item.document)) := by
  induction batch generalizing out i with
  | nil =>
    simp [pushBatch, itemsBytes]
    rfl
  | cons d batch ih =>
    have hblob : slice (docBytes d) 0 (docBytes d).length = .ok (docBytes d) :=
      slice_at (a := []) (c := []) (by simp) rfl (by simp)
    rw [List.map_cons, pushBatch, batchLen_docBytes (hlen d List.mem_cons_self)]
    simp only
    rw [hblob, ok_bind, ih fun e he => hlen e (List.mem_cons_of_mem d he)]
    simp [itemsBytes, Item.tag, Item.payload, docBytes]

/-- The batch as the first field of the cursor document. -/
def withBatch (batchField : String) (batch : List Fields) (cursor : Fields) : Fields :=
  (utf8 batchField, .array (batch.map Item.document)) :: cursor

theorem fieldsBytes_withBatch (batchField : String) (batch : List Fields) (cursor : Fields) :
    fieldsBytes (withBatch batchField batch cursor) =
      0x04 :: (utf8 batchField ++ (0 :: (framed (itemsBytes 0 (batch.map Item.document)) ++ fieldsBytes cursor))) := by
  rw [withBatch, fieldsBytes, Item.payload]
  rfl

theorem pushCursor_docBytes (batchField : String) {batch : List Fields} {cursor : Fields} (out : Bytes)
    (hbatch : ∀ d ∈ batch, (docBytes d).length < 2 ^ 31)
    (hlen : (docBytes (withBatch batchField batch cursor)).length < 2 ^ 31) :
    pushCursor batchField (batch.map docBytes) out (docBytes cursor) =
      .ok (out ++ docBytes (withBatch batchField batch cursor)) := by
  have hfields := fieldsBytes_withBatch batchField batch cursor
  generalize hitems : itemsBytes 0 (batch.map Item.document) = items at hfields
  have hsize : (docBytes (withBatch batchField batch cursor)).length =
      (fieldsBytes (withBatch batchField batch cursor)).length + 5 := length_framed _
  have hbound : (framed items).length < 2 ^ 31 := by
    rw [hfields] at hsize
    simp only [List.length_cons, List.length_append] at hsize
    omega
  have hown : slice (docBytes cursor) 4 ((docBytes cursor).length - 1) = .ok (fieldsBytes cursor) :=
    slice_at (a := le32 ((fieldsBytes cursor).length + 5)) (c := [0]) rfl (by simp)
      (by rw [docBytes, length_framed, length_le32]; omega)
  have harray := patchLen_eq (out ++ ([0, 0, 0, 0] ++ (0x04 :: (utf8 batchField ++ [0]))) ++ [0, 0, 0, 0] ++ items ++ [0])
    (out ++ ([0, 0, 0, 0] ++ (0x04 :: (utf8 batchField ++ [0])))) items (by simp) hbound
  have hcursor := patchLen_eq (out ++ ([0, 0, 0, 0] ++ (0x04 :: (utf8 batchField ++ [0]))) ++ framed items ++
    (fieldsBytes cursor ++ [0])) out (fieldsBytes (withBatch batchField batch cursor)) (by rw [hfields]; simp) hlen
  unfold pushCursor
  simp only
  rw [pushBatch_docBytes batch hbatch, hitems, ok_bind, harray, ok_bind, hown, ok_bind]
  exact hcursor

theorem pushElements_other (batchField : String) (batch : List Bytes) {e : RawElement} (h : e.key ≠ utf8 "cursor")
    (out : Bytes) (haveCursor : Bool) (rest : List RawElement) :
    pushElements batchField batch out haveCursor (e :: rest) =
      pushElements batchField batch (out ++ e.bytes) haveCursor rest := by
  rw [pushElements, if_pos h, RawElement.bytes]
  simp

theorem pushElements_cursor (batchField : String) (batch : List Bytes) (value out : Bytes) (haveCursor : Bool)
    (rest : List RawElement) :
    pushElements batchField batch out haveCursor (⟨0x03, utf8 "cursor", value⟩ :: rest) =
      pushCursor batchField batch (out ++ (0x03 :: (utf8 "cursor" ++ [0]))) value >>= fun out =>
        pushElements batchField batch out true rest := by
  rw [pushElements]
  rw [if_neg (not_not.mpr rfl), if_neg (not_not.mpr rfl)]

/-- Elements with other names are copied. -/
theorem pushElements_copy (batchField : String) (batch : List Bytes) {fields : Fields}
    (hne : ∀ f ∈ fields, f.1 ≠ utf8 "cursor") (out : Bytes) (haveCursor : Bool) (rest : List RawElement) :
    pushElements batchField batch out haveCursor (fields.map RawElement.of ++ rest) =
      pushElements batchField batch (out ++ fieldsBytes fields) haveCursor rest := by
  induction fields generalizing out with
  | nil => simp [fieldsBytes]
  | cons f fields ih =>
    have hf : (RawElement.of f).key ≠ utf8 "cursor" := hne f List.mem_cons_self
    rw [List.map_cons, List.cons_append, pushElements_other _ _ hf, ih fun g hg => hne g (List.mem_cons_of_mem _ hg),
      fieldsBytes_eq_flatMap (f :: fields), List.map_cons, List.flatMap_cons, ← fieldsBytes_eq_flatMap,
      List.append_assoc]

/-- The reply is the envelope's encoding with the batch as the first field of `cursor`. -/
theorem encodeCursorReply_spliced (batchField : String) {before cursor after : Fields} {batch : List Fields}
    (hd : Delimited (before ++ (utf8 "cursor", .document cursor) :: after))
    (hbefore : ∀ f ∈ before, f.1 ≠ utf8 "cursor") (hafter : ∀ f ∈ after, f.1 ≠ utf8 "cursor")
    (hlen : (docBytes (before ++ (utf8 "cursor", .document (withBatch batchField batch cursor)) :: after)).length <
      2 ^ 31) :
    encodeCursorReply (docBytes (before ++ (utf8 "cursor", .document cursor) :: after)) batchField
        (batch.map docBytes) =
      .ok (docBytes (before ++ (utf8 "cursor", .document (withBatch batchField batch cursor)) :: after)) := by
  have hbody : ∀ c : Fields, fieldsBytes (before ++ (utf8 "cursor", .document c) :: after) =
      fieldsBytes before ++ (0x03 :: (utf8 "cursor" ++ (0 :: (docBytes c ++ fieldsBytes after)))) := by
    intro c
    rw [fieldsBytes_append, fieldsBytes, Item.payload]
    rfl
  have hsize : ∀ c : Fields, (docBytes (before ++ (utf8 "cursor", .document c) :: after)).length =
      (fieldsBytes before).length + (utf8 "cursor").length + (docBytes c).length + (fieldsBytes after).length + 7 := by
    intro c
    rw [docBytes, length_framed, hbody]
    simp only [List.length_append, List.length_cons]
    omega
  have hgrown : (docBytes (withBatch batchField batch cursor)).length =
      (utf8 batchField).length + (framed (itemsBytes 0 (batch.map Item.document))).length + (docBytes cursor).length + 2 := by
    have hfields := congrArg List.length (fieldsBytes_withBatch batchField batch cursor)
    have hwhole := length_framed (fieldsBytes (withBatch batchField batch cursor))
    have hown := length_framed (fieldsBytes cursor)
    simp only [List.length_append, List.length_cons] at hfields
    unfold docBytes
    omega
  rw [hsize] at hlen
  have hbatch : ∀ d ∈ batch, (docBytes d).length < 2 ^ 31 := by
    intro d hmem
    have hin := payload_lt_of_mem_items (List.mem_map_of_mem (f := Item.document) hmem) 0
    have hpayload : (Item.document d).payload = docBytes d := by rw [Item.payload, docBytes]
    rw [hpayload] at hin
    have harray := length_framed (itemsBytes 0 (batch.map Item.document))
    omega
  have helement : RawElement.of (utf8 "cursor", .document cursor) = ⟨0x03, utf8 "cursor", docBytes cursor⟩ := by
    rw [RawElement.of, Item.payload, docBytes]
    rfl
  have hrest := pushElements_copy batchField (batch.map docBytes) hafter
    ([0, 0, 0, 0] ++ fieldsBytes before ++ (0x03 :: (utf8 "cursor" ++ [0])) ++
      docBytes (withBatch batchField batch cursor)) true []
  rw [List.append_nil] at hrest
  have hlength := patchLen_eq ([0, 0, 0, 0] ++ fieldsBytes before ++ (0x03 :: (utf8 "cursor" ++ [0])) ++
      docBytes (withBatch batchField batch cursor) ++ fieldsBytes after ++ [0]) []
    (fieldsBytes (before ++ (utf8 "cursor", .document (withBatch batchField batch cursor)) :: after))
    (by rw [hbody]; simp) (lt_of_eq_of_lt (hsize _) hlen)
  unfold encodeCursorReply
  rw [rawElements_docBytes hd (by rw [hsize]; omega), ok_bind]
  simp only
  rw [List.map_append, List.map_cons, pushElements_copy _ _ hbefore, helement, pushElements_cursor,
    pushCursor_docBytes _ _ hbatch (by omega), ok_bind, hrest, pushElements]
  exact hlength

/-- Splicing a cursor reply is encoding it, and the elements of a document are read in order, all of its bytes and
    never past them. -/
theorem cursorReply_exact :
    (∀ (batchField : String) (before cursor after : Fields) (batch : List Fields),
      Delimited (before ++ (utf8 "cursor", .document cursor) :: after) →
      (∀ f ∈ before ++ after, f.1 ≠ utf8 "cursor") →
      (docBytes (before ++ (utf8 "cursor", .document (withBatch batchField batch cursor)) :: after)).length < 2 ^ 31 →
      encodeCursorReply (docBytes (before ++ (utf8 "cursor", .document cursor) :: after)) batchField
          (batch.map docBytes) =
        .ok (docBytes (before ++ (utf8 "cursor", .document (withBatch batchField batch cursor)) :: after))) ∧
    (∀ fields : Fields, Delimited fields → (docBytes fields).length < 2 ^ 31 →
      rawElements (docBytes fields) = .ok (some (fields.map RawElement.of)) ∧
        docBytes fields = framed ((fields.map RawElement.of).flatMap RawElement.bytes)) ∧
    ∀ doc : Bytes, Returns (rawElements doc) := by
  refine ⟨fun batchField before cursor after batch hd hne hlen => ?_, fun fields hd hlen => ?_, rawElements_returns⟩
  · exact encodeCursorReply_spliced batchField hd (fun f hf => hne f (List.mem_append_left after hf))
      (fun f hf => hne f (List.mem_append_right before hf)) hlen
  · exact ⟨rawElements_docBytes hd hlen, by rw [docBytes, fieldsBytes_eq_flatMap]⟩

/-- `{cursor: {id: 0}, ok: 1}` and one document in the batch. -/
theorem cursorReply_exact_one :
    encodeCursorReply
        (docBytes [(utf8 "cursor", .document [(utf8 "id", .int64 0)]), (utf8 "ok", .double ⟨0x3FF0000000000000⟩)])
        "firstBatch" [docBytes [(utf8 "_id", .int32 1)]] =
      .ok (docBytes
        [(utf8 "cursor", .document (withBatch "firstBatch" [[(utf8 "_id", .int32 1)]] [(utf8 "id", .int64 0)])),
          (utf8 "ok", .double ⟨0x3FF0000000000000⟩)]) := by
  refine cursorReply_exact.1 "firstBatch" [] [(utf8 "id", .int64 0)] [(utf8 "ok", .double ⟨0x3FF0000000000000⟩)]
    [[(utf8 "_id", .int32 1)]] ?_ (by decide) (by decide)
  intro f hf
  rcases List.mem_cons.mp hf with rfl | hf
  · exact ⟨by decide, trivial⟩
  · obtain rfl := List.mem_singleton.mp hf
    exact ⟨by decide, trivial⟩

end Secantus.Frame
