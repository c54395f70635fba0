/-
  Reading a buffer whose lengths come from the peer (secantus-wire/src/lib.rs): every index and every slice
  is checked, and an out-of-range one is a fault of its own (a panic in the source).

  A read says what it gives as a window of the buffer (`slice_eq`, `rdU32_eq`), and `Returns` that a
  computation ends with a value or an error of the protocol. usize has 64 bits.

  The framing of messages (secantus-wire/src/lib.rs, and OP_COMPRESSED's prefix in compression.rs): the header,
  OP_MSG and OP_QUERY, the checks of a frame, and the replies.

  The loops over sections and over the documents of a sequence run on fuel, as many turns as the buffer has
  bytes; they never run out of it (`Returns`). A slice borrowed from the buffer is the list of its bytes.
-/
import Secantus.Wire.Format

namespace Secantus.Frame

open Secantus Secantus.Library Secantus.Wire

/-- A wire-protocol parse failure. -/
inductive WireError where
  /-- Fatal: the frame is unusable; drop the connection. -/
  | protocol (message : String)
  /-- Recoverable: reply `BadValue` and keep the connection. -/
  | malformedBody (message : String)
  deriving DecidableEq, Repr

/-- How a computation may end without a value. -/
inductive Fault where
  | wire (e : WireError)
  /-- An index or a slice out of range. -/
  | outOfRange
  /-- A loop that takes more turns than the buffer has bytes. -/
  | stuck
  deriving DecidableEq, Repr

abbrev Checked (α : Type) := Except Fault α

def protocol {α : Type} (message : String) : Checked α := .error (.wire (.protocol message))

def malformedBody {α : Type} (message : String) : Checked α := .error (.wire (.malformedBody message))

/-- The computation ends with a value or an error of the protocol. -/
def Returns {α : Type} (x : Checked α) : Prop := x ≠ .error .outOfRange ∧ x ≠ .error .stuck

/-- `n as usize`: a negative number is taken modulo the word. -/
def asUsize (n : Int32) : ℕ := (n.toInt % 2 ^ 64).toNat

/-- `buf[i]`. -/
def index (buf : Bytes) (i : ℕ) : Checked UInt8 :=
  match buf[i]? with
  | some b => .ok b
  | none => .error .outOfRange

/-- `buf[a..b]`. -/
def slice (buf : Bytes) (a b : ℕ) : Checked Bytes :=
  if a ≤ b ∧ b ≤ buf.length then .ok ((buf.drop a).take (b - a)) else .error .outOfRange

def rdU32 (buf : Bytes) (at_ : ℕ) : Checked UInt32 := do
  let b0 ← index buf at_
  let b1 ← index buf (at_ + 1)
  let b2 ← index buf (at_ + 2)
  let b3 ← index buf (at_ + 3)
  return UInt32.ofNat (ofLeBytes [b0, b1, b2, b3])

def rdI32 (buf : Bytes) (at_ : ℕ) : Checked Int32 := do
  let n ← rdU32 buf at_
  return n.toInt32

/-- The next NUL in `buf[start..limit]`, by its index in the buffer. -/
def memchr0 (buf : Bytes) (start limit : ℕ) : Checked (Option ℕ) := do
  let bs ← slice buf start limit
  return (bs.idxOf? 0).map (start + ·)

/-- `to_le_bytes` of a `u32`. -/
def u32Bytes (n : UInt32) : Bytes := le32 n.toNat

/-- `to_le_bytes` of an `i32`. -/
def i32Bytes (n : Int32) : Bytes := u32Bytes n.toUInt32

@[simp] theorem length_u32Bytes (n : UInt32) : (u32Bytes n).length = 4 := length_le32 _

@[simp] theorem length_i32Bytes (n : Int32) : (i32Bytes n).length = 4 := length_le32 _

theorem ok_bind {α β : Type} (a : α) (f : α → Checked β) : ((.ok a : Checked α) >>= f) = f a := rfl

/-! ## Returning -/

section Returns

variable {α β : Type}

@[simp] theorem returns_ok (a : α) : Returns (.ok a : Checked α) := ⟨nofun, nofun⟩

@[simp] theorem returns_pure (a : α) : Returns (pure a : Checked α) := returns_ok a

@[simp] theorem returns_protocol (m : String) : Returns (protocol m : Checked α) := ⟨nofun, nofun⟩

@[simp] theorem returns_malformedBody (m : String) : Returns (malformedBody m : Checked α) := ⟨nofun, nofun⟩

theorem Returns.bind {x : Checked α} {f : α → Checked β} (hx : Returns x) (hf : ∀ a, x = .ok a → Returns (f a)) :
    Returns (x >>= f) := by
  cases x with
  | ok a => exact hf a rfl
  | error e =>
    obtain ⟨hr, hs⟩ := hx
    refine ⟨fun h => hr ?_, fun h => hs ?_⟩
    · cases h
      rfl
    · cases h
      rfl

theorem returns_ite {c : Prop} [Decidable c] {x y : Checked α} (hx : c → Returns x) (hy : ¬c → Returns y) :
    Returns (if c then x else y) := by
  by_cases h : c
  · rw [if_pos h]
    exact hx h
  · rw [if_neg h]
    exact hy h

end Returns

/-! ## Windows -/

/-- `n` bytes of the buffer. -/
def window (buf : Bytes) (at_ n : ℕ) : Bytes := (buf.drop at_).take n

theorem length_window {buf : Bytes} {at_ n : ℕ} (h : at_ + n ≤ buf.length) : (window buf at_ n).length = n := by
  unfold window
  rw [List.length_take, List.length_drop]
  omega

theorem window_add (buf : Bytes) (at_ m n : ℕ) :
    window buf at_ (m + n) = window buf at_ m ++ window buf (at_ + m) n := by
  unfold window
  rw [List.take_add, List.drop_drop]

theorem take_window (buf : Bytes) (at_ : ℕ) {m n : ℕ} (h : m ≤ n) : (window buf at_ n).take m = window buf at_ m := by
  unfold window
  rw [List.take_take, Nat.min_eq_left h]

theorem window_append (start bs rest : Bytes) : window (start ++ (bs ++ rest)) start.length bs.length = bs := by
  unfold window
  rw [List.drop_left, List.take_left]

theorem slice_eq {buf : Bytes} {a n : ℕ} (h : a + n ≤ buf.length) : slice buf a (a + n) = .ok (window buf a n) := by
  unfold slice window
  rw [if_pos ⟨Nat.le_add_right a n, h⟩, Nat.add_sub_cancel_left]

theorem index_eq {buf : Bytes} {i : ℕ} (h : i < buf.length) : index buf i = .ok buf[i] := by
  unfold index
  rw [List.getElem?_eq_getElem h]

theorem index_window {buf : Bytes} {i : ℕ} (h : i < buf.length) :
    ∃ b, index buf i = .ok b ∧ window buf i 1 = [b] := by
  refine ⟨buf[i], index_eq h, ?_⟩
  unfold window
  rw [List.drop_eq_getElem_cons h, List.take_succ_cons, List.take_zero]

theorem rdU32_eq {buf : Bytes} {at_ : ℕ} (h : at_ + 4 ≤ buf.length) :
    rdU32 buf at_ = .ok (UInt32.ofNat (ofLeBytes (window buf at_ 4))) := by
  have hwindow : window buf at_ 4 = [buf[at_], buf[at_ + 1], buf[at_ + 2], buf[at_ + 3]] := by
    unfold window
    rw [List.drop_eq_getElem_cons (by omega), List.take_succ_cons, List.drop_eq_getElem_cons (by omega),
      List.take_succ_cons, List.drop_eq_getElem_cons (by omega), List.take_succ_cons,
      List.drop_eq_getElem_cons (by omega), List.take_succ_cons, List.take_zero]
  rw [hwindow]
  unfold rdU32
  rw [index_eq (by omega), index_eq (by omega), index_eq (by omega), index_eq (by omega)]
  rfl

/-- The number of four bytes. -/
def number (bs : Bytes) : Int32 := (UInt32.ofNat (ofLeBytes bs)).toInt32

theorem rdI32_eq {buf : Bytes} {at_ : ℕ} (h : at_ + 4 ≤ buf.length) :
    rdI32 buf at_ = .ok (number (window buf at_ 4)) := by
  unfold rdI32
  rw [rdU32_eq h]
  rfl

theorem memchr0_eq {buf : Bytes} {start n : ℕ} (h : start + n ≤ buf.length) :
    memchr0 buf start (start + n) = .ok (((window buf start n).idxOf? 0).map (start + ·)) := by
  unfold memchr0
  rw [slice_eq h]
  rfl

/-! ## Numbers -/

theorem ofLeBytes_lt (bs : Bytes) : ofLeBytes bs < 256 ^ bs.length := by
  induction bs with
  | nil => decide
  | cons b bs ih =>
    have hb := b.toNat_lt
    rw [ofLeBytes, List.length_cons, Nat.pow_succ]
    omega

theorem leBytes_ofLeBytes (bs : Bytes) : leBytes bs.length (ofLeBytes bs) = bs := by
  induction bs with
  | nil => rfl
  | cons b bs ih =>
    have hb := b.toNat_lt
    have hmod : (b.toNat + 256 * ofLeBytes bs) % 256 = b.toNat := by omega
    have hdiv : (b.toNat + 256 * ofLeBytes bs) / 256 = ofLeBytes bs := by omega
    rw [ofLeBytes, List.length_cons, leBytes, hmod, hdiv, ih, UInt8.ofNat_toNat]

theorem ofLeBytes_u32Bytes (n : UInt32) : UInt32.ofNat (ofLeBytes (u32Bytes n)) = n := by
  have hlt : n.toNat < 256 ^ 4 := n.toNat_lt
  unfold u32Bytes le32
  rw [ofLeBytes_leBytes hlt, UInt32.ofNat_toNat]

theorem ofLeBytes_i32Bytes (n : Int32) : (UInt32.ofNat (ofLeBytes (i32Bytes n))).toInt32 = n := by
  unfold i32Bytes
  rw [ofLeBytes_u32Bytes]
  rfl

theorem u32Bytes_ofLeBytes {bs : Bytes} (h : bs.length = 4) : u32Bytes (UInt32.ofNat (ofLeBytes bs)) = bs := by
  have hlt := ofLeBytes_lt bs
  rw [h] at hlt
  have hn : (UInt32.ofNat (ofLeBytes bs)).toNat = ofLeBytes bs := by
    rw [UInt32.toNat_ofNat']
    exact Nat.mod_eq_of_lt hlt
  unfold u32Bytes le32
  rw [hn, ← h, leBytes_ofLeBytes]

theorem toInt_toInt32 (u : UInt32) :
    u.toInt32.toInt = if u.toNat < 2 ^ 31 then (u.toNat : ℤ) else (u.toNat : ℤ) - 2 ^ 32 := by
  show u.toBitVec.toInt = _
  rw [BitVec.toInt_eq_toNat_cond]
  have hn : u.toBitVec.toNat = u.toNat := rfl
  rw [hn]
  split
  · rw [if_pos (by omega)]
  · rw [if_neg (by omega)]
    rfl

theorem toInt_ofNat {n : ℕ} (h : n < 2 ^ 31) : (UInt32.ofNat n).toInt32.toInt = n := by
  have hn : (UInt32.ofNat n).toNat = n := by
    rw [UInt32.toNat_ofNat']
    exact Nat.mod_eq_of_lt (by omega)
  rw [toInt_toInt32, hn, if_pos h]

theorem le32_of_nonneg {bs : Bytes} (hlen : bs.length = 4) {n : ℤ}
    (hn : (UInt32.ofNat (ofLeBytes bs)).toInt32.toInt = n) (h : 0 ≤ n) :
    le32 n.toNat = bs ∧ n < 2 ^ 31 := by
  have hlt := ofLeBytes_lt bs
  rw [hlen] at hlt
  have hval : (UInt32.ofNat (ofLeBytes bs)).toNat = ofLeBytes bs := by
    rw [UInt32.toNat_ofNat']
    exact Nat.mod_eq_of_lt hlt
  rw [toInt_toInt32, hval] at hn
  split at hn
  · have hnat : n.toNat = ofLeBytes bs := by omega
    refine ⟨?_, by omega⟩
    have hbytes := leBytes_ofLeBytes bs
    rw [hlen] at hbytes
    rw [hnat]
    exact hbytes
  · omega

theorem asUsize_of_nonneg {n : Int32} (h : 0 ≤ n.toInt) : (asUsize n : ℤ) = n.toInt := by
  have hlt : n.toInt < 2 ^ 31 := n.toInt_lt
  unfold asUsize
  omega

/-! ## Framing -/

def OP_REPLY : Int32 := 1
def OP_UPDATE : Int32 := 2001
def OP_INSERT : Int32 := 2002
def OP_QUERY : Int32 := 2004
def OP_GET_MORE : Int32 := 2005
def OP_DELETE : Int32 := 2006
def OP_KILL_CURSORS : Int32 := 2007
def OP_COMPRESSED : Int32 := 2012
def OP_MSG : Int32 := 2013

/-- A 4-byte CRC-32C checksum trails the sections. -/
def OP_MSG_FLAG_CHECKSUM_PRESENT : UInt32 := 1
/-- More messages follow. -/
def OP_MSG_FLAG_MORE_TO_COME : UInt32 := 2
/-- The flag bits a receiver must understand. -/
def OP_MSG_REQUIRED_FLAG_BITS : UInt32 := 0xFFFF

def HEADER_SIZE : ℕ := 16
def MAX_MESSAGE_SIZE : Int32 := 48000000
def MIN_BSON_DOC_LEN : Int32 := 5

/-! ## The header -/

/-- The 16-byte message header. -/
structure Header where
  message_length : Int32
  request_id : Int32
  response_to : Int32
  op_code : Int32
  deriving DecidableEq, Repr

/-- A header from the first bytes of `buf`. -/
def Header.unpack (buf : Bytes) : Checked Header := do
  if buf.length < HEADER_SIZE then
    protocol s!"header needs {HEADER_SIZE} bytes, got {buf.length}"
  else
    return {
      message_length := ← rdI32 buf 0
      request_id := ← rdI32 buf 4
      response_to := ← rdI32 buf 8
      op_code := ← rdI32 buf 12 }

def Header.pack (h : Header) : Bytes :=
  i32Bytes h.message_length ++ i32Bytes h.request_id ++ i32Bytes h.response_to ++ i32Bytes h.op_code

/-- The length of the body, of a `message_length` within its bounds. -/
def Header.bodyLen (h : Header) : Checked ℕ :=
  if asUsize h.message_length < HEADER_SIZE then
    protocol s!"message length {h.message_length.toInt} < header size {HEADER_SIZE}"
  else if h.message_length > MAX_MESSAGE_SIZE then
    protocol s!"message length {h.message_length.toInt} exceeds max {MAX_MESSAGE_SIZE.toInt}"
  else .ok (asUsize h.message_length - HEADER_SIZE)

/-! ## Documents -/

/-- A declared length before the bytes are sliced: at least a document's, and within `stop`. -/
def checkDocLen (docLen : Int32) (at_ stop : ℕ) (place : String) : Checked Unit :=
  if docLen < MIN_BSON_DOC_LEN then
    malformedBody s!"{place}: declared BSON length {docLen.toInt} below minimum {MIN_BSON_DOC_LEN.toInt}"
  else if at_ + asUsize docLen > stop then
    malformedBody s!"{place}: declared BSON length {docLen.toInt} would read past end (at={at_}, end={stop})"
  else .ok ()

/-- The declared length of a document against its bytes. -/
def validateBson (doc : Bytes) (place : String) : Checked Unit := do
  if doc.length < 5 then
    malformedBody s!"{place}: BSON too short ({doc.length} bytes)"
  else
    let declared ← rdI32 doc 0
    if asUsize declared ≠ doc.length then
      malformedBody s!"{place}: BSON declared length {declared.toInt} != slice length {doc.length}"
    else .ok ()

/-- The document at `at_`, within `stop`: where its length is cut off the refusal is `truncated`, and `between`
    is checked after the length. -/
def docAt (buf : Bytes) (at_ stop : ℕ) (truncated place : String) (between : Checked Unit) : Checked Bytes := do
  if at_ + 4 > stop then malformedBody truncated
  else
    let docLen ← rdI32 buf at_
    checkDocLen docLen at_ stop place
    between
    let doc ← slice buf at_ (at_ + asUsize docLen)
    validateBson doc place
    return doc

/-! ## OP_MSG -/

/-- A kind-1 document sequence. -/
structure DocumentSequence where
  identifier : String
  documents : List Bytes
  deriving DecidableEq, Repr

/-- A parsed OP_MSG. -/
structure OpMsg where
  flags : UInt32
  body : Bytes
  document_sequences : List DocumentSequence
  deriving DecidableEq, Repr

/-- The documents of a kind-1 section from `offset` to its end, and the offset after them. -/
def sequenceDocs (buf : Bytes) (sectionEnd : ℕ) : ℕ → ℕ → Checked (List Bytes × ℕ)
  | 0, offset => if offset < sectionEnd then .error .stuck else .ok ([], offset)
  | fuel + 1, offset =>
    if offset < sectionEnd then do
      let doc ← docAt buf offset sectionEnd "OP_MSG kind-1: truncated inner doc length" "OP_MSG kind-1 inner" (.ok ())
      let (docs, offset) ← sequenceDocs buf sectionEnd fuel (offset + doc.length)
      return (doc :: docs, offset)
    else .ok ([], offset)

/-- What one turn of the loop over sections reads. -/
inductive Section where
  | body (doc : Bytes)
  | sequence (s : DocumentSequence)
  deriving DecidableEq, Repr

/-- A kind-0 section after its kind byte, and the offset after it. -/
def bodySection (buf : Bytes) (stop offset : ℕ) (hasBody : Bool) : Checked (Section × ℕ) := do
  let doc ← docAt buf offset stop "OP_MSG kind-0 truncated before length" "OP_MSG kind-0"
    (if hasBody then malformedBody "OP_MSG has more than one kind-0 section" else .ok ())
  return (.body doc, offset + doc.length)

/-- The identifier and the documents of a kind-1 section, after its length. -/
def sequenceContent (buf : Bytes) (offset sectionEnd : ℕ) : Checked (Section × ℕ) := do
  match ← memchr0 buf offset sectionEnd with
  | none => malformedBody "OP_MSG kind-1: identifier missing null terminator"
  | some identEnd =>
    match fromUtf8? (← slice buf offset identEnd) with
    | none => malformedBody "OP_MSG kind-1: identifier is not valid UTF-8"
    | some identifier => do
      let (documents, offset) ← sequenceDocs buf sectionEnd buf.length (identEnd + 1)
      return (.sequence ⟨identifier, documents⟩, offset)

/-- A kind-1 section after its kind byte, and the offset after it. -/
def sequenceSection (buf : Bytes) (stop offset : ℕ) : Checked (Section × ℕ) := do
  if offset + 4 > stop then malformedBody "OP_MSG kind-1 truncated before length"
  else
    -- the length counts its own four bytes
    let sectionLen ← rdI32 buf offset
    if sectionLen < 4 ∨ offset + asUsize sectionLen > stop then
      malformedBody s!"OP_MSG kind-1: declared section length {sectionLen.toInt} invalid"
    else sequenceContent buf (offset + 4) (offset + asUsize sectionLen)

/-- One turn of the loop over sections. -/
def sectionAt (buf : Bytes) (stop offset : ℕ) (hasBody : Bool) : Checked (Section × ℕ) := do
  let kind ← index buf offset
  if kind = 0 then bodySection buf stop (offset + 1) hasBody
  else if kind = 1 then sequenceSection buf stop (offset + 1)
  else protocol s!"unknown OP_MSG section kind {kind}"

/-- The loop over sections. -/
def sectionsFrom (buf : Bytes) (stop : ℕ) : ℕ → ℕ → Option Bytes → List DocumentSequence →
    Checked (Option Bytes × List DocumentSequence)
  | 0, offset, body, sequences => if offset < stop then .error .stuck else .ok (body, sequences)
  | fuel + 1, offset, body, sequences =>
    if offset < stop then do
      match ← sectionAt buf stop offset body.isSome with
      | (.body doc, offset) => sectionsFrom buf stop fuel offset (some doc) sequences
      | (.sequence s, offset) => sectionsFrom buf stop fuel offset body (sequences ++ [s])
    else .ok (body, sequences)

def hasChecksum (flags : UInt32) : Bool := flags &&& OP_MSG_FLAG_CHECKSUM_PRESENT != 0

def parseOpMsg (buf : Bytes) : Checked OpMsg := do
  if buf.length < 4 then protocol "OP_MSG body too short for flags"
  else
    let flags ← rdU32 buf 0
    -- The trailing checksum, if present, is not part of the sections.
    let stop := if hasChecksum flags then buf.length - 4 else buf.length
    match ← sectionsFrom buf stop buf.length 4 none [] with
    | (some body, sequences) => return ⟨flags, body, sequences⟩
    | (none, _) => protocol "OP_MSG has no kind-0 body section"

/-! ## OP_QUERY -/

/-- A parsed legacy OP_QUERY. -/
structure OpQuery where
  flags : UInt32
  full_collection_name : String
  number_to_skip : Int32
  number_to_return : Int32
  query : Bytes
  return_fields_selector : Option Bytes
  deriving DecidableEq, Repr

/-- The numbers and the documents of an OP_QUERY, after its collection's name. -/
def queryFrom (buf : Bytes) (flags : UInt32) (name : String) (offset : ℕ) : Checked OpQuery := do
  if offset + 8 > buf.length then malformedBody "OP_QUERY: truncated before skip/return"
  else
    let number_to_skip ← rdI32 buf offset
    let number_to_return ← rdI32 buf (offset + 4)
    let query ← docAt buf (offset + 8) buf.length "OP_QUERY: truncated before query document" "OP_QUERY query" (.ok ())
    let offset := offset + 8 + query.length
    let return_fields_selector ←
      if offset < buf.length then
        some <$> docAt buf offset buf.length "OP_QUERY: truncated before field selector" "OP_QUERY selector" (.ok ())
      else .ok none
    return ⟨flags, name, number_to_skip, number_to_return, query, return_fields_selector⟩

def parseOpQuery (buf : Bytes) : Checked OpQuery := do
  if buf.length < 4 then protocol "OP_QUERY body too short"
  else
    let flags ← rdU32 buf 0
    match ← memchr0 buf 4 buf.length with
    | none => malformedBody "OP_QUERY: collection name missing null terminator"
    | some nameEnd =>
      match fromUtf8? (← slice buf 4 nameEnd) with
      | none => malformedBody "OP_QUERY: collection name is not valid UTF-8"
      | some name => queryFrom buf flags name (nameEnd + 1)

/-! ## Any message -/

/-- The supported request shapes. -/
inductive Op where
  | msg (m : OpMsg)
  | query (q : OpQuery)
  /-- An OP_GET_MORE with a readable namespace, which is refused. -/
  | legacyGetMore
  /-- An opcode the server does not serve. -/
  | ignored (opCode : Int32)
  deriving DecidableEq, Repr

def parseBody (opCode : Int32) (body : Bytes) : Checked Op := do
  if opCode = OP_MSG then return .msg (← parseOpMsg body)
  else if opCode = OP_QUERY then return .query (← parseOpQuery body)
  else if opCode = OP_GET_MORE then
    if body.length < 4 then protocol "OP_GET_MORE has no NUL-terminated namespace"
    else
      match ← memchr0 body 4 body.length with
      | none => protocol "OP_GET_MORE has no NUL-terminated namespace"
      | some _ => return .legacyGetMore
  else if opCode = OP_UPDATE ∨ opCode = OP_INSERT ∨ opCode = OP_DELETE ∨ opCode = OP_KILL_CURSORS ∨
      opCode = OP_COMPRESSED then
    protocol s!"unsupported op_code {opCode.toInt}"
  else if body.length < 4 then protocol s!"op_code {opCode.toInt} with a {body.length}-byte body"
  else return .ignored opCode

/-- A parsed OP_COMPRESSED. -/
structure OpCompressed where
  original_opcode : Int32
  uncompressed_size : Int32
  compressor_id : UInt8
  data : Bytes
  deriving DecidableEq, Repr

def PREFIX_LEN : ℕ := 9

def parseOpCompressed (body : Bytes) : Checked OpCompressed := do
  if body.length < PREFIX_LEN then
    protocol s!"OP_COMPRESSED body of {body.length} bytes is shorter than its {PREFIX_LEN}-byte prefix"
  else
    return {
      original_opcode := ← rdI32 body 0
      uncompressed_size := ← rdI32 body 4
      compressor_id := ← index body 8
      data := ← slice body PREFIX_LEN body.length }

/-! ## Checksums and replies -/

/-- The table's entry at `i`: eight turns of the polynomial. -/
def crcEntry (i : UInt32) : UInt32 :=
  (List.range 8).foldl (fun c _ => if c &&& 1 != 0 then (0x82F63B78 : UInt32) ^^^ (c >>> 1) else c >>> 1) i

def crc32cStep (state : UInt32) (b : UInt8) : UInt32 := crcEntry ((state ^^^ b.toUInt32) &&& 0xFF) ^^^ (state >>> 8)

def crc32cUpdate (state : UInt32) (data : Bytes) : UInt32 := data.foldl crc32cStep state

/-- CRC-32C, the checksum OP_MSG carries. -/
def crc32c (state : UInt32) (data : Bytes) : UInt32 := ~~~crc32cUpdate state data

/-- `op_msg_frame_problem`: why the connection is dropped over this OP_MSG before it is read. -/
def opMsgFrameProblem (header : Header) (body : Bytes) : Checked (Option String) := do
  if body.length < 4 then return none
  else
    let flags ← rdU32 body 0
    let known := OP_MSG_FLAG_CHECKSUM_PRESENT ||| OP_MSG_FLAG_MORE_TO_COME
    if flags &&& OP_MSG_REQUIRED_FLAG_BITS &&& ~~~known != 0 then
      return some "OP_MSG has an unknown required flag bit"
    else if hasChecksum flags then
      if body.length < 8 then return some "OP_MSG too short for its checksum"
      else
        let covered ← slice body 0 (body.length - 4)
        let trailer ← slice body (body.length - 4) body.length
        -- The checksum covers the whole message, header included.
        let head := i32Bytes (Int32.ofNat (HEADER_SIZE + body.length)) ++ i32Bytes header.request_id ++
          i32Bytes header.response_to ++ i32Bytes header.op_code
        let sum := crc32c (crc32cUpdate (~~~0) head) covered
        if sum ≠ (← rdU32 trailer 0) then return some "OP_MSG checksum does not match"
        else return none
    else return none

/-- `with_op_msg_checksum`: the same frame with the checksum flag set and its CRC-32C appended. -/
def withOpMsgChecksum (frame : Bytes) : Checked Bytes := do
  if frame.length < HEADER_SIZE + 4 then return frame
  else if (← rdI32 frame 12) ≠ OP_MSG then return frame
  else
    let out := i32Bytes (Int32.ofNat (frame.length + 4)) ++ frame.drop 4
    let flags := (← rdU32 out HEADER_SIZE) ||| OP_MSG_FLAG_CHECKSUM_PRESENT
    let out := out.take HEADER_SIZE ++ u32Bytes flags ++ out.drop (HEADER_SIZE + 4)
    return out ++ u32Bytes (crc32c (~~~0) out)

/-- `build_op_msg_reply`: a single kind-0 section. -/
def buildOpMsgReply (response_to request_id : Int32) (body_bytes : Bytes) (flags : UInt32) : Bytes :=
  let payload_len := 4 + 1 + body_bytes.length
  let header : Header := ⟨Int32.ofNat (HEADER_SIZE + payload_len), request_id, response_to, OP_MSG⟩
  header.pack ++ u32Bytes flags ++ 0 :: body_bytes

end Secantus.Frame
