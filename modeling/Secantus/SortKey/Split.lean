/-
  Stored keys taken apart again (sortkey.rs, `value_len`, `split_directed`, `split_compound`).

  A key is read by the length its rank gives its body, with what closes the key behind it: the end, or a
  separator. `valueLen_encodeValue` says for which values that length is the key's own.
-/
import Secantus.Library.Outcome
import Secantus.SortKey.NumberKey

namespace Secantus.SortKey

open Secantus Bson BsonOrder Digits ByteOrder

/-! ## The lengths of bodies -/

def escapedLen (body : Bytes) : ℕ := (sepPos 0x00 body).getD body.length

/-- A number's sign, its exponent, and the rest up to and with the terminator. -/
def terminatedLen (terminator : UInt8) (body : Bytes) : Option ℕ :=
  if body.length < 3 then none
  else ((body.drop 3).findIdx? (· == terminator)).map fun i => 3 + i + 1

def numberLen : Bytes → Option ℕ
  | [] => none
  | b :: rest =>
    if b = numNan ∨ b = numNegInf ∨ b = numZero ∨ b = numPosInf then some 1
    else if b = numPos then terminatedLen 0x00 (b :: rest)
    else if b = numNeg then terminatedLen 0xFF (b :: rest)
    else none

/-- An escaped text and the separator behind it. -/
def textLen (body : Bytes) : Option ℕ :=
  if escapedLen body + 2 ≤ body.length then some (escapedLen body + 2) else none

/-- `elements_len`: each element's rank, (a document's) name and value, to and with the end. -/
def elementsLen (named : Bool) : Bytes → Option ℕ
  | [] => none
  | rank :: body =>
    if rank = elementsEnd then some 1
    else do
      let name ← if named then textLen body else some 0
      let value ← textLen (body.drop name)
      let rest ← elementsLen named (body.drop (name + value))
      some (1 + name + value + rest)
  termination_by body => body.length
  decreasing_by simp

/-- The length of the next `n` escaped bytes. -/
def escapedBytesLen : ℕ → Bytes → Option ℕ
  | 0, _ => some 0
  | _ + 1, [] => none
  | n + 1, b :: rest =>
    if b = 0 then (escapedBytesLen n (rest.drop 1)).map (· + 2) else (escapedBytesLen n rest).map (· + 1)

def stripSep : Bytes → Option Bytes
  | 0x00 :: 0x00 :: rest => some rest
  | _ => none

def bodyLen (rank : UInt8) (body : Bytes) : Option ℕ :=
  if rank = rankMinKey ∧ body.head? = some undefinedTail then some 1
  else if rank = rankMinKey ∨ rank = rankNull ∨ rank = rankMaxKey then some 0
  else if rank = rankNumber then numberLen body
  else if rank = rankString ∨ rank = rankJavaScript then some (escapedLen body)
  else if rank = rankJavaScriptScope then do
    let rest ← stripSep (body.drop (escapedLen body))
    let scope ← elementsLen true rest
    some (escapedLen body + 2 + scope)
  else if rank = rankDocument then elementsLen true body
  else if rank = rankArray then elementsLen false body
  else if rank = rankBinData then
    if body.length < 4 then none
    else (escapedBytesLen (ofBeBytes (body.take 4)) (body.drop 5)).map (5 + ·)
  else if rank = rankObjectId then some 12
  else if rank = rankBool then some 1
  else if rank = rankDate ∨ rank = rankTimestamp then some 8
  else if rank = rankRegex then do
    let rest ← stripSep (body.drop (escapedLen body))
    some (escapedLen body + 2 + escapedLen rest)
  else none

def valueLen : Bytes → Option ℕ
  | [] => none
  | rank :: body => do
    let len ← bodyLen rank body
    if len ≤ body.length then some (1 + len) else none

def directedLen (key : Bytes) : Direction → Option ℕ
  | .ascending => valueLen key
  | .descending => do
    let n ← valueLen (invertBytes key)
    if (key.drop n).take 2 = descEnd then some (n + 2) else none

def splitDirected (rest : Bytes) : List Direction → Option (List Bytes)
  | [] => if rest.isEmpty then some [] else none
  | direction :: directions => do
    let n ← directedLen rest direction
    let behind ← if directions.isEmpty then some (rest.drop n) else stripSep (rest.drop n)
    let parts ← splitDirected behind directions
    some (rest.take n :: parts)

def splitCompound (rest : Bytes) : ℕ → Option (List Bytes)
  | 0 => if rest.isEmpty then some [] else none
  | fields + 1 => do
    let n ← valueLen rest
    let behind ← if fields = 0 then some (rest.drop n) else stripSep (rest.drop n)
    let parts ← splitCompound behind fields
    some (rest.take n :: parts)

def ascendingPart (part : Bytes) : Direction → Bytes
  | .ascending => part
  | .descending =>
    invertBytes (if descEnd.isSuffixOf part then part.take (part.length - descEnd.length) else part)

/-! ## Escaped text -/

/-- What may stand behind a key: nothing, or a separator. -/
def Closes (tail : Bytes) : Prop := tail = [] ∨ ∃ rest, tail = 0x00 :: 0x00 :: rest

theorem sepPos_escape_none (x : Bytes) : sepPos 0x00 (escape x) = none := by
  induction x with
  | nil => rfl
  | cons b x ih =>
    show sepPos 0x00 (ByteOrder.escape 0x00 0xFF (b :: x)) = none
    have ih : sepPos 0x00 (ByteOrder.escape 0x00 0xFF x) = none := ih
    by_cases hb : b = 0x00
    · rw [hb, escape_cons_zero]
      have hff : sepPos 0x00 (0xFF :: ByteOrder.escape 0x00 0xFF x) = none := by
        rw [sepPos_cons_of_ne 0x00 (by decide), ih]
        rfl
      simp only [sepPos, hff]
      rfl
    · rw [escape_cons_of_ne _ _ hb, sepPos_cons_of_ne 0x00 hb, ih]
      rfl

theorem escapedLen_escape (x : Bytes) {tail : Bytes} (ht : Closes tail) :
    escapedLen (escape x ++ tail) = (escape x).length := by
  unfold escapedLen
  rcases ht with rfl | ⟨rest, rfl⟩
  · rw [List.append_nil, sepPos_escape_none]
    rfl
  · have h := sepPos_escape (z := (0x00 : UInt8)) (e := 0xFF) (by decide) x rest
    show (sepPos 0x00 (ByteOrder.escape 0x00 0xFF x ++ 0x00 :: 0x00 :: rest)).getD _ = _
    rw [h]
    rfl

theorem textLen_escape (x rest : Bytes) :
    textLen (escape x ++ (compoundSep ++ rest)) = some ((escape x).length + 2) := by
  have hlen := escapedLen_escape x (Or.inr ⟨rest, rfl⟩ : Closes (compoundSep ++ rest))
  unfold textLen
  rw [hlen, if_pos]
  rw [List.length_append, List.length_append]
  exact Nat.add_le_add_left (Nat.le_add_right 2 _) _

theorem drop_escape (x rest : Bytes) :
    (escape x ++ (compoundSep ++ rest)).drop ((escape x).length + 2) = rest := by
  rw [← List.append_assoc]
  exact List.drop_left' (List.length_append)

/-! ## The bodies -/

theorem findIdx?_append_cons {α : Type*} {p : α → Bool} {x : List α} (h : ∀ b ∈ x, p b = false) {t : α}
    (ht : p t = true) (rest : List α) : (x ++ t :: rest).findIdx? p = some x.length := by
  induction x with
  | nil => simp [List.findIdx?_cons, ht]
  | cons b x ih =>
    rw [List.cons_append, List.findIdx?_cons, h b List.mem_cons_self,
      ih fun c hc => h c (List.mem_cons_of_mem _ hc)]
    rfl

theorem terminatedLen_eq (sign : UInt8) {exponent pairs : Bytes} {terminator : UInt8}
    (hexp : exponent.length = 2) (h : ∀ b ∈ pairs, b ≠ terminator) (rest : Bytes) :
    terminatedLen terminator (sign :: (exponent ++ (pairs ++ terminator :: rest))) =
      some (sign :: (exponent ++ (pairs ++ [terminator]))).length := by
  have hdrop : (sign :: (exponent ++ (pairs ++ terminator :: rest))).drop 3 = pairs ++ terminator :: rest := by
    show (exponent ++ (pairs ++ terminator :: rest)).drop 2 = _
    exact List.drop_left' hexp
  unfold terminatedLen
  rw [hdrop, findIdx?_append_cons (fun b hb => beq_eq_false_iff_ne.mpr (h b hb)) (beq_self_eq_true _), if_neg]
  · simp only [Option.map_some, List.length_cons, List.length_append, List.length_nil, hexp, Option.some.injEq]
    omega
  · simp only [List.length_cons, List.length_append, hexp]
    omega

theorem numberLen_numKey {n : NumVal} (h : n.Wf) (tail : Bytes) :
    numberLen (numKey n ++ tail) = some (numKey n).length := by
  cases n with
  | nan => rfl
  | zero => rfl
  | inf s => rcases h with rfl | rfl <;> rfl
  | finite s d e =>
    have hwf : NumVal.FiniteWf s d e := h
    have hrange := digitPairs_range hwf.trimmed.digit
    rcases hwf.sign_eq with rfl | rfl
    · show numberLen (encodeNumberFromParts ⟨1, d, e⟩ ++ tail) =
        some (encodeNumberFromParts ⟨1, d, e⟩).length
      rw [encodeNumberFromParts_pos hwf, List.map_append]
      have hpairs : ∀ b ∈ (digitPairs d).map UInt8.ofNat, b ≠ 0x00 := by
        intro b hb
        obtain ⟨m, hm, rfl⟩ := List.mem_map.mp hb
        have hm := hrange m hm
        intro h0
        have h1 := congrArg UInt8.toNat h0
        rw [UInt8.toNat_ofNat_of_lt' (by omega : m < 256)] at h1
        have h2 : m = 0 := h1
        omega
      have hlen := terminatedLen_eq numPos (length_beBytes 2 (biased d e)) hpairs tail
      show numberLen (numPos :: ((beBytes 2 (biased d e) ++ ((digitPairs d).map UInt8.ofNat ++ [0x00])) ++ tail)) = _
      rw [List.append_assoc, List.append_assoc]
      exact hlen
    · show numberLen (encodeNumberFromParts ⟨-1, d, e⟩ ++ tail) =
        some (encodeNumberFromParts ⟨-1, d, e⟩).length
      rw [encodeNumberFromParts_neg hwf, List.map_append]
      have hpairs : ∀ b ∈ (digitPairs d).map negPair, b ≠ 0xFF := by
        intro b hb
        obtain ⟨m, hm, rfl⟩ := List.mem_map.mp hb
        have hm := hrange m hm
        unfold negPair
        rw [if_neg (by omega)]
        intro h0
        have h1 := congrArg UInt8.toNat h0
        rw [UInt8.toNat_ofNat_of_lt' (by omega : 0x64 - m < 256)] at h1
        have h2 : 0x64 - m = 255 := h1
        omega
      have hlen := terminatedLen_eq numNeg (length_beBytes 2 (0xFFFF - biased d e)) hpairs tail
      show numberLen (numNeg ::
        ((beBytes 2 (0xFFFF - biased d e) ++ ((digitPairs d).map negPair ++ [0xFF])) ++ tail)) = _
      rw [List.append_assoc, List.append_assoc]
      exact hlen

theorem numberLen_encodeNumber {v : Bson} {n : NumVal} (h : Numeric.classify v = some n) (tail : Bytes) :
    numberLen (encodeNumber v ++ tail) = some (encodeNumber v).length := by
  have hspec := Numeric.classify_spec v
  rw [h] at hspec
  rw [encodeNumber_eq h]
  cases hq : quantity v with
  | none =>
    rw [hq] at hspec
    exact hspec.elim
  | some q =>
    rw [hq] at hspec
    exact numberLen_numKey hspec.1 tail

/-! ## Elements -/

/-- A key starts with a rank byte, which is not an element list's end. -/
theorem encodeValue_rank {o : BinDataOrder} {v : Bson} {k : Bytes} (h : encodeValue o v = .ok k) :
    ∃ rank body, k = rank :: body ∧ rank ≠ elementsEnd := by
  unfold encodeValue at h
  split at h
  · rename_i t raw hr
    cases t <;> first
      | exact ⟨_, _, (Except.ok.inj h).symm, by decide⟩
      | cases h
  · split at h
    · exact ⟨_, _, (Except.ok.inj h).symm, by decide⟩
    · cases v with
      | document d =>
        obtain ⟨x, -, hk⟩ := Outcome.bind_eq_ok.mp h
        exact ⟨_, _, (Except.ok.inj hk).symm, by decide⟩
      | array l =>
        obtain ⟨x, -, hk⟩ := Outcome.bind_eq_ok.mp h
        exact ⟨_, _, (Except.ok.inj hk).symm, by decide⟩
      | javaScriptCodeWithScope code scope =>
        dsimp only at h
        split at h
        · exact ⟨_, _, (Except.ok.inj h).symm, by decide⟩
        · obtain ⟨x, -, hk⟩ := Outcome.bind_eq_ok.mp h
          exact ⟨_, _, (Except.ok.inj hk).symm, by decide⟩
      | symbol s => cases h
      | dbPointer ns id => cases h
      | maxKey =>
        refine ⟨_, _, (Except.ok.inj h).symm, ?_⟩
        split <;> decide
      | _ => exact ⟨_, _, (Except.ok.inj h).symm, by decide⟩

theorem elementsLen_named {rank : UInt8} (hr : rank ≠ elementsEnd) (name value rest : Bytes) :
    elementsLen true (rank :: (escape name ++ (compoundSep ++ (escape value ++ (compoundSep ++ rest))))) =
      (elementsLen true rest).map
        (1 + ((escape name).length + 2) + ((escape value).length + 2) + ·) := by
  have hrest : (escape name ++ (compoundSep ++ (escape value ++ (compoundSep ++ rest)))).drop
      ((escape name).length + 2 + ((escape value).length + 2)) = rest := by
    rw [← List.drop_drop, drop_escape, drop_escape]
  rw [elementsLen, if_neg hr, if_pos rfl, textLen_escape]
  simp only [Option.bind_eq_bind, Option.bind_some, drop_escape, textLen_escape, hrest]
  cases elementsLen true rest <;> rfl

theorem elementsLen_unnamed {rank : UInt8} (hr : rank ≠ elementsEnd) (value rest : Bytes) :
    elementsLen false (rank :: (escape value ++ (compoundSep ++ rest))) =
      (elementsLen false rest).map (1 + ((escape value).length + 2) + ·) := by
  rw [elementsLen, if_neg hr, if_neg (by decide)]
  simp only [Option.bind_eq_bind, Option.bind_some, List.drop_zero, textLen_escape, Nat.zero_add,
    drop_escape]
  cases elementsLen false rest <;> rfl

theorem elementsLen_encodeDoc {o : BinDataOrder} (tail : Bytes) (d : Document) {k : Bytes}
    (h : encodeDoc o d = .ok k) : elementsLen true (k ++ tail) = some k.length := by
  induction d generalizing k with
  | nil =>
    obtain rfl := Except.ok.inj h
    show elementsLen true (elementsEnd :: tail) = some 1
    rw [elementsLen, if_pos rfl]
  | cons f d ih =>
    obtain ⟨name, v⟩ := f
    unfold encodeDoc at h
    obtain ⟨x, hx, h⟩ := Outcome.bind_eq_ok.mp h
    obtain ⟨y, hy, h⟩ := Outcome.bind_eq_ok.mp h
    obtain rfl := Except.ok.inj h
    obtain ⟨rank, body, rfl, hrank⟩ := encodeValue_rank hx
    have htail := ih hy
    show elementsLen true ((rank :: (escape (utf8 name) ++ compoundSep ++ (escape body ++ compoundSep) ++ y)) ++
      tail) = _
    simp only [List.cons_append, List.append_assoc]
    rw [elementsLen_named hrank, htail]
    simp only [Option.map_some, List.length_cons, List.length_append, compoundSep, List.length_nil,
      List.tail_cons, Option.some.injEq]
    omega

theorem elementsLen_encodeArray {o : BinDataOrder} (tail : Bytes) (l : List Bson) {k : Bytes}
    (h : encodeArray o l = .ok k) : elementsLen false (k ++ tail) = some k.length := by
  induction l generalizing k with
  | nil =>
    obtain rfl := Except.ok.inj h
    show elementsLen false (elementsEnd :: tail) = some 1
    rw [elementsLen, if_pos rfl]
  | cons v l ih =>
    unfold encodeArray at h
    obtain ⟨x, hx, h⟩ := Outcome.bind_eq_ok.mp h
    obtain ⟨y, hy, h⟩ := Outcome.bind_eq_ok.mp h
    obtain rfl := Except.ok.inj h
    obtain ⟨rank, body, rfl, hrank⟩ := encodeValue_rank hx
    have htail := ih hy
    show elementsLen false ((rank :: ((escape body ++ compoundSep) ++ y)) ++ tail) = _
    simp only [List.cons_append, List.append_assoc]
    rw [elementsLen_unnamed hrank, htail]
    simp only [Option.map_some, List.length_cons, List.length_append, compoundSep, List.length_nil,
      List.tail_cons, Option.some.injEq]
    omega

/-! ## BinData -/

/-- How many bytes stand behind escaped ones: a `00` and the byte after it are one. -/
def unitCount : Bytes → Option ℕ
  | [] => some 0
  | [b] => if b = 0 then none else some 1
  | b :: c :: rest => (if b = 0 then unitCount rest else unitCount (c :: rest)).map (· + 1)

theorem unitCount_cons_of_ne {b : UInt8} (hb : b ≠ 0) (x : Bytes) :
    unitCount (b :: x) = (unitCount x).map (· + 1) := by
  cases x with
  | nil =>
    show (if b = 0 then none else some 1) = some 1
    rw [if_neg hb]
  | cons c x => rw [unitCount, if_neg hb]

theorem unitCount_escape (x : Bytes) : unitCount (escape x) = some x.length := by
  induction x with
  | nil => rfl
  | cons b x ih =>
    have ih : unitCount (ByteOrder.escape 0x00 0xFF x) = some x.length := ih
    show unitCount (ByteOrder.escape 0x00 0xFF (b :: x)) = _
    by_cases hb : b = 0x00
    · rw [hb, escape_cons_zero, unitCount, if_pos rfl, ih]
      rfl
    · rw [escape_cons_of_ne _ _ hb, unitCount_cons_of_ne hb, ih]
      rfl

theorem escapedBytesLen_tail {tail : Bytes} (ht : Closes tail) (n : ℕ) :
    escapedBytesLen n tail = some 0 ↔ n = 0 := by
  cases n with
  | zero => exact ⟨fun _ => rfl, fun _ => rfl⟩
  | succ n =>
    rcases ht with rfl | ⟨rest, rfl⟩
    · simp [escapedBytesLen]
    · simp [escapedBytesLen]

/-- `n` escaped bytes end where `x` does exactly when `x` is `n` of them. -/
theorem escapedBytesLen_iff {tail : Bytes} (ht : Closes tail) : ∀ (x : Bytes) (n : ℕ),
    escapedBytesLen n (x ++ tail) = some x.length ↔ unitCount x = some n
  | [], n => by
    rw [List.nil_append, List.length_nil, escapedBytesLen_tail ht, unitCount, Option.some.injEq]
    exact eq_comm
  | [b], 0 => by
    by_cases hb : b = 0
    · simp [escapedBytesLen, unitCount, hb]
    · simp [escapedBytesLen, unitCount, hb]
  | [b], n + 1 => by
    by_cases hb : b = 0
    · simp [escapedBytesLen, unitCount, hb]
    · have hn := escapedBytesLen_tail ht n
      simpa [escapedBytesLen, unitCount, hb, eq_comm (a := 0)] using hn
  | b :: c :: x, 0 => by
    simp [escapedBytesLen, unitCount]
  | b :: c :: x, n + 1 => by
    by_cases hb : b = 0
    · have hn := escapedBytesLen_iff ht x n
      simpa [escapedBytesLen, unitCount, hb] using hn
    · have hn := escapedBytesLen_iff ht (c :: x) n
      simpa [escapedBytesLen, unitCount, hb] using hn

/-! ## Values -/

/-- The BinData whose key says where it ends to a reader of mongod's order: the length, a subtype, the
    bytes. -/
def BinaryDelimited (o : BinDataOrder) (b : Binary) : Prop :=
  match o with
  | .mongod => True
  | .format4 => b.bytes.head? = some 0
  | .bytes =>
    5 ≤ (encodeBinary .bytes b).length ∧
      unitCount ((encodeBinary .bytes b).drop 5) = some (ofBeBytes ((encodeBinary .bytes b).take 4))

/-- The values whose keys say where they end. -/
def SelfDelimiting (o : BinDataOrder) (v : Bson) : Prop :=
  match asRawText v with
  | some (t, _) => t ≠ .regex ∧ t ≠ .javaScriptScope
  | none =>
    match v with
    | .maxKey => o ≠ .format4
    | .binary b => BinaryDelimited o b
    | _ => True

theorem valueLen_iff (rank : UInt8) (body tail : Bytes) :
    valueLen (rank :: body ++ tail) = some (rank :: body).length ↔
      bodyLen rank (body ++ tail) = some body.length := by
  rw [List.cons_append, valueLen]
  cases bodyLen rank (body ++ tail) with
  | none => simp
  | some n =>
    simp only [Option.bind_eq_bind, Option.bind_some, List.length_cons, List.length_append]
    by_cases hn : n ≤ body.length + tail.length
    · rw [if_pos hn, Option.some.injEq, Option.some.injEq]
      omega
    · rw [if_neg hn, Option.some.injEq]
      exact ⟨nofun, fun h => absurd (h ▸ Nat.le_add_right _ _) hn⟩

theorem bodyLen_binData_iff (body : Bytes) {tail : Bytes} (ht : Closes tail) :
    bodyLen rankBinData (body ++ tail) = some body.length ↔
      5 ≤ body.length ∧ unitCount (body.drop 5) = some (ofBeBytes (body.take 4)) := by
  have hread : bodyLen rankBinData (body ++ tail) =
      if (body ++ tail).length < 4 then none
      else (escapedBytesLen (ofBeBytes ((body ++ tail).take 4)) ((body ++ tail).drop 5)).map (5 + ·) := rfl
  rw [hread]
  by_cases hlen : 5 ≤ body.length
  · have htake : (body ++ tail).take 4 = body.take 4 := List.take_append_of_le_length (by omega)
    have hdrop : (body ++ tail).drop 5 = body.drop 5 ++ tail := List.drop_append_of_le_length hlen
    rw [if_neg (by rw [List.length_append]; omega), htake, hdrop, ← escapedBytesLen_iff ht,
      and_iff_right hlen, Option.map_eq_some_iff, List.length_drop]
    constructor
    · rintro ⟨n, hn, hsum⟩
      rw [hn, Option.some.injEq]
      omega
    · intro hn
      exact ⟨_, hn, by omega⟩
  · refine iff_of_false ?_ fun h => hlen h.1
    split
    · exact nofun
    · rw [Option.map_eq_some_iff]
      rintro ⟨n, -, hsum⟩
      omega

theorem binaryDelimited_iff (o : BinDataOrder) (b : Binary) :
    (5 ≤ (encodeBinary o b).length ∧
      unitCount ((encodeBinary o b).drop 5) = some (ofBeBytes ((encodeBinary o b).take 4))) ↔
      BinaryDelimited o b := by
  have hsize : b.bytes.length < 256 ^ 4 := Nat.lt_trans b.size_lt (by decide)
  have hbe := length_beBytes 4 b.bytes.length
  cases o with
  | bytes => exact Iff.rfl
  | mongod =>
    have htake : (encodeBinary .mongod b).take 4 = beBytes 4 b.bytes.length := by
      show ((beBytes 4 b.bytes.length ++ [b.subtype]) ++ escape b.bytes).take 4 = _
      rw [List.append_assoc]
      exact List.take_left' hbe
    have hdrop : (encodeBinary .mongod b).drop 5 = escape b.bytes := by
      show ((beBytes 4 b.bytes.length ++ [b.subtype]) ++ escape b.bytes).drop 5 = _
      exact List.drop_left' (by rw [List.length_append, hbe]; rfl)
    have hlen : 5 ≤ (encodeBinary .mongod b).length := by
      show 5 ≤ ((beBytes 4 b.bytes.length ++ [b.subtype]) ++ escape b.bytes).length
      simp only [List.length_append, hbe, List.length_singleton]
      omega
    rw [htake, hdrop, unitCount_escape, ofBeBytes_beBytes hsize]
    exact iff_of_true ⟨hlen, rfl⟩ trivial
  | format4 =>
    have htake : (encodeBinary .format4 b).take 4 = beBytes 4 b.bytes.length := List.take_left' hbe
    have hdrop : (encodeBinary .format4 b).drop 5 = (escape b.bytes).drop 1 := by
      show (beBytes 4 b.bytes.length ++ escape b.bytes).drop (4 + 1) = _
      rw [← List.drop_drop, List.drop_left' hbe]
    have hlen : (encodeBinary .format4 b).length = 4 + (escape b.bytes).length := by
      show (beBytes 4 b.bytes.length ++ escape b.bytes).length = _
      rw [List.length_append, hbe]
    rw [htake, hdrop, hlen, ofBeBytes_beBytes hsize]
    show _ ↔ b.bytes.head? = some 0
    generalize b.bytes = x
    cases x with
    | nil => exact iff_of_false (fun h => absurd h.1 (by decide)) nofun
    | cons x rest =>
      by_cases hx : x = 0x00
      · have hesc : escape (x :: rest) = 0x00 :: 0xFF :: escape rest := by
          rw [hx]
          exact escape_cons_zero 0x00 0xFF rest
        rw [hesc, List.drop_succ_cons, List.drop_zero, unitCount_cons_of_ne (by decide), unitCount_escape,
          List.head?_cons, hx]
        exact iff_of_true ⟨by simp only [List.length_cons]; omega, rfl⟩ rfl
      · have hesc : escape (x :: rest) = x :: escape rest := escape_cons_of_ne 0x00 0xFF hx rest
        rw [hesc, List.drop_succ_cons, List.drop_zero, unitCount_escape, List.head?_cons, List.length_cons]
        refine iff_of_false (fun h => ?_) fun h => hx (Option.some.inj h)
        have h2 := Option.some.inj h.2
        rw [List.length_cons] at h2
        omega

theorem bodyLen_escape {rank : UInt8} (hr : rank = rankString ∨ rank = rankJavaScript) (x : Bytes)
    {tail : Bytes} (ht : Closes tail) : bodyLen rank (escape x ++ tail) = some (escape x).length := by
  rcases hr with rfl | rfl
  · show some (escapedLen (escape x ++ tail)) = _
    rw [escapedLen_escape x ht]
  · show some (escapedLen (escape x ++ tail)) = _
    rw [escapedLen_escape x ht]

theorem bodyLen_rankRegex (body : Bytes) :
    bodyLen rankRegex body = (stripSep (body.drop (escapedLen body))).bind fun rest =>
      some (escapedLen body + 2 + escapedLen rest) := rfl

theorem bodyLen_rankJavaScriptScope (body : Bytes) :
    bodyLen rankJavaScriptScope body = (stripSep (body.drop (escapedLen body))).bind fun rest =>
      (elementsLen true rest).bind fun scope => some (escapedLen body + 2 + scope) := rfl

/-- A text alone is not all a regex or a scoped JavaScript is read as. -/
theorem bodyLen_escape_ne {rank : UInt8} (hr : rank = rankRegex ∨ rank = rankJavaScriptScope) (x : Bytes)
    {tail : Bytes} (ht : Closes tail) : bodyLen rank (escape x ++ tail) ≠ some (escape x).length := by
  have hlen := escapedLen_escape x ht
  intro h
  rcases hr with rfl | rfl
  · rw [bodyLen_rankRegex, hlen] at h
    obtain ⟨rest, -, h⟩ := Option.bind_eq_some_iff.mp h
    have h := Option.some.inj h
    omega
  · rw [bodyLen_rankJavaScriptScope, hlen] at h
    obtain ⟨rest, -, h⟩ := Option.bind_eq_some_iff.mp h
    obtain ⟨scope, -, h⟩ := Option.bind_eq_some_iff.mp h
    have h := Option.some.inj h
    omega

theorem bodyLen_scoped (code : Bytes) {o : BinDataOrder} {scope : Document} {k : Bytes}
    (h : encodeDoc o scope = .ok k) (tail : Bytes) :
    bodyLen rankJavaScriptScope (escape code ++ compoundSep ++ k ++ tail) =
      some (escape code ++ compoundSep ++ k).length := by
  have hlen := escapedLen_escape code (Or.inr ⟨k ++ tail, rfl⟩ : Closes (compoundSep ++ (k ++ tail)))
  have hstrip : stripSep (compoundSep ++ (k ++ tail)) = some (k ++ tail) := rfl
  rw [List.append_assoc, List.append_assoc, bodyLen_rankJavaScriptScope, hlen, List.drop_left, hstrip,
    Option.bind_some, elementsLen_encodeDoc tail scope h, Option.bind_some]
  simp only [List.length_append, compoundSep, List.length_cons, List.length_nil]

theorem bodyLen_regex (pattern options : Bytes) {tail : Bytes} (ht : Closes tail) :
    bodyLen rankRegex (escape pattern ++ compoundSep ++ escape options ++ tail) =
      some (escape pattern ++ compoundSep ++ escape options).length := by
  have hlen := escapedLen_escape pattern
    (Or.inr ⟨escape options ++ tail, rfl⟩ : Closes (compoundSep ++ (escape options ++ tail)))
  have hstrip : stripSep (compoundSep ++ (escape options ++ tail)) = some (escape options ++ tail) := rfl
  rw [List.append_assoc, List.append_assoc, bodyLen_rankRegex, hlen, List.drop_left, hstrip,
    Option.bind_some, escapedLen_escape options ht]
  simp only [List.length_append, compoundSep, List.length_cons, List.length_nil]

theorem bodyLen_minKey {tail : Bytes} (ht : Closes tail) : bodyLen rankMinKey tail = some 0 := by
  rcases ht with rfl | ⟨rest, rfl⟩ <;> rfl

theorem length_signedInt64Sortable (n : Int64) : (signedInt64Sortable n).length = 8 := length_beBytes 8 _

/-- A key is read at its own length exactly when its value's key says where it ends. -/
theorem valueLen_encodeValue {o : BinDataOrder} {v : Bson} {k : Bytes} (h : encodeValue o v = .ok k)
    {tail : Bytes} (ht : Closes tail) : valueLen (k ++ tail) = some k.length ↔ SelfDelimiting o v := by
  unfold encodeValue at h
  unfold SelfDelimiting
  rcases hr : asRawText v with _ | ⟨t, raw⟩
  rotate_left
  · rw [hr] at h
    dsimp only at h ⊢
    cases t with
    | dbPointer => cases h
    | regex =>
      obtain rfl := Except.ok.inj h
      rw [valueLen_iff]
      exact iff_of_false (bodyLen_escape_ne (.inl rfl) _ ht) fun h => h.1 rfl
    | javaScriptScope =>
      obtain rfl := Except.ok.inj h
      rw [valueLen_iff]
      exact iff_of_false (bodyLen_escape_ne (.inr rfl) _ ht) fun h => h.2 rfl
    | javaScript =>
      obtain rfl := Except.ok.inj h
      rw [valueLen_iff]
      exact iff_of_true (bodyLen_escape (.inr rfl) _ ht) ⟨RawType.noConfusion, RawType.noConfusion⟩
    | symbol =>
      obtain rfl := Except.ok.inj h
      rw [valueLen_iff]
      exact iff_of_true (bodyLen_escape (.inl rfl) _ ht) ⟨RawType.noConfusion, RawType.noConfusion⟩
  · rw [hr] at h
    dsimp only at h ⊢
    rcases hi : asInvalidUtf8 v with _ | bytes
    rotate_left
    · rw [hi] at h
      obtain rfl := Except.ok.inj h
      rw [valueLen_iff]
      cases v <;> first
        | exact iff_of_true (bodyLen_escape (.inl rfl) _ ht) trivial
        | cases hi
    · rw [hi] at h
      dsimp only at h
      cases v with
      | document d =>
        obtain ⟨x, hx, hk⟩ := Outcome.bind_eq_ok.mp h
        obtain rfl := Except.ok.inj hk
        rw [valueLen_iff]
        exact iff_of_true (elementsLen_encodeDoc tail d hx) trivial
      | array l =>
        obtain ⟨x, hx, hk⟩ := Outcome.bind_eq_ok.mp h
        obtain rfl := Except.ok.inj hk
        rw [valueLen_iff]
        exact iff_of_true (elementsLen_encodeArray tail l hx) trivial
      | javaScriptCodeWithScope code scope =>
        dsimp only at h
        split at h
        · obtain rfl := Except.ok.inj h
          rw [valueLen_iff]
          exact iff_of_true (bodyLen_escape (.inr rfl) _ ht) trivial
        · obtain ⟨x, hx, hk⟩ := Outcome.bind_eq_ok.mp h
          obtain rfl := Except.ok.inj hk
          rw [valueLen_iff]
          exact iff_of_true (bodyLen_scoped _ hx tail) trivial
      | symbol s => cases h
      | dbPointer ns id => cases h
      | maxKey =>
        obtain rfl := Except.ok.inj h
        rw [valueLen_iff]
        by_cases ho : o = .format4
        · rw [if_pos ho]
          exact iff_of_false (bodyLen_escape_ne (.inr rfl) [] ht) fun h => h ho
        · rw [if_neg ho]
          exact iff_of_true rfl ho
      | binary b =>
        obtain rfl := Except.ok.inj h
        rw [valueLen_iff]
        exact (bodyLen_binData_iff _ ht).trans (binaryDelimited_iff o b)
      | regularExpression r =>
        obtain rfl := Except.ok.inj h
        rw [valueLen_iff]
        exact iff_of_true (bodyLen_regex _ _ ht) trivial
      | string s =>
        obtain rfl := Except.ok.inj h
        rw [valueLen_iff]
        exact iff_of_true (bodyLen_escape (.inl rfl) _ ht) trivial
      | javaScriptCode s =>
        obtain rfl := Except.ok.inj h
        rw [valueLen_iff]
        exact iff_of_true (bodyLen_escape (.inr rfl) _ ht) trivial
      | minKey =>
        obtain rfl := Except.ok.inj h
        rw [valueLen_iff]
        exact iff_of_true (bodyLen_minKey ht) trivial
      | objectId oid =>
        obtain rfl := Except.ok.inj h
        rw [valueLen_iff]
        exact iff_of_true (congrArg some oid.size_eq.symm) trivial
      | dateTime n =>
        obtain rfl := Except.ok.inj h
        rw [valueLen_iff]
        exact iff_of_true (congrArg some (length_signedInt64Sortable n).symm) trivial
      | int32 n =>
        obtain rfl := Except.ok.inj h
        rw [valueLen_iff]
        exact iff_of_true (numberLen_encodeNumber rfl tail) trivial
      | int64 n =>
        obtain rfl := Except.ok.inj h
        rw [valueLen_iff]
        exact iff_of_true (numberLen_encodeNumber rfl tail) trivial
      | double d =>
        obtain rfl := Except.ok.inj h
        rw [valueLen_iff]
        exact iff_of_true (numberLen_encodeNumber rfl tail) trivial
      | decimal128 d =>
        obtain rfl := Except.ok.inj h
        rw [valueLen_iff]
        exact iff_of_true (numberLen_encodeNumber rfl tail) trivial
      | _ =>
        obtain rfl := Except.ok.inj h
        rw [valueLen_iff]
        exact iff_of_true rfl trivial

end Secantus.SortKey
