/-
  `hstore` values in the binary format (hstore.rs of secantus-pgplan): `to_binary` and `from_binary`.

  Lengths go out as `i32`, a NULL value as `-1`. A slice is taken with `get`, which answers nothing past the
  end, and its bytes are then indexed; an index out of range is the error `outOfRange`.

  * `fromBinary_toBinary_iff`: a canonical value reads back exactly when its lengths fit;
  * `fromBinary_inRange`, `readPairs_pos`: no read is out of range, and the position stays within the bytes.
-/
import Secantus.Hstore.Text
import Secantus.Library.Outcome

namespace Secantus.Hstore

open Secantus.Library ByteOrder

/-! ## Writing -/

/-- `n as i32`. -/
def asI32 (n : ℕ) : ℤ := Int.bmod n (2 ^ 32)

/-- `i32::to_be_bytes`. -/
def i32Bytes (n : ℤ) : List UInt8 := beBytes 4 (n % 2 ^ 32).toNat

def valueBytes : Option String → List UInt8
  | some v => i32Bytes (asI32 v.utf8ByteSize) ++ bytesOf v
  | none => i32Bytes (-1)

def pairBytes (pair : String × Option String) : List UInt8 :=
  i32Bytes (asI32 pair.1.utf8ByteSize) ++ bytesOf pair.1 ++ valueBytes pair.2

def toBinary (pairs : Pairs) : List UInt8 := i32Bytes (asI32 pairs.length) ++ pairs.flatMap pairBytes

/-! ## Reading -/

/-- `i32::from_be_bytes`. -/
def ofI32Bytes (bs : List UInt8) : ℤ := Int.bmod (ofBeBytes bs) (2 ^ 32)

/-- `bytes.get(pos..pos + len)`. -/
def slice (bytes : List UInt8) (pos len : ℕ) : Option (List UInt8) :=
  if pos + len ≤ bytes.length then some ((bytes.drop pos).take len) else none

/-- `s[i]`, which panics out of range. -/
def index (s : List UInt8) (i : ℕ) : Except Error UInt8 :=
  match s[i]? with
  | some b => .ok b
  | none => .error .outOfRange

def bad : Error := .invalidText "insufficient data left in message"

/-- `read_i32`: the number, and the position behind it. -/
def readI32 (bytes : List UInt8) (pos : ℕ) : Except Error (ℤ × ℕ) :=
  match slice bytes pos 4 with
  | none => .error bad
  | some s => do
    let s0 ← index s 0
    let s1 ← index s 1
    let s2 ← index s 2
    let s3 ← index s 3
    return (ofI32Bytes [s0, s1, s2, s3], pos + 4)

def readStr (bytes : List UInt8) (pos : ℕ) (len : ℤ) : Except Error (String × ℕ) :=
  if len < 0 then .error bad
  else
    match slice bytes pos len.toNat with
    | none => .error bad
    | some s =>
      match fromUtf8? s with
      | none => .error (.invalidText "invalid byte sequence for encoding \"UTF8\"")
      | some t => .ok (t, pos + len.toNat)

/-- The value of one pair. -/
def readOptional (bytes : List UInt8) (pos : ℕ) (len : ℤ) : Except Error (Option String × ℕ) :=
  if len < 0 then .ok (none, pos)
  else do
    let (value, pos) ← readStr bytes pos len
    return (some value, pos)

/-- One pair. -/
def readPair (bytes : List UInt8) (pos : ℕ) : Except Error ((String × Option String) × ℕ) := do
  let (klen, pos) ← readI32 bytes pos
  if klen < 0 then .error (.invalidText "null value not allowed for hstore key")
  else do
    let (key, pos) ← readStr bytes pos klen
    let (vlen, pos) ← readI32 bytes pos
    let (value, pos) ← readOptional bytes pos vlen
    return ((key, value), pos)

/-- The loop over the pairs. -/
def readPairs (bytes : List UInt8) : ℕ → ℕ → Except Error (Pairs × ℕ)
  | 0, pos => .ok ([], pos)
  | n + 1, pos => do
    let (pair, pos) ← readPair bytes pos
    let (pairs, pos) ← readPairs bytes n pos
    return (pair :: pairs, pos)

def fromBinary (bytes : List UInt8) : Except Error Pairs := do
  let (count, pos) ← readI32 bytes 0
  if count < 0 then .error (.invalidText ("invalid number of pairs " ++ toString count))
  else do
    let (pairs, _) ← readPairs bytes count.toNat pos
    return unique pairs

/-! ## What a read takes -/

section Reads

variable {bytes : List UInt8} {pos : ℕ}

theorem slice_eq_some {len : ℕ} {s : List UInt8} (h : slice bytes pos len = some s) :
    pos + len ≤ bytes.length ∧ s.length = len := by
  unfold slice at h
  split at h
  · rename_i hle
    cases h
    refine ⟨hle, ?_⟩
    rw [List.length_take, List.length_drop]
    omega
  · cases h

theorem readI32_cases (bytes : List UInt8) (pos : ℕ) :
    (slice bytes pos 4 = none ∧ readI32 bytes pos = .error bad) ∨
      ∃ s, slice bytes pos 4 = some s ∧ readI32 bytes pos = .ok (ofI32Bytes s, pos + 4) := by
  unfold readI32
  cases hs : slice bytes pos 4 with
  | none => exact .inl ⟨rfl, rfl⟩
  | some s =>
    have hlen := (slice_eq_some hs).2
    match s, hlen with
    | [s0, s1, s2, s3], _ => exact .inr ⟨_, rfl, rfl⟩

theorem readI32_eq_ok {n : ℤ} {pos' : ℕ} (h : readI32 bytes pos = .ok (n, pos')) :
    pos' ≤ bytes.length ∧ n < 2 ^ 31 := by
  rcases readI32_cases bytes pos with ⟨-, he⟩ | ⟨s, hs, he⟩
  · rw [he] at h
    cases h
  · rw [he] at h
    obtain ⟨hn, hpos⟩ := Prod.mk.inj (Except.ok.inj h)
    rw [← hn, ← hpos]
    refine ⟨(slice_eq_some hs).1, ?_⟩
    have hlt := Int.bmod_lt (x := (ofBeBytes s : ℤ)) (m := 2 ^ 32) (by decide)
    have hhalf : (((2 ^ 32 : ℕ) : ℤ) + 1) / 2 = 2 ^ 31 := by norm_num
    rw [hhalf] at hlt
    exact hlt

theorem readStr_eq_ok {len : ℤ} {t : String} {pos' : ℕ} (h : readStr bytes pos len = .ok (t, pos')) :
    pos' ≤ bytes.length ∧ t.utf8ByteSize = len.toNat := by
  unfold readStr at h
  split at h
  · cases h
  · split at h
    · cases h
    · rename_i s hs
      split at h
      · cases h
      · rename_i t' ht
        cases h
        obtain ⟨hle, hlen⟩ := slice_eq_some hs
        refine ⟨hle, ?_⟩
        rw [← hlen, ← fromUtf8?_eq_some_iff.mp ht]
        rfl

end Reads

theorem readI32_ne_outOfRange (bytes : List UInt8) (pos : ℕ) : readI32 bytes pos ≠ .error .outOfRange := by
  rcases readI32_cases bytes pos with ⟨-, he⟩ | ⟨s, -, he⟩
  · rw [he]
    decide
  · rw [he]
    exact fun h => by cases h

theorem readStr_ne_outOfRange (bytes : List UInt8) (pos : ℕ) (len : ℤ) :
    readStr bytes pos len ≠ .error .outOfRange := by
  unfold readStr
  split_ifs
  · decide
  · split
    · decide
    · split
      · decide
      · exact fun h => by cases h

/-- The sizes the format holds. -/
def FitsPair (pair : String × Option String) : Prop :=
  pair.1.utf8ByteSize < 2 ^ 31 ∧ ∀ v ∈ pair.2, v.utf8ByteSize < 2 ^ 31

theorem readOptional_eq_ok {bytes : List UInt8} {pos pos' : ℕ} {len : ℤ} {value : Option String}
    (hpos : pos ≤ bytes.length) (hlen : len < 2 ^ 31) (h : readOptional bytes pos len = .ok (value, pos')) :
    pos' ≤ bytes.length ∧ ∀ v ∈ value, v.utf8ByteSize < 2 ^ 31 := by
  unfold readOptional at h
  split at h
  · cases h
    exact ⟨hpos, by simp⟩
  · obtain ⟨⟨v, p⟩, hv, h⟩ := Outcome.bind_eq_ok.mp h
    cases h
    obtain ⟨hle, hsize⟩ := readStr_eq_ok hv
    refine ⟨hle, ?_⟩
    intro w hw
    obtain rfl : v = w := by simpa using hw
    omega

theorem readPair_eq_ok {bytes : List UInt8} {pos pos' : ℕ} {pair : String × Option String}
    (h : readPair bytes pos = .ok (pair, pos')) : pos' ≤ bytes.length ∧ FitsPair pair := by
  obtain ⟨⟨klen, p1⟩, h1, h⟩ := Outcome.bind_eq_ok.mp h
  dsimp only at h
  split at h
  · cases h
  · obtain ⟨⟨key, p2⟩, h2, h⟩ := Outcome.bind_eq_ok.mp h
    obtain ⟨⟨vlen, p3⟩, h3, h⟩ := Outcome.bind_eq_ok.mp h
    obtain ⟨⟨value, p4⟩, h4, h⟩ := Outcome.bind_eq_ok.mp h
    cases h
    have hk := readI32_eq_ok h1
    have hv := readI32_eq_ok h3
    obtain ⟨hle, hvalue⟩ := readOptional_eq_ok hv.1 hv.2 h4
    refine ⟨hle, ?_, hvalue⟩
    have hkey := (readStr_eq_ok h2).2
    have := hk.2
    dsimp only
    omega

theorem readPairs_pos {bytes : List UInt8} {n pos pos' : ℕ} {pairs : Pairs} (hpos : pos ≤ bytes.length)
    (h : readPairs bytes n pos = .ok (pairs, pos')) :
    pos' ≤ bytes.length ∧ pairs.length = n ∧ ∀ pair ∈ pairs, FitsPair pair := by
  induction n generalizing pos pairs with
  | zero =>
    cases h
    exact ⟨hpos, rfl, by simp⟩
  | succ n ih =>
    obtain ⟨⟨pair, p1⟩, h1, h⟩ := Outcome.bind_eq_ok.mp h
    obtain ⟨⟨rest, p2⟩, h2, h⟩ := Outcome.bind_eq_ok.mp h
    cases h
    obtain ⟨hle, hfits⟩ := readPair_eq_ok h1
    obtain ⟨hle', hlen, hall⟩ := ih hle h2
    exact ⟨hle', by rw [List.length_cons, hlen], List.forall_mem_cons.mpr ⟨hfits, hall⟩⟩

theorem readPair_ne_outOfRange (bytes : List UInt8) (pos : ℕ) :
    readPair bytes pos ≠ .error .outOfRange := by
  apply Outcome.bind_ne_error (readI32_ne_outOfRange bytes pos)
  rintro ⟨klen, p1⟩ -
  dsimp only
  split
  · decide
  · apply Outcome.bind_ne_error (readStr_ne_outOfRange _ _ _)
    rintro ⟨key, p2⟩ -
    apply Outcome.bind_ne_error (readI32_ne_outOfRange _ _)
    rintro ⟨vlen, p3⟩ -
    apply Outcome.bind_ne_error
    · unfold readOptional
      split
      · exact fun h => by cases h
      · apply Outcome.bind_ne_error (readStr_ne_outOfRange _ _ _)
        rintro ⟨v, p⟩ - h
        cases h
    · rintro ⟨value, p4⟩ - h
      cases h

theorem readPairs_ne_outOfRange (bytes : List UInt8) (n pos : ℕ) :
    readPairs bytes n pos ≠ .error .outOfRange := by
  induction n generalizing pos with
  | zero => exact fun h => by cases h
  | succ n ih =>
    apply Outcome.bind_ne_error (readPair_ne_outOfRange bytes pos)
    rintro ⟨pair, p1⟩ -
    apply Outcome.bind_ne_error (ih p1)
    rintro ⟨rest, p2⟩ - h
    cases h

theorem fromBinary_inRange (bytes : List UInt8) : fromBinary bytes ≠ .error .outOfRange := by
  apply Outcome.bind_ne_error (readI32_ne_outOfRange bytes 0)
  rintro ⟨count, p1⟩ -
  dsimp only
  split
  · exact fun h => by cases h
  · apply Outcome.bind_ne_error (readPairs_ne_outOfRange _ _ _)
    rintro ⟨pairs, p2⟩ - h
    cases h

/-- The values whose lengths the format holds. -/
structure Fits (pairs : Pairs) : Prop where
  count : pairs.length < 2 ^ 31
  each : ∀ pair ∈ pairs, FitsPair pair

theorem fits_of_fromBinary {bytes : List UInt8} {pairs : Pairs} (h : fromBinary bytes = .ok pairs) :
    Fits pairs := by
  obtain ⟨⟨count, p1⟩, h1, h⟩ := Outcome.bind_eq_ok.mp h
  dsimp only at h
  split at h
  · cases h
  · obtain ⟨⟨read, p2⟩, h2, h⟩ := Outcome.bind_eq_ok.mp h
    cases h
    obtain ⟨hle, hcount⟩ := readI32_eq_ok h1
    obtain ⟨-, hlen, hall⟩ := readPairs_pos hle h2
    have hsub := firsts_sublist [] read
    rw [List.nil_append] at hsub
    have hperm := unique_perm read
    refine ⟨?_, fun pair hpair => hall pair (hsub.subset (hperm.subset hpair))⟩
    have hshort : (unique read).length ≤ read.length := hperm.length_eq.trans_le hsub.length_le
    change (unique read).length < 2 ^ 31
    omega

/-! ## The round trip -/

theorem asI32_of_lt {n : ℕ} (h : n < 2 ^ 31) : asI32 n = n := by
  unfold asI32
  apply Int.bmod_eq_of_le
  · omega
  · omega

theorem ofI32Bytes_i32Bytes {n : ℤ} (h : -2 ^ 31 ≤ n ∧ n < 2 ^ 31) : ofI32Bytes (i32Bytes n) = n := by
  have hlt : (n % 2 ^ 32).toNat < 256 ^ 4 := by
    have := Int.emod_lt_of_pos n (by decide : (0 : ℤ) < 2 ^ 32)
    omega
  have hnn := Int.emod_nonneg n (by decide : (2 ^ 32 : ℤ) ≠ 0)
  unfold ofI32Bytes i32Bytes
  rw [ofBeBytes_beBytes hlt, Int.toNat_of_nonneg hnn]
  have hmod : (n % 2 ^ 32 : ℤ) = n % ((2 ^ 32 : ℕ) : ℤ) := by norm_num
  rw [hmod, Int.emod_bmod]
  apply Int.bmod_eq_of_le
  · omega
  · omega

section Behind

variable (before rest : List UInt8)

theorem slice_behind (s : List UInt8) : slice (before ++ s ++ rest) before.length s.length = some s := by
  unfold slice
  rw [if_pos (by simp), List.append_assoc, List.drop_left, List.take_left]

theorem readI32_behind {n : ℤ} (h : -2 ^ 31 ≤ n ∧ n < 2 ^ 31) :
    readI32 (before ++ i32Bytes n ++ rest) before.length = .ok (n, before.length + 4) := by
  have hlen : (i32Bytes n).length = 4 := length_beBytes 4 _
  have hslice := slice_behind before rest (i32Bytes n)
  rw [hlen] at hslice
  rcases readI32_cases (before ++ i32Bytes n ++ rest) before.length with ⟨hs, -⟩ | ⟨s, hs, he⟩
  · rw [hslice] at hs
    cases hs
  · rw [hslice] at hs
    cases hs
    rw [he, ofI32Bytes_i32Bytes h]

theorem readStr_behind (t : String) :
    readStr (before ++ bytesOf t ++ rest) before.length t.utf8ByteSize =
      .ok (t, before.length + t.utf8ByteSize) := by
  have hslice : slice (before ++ bytesOf t ++ rest) before.length t.utf8ByteSize = some (bytesOf t) :=
    slice_behind before rest (bytesOf t)
  rw [readStr, if_neg (by omega), Int.toNat_natCast, hslice]
  dsimp only
  rw [fromUtf8?_bytesOf]

/-- The length a value is sent with. -/
def valueLen : Option String → ℤ
  | some v => v.utf8ByteSize
  | none => -1

/-- The bytes behind its length. -/
def valueBody : Option String → List UInt8
  | some v => bytesOf v
  | none => []

theorem valueBytes_eq {value : Option String} (h : ∀ v ∈ value, v.utf8ByteSize < 2 ^ 31) :
    valueBytes value = i32Bytes (valueLen value) ++ valueBody value := by
  cases value with
  | none => rw [valueBytes, valueBody, List.append_nil]; rfl
  | some v => rw [valueBytes, asI32_of_lt (h v rfl)]; rfl

theorem valueLen_range {value : Option String} (h : ∀ v ∈ value, v.utf8ByteSize < 2 ^ 31) :
    -2 ^ 31 ≤ valueLen value ∧ valueLen value < 2 ^ 31 := by
  cases value with
  | none => exact ⟨by decide, by decide⟩
  | some v =>
    have := h v rfl
    change -2 ^ 31 ≤ (v.utf8ByteSize : ℤ) ∧ (v.utf8ByteSize : ℤ) < 2 ^ 31
    omega

theorem readOptional_behind (value : Option String) :
    readOptional (before ++ valueBody value ++ rest) before.length (valueLen value) =
      .ok (value, before.length + (valueBody value).length) := by
  cases value with
  | none => rfl
  | some v =>
    have hread := readStr_behind before rest v
    change readOptional (before ++ bytesOf v ++ rest) before.length (v.utf8ByteSize : ℤ) = _
    rw [readOptional, if_neg (by omega), hread]
    rfl

theorem readPair_behind {pair : String × Option String} (h : FitsPair pair) :
    readPair (before ++ pairBytes pair ++ rest) before.length =
      .ok (pair, before.length + (pairBytes pair).length) := by
  obtain ⟨k, v⟩ := pair
  have hk : k.utf8ByteSize < 2 ^ 31 := h.1
  have hkrange : -2 ^ 31 ≤ (k.utf8ByteSize : ℤ) ∧ (k.utf8ByteSize : ℤ) < 2 ^ 31 := by omega
  have hpair : pairBytes (k, v) = i32Bytes k.utf8ByteSize ++ bytesOf k ++
      i32Bytes (valueLen v) ++ valueBody v := by
    rw [pairBytes, asI32_of_lt hk, valueBytes_eq h.2]
    simp only [List.append_assoc]
  have hlen4 : ∀ n, (i32Bytes n).length = 4 := fun n => length_beBytes 4 _
  have hksize : (bytesOf k).length = k.utf8ByteSize := rfl
  have h1 := readI32_behind before (bytesOf k ++ i32Bytes (valueLen v) ++ valueBody v ++ rest) hkrange
  have h2 := readStr_behind (before ++ i32Bytes k.utf8ByteSize)
    (i32Bytes (valueLen v) ++ valueBody v ++ rest) k
  have h3 := readI32_behind (before ++ i32Bytes k.utf8ByteSize ++ bytesOf k) (valueBody v ++ rest)
    (valueLen_range h.2)
  have h4 := readOptional_behind (before ++ i32Bytes k.utf8ByteSize ++ bytesOf k ++ i32Bytes (valueLen v))
    rest v
  simp only [List.append_assoc, List.length_append, hlen4, hksize] at h1 h2 h3 h4
  rw [hpair]
  simp only [List.append_assoc, List.length_append, hlen4, hksize]
  rw [readPair, h1]
  dsimp only [bind, Except.bind]
  rw [if_neg (by omega), h2]
  dsimp only
  rw [← Nat.add_assoc] at h3
  rw [h3]
  dsimp only
  rw [← Nat.add_assoc, ← Nat.add_assoc] at h4
  rw [h4]
  simp only [pure, Except.pure, Nat.add_assoc]

theorem readPairs_behind {pairs : Pairs} (h : ∀ pair ∈ pairs, FitsPair pair) :
    readPairs (before ++ pairs.flatMap pairBytes ++ rest) pairs.length before.length =
      .ok (pairs, before.length + (pairs.flatMap pairBytes).length) := by
  induction pairs generalizing before with
  | nil => rfl
  | cons pair pairs ih =>
    rw [List.forall_mem_cons] at h
    have h1 := readPair_behind before (pairs.flatMap pairBytes ++ rest) h.1
    have h2 := ih (before ++ pairBytes pair) h.2
    simp only [List.append_assoc, List.length_append] at h1 h2
    rw [List.flatMap_cons, List.length_cons, readPairs]
    simp only [List.append_assoc, List.length_append]
    rw [h1]
    dsimp only [bind, Except.bind]
    rw [h2]
    simp only [pure, Except.pure, Nat.add_assoc]

end Behind

theorem fromBinary_toBinary_iff {pairs : Pairs} (h : Canonical pairs) :
    fromBinary (toBinary pairs) = .ok pairs ↔ Fits pairs := by
  refine ⟨fits_of_fromBinary, fun hfits => ?_⟩
  have hcount := hfits.count
  have hrange : -2 ^ 31 ≤ (pairs.length : ℤ) ∧ (pairs.length : ℤ) < 2 ^ 31 := by omega
  have hlen : (i32Bytes (pairs.length : ℤ)).length = 4 := length_beBytes 4 _
  have h1 := readI32_behind [] (pairs.flatMap pairBytes) hrange
  have h2 := readPairs_behind (i32Bytes (pairs.length : ℤ)) [] hfits.each
  rw [List.append_nil, hlen] at h2
  rw [List.nil_append, List.length_nil, Nat.zero_add] at h1
  rw [fromBinary, toBinary, asI32_of_lt hcount, h1]
  dsimp only [bind, Except.bind]
  rw [if_neg (by omega), Int.toNat_natCast, h2]
  exact congrArg Except.ok (unique_of_canonical h)

/-! ## The codecs -/

/-- Text and bytes read back, `unique` keeps the first pair of each key, and reading stays in range. -/
theorem codecs {pairs : Pairs} (h : Canonical pairs) :
    parse (render pairs) = .ok pairs ∧
      (fromBinary (toBinary pairs) = .ok pairs ↔ Fits pairs) ∧
      (∀ ps : Pairs, unique (unique ps) = unique ps ∧
        ∀ k, (unique ps).filter (·.1 = k) = (ps.find? (·.1 = k)).toList) ∧
      ∀ bytes, fromBinary bytes ≠ .error .outOfRange :=
  ⟨parse_render h, fromBinary_toBinary_iff h,
    fun ps => ⟨unique_of_canonical (canonical_unique ps), filter_unique ps⟩, fromBinary_inRange⟩

/-- An empty key, a key of delimiters and a value that spells `NULL`. -/
theorem codecs_sample :
    parse (render [("", none), ("=>,\"", some "NULL")]) = .ok [("", none), ("=>,\"", some "NULL")] ∧
      (fromBinary (toBinary [("", none), ("=>,\"", some "NULL")]) =
          .ok [("", none), ("=>,\"", some "NULL")] ↔ Fits [("", none), ("=>,\"", some "NULL")]) ∧
      (∀ ps : Pairs, unique (unique ps) = unique ps ∧
        ∀ k, (unique ps).filter (·.1 = k) = (ps.find? (·.1 = k)).toList) ∧
      ∀ bytes, fromBinary bytes ≠ .error .outOfRange :=
  codecs ⟨by decide, by decide⟩

theorem utf8ByteSize_replicate (n : ℕ) : (String.ofList (List.replicate n 'a')).utf8ByteSize = n := by
  have hascii : ∀ c ∈ List.replicate n 'a', c.toNat < 128 := by
    intro c hc
    rw [List.eq_of_mem_replicate hc]
    decide
  have hlen := congrArg List.length (bytesOf_ofList_ascii hascii)
  rwa [List.length_map, List.length_replicate] at hlen

theorem not_fits_of_long {k : String} (h : 2 ^ 31 ≤ k.utf8ByteSize) : ¬Fits [(k, none)] := by
  intro hfits
  have hk : k.utf8ByteSize < 2 ^ 31 := (hfits.each (k, none) List.mem_cons_self).1
  omega

/-- A key of `2^31` letters: its length goes out as a negative number. -/
theorem fromBinary_toBinary_long :
    ¬∀ pairs : Pairs, Canonical pairs → fromBinary (toBinary pairs) = .ok pairs := by
  intro h
  have hcanonical (k : String) : Canonical [(k, none)] :=
    ⟨List.nodup_singleton _, List.pairwise_singleton _ _⟩
  have hsize := utf8ByteSize_replicate (2 ^ 31)
  generalize String.ofList (List.replicate (2 ^ 31) 'a') = k at hsize
  have hfits := (fromBinary_toBinary_iff (hcanonical k)).mp (h _ (hcanonical k))
  exact not_fits_of_long hsize.ge hfits

end Secantus.Hstore
