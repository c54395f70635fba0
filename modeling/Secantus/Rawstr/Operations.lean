/-
  Strings by their bytes (rawstr.rs) and by their characters (expressions.rs): lengths, substrings and
  searches.

  The raw functions count a character at each byte that does not continue one, and step over a character by
  the leading ones of its first byte. On the bytes of a string they answer as the ordinary functions do; the
  ordinary search wants its match before `end`, the raw one only the match's start.

  * `lenCp_bytesOf`, `substrCp_bytesOf`, `indexOfBytes_eq`: lengths, substrings and byte searches agree;
  * `indexOfCp_bytesOf`: so do character searches whose first match does not cross the end.
-/
import Secantus.Rawstr.Validate
import Mathlib.Data.Int.Notation
import Mathlib.Algebra.Order.Group.Unbundled.Int

namespace Secantus.Rawstr

open Secantus.Library

/-! ## The raw functions -/

/-- `u8::leading_ones`. -/
def leadingOnes (b : UInt8) : ℕ := ((List.range 8).takeWhile fun i => b.toNat.testBit (7 - i)).length

def codePointLength (b : UInt8) : ℕ := if b < 0x80 then 1 else leadingOnes b

def lenCp (bytes : List UInt8) : ℕ := (bytes.filter fun b => !isContinuation b).length

/-- `n as i32`. -/
def asI32 (n : ℕ) : ℤ := Int.bmod n (2 ^ 32)

/-- A refusal: mongod's code and message. -/
abbrev Refusal := ℤ × String

theorem codePointLength_pos (b : UInt8) : 0 < codePointLength b := by
  revert b
  apply forall_byte
  decide +kernel

/-- The first loop of `index_of_cp`, over what is left from `at`: the length in code points, and what is
    left where the search starts. -/
def measure (start length : ℕ) (startAt : Option (List UInt8)) :
    List UInt8 → Except Refusal (ℕ × Option (List UInt8))
  | [] => .ok (length, startAt)
  | b :: rest =>
    if isContinuation b then .error (40095, "$indexOfCP found bad UTF-8 in the input")
    else
      measure start (length + 1) (if length = start then some (b :: rest) else startAt)
        ((b :: rest).drop (codePointLength b))
termination_by bytes => bytes.length
decreasing_by
  have := codePointLength_pos b
  rw [List.length_drop, List.length_cons]
  omega

/-- The second: the code points from `cp`, `n` of them before the end. -/
def search (token : List UInt8) : (n cp : ℕ) → List UInt8 → Option ℕ
  | 0, _, _ => none
  | _ + 1, _, [] => none
  | n + 1, cp, b :: rest =>
    if token.isPrefixOf (b :: rest) then some cp
    else search token n (cp + 1) ((b :: rest).drop (codePointLength b))

def indexOfCp (input token : List UInt8) (start : ℕ) (end' : Option ℕ) : Except Refusal ℤ := do
  let (length, startAt) ← measure start 0 none input
  let stop := (end'.map (min · length)).getD length
  if stop < start then .ok (-1)
  else if token.isEmpty then .ok (asI32 start)
  else
    match startAt with
    | none => .ok (-1)
    | some rest => .ok (((search token (stop - start) start rest).map asI32).getD (-1))

/-- The first place in `hay` where `token`, which is not empty, is a whole window. -/
def position (hay token : List UInt8) : Option ℕ :=
  (List.range (hay.length + 1 - token.length)).find? fun i => (hay.drop i).take token.length = token

def indexOfBytes (input token : List UInt8) (start : ℕ) (end' : Option ℕ) : ℤ :=
  let stop := (end'.map (min · input.length)).getD input.length
  if stop < start then -1
  else if token.isEmpty then asI32 start
  else
    let hay := (input.take stop).drop (min start input.length)
    ((position hay token).map fun p => asI32 (start + p)).getD (-1)

/-- `INVALID`. -/
def invalid : String := "$substrCP: invalid UTF-8 string"

/-- The loop over the start: none when the input ends in it. -/
def skipChars (input : List UInt8) : (n s : ℕ) → Except Refusal (Option ℕ)
  | 0, s => .ok (some s)
  | n + 1, s =>
    match input[s]? with
    | none => .ok none
    | some b =>
      if isContinuation b then .error (34456, invalid)
      else if 4 < codePointLength b then .error (34457, invalid)
      else skipChars input n (s + codePointLength b)

/-- The loop over the length. -/
def takeChars (input : List UInt8) : (n e : ℕ) → Except Refusal ℕ
  | 0, e => .ok e
  | n + 1, e =>
    match input[e]? with
    | none => .ok e
    | some b =>
      if isContinuation b then .error (34458, invalid)
      else if 4 < codePointLength b then .error (34459, invalid)
      else takeChars input n (e + codePointLength b)

def substrCp (input : List UInt8) (start length : ℕ) : Except Refusal (List UInt8) := do
  match ← skipChars input start 0 with
  | none => return []
  | some s =>
    let e ← takeChars input length s
    return (input.take (min e input.length)).drop (min s input.length)

/-! ## The ordinary functions -/

section Ordinary

variable {α : Type} [DecidableEq α]

def findSlice (hay needle : List α) : Option ℕ :=
  if needle.isEmpty then some 0
  else if hay.length < needle.length then none
  else
    (List.range (hay.length - needle.length + 1)).find? fun i =>
      (hay.drop i).take needle.length = needle

def indexOfWindow (hay needle : List α) (start stop : ℤ) : ℤ :=
  let n : ℤ := hay.length
  let e := if n < stop then n else if stop < 0 then max (stop + n) 0 else stop
  let s := if start < 0 then max (start + n) 0 else start
  if e < s then -1
  else ((findSlice ((hay.take e.toNat).drop s.toNat) needle).map fun r => asI32 (s.toNat + r)).getD (-1)

def normIndex (i len : ℤ) : ℤ := if i < 0 then max (len + i) 0 else min i len

/-- The characters `$substrCP` answers. -/
def substrChars (chars : List Char) (start length : ℤ) : List Char :=
  let clen : ℤ := chars.length
  let stop := if length < 0 then clen else start + length
  let s := normIndex start clen
  let e := normIndex stop clen
  if e ≤ s then [] else (chars.take e.toNat).drop s.toNat

end Ordinary

/-! ## The bytes of a character -/

theorem shape_of_charBytes {b : UInt8} {tail : List UInt8} (h : CharBytes (b :: tail)) :
    isContinuation b = false ∧ codePointLength b = tail.length + 1 ∧ codePointLength b ≤ 4 ∧
      ∀ t ∈ tail, isContinuation t = true := by
  have hone : ∀ b : UInt8, b.toNat ≤ 0x7F → isContinuation b = false ∧ codePointLength b = 1 :=
    forall_byte (by decide +kernel)
  have htwo : ∀ b : UInt8, 0xC2 ≤ b.toNat ∧ b.toNat ≤ 0xDF →
      isContinuation b = false ∧ codePointLength b = 2 := forall_byte (by decide +kernel)
  have hthree : ∀ b : UInt8, 0xE0 ≤ b.toNat ∧ b.toNat ≤ 0xEF →
      isContinuation b = false ∧ codePointLength b = 3 := forall_byte (by decide +kernel)
  have hfour : ∀ b : UInt8, 0xF0 ≤ b.toNat ∧ b.toNat ≤ 0xF4 →
      isContinuation b = false ∧ codePointLength b = 4 := forall_byte (by decide +kernel)
  cases h with
  | one lead =>
    obtain ⟨h1, h2⟩ := hone b lead
    exact ⟨h1, h2, by omega, by simp⟩
  | two lead hb =>
    obtain ⟨h1, h2⟩ := htwo b lead
    exact ⟨h1, h2, by omega, by simpa [isContinuation_iff] using hb⟩
  | three lead hb hc =>
    obtain ⟨h1, h2⟩ := hthree b lead
    exact ⟨h1, h2, by omega, by simpa [isContinuation_iff] using ⟨hb, hc⟩⟩
  | four lead hb hc hd =>
    obtain ⟨h1, h2⟩ := hfour b lead
    exact ⟨h1, h2, by omega, by simpa [isContinuation_iff] using ⟨hb, hc, hd⟩⟩

/-- A character's bytes: a lead byte that tells their number, and bytes that continue it. -/
theorem exists_shape (c : Char) : ∃ b tail, String.utf8EncodeChar c = b :: tail ∧
    isContinuation b = false ∧ codePointLength b = tail.length + 1 ∧ codePointLength b ≤ 4 ∧
      ∀ t ∈ tail, isContinuation t = true := by
  obtain ⟨b, tail, hbt⟩ := (charBytes_encode c).exists_cons
  exact ⟨b, tail, hbt, shape_of_charBytes (hbt ▸ charBytes_encode c)⟩

/-! ## Lengths -/

theorem lenCp_flatMap (cs : List Char) : lenCp (cs.flatMap String.utf8EncodeChar) = cs.length := by
  induction cs with
  | nil => rfl
  | cons c cs ih =>
    obtain ⟨b, tail, hbt, hlead, -, -, htail⟩ := exists_shape c
    have hnone : tail.filter (fun b => !isContinuation b) = [] := by
      rw [List.filter_eq_nil_iff]
      intro t ht
      simp [htail t ht]
    unfold lenCp at ih ⊢
    rw [List.flatMap_cons, hbt, List.filter_append, List.filter_cons, hlead, hnone, List.length_append,
      ih, Nat.add_comm]
    rfl

theorem lenCp_bytesOf (s : String) : lenCp (bytesOf s) = s.toList.length := by
  rw [bytesOf_toList, lenCp_flatMap]

/-! ## Searches -/

theorem drop_codePointLength {c : Char} {b : UInt8} {tail : List UInt8}
    (h : String.utf8EncodeChar c = b :: tail) (hlen : codePointLength b = tail.length + 1)
    (rest : List UInt8) : (b :: (tail ++ rest)).drop (codePointLength b) = rest := by
  rw [hlen, ← List.cons_append, ← h]
  exact List.drop_left' (by rw [h, List.length_cons])

theorem measure_flatMap (start length : ℕ) (startAt : Option (List UInt8)) (cs : List Char) :
    measure start length startAt (cs.flatMap String.utf8EncodeChar) =
      .ok (length + cs.length,
        if length ≤ start ∧ start < length + cs.length then
          some ((cs.drop (start - length)).flatMap String.utf8EncodeChar)
        else startAt) := by
  induction cs generalizing length startAt with
  | nil =>
    rw [List.flatMap_nil, measure, if_neg (by simp)]
    rfl
  | cons c cs ih =>
    obtain ⟨b, tail, hbt, hlead, hlen, -, -⟩ := exists_shape c
    rw [List.flatMap_cons, hbt, List.cons_append, measure, hlead, if_neg Bool.false_ne_true,
      drop_codePointLength hbt hlen, ih, List.length_cons, Nat.add_right_comm, Nat.add_assoc]
    congr 2
    by_cases heq : length = start
    · subst heq
      rw [if_neg (by omega), if_pos rfl, if_pos (by omega), Nat.sub_self, List.drop_zero,
        List.flatMap_cons, hbt, List.cons_append]
    · rw [if_neg heq]
      by_cases hlt : length + 1 ≤ start ∧ start < length + (cs.length + 1)
      · rw [if_pos (by omega), if_pos (by omega)]
        have hsub : start - length = (start - (length + 1)) + 1 := by omega
        rw [hsub, List.drop_succ_cons]
      · rw [if_neg (by omega), if_neg (by omega)]

/-- What a search for `t` answers over the characters `cs`, `n` of them before the end. -/
def FirstAt (t cs : List Char) (n : ℕ) : Option ℕ → Prop
  | some i => i < n ∧ i < cs.length ∧ t <+: cs.drop i ∧ ∀ j < i, ¬t <+: cs.drop j
  | none => ∀ i < n, i < cs.length → ¬t <+: cs.drop i

theorem search_flatMap (t cs : List Char) (n cp : ℕ) :
    ∃ r, FirstAt t cs n r ∧
      search (t.flatMap String.utf8EncodeChar) n cp (cs.flatMap String.utf8EncodeChar) =
        r.map (cp + ·) := by
  induction cs generalizing n cp with
  | nil =>
    refine ⟨none, fun i _ hi => absurd hi (Nat.not_lt_zero i), ?_⟩
    cases n <;> rfl
  | cons c cs ih =>
    cases n with
    | zero => exact ⟨none, fun i hi => absurd hi (Nat.not_lt_zero i), rfl⟩
    | succ n =>
      obtain ⟨b, tail, hbt, -, hlen, -, -⟩ := exists_shape c
      have hbytes : (c :: cs).flatMap String.utf8EncodeChar =
          b :: (tail ++ cs.flatMap String.utf8EncodeChar) := by
        rw [List.flatMap_cons, hbt, List.cons_append]
      rw [hbytes, search, drop_codePointLength hbt hlen, ← hbytes]
      by_cases ht : t <+: c :: cs
      · refine ⟨some 0, ⟨Nat.succ_pos n, Nat.succ_pos _, ht, fun j hj => absurd hj (Nat.not_lt_zero j)⟩, ?_⟩
        rw [if_pos (List.isPrefixOf_iff_prefix.mpr (flatMap_utf8EncodeChar_prefix_iff.mpr ht))]
        rfl
      · obtain ⟨r, hr, hsearch⟩ := ih n (cp + 1)
        rw [if_neg fun h => ht (flatMap_utf8EncodeChar_prefix_iff.mp (List.isPrefixOf_iff_prefix.mp h)),
          hsearch]
        refine ⟨r.map (· + 1), ?_, ?_⟩
        · cases r with
          | none =>
            intro i hi hi'
            cases i with
            | zero => exact ht
            | succ i => exact hr i (Nat.lt_of_succ_lt_succ hi) (Nat.lt_of_succ_lt_succ hi')
          | some i =>
            obtain ⟨h1, h2, h3, h4⟩ := hr
            refine ⟨Nat.succ_lt_succ h1, Nat.succ_lt_succ h2, h3, fun j hj => ?_⟩
            cases j with
            | zero => exact ht
            | succ j => exact h4 j (Nat.lt_of_succ_lt_succ hj)
        · cases r with
          | none => rfl
          | some i =>
            have hcp : cp + 1 + i = cp + (i + 1) := by omega
            exact congrArg some hcp

section Window

variable {α : Type}

theorem take_eq_needle_iff {hay needle : List α} {i : ℕ} :
    (hay.drop i).take needle.length = needle ↔ needle <+: hay.drop i := by
  rw [List.prefix_iff_eq_take]
  exact eq_comm

theorem prefix_window_iff {cs needle : List α} {s e j : ℕ} :
    needle <+: ((cs.take e).drop s).drop j ↔
      needle <+: cs.drop (s + j) ∧ needle.length ≤ e - (s + j) := by
  rw [List.drop_drop, List.drop_take, List.prefix_take_iff]

variable [DecidableEq α]

theorem findSlice_eq_some {hay needle : List α} (hne : needle ≠ []) {r : ℕ}
    (hr : needle <+: hay.drop r) (hfirst : ∀ j < r, ¬needle <+: hay.drop j) :
    findSlice hay needle = some r := by
  have hlen := hr.length_le
  have hpos : 0 < needle.length := List.length_pos_iff.mpr hne
  rw [List.length_drop] at hlen
  unfold findSlice
  rw [if_neg (by simpa using hne), if_neg (by omega), List.find?_range_eq_some]
  refine ⟨by simpa using take_eq_needle_iff.mpr hr, List.mem_range.mpr (by omega), fun j hj => ?_⟩
  simpa [take_eq_needle_iff] using hfirst j hj

theorem findSlice_eq_none {hay needle : List α} (hne : needle ≠ [])
    (h : ∀ j, ¬needle <+: hay.drop j) : findSlice hay needle = none := by
  unfold findSlice
  rw [if_neg (by simpa using hne)]
  split
  · rfl
  · rw [List.find?_range_eq_none]
    intro j _
    simpa [take_eq_needle_iff] using h j

/-- A window of nonnegative bounds. -/
theorem indexOfWindow_natCast (hay needle : List α) (start stop : ℕ) :
    indexOfWindow hay needle start stop =
      if min stop hay.length < start then -1
      else
        ((findSlice ((hay.take (min stop hay.length)).drop start) needle).map
          fun r => asI32 (start + r)).getD (-1) := by
  have he : (if (hay.length : ℤ) < stop then (hay.length : ℤ)
      else if (stop : ℤ) < 0 then max ((stop : ℤ) + hay.length) 0 else stop) =
        ((min stop hay.length : ℕ) : ℤ) := by
    split_ifs <;> omega
  have hs : (if (start : ℤ) < 0 then max ((start : ℤ) + hay.length) 0 else (start : ℤ)) = start :=
    if_neg (by omega)
  unfold indexOfWindow
  dsimp only
  rw [he, hs]
  simp only [Int.ofNat_lt, Int.toNat_natCast]

end Window

theorem getD_map_min (end' : Option ℕ) (n : ℕ) :
    (end'.map (min · n)).getD n = min (end'.getD n) n := by
  cases end' with
  | none => simp
  | some e => rfl

theorem position_eq_findSlice {hay token : List UInt8} (hne : token ≠ []) :
    position hay token = findSlice hay token := by
  have hpos : 0 < token.length := List.length_pos_iff.mpr hne
  rw [position, findSlice, if_neg (by simpa using hne)]
  split
  · have hzero : hay.length + 1 - token.length = 0 := by omega
    rw [hzero]
    rfl
  · have hsucc : hay.length + 1 - token.length = hay.length - token.length + 1 := by omega
    rw [hsucc]

theorem indexOfBytes_eq (input token : List UInt8) (start : ℕ) (end' : Option ℕ) :
    indexOfBytes input token start end' =
      indexOfWindow input token start ((end'.getD input.length : ℕ) : ℤ) := by
  rw [indexOfWindow_natCast, indexOfBytes, getD_map_min]
  dsimp only
  have hstop : min (end'.getD input.length) input.length ≤ input.length := Nat.min_le_right _ _
  generalize min (end'.getD input.length) input.length = stop at hstop
  split
  · rfl
  · rename_i hle
    split
    · rename_i hnil
      rw [findSlice, if_pos hnil, Option.map_some, Option.getD_some, Nat.add_zero]
    · rename_i hne
      rw [Nat.min_eq_left (by omega : start ≤ input.length),
        position_eq_findSlice (by simpa using hne)]

/-- The window's search has the match that is first before its end, if that one fits. -/
theorem findSlice_window {cs ts : List Char} (hne : ts ≠ []) {start stop : ℕ} (hstop : stop ≤ cs.length)
    {r : Option ℕ} (hr : FirstAt ts (cs.drop start) (stop - start) r) :
    findSlice ((cs.take stop).drop start) ts =
      r.filter fun i => start + i + ts.length ≤ stop := by
  have hpos : 0 < ts.length := List.length_pos_iff.mpr hne
  cases r with
  | none =>
    apply findSlice_eq_none hne
    intro j hpre
    rw [prefix_window_iff] at hpre
    have hj := hr j (by omega) (by rw [List.length_drop]; omega)
    rw [List.drop_drop] at hj
    exact hj hpre.1
  | some i =>
    obtain ⟨h1, -, h3, h4⟩ := hr
    by_cases hfits : start + i + ts.length ≤ stop
    · rw [Option.filter_some, if_pos (by simpa using hfits)]
      apply findSlice_eq_some hne
      · rw [prefix_window_iff]
        rw [List.drop_drop] at h3
        exact ⟨h3, by omega⟩
      · intro j hj hpre
        rw [prefix_window_iff] at hpre
        have hj' := h4 j hj
        rw [List.drop_drop] at hj'
        exact hj' hpre.1
    · rw [Option.filter_some, if_neg (by simpa using hfits)]
      apply findSlice_eq_none hne
      intro j hpre
      rw [prefix_window_iff] at hpre
      -- a later match would end later still
      have hij : i ≤ j := by
        by_contra hlt
        have hj' := h4 j (by omega)
        rw [List.drop_drop] at hj'
        exact hj' hpre.1
      omega

theorem isEmpty_bytesOf (t : String) : (bytesOf t).isEmpty = t.toList.isEmpty := by
  rw [bytesOf_toList]
  cases t.toList with
  | nil => rfl
  | cons c cs =>
    obtain ⟨b, tail, hbt, -⟩ := exists_shape c
    rw [List.flatMap_cons, hbt]
    rfl

/-- The raw search by characters answers the first match that begins before the end. -/
theorem indexOfCp_eq {s t : String} (hne : t.toList ≠ []) {start : ℕ} {end' : Option ℕ} {stop : ℕ}
    (hstop : stop = min (end'.getD s.toList.length) s.toList.length) (hle : start ≤ stop) :
    ∃ r, FirstAt t.toList (s.toList.drop start) (stop - start) r ∧
      indexOfCp (bytesOf s) (bytesOf t) start end' =
        .ok ((r.map fun i => asI32 (start + i)).getD (-1)) := by
  have hlen : stop ≤ s.toList.length := hstop ▸ Nat.min_le_right _ _
  rw [indexOfCp, isEmpty_bytesOf, bytesOf_toList, bytesOf_toList, measure_flatMap]
  dsimp only [bind, Except.bind]
  rw [getD_map_min, Nat.zero_add, ← hstop, if_neg (by omega), if_neg (by simpa using hne)]
  by_cases hlt : start < s.toList.length
  · rw [if_pos ⟨Nat.zero_le _, hlt⟩, Nat.sub_zero]
    dsimp only
    obtain ⟨r, hr, hsearch⟩ := search_flatMap t.toList (s.toList.drop start) (stop - start) start
    refine ⟨r, hr, ?_⟩
    rw [hsearch, Option.map_map, Function.comp_def]
  · rw [if_neg (by omega)]
    exact ⟨none, fun i hi _ => by omega, rfl⟩

/-- Whether the first match from `start` that begins before `stop` also ends by it. -/
def FirstFits (cs t : List Char) (start stop : ℕ) : Prop :=
  ∀ i, FirstAt t (cs.drop start) (stop - start) (some i) → start + i + t.length ≤ stop

/-- Searches by characters agree unless the first match crosses the end. -/
theorem indexOfCp_bytesOf {s t : String} {start : ℕ} {end' : Option ℕ}
    (h : FirstFits s.toList t.toList start (min (end'.getD s.toList.length) s.toList.length)) :
    indexOfCp (bytesOf s) (bytesOf t) start end' =
      .ok (indexOfWindow s.toList t.toList start ((end'.getD s.toList.length : ℕ) : ℤ)) := by
  rw [indexOfWindow_natCast]
  have hlen : min (end'.getD s.toList.length) s.toList.length ≤ s.toList.length := Nat.min_le_right _ _
  generalize hstop : min (end'.getD s.toList.length) s.toList.length = stop at h hlen ⊢
  by_cases hle : stop < start
  · rw [if_pos hle, indexOfCp, bytesOf_toList s, measure_flatMap]
    dsimp only [bind, Except.bind]
    rw [getD_map_min, Nat.zero_add, hstop, if_pos hle]
  · rw [if_neg hle]
    by_cases hne : t.toList = []
    · rw [indexOfCp, isEmpty_bytesOf, bytesOf_toList s, measure_flatMap]
      dsimp only [bind, Except.bind]
      rw [getD_map_min, Nat.zero_add, hstop, if_neg hle, hne, findSlice, List.isEmpty_nil, if_pos rfl,
        if_pos rfl, Option.map_some, Option.getD_some, Nat.add_zero]
    · obtain ⟨r, hr, hraw⟩ := indexOfCp_eq hne hstop.symm (by omega : start ≤ stop)
      rw [hraw, findSlice_window hne hlen hr]
      cases r with
      | none => rw [Option.filter_none]
      | some i => rw [Option.filter_some, if_pos (by simpa using h i hr)]

/-- A first match that crosses the end: the raw search answers it, the ordinary one does not. -/
theorem indexOfCp_crossing {s t : String} (hne : t.toList ≠ []) {start : ℕ} {end' : Option ℕ} {stop i : ℕ}
    (hstop : stop = min (end'.getD s.toList.length) s.toList.length)
    (hi : FirstAt t.toList (s.toList.drop start) (stop - start) (some i))
    (hcross : stop < start + i + t.toList.length) :
    indexOfCp (bytesOf s) (bytesOf t) start end' = .ok (asI32 (start + i)) ∧
      indexOfWindow s.toList t.toList start ((end'.getD s.toList.length : ℕ) : ℤ) = -1 := by
  have hlen : stop ≤ s.toList.length := hstop ▸ Nat.min_le_right _ _
  have hle : start ≤ stop := by
    have := hi.1
    omega
  constructor
  · obtain ⟨r, hr, hraw⟩ := indexOfCp_eq hne hstop hle
    rw [hraw]
    cases r with
    | none => exact absurd hi.2.2.1 (hr i hi.1 hi.2.1)
    | some j =>
      have hij : i = j := by
        rcases Nat.lt_trichotomy i j with hlt | heq | hlt
        · exact absurd hi.2.2.1 (hr.2.2.2 i hlt)
        · exact heq
        · exact absurd hr.2.2.1 (hi.2.2.2 j hlt)
      rw [hij, Option.map_some, Option.getD_some]
  · rw [indexOfWindow_natCast, ← hstop, if_neg (by omega), findSlice_window hne hlen hi,
      Option.filter_some, if_neg (by simpa using hcross), Option.map_none, Option.getD_none]

/-! ## Substrings -/

section Substrings

variable (before cs : List Char)

theorem getElem?_behind (bytes : List UInt8) :
    (before.flatMap String.utf8EncodeChar ++ bytes)[(before.flatMap String.utf8EncodeChar).length]? =
      bytes.head? := by
  rw [List.getElem?_append_right (Nat.le_refl _), Nat.sub_self, List.head?_eq_getElem?]

theorem length_flatMap_append (c : Char) {b : UInt8} {tail : List UInt8}
    (h : String.utf8EncodeChar c = b :: tail) :
    (before.flatMap String.utf8EncodeChar).length + (tail.length + 1) =
      ((before ++ [c]).flatMap String.utf8EncodeChar).length := by
  rw [List.flatMap_append, List.length_append, List.flatMap_singleton, h, List.length_cons]

theorem skipChars_flatMap (n : ℕ) :
    skipChars ((before ++ cs).flatMap String.utf8EncodeChar) n
        (before.flatMap String.utf8EncodeChar).length =
      .ok (if n ≤ cs.length then some ((before ++ cs.take n).flatMap String.utf8EncodeChar).length
        else none) := by
  induction n generalizing before cs with
  | zero => simp [skipChars]
  | succ n ih =>
    rw [skipChars, List.flatMap_append, getElem?_behind]
    cases cs with
    | nil => rfl
    | cons c cs =>
      obtain ⟨b, tail, hbt, hlead, hlen, hfour, -⟩ := exists_shape c
      have hsplit : (before ++ [c]) ++ cs = before ++ c :: cs := by simp
      have htake : (before ++ [c]) ++ cs.take n = before ++ (c :: cs).take (n + 1) := by simp
      have hih := ih (before ++ [c]) cs
      rw [hsplit, htake, ← length_flatMap_append before c hbt, ← hlen] at hih
      rw [← List.flatMap_append, List.flatMap_cons, hbt, List.cons_append, List.head?_cons]
      dsimp only
      rw [hlead, if_neg Bool.false_ne_true, if_neg (by omega), hih, List.length_cons]
      simp only [Nat.add_le_add_iff_right]

theorem takeChars_flatMap (n : ℕ) :
    takeChars ((before ++ cs).flatMap String.utf8EncodeChar) n
        (before.flatMap String.utf8EncodeChar).length =
      .ok ((before ++ cs.take n).flatMap String.utf8EncodeChar).length := by
  induction n generalizing before cs with
  | zero => simp [takeChars]
  | succ n ih =>
    rw [takeChars, List.flatMap_append, getElem?_behind]
    cases cs with
    | nil => simp
    | cons c cs =>
      obtain ⟨b, tail, hbt, hlead, hlen, hfour, -⟩ := exists_shape c
      have hsplit : (before ++ [c]) ++ cs = before ++ c :: cs := by simp
      have htake : (before ++ [c]) ++ cs.take n = before ++ (c :: cs).take (n + 1) := by simp
      have hih := ih (before ++ [c]) cs
      rw [hsplit, htake, ← length_flatMap_append before c hbt, ← hlen] at hih
      rw [← List.flatMap_append, List.flatMap_cons, hbt, List.cons_append, List.head?_cons]
      dsimp only
      rw [hlead, if_neg Bool.false_ne_true, if_neg (by omega), hih]

end Substrings

theorem flatMap_take_append_drop (cs : List Char) (n : ℕ) :
    cs.flatMap String.utf8EncodeChar =
      (cs.take n).flatMap String.utf8EncodeChar ++ (cs.drop n).flatMap String.utf8EncodeChar := by
  rw [← List.flatMap_append, List.take_append_drop]

theorem take_append_drop_take {cs : List Char} {s e : ℕ} (hse : s ≤ e) :
    cs.take s ++ (cs.take e).drop s = cs.take e := by
  have hmin : (cs.take e).take s = cs.take s := by rw [List.take_take, Nat.min_eq_left hse]
  rw [← hmin, List.take_append_drop]

/-- The bytes between two characters' places. -/
theorem drop_take_flatMap {cs : List Char} {s e : ℕ} (hse : s ≤ e) :
    ((cs.flatMap String.utf8EncodeChar).take ((cs.take e).flatMap String.utf8EncodeChar).length).drop
        ((cs.take s).flatMap String.utf8EncodeChar).length =
      ((cs.take e).drop s).flatMap String.utf8EncodeChar := by
  have htake : (cs.flatMap String.utf8EncodeChar).take
      ((cs.take e).flatMap String.utf8EncodeChar).length =
        (cs.take e).flatMap String.utf8EncodeChar := by
    rw [flatMap_take_append_drop cs e, List.take_left' rfl]
  have hsplit : (cs.take e).flatMap String.utf8EncodeChar =
      (cs.take s).flatMap String.utf8EncodeChar ++
        ((cs.take e).drop s).flatMap String.utf8EncodeChar := by
    rw [← List.flatMap_append, take_append_drop_take hse]
  rw [htake, hsplit, List.drop_left' rfl]

theorem length_flatMap_take_le (cs : List Char) (n : ℕ) :
    ((cs.take n).flatMap String.utf8EncodeChar).length ≤ (cs.flatMap String.utf8EncodeChar).length := by
  rw [flatMap_take_append_drop cs n, List.length_append]
  omega

theorem substrChars_natCast (cs : List Char) (start length : ℕ) :
    substrChars cs start length = (cs.take (start + length)).drop start := by
  have hstop : (if (length : ℤ) < 0 then (cs.length : ℤ) else (start : ℤ) + length) =
      ((start + length : ℕ) : ℤ) := by
    rw [if_neg (by omega)]
    omega
  have hnorm : ∀ n : ℕ, normIndex n cs.length = ((min n cs.length : ℕ) : ℤ) := by
    intro n
    rw [normIndex, if_neg (by omega)]
    omega
  unfold substrChars
  dsimp only
  rw [hstop, hnorm, hnorm, Int.toNat_natCast, Int.toNat_natCast]
  split
  · rename_i hle
    symm
    rw [List.drop_eq_nil_iff, List.length_take]
    omega
  · rename_i hlt
    have hs : min start cs.length = start := by omega
    rw [hs]
    by_cases he : start + length ≤ cs.length
    · rw [Nat.min_eq_left he]
    · rw [Nat.min_eq_right (by omega), List.take_of_length_le (Nat.le_refl _),
        List.take_of_length_le (by omega : cs.length ≤ start + length)]

theorem substrCp_bytesOf (s : String) (start length : ℕ) :
    substrCp (bytesOf s) start length =
      .ok (bytesOf (String.ofList (substrChars s.toList start length))) := by
  rw [bytesOf_ofList, bytesOf_toList, substrChars_natCast]
  generalize s.toList = cs
  have hskip := skipChars_flatMap [] cs start
  rw [List.nil_append, List.nil_append] at hskip
  unfold substrCp
  rw [show (0 : ℕ) = (([] : List Char).flatMap String.utf8EncodeChar).length from rfl, hskip]
  by_cases hle : start ≤ cs.length
  · have htake := takeChars_flatMap (cs.take start) (cs.drop start) length
    rw [List.take_append_drop, List.take_drop, take_append_drop_take (by omega)] at htake
    rw [if_pos hle]
    dsimp only [bind, Except.bind]
    rw [htake]
    dsimp only [pure, Except.pure]
    rw [Nat.min_eq_left (length_flatMap_take_le cs _), Nat.min_eq_left (length_flatMap_take_le cs _),
      drop_take_flatMap (by omega)]
  · rw [if_neg hle]
    have hnil : (cs.take (start + length)).drop start = [] := by
      rw [List.drop_eq_nil_iff, List.length_take]
      omega
    rw [hnil]
    rfl

/-! ## Exactness -/

/-- The check is exact and its message is the first fault's, and the raw functions answer on a string's
    bytes as the ordinary ones do. -/
theorem rawstr_exact (bytes : List UInt8) (s t : String) (start length : ℕ) (end' : Option ℕ) :
    (pcre2Utf8Error bytes = none ↔ Octets bytes) ∧
      (∀ message, pcre2Utf8Error bytes = some message →
        ∃ (before : String) (c : UInt8) (tail : List UInt8), bytes = bytesOf before ++ c :: tail ∧
          checkChar c tail = .error message ∧ decodeChar? (c :: tail) = none) ∧
      lenCp (bytesOf s) = s.toList.length ∧
      substrCp (bytesOf s) start length =
        .ok (bytesOf (String.ofList (substrChars s.toList start length))) ∧
      indexOfBytes (bytesOf s) (bytesOf t) start end' =
        indexOfWindow (bytesOf s) (bytesOf t) start ((end'.getD (bytesOf s).length : ℕ) : ℤ) ∧
      (FirstFits s.toList t.toList start (min (end'.getD s.toList.length) s.toList.length) →
        indexOfCp (bytesOf s) (bytesOf t) start end' =
          .ok (indexOfWindow s.toList t.toList start ((end'.getD s.toList.length : ℕ) : ℤ))) :=
  ⟨pcre2Utf8Error_eq_none_iff, fun _ => exists_fault_of_pcre2Utf8Error, lenCp_bytesOf s,
    substrCp_bytesOf s start length, indexOfBytes_eq _ _ start end', indexOfCp_bytesOf⟩

/-- One message at two places of a fault, and a match of `"bc"` in `"abc"` that crosses the end `2`. -/
theorem rawstr_inexact :
    (¬∃ offset : String → ℕ, ∀ bytes message, pcre2Utf8Error bytes = some message →
      offset message < bytes.length ∧ Octets (bytes.take (offset message)) ∧
        decodeChar? (bytes.drop (offset message)) = none) ∧
      ¬∀ (s t : String) (start : ℕ) (end' : Option ℕ), indexOfCp (bytesOf s) (bytesOf t) start end' =
        .ok (indexOfWindow s.toList t.toList start ((end'.getD s.toList.length : ℕ) : ℤ)) := by
  constructor
  · rintro ⟨offset, h⟩
    have h1 := h [0xFF] "UTF-8 error: illegal byte (0xfe or 0xff)" (by rw [pcre2Utf8Error]; rfl)
    have h2 := h (String.utf8EncodeChar 'a' ++ [0xFF]) "UTF-8 error: illegal byte (0xfe or 0xff)" (by
      rw [pcre2Utf8Error_encode, pcre2Utf8Error]
      rfl)
    have hzero : offset "UTF-8 error: illegal byte (0xfe or 0xff)" = 0 := Nat.lt_one_iff.mp h1.1
    rw [hzero, List.drop_zero, decodeChar?_append] at h2
    cases h2.2.2
  · intro h
    have hcross := @indexOfCp_crossing "abc" "bc" (by decide) 0 (some 2) 2 1 (by decide) ⟨by decide, by decide, by decide, by decide⟩ (by decide)
    have heq := h "abc" "bc" 0 (some 2)
    rw [hcross.1] at heq
    have hone := (Except.ok.inj heq).trans hcross.2
    revert hone
    decide

end Secantus.Rawstr
