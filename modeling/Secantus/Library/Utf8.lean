/-
  Byte strings read as UTF-8: the character a byte string starts with, the text it is, and the two
  hex digits of a byte.

  Encoding and decoding one character are Lean's own; here they are lists of bytes, and a byte string is
  text exactly when it is the bytes of characters.

  The syntax of UTF-8 (RFC 3629): the byte sequences of one character, by the ranges of their bytes.

  * `charBytes_iff`: they are the encodings of the characters, so that no form is overlong, no surrogate
    is encoded and nothing is above U+10FFFF;
  * `octets_iff`: what is derived is the bytes of the strings.

  UTF-8 keeps the order of characters: the encodings of two characters differ, at a byte both have, as their
  code points do.
-/
import Secantus.Library.ByteOrder

namespace Secantus.Library

/-- The bytes of a string. -/
def bytesOf (s : String) : List UInt8 := s.toByteArray.data.toList

/-- The character `bs` starts with, when it starts with one. -/
def decodeChar? (bs : List UInt8) : Option Char := bs.toByteArray.utf8DecodeChar? 0

/-- The text of these bytes, when they are UTF-8. -/
def fromUtf8? (bs : List UInt8) : Option String :=
  if h : bs.toByteArray.IsValidUTF8 then some ⟨bs.toByteArray, h⟩ else none

theorem bytesOf_injective {s t : String} (h : bytesOf s = bytesOf t) : s = t := by
  have harray : s.toByteArray = t.toByteArray := by
    rw [ByteArray.ext_iff, ← Array.toList_inj]
    exact h
  exact String.toByteArray_inj.mp harray

/-- An ASCII character is one byte. -/
theorem utf8EncodeChar_ascii {c : Char} (h : c.toNat < 128) :
    String.utf8EncodeChar c = [UInt8.ofNat c.toNat] := by
  have hle : c.val.toNat ≤ 127 := Nat.le_of_lt_succ h
  unfold String.utf8EncodeChar
  rw [if_pos hle]
  rfl

theorem bytesOf_ofList (cs : List Char) :
    bytesOf (String.ofList cs) = cs.flatMap String.utf8EncodeChar := by
  show ((cs.flatMap String.utf8EncodeChar).toByteArray).data.toList = _
  rw [List.toList_data_toByteArray]

theorem bytesOf_toList (s : String) : bytesOf s = s.toList.flatMap String.utf8EncodeChar := by
  rw [← bytesOf_ofList, String.ofList_toList]

theorem bytesOf_append (s t : String) : bytesOf (s ++ t) = bytesOf s ++ bytesOf t := by
  rw [bytesOf_toList, bytesOf_toList, bytesOf_toList, String.toList_append, List.flatMap_append]

/-- ASCII is one byte a character. -/
theorem bytesOf_ofList_ascii {cs : List Char} (h : ∀ c ∈ cs, c.toNat < 128) :
    bytesOf (String.ofList cs) = cs.map fun c => UInt8.ofNat c.toNat := by
  rw [bytesOf_ofList]
  induction cs with
  | nil => rfl
  | cons c cs ih =>
    rw [List.flatMap_cons, utf8EncodeChar_ascii (h c List.mem_cons_self),
      ih fun d hd => h d (List.mem_cons_of_mem c hd)]
    rfl

theorem fromUtf8?_eq_some_iff {bs : List UInt8} {s : String} :
    fromUtf8? bs = some s ↔ bytesOf s = bs := by
  unfold fromUtf8?
  constructor
  · intro h
    split at h
    · obtain rfl := Option.some.inj h
      exact List.toList_data_toByteArray
    · cases h
  · intro h
    have harray : bs.toByteArray = s.toByteArray := by
      rw [ByteArray.ext_iff, ← Array.toList_inj, List.toList_data_toByteArray, ← h]
      rfl
    have hvalid : bs.toByteArray.IsValidUTF8 := harray ▸ s.isValidUTF8
    rw [dif_pos hvalid]
    exact congrArg some (String.toByteArray_inj.mp harray)

@[simp] theorem fromUtf8?_bytesOf (s : String) : fromUtf8? (bytesOf s) = some s :=
  fromUtf8?_eq_some_iff.mpr rfl

theorem decodeChar?_append (c : Char) (bs : List UInt8) :
    decodeChar? (String.utf8EncodeChar c ++ bs) = some c := by
  unfold decodeChar?
  rw [List.toByteArray_append]
  exact ByteArray.utf8DecodeChar?_utf8EncodeChar_append

theorem eq_append_of_decodeChar? {bs : List UInt8} {c : Char} (h : decodeChar? bs = some c) :
    bs = String.utf8EncodeChar c ++ bs.drop c.utf8Size := by
  obtain ⟨rest, hrest⟩ := ByteArray.exists_of_utf8DecodeChar?_eq_some h
  have hbs : bs = String.utf8EncodeChar c ++ rest.data.toList := by
    have := congrArg (fun a => a.data.toList) hrest
    simpa using this
  have hdrop : bs.drop c.utf8Size = rest.data.toList := by
    rw [hbs, ← String.length_utf8EncodeChar c, List.drop_left]
  rw [hdrop]
  exact hbs

/-- One text's bytes start with another's exactly when its characters do. -/
theorem flatMap_utf8EncodeChar_prefix_iff {cs ds : List Char} :
    cs.flatMap String.utf8EncodeChar <+: ds.flatMap String.utf8EncodeChar ↔ cs <+: ds := by
  constructor
  · intro h
    induction cs generalizing ds with
    | nil => exact List.nil_prefix
    | cons c cs ih =>
      obtain ⟨more, hmore⟩ := h
      rw [List.flatMap_cons, List.append_assoc] at hmore
      cases ds with
      | nil =>
        have hlen := congrArg List.length hmore
        rw [List.flatMap_nil, List.length_nil, List.length_append, String.length_utf8EncodeChar] at hlen
        have := c.utf8Size_pos
        omega
      | cons d ds =>
        rw [List.flatMap_cons] at hmore
        have hdecode := congrArg decodeChar? hmore
        rw [decodeChar?_append, decodeChar?_append] at hdecode
        obtain rfl := Option.some.inj hdecode
        rw [List.cons_prefix_cons]
        exact ⟨rfl, ih ⟨more, List.append_cancel_left hmore⟩⟩
  · rintro ⟨more, rfl⟩
    rw [List.flatMap_append]
    exact List.prefix_append _ _

/-- A byte below 128 is the encoding of its own character, and is in the encoding of no other one. -/
theorem utf8EncodeChar_of_mem {c : Char} {b : UInt8} (h : b ∈ String.utf8EncodeChar c) (hb : b.toNat < 128) :
    String.utf8EncodeChar c = [b] ∧ c.toNat = b.toNat := by
  have hne : ∀ n m : ℕ, 128 ≤ m → m + n < 256 → b ≠ UInt8.ofNat (n + m) := by
    intro n m hm hlt heq
    have := congrArg UInt8.toNat heq
    simp at this
    omega
  unfold String.utf8EncodeChar at h ⊢
  simp only at h ⊢
  split at h
  · rename_i hle
    rw [List.mem_singleton] at h
    have hle' : c.toNat ≤ 127 := hle
    rw [if_pos hle]
    refine ⟨by rw [h], ?_⟩
    have hval := congrArg UInt8.toNat h
    simp at hval
    omega
  · exfalso
    split at h
    · simp only [List.mem_cons, List.not_mem_nil, or_false] at h
      rcases h with h | h
      · exact hne _ _ (by decide) (by omega) h
      · exact hne _ _ (by decide) (by omega) h
    · split at h
      · simp only [List.mem_cons, List.not_mem_nil, or_false] at h
        rcases h with h | h | h
        · exact hne _ _ (by decide) (by omega) h
        · exact hne _ _ (by decide) (by omega) h
        · exact hne _ _ (by decide) (by omega) h
      · simp only [List.mem_cons, List.not_mem_nil, or_false] at h
        rcases h with h | h | h | h
        · exact hne _ _ (by decide) (by omega) h
        · exact hne _ _ (by decide) (by omega) h
        · exact hne _ _ (by decide) (by omega) h
        · exact hne _ _ (by decide) (by omega) h

/-- A NUL is in the encoding of no other character. -/
theorem zero_mem_utf8EncodeChar {c : Char} (h : 0 ∈ String.utf8EncodeChar c) : c = '\x00' := by
  obtain ⟨-, hc⟩ := utf8EncodeChar_of_mem h (by decide)
  exact Char.ext (UInt32.toNat_inj.mp hc)

/-- No character has a byte of eight ones. -/
theorem ff_notMem_utf8EncodeChar (c : Char) : 0xFF ∉ String.utf8EncodeChar c := by
  have hne : ∀ n : ℕ, n < 255 → (0xFF : UInt8) ≠ UInt8.ofNat n := by
    intro n hlt heq
    have hval := congrArg UInt8.toNat heq
    simp at hval
    omega
  unfold String.utf8EncodeChar
  simp only
  split
  · exact fun h => hne _ (by omega) (List.mem_singleton.mp h)
  · split_ifs <;> simp only [List.mem_cons, List.not_mem_nil, or_false, not_or]
    · exact ⟨hne _ (by omega), hne _ (by omega)⟩
    · exact ⟨hne _ (by omega), hne _ (by omega), hne _ (by omega)⟩
    · exact ⟨hne _ (by omega), hne _ (by omega), hne _ (by omega), hne _ (by omega)⟩

theorem ff_notMem_bytesOf (s : String) : 0xFF ∉ bytesOf s := by
  rw [bytesOf_toList, List.mem_flatMap]
  intro ⟨c, _, hmem⟩
  exact ff_notMem_utf8EncodeChar c hmem

/-! ## Invalid bytes -/

/-- How many bytes, of some that start with no character, one replacement character stands for: a lead
    byte and what continues it. -/
def invalidLength : List UInt8 → ℕ
  | [] => 1
  | [_] => 1
  | b :: second :: rest =>
    let low : UInt8 := if b = 0xe0 then 0xa0 else if b = 0xf0 then 0x90 else 0x80
    let high : UInt8 := if b = 0xed then 0x9f else if b = 0xf4 then 0x8f else 0xbf
    if 0xe0 ≤ b ∧ b ≤ 0xf4 ∧ low ≤ second ∧ second ≤ high then
      match rest with
      | third :: _ => if 0xf0 ≤ b ∧ 0x80 ≤ third ∧ third ≤ 0xbf then 3 else 2
      | [] => 2
    else 1

/-- The text of bytes that are not all UTF-8, with a replacement character for each part that is not. -/
def replaceInvalid : ℕ → List UInt8 → List Char
  | 0, _ => []
  | _ + 1, [] => []
  | n + 1, b :: bs =>
    match decodeChar? (b :: bs) with
    | some c => c :: replaceInvalid n ((b :: bs).drop c.utf8Size)
    | none => '\uFFFD' :: replaceInvalid n ((b :: bs).drop (invalidLength (b :: bs)))

/-- `String::from_utf8_lossy`. -/
def fromUtf8Lossy (bs : List UInt8) : List Char :=
  match fromUtf8? bs with
  | some s => s.toList
  | none => replaceInvalid bs.length bs

/-- The bytes of characters are read as those characters. -/
theorem fromUtf8Lossy_flatMap (cs : List Char) : fromUtf8Lossy (cs.flatMap String.utf8EncodeChar) = cs := by
  unfold fromUtf8Lossy
  rw [← bytesOf_ofList, fromUtf8?_bytesOf]
  exact String.toList_ofList

/-! ## Hex digits -/

/-- A lowercase hex digit. -/
def hexDigit (n : ℕ) : Char := "0123456789abcdef".toList.getD n '0'

/-- A byte as two hex digits. -/
def hex (b : UInt8) : List Char := [hexDigit (b.toNat / 16), hexDigit (b.toNat % 16)]

/-- The value of a hex digit's byte, of either case. -/
def hexValue (b : UInt8) : Option ℕ :=
  if 48 ≤ b ∧ b ≤ 57 then some (b.toNat - 48)
  else if 97 ≤ b ∧ b ≤ 102 then some (b.toNat - 87)
  else if 65 ≤ b ∧ b ≤ 70 then some (b.toNat - 55)
  else none

theorem map_hexValue_hexDigit : ∀ n < 16,
    (String.utf8EncodeChar (hexDigit n)).map hexValue = [some n] := by
  decide

/-- The two digits of a byte are two bytes, and their values give the byte back. -/
theorem encode_hex (b : UInt8) : ∃ x y, (hex b).flatMap String.utf8EncodeChar = [x, y] ∧
    hexValue x = some (b.toNat / 16) ∧ hexValue y = some (b.toNat % 16) := by
  have hlt := b.toNat_lt
  obtain ⟨x, hx, hxv⟩ := List.map_eq_singleton_iff.mp (map_hexValue_hexDigit (b.toNat / 16) (by omega))
  obtain ⟨y, hy, hyv⟩ := List.map_eq_singleton_iff.mp (map_hexValue_hexDigit (b.toNat % 16) (by omega))
  refine ⟨x, y, ?_, hxv, hyv⟩
  simp [hex, hx, hy]

/-! ## The syntax -/

/-- `UTF8-tail`: a byte that continues a character. -/
def IsTail (b : UInt8) : Prop := 0x80 ≤ b.toNat ∧ b.toNat ≤ 0xBF

/-- `UTF8-char`, one rule for each length. -/
inductive CharBytes : List UInt8 → Prop where
  | one {a : UInt8} (lead : a.toNat ≤ 0x7F) : CharBytes [a]
  | two {a b : UInt8} (lead : 0xC2 ≤ a.toNat ∧ a.toNat ≤ 0xDF) (hb : IsTail b) : CharBytes [a, b]
  | three {a b c : UInt8} (lead : 0xE0 ≤ a.toNat ∧ a.toNat ≤ 0xEF) (hb : IsTail b) (hc : IsTail c)
      (short : a.toNat = 0xE0 → 0xA0 ≤ b.toNat) (noSurrogate : a.toNat = 0xED → b.toNat ≤ 0x9F) :
      CharBytes [a, b, c]
  | four {a b c d : UInt8} (lead : 0xF0 ≤ a.toNat ∧ a.toNat ≤ 0xF4) (hb : IsTail b) (hc : IsTail c)
      (hd : IsTail d) (short : a.toNat = 0xF0 → 0x90 ≤ b.toNat)
      (inRange : a.toNat = 0xF4 → b.toNat ≤ 0x8F) : CharBytes [a, b, c, d]

theorem CharBytes.exists_cons {bs : List UInt8} (h : CharBytes bs) : ∃ a tail, bs = a :: tail := by
  cases h
  all_goals exact ⟨_, _, rfl⟩

theorem ofNat_eq {n : ℕ} {b : UInt8} (h : n = b.toNat) : UInt8.ofNat n = b := by
  rw [h, UInt8.ofNat_toNat]

/-- The character of a code point. -/
theorem exists_char {n : ℕ} (h : n < 0xD800 ∨ 0xDFFF < n ∧ n < 0x110000) :
    ∃ c : Char, c.val.toNat = n := by
  have hsize : n < UInt32.size := by
    have : UInt32.size = 4294967296 := rfl
    omega
  refine ⟨⟨UInt32.ofNatLT n hsize, ?_⟩, UInt32.toNat_ofNatLT ..⟩
  show Nat.isValidChar (UInt32.ofNatLT n hsize).toNat
  rw [UInt32.toNat_ofNatLT]
  exact h

theorem exists_encode_of_charBytes {bs : List UInt8} (h : CharBytes bs) :
    ∃ c, String.utf8EncodeChar c = bs := by
  unfold String.utf8EncodeChar
  cases h with
  | @one a lead =>
    obtain ⟨c, hc⟩ := exists_char (n := a.toNat) (by omega)
    refine ⟨c, ?_⟩
    simp only [hc]
    rw [if_pos lead, UInt8.ofNat_toNat]
  | @two a b lead hb =>
    obtain ⟨hb1, hb2⟩ := hb
    obtain ⟨c, hc⟩ := exists_char (n := (a.toNat - 0xC0) * 64 + (b.toNat - 0x80)) (by omega)
    refine ⟨c, ?_⟩
    simp only [hc]
    rw [if_neg (by omega), if_pos (by omega), ofNat_eq (b := a) (by omega), ofNat_eq (b := b) (by omega)]
  | @three a b d lead hb hd short noSurrogate =>
    obtain ⟨hb1, hb2⟩ := hb
    obtain ⟨hd1, hd2⟩ := hd
    obtain ⟨c, hc⟩ := exists_char
      (n := (a.toNat - 0xE0) * 4096 + (b.toNat - 0x80) * 64 + (d.toNat - 0x80)) (by omega)
    refine ⟨c, ?_⟩
    simp only [hc]
    rw [if_neg (by omega), if_neg (by omega), if_pos (by omega), ofNat_eq (b := a) (by omega),
      ofNat_eq (b := b) (by omega), ofNat_eq (b := d) (by omega)]
  | @four a b d e lead hb hd he short inRange =>
    obtain ⟨hb1, hb2⟩ := hb
    obtain ⟨hd1, hd2⟩ := hd
    obtain ⟨he1, he2⟩ := he
    obtain ⟨c, hc⟩ := exists_char
      (n := (a.toNat - 0xF0) * 262144 + (b.toNat - 0x80) * 4096 + (d.toNat - 0x80) * 64 +
        (e.toNat - 0x80)) (by omega)
    refine ⟨c, ?_⟩
    simp only [hc]
    rw [if_neg (by omega), if_neg (by omega), if_neg (by omega), ofNat_eq (b := a) (by omega),
      ofNat_eq (b := b) (by omega), ofNat_eq (b := d) (by omega), ofNat_eq (b := e) (by omega)]

theorem charBytes_encode (c : Char) : CharBytes (String.utf8EncodeChar c) := by
  have hvalid : c.val.toNat < 0xD800 ∨ 0xDFFF < c.val.toNat ∧ c.val.toNat < 0x110000 := c.valid
  unfold String.utf8EncodeChar
  generalize c.val.toNat = v at hvalid
  have hmod : ∀ n : ℕ, n < 256 → (UInt8.ofNat n).toNat = n := fun n hn => UInt8.toNat_ofNat_of_lt' hn
  have htail : ∀ n : ℕ, n < 64 → IsTail (UInt8.ofNat (n + 128)) := by
    intro n hn
    rw [IsTail, hmod _ (by omega)]
    omega
  dsimp only
  split_ifs with h1 h2 h3
  · apply CharBytes.one
    rw [hmod _ (by omega)]
    exact h1
  · apply CharBytes.two _ (htail _ (by omega))
    rw [hmod _ (by omega)]
    omega
  · apply CharBytes.three _ (htail _ (by omega)) (htail _ (by omega))
    · rw [hmod _ (by omega), hmod _ (by omega)]
      omega
    · rw [hmod _ (by omega), hmod _ (by omega)]
      omega
    · rw [hmod _ (by omega)]
      omega
  · apply CharBytes.four _ (htail _ (by omega)) (htail _ (by omega)) (htail _ (by omega))
    · rw [hmod _ (by omega), hmod _ (by omega)]
      omega
    · rw [hmod _ (by omega), hmod _ (by omega)]
      omega
    · rw [hmod _ (by omega)]
      omega

/-- The syntax derives the encodings of the characters. -/
theorem charBytes_iff {bs : List UInt8} : CharBytes bs ↔ ∃ c, String.utf8EncodeChar c = bs := by
  refine ⟨exists_encode_of_charBytes, ?_⟩
  rintro ⟨c, rfl⟩
  exact charBytes_encode c

/-- `UTF8-octets`: characters, one after another. -/
def Octets (bytes : List UInt8) : Prop :=
  ∃ parts : List (List UInt8), bytes = parts.flatten ∧ ∀ p ∈ parts, CharBytes p

/-- They are the bytes of the strings. -/
theorem octets_iff {bytes : List UInt8} : Octets bytes ↔ ∃ s : String, bytesOf s = bytes := by
  constructor
  · rintro ⟨parts, rfl, hparts⟩
    induction parts with
    | nil => exact ⟨"", rfl⟩
    | cons p parts ih =>
      rw [List.forall_mem_cons] at hparts
      obtain ⟨c, hc⟩ := charBytes_iff.mp hparts.1
      obtain ⟨s, hs⟩ := ih hparts.2
      refine ⟨String.ofList [c] ++ s, ?_⟩
      rw [bytesOf_append, bytesOf_ofList, List.flatMap_singleton, hc, hs, List.flatten_cons]
  · rintro ⟨s, rfl⟩
    refine ⟨s.toList.map String.utf8EncodeChar, ?_, ?_⟩
    · rw [bytesOf_toList, List.flatMap_def]
    · intro p hp
      obtain ⟨c, -, rfl⟩ := List.mem_map.mp hp
      exact charBytes_encode c

open ByteOrder

/-! ## Order -/

theorem settled_lt_cons {a b : ℕ} {x y : List UInt8} (ha : a < 256) (hb : b < 256)
    (h : a < b ∨ a = b ∧ Settled .lt x y) : Settled .lt (UInt8.ofNat a :: x) (UInt8.ofNat b :: y) := by
  rcases h with h | ⟨rfl, h⟩
  · have hc : compare (UInt8.ofNat a) (UInt8.ofNat b) = .lt := by
      rw [compare_ofNat ha hb]
      exact compare_lt_iff_lt.mpr h
    have hs := (settled_singleton (UInt8.ofNat a) (UInt8.ofNat b)).extend (by rw [hc]; decide) x y
    rwa [hc] at hs
  · have hs := h.cons (UInt8.ofNat a) (UInt8.ofNat a)
    rwa [Std.compare_self] at hs

theorem settled_utf8EncodeChar {c d : Char} (h : c.toNat < d.toNat) :
    Settled .lt (String.utf8EncodeChar c) (String.utf8EncodeChar d) := by
  have hd : d.toNat < 0x110000 := by
    have hv := d.valid
    unfold UInt32.isValidChar Nat.isValidChar at hv
    have hn : d.toNat = d.val.toNat := rfl
    omega
  have hcn : c.val.toNat = c.toNat := rfl
  have hdn : d.val.toNat = d.toNat := rfl
  unfold String.utf8EncodeChar
  simp only [hcn, hdn]
  generalize c.toNat = v at *
  generalize d.toNat = w at *
  -- by the lengths of the encodings; the lead bytes of a longer one are above
  by_cases hv1 : v ≤ 127
  · rw [if_pos hv1]
    by_cases hw1 : w ≤ 127
    · rw [if_pos hw1]
      exact settled_lt_cons (by omega) (by omega) (.inl h)
    rw [if_neg hw1]
    split_ifs <;> exact settled_lt_cons (by omega) (by omega) (.inl (by omega))
  rw [if_neg hv1, if_neg (by omega : ¬ w ≤ 127)]
  by_cases hv2 : v ≤ 2047
  · rw [if_pos hv2]
    by_cases hw2 : w ≤ 2047
    · rw [if_pos hw2]
      refine settled_lt_cons (by omega) (by omega) ?_
      by_cases h1 : v / 64 % 32 < w / 64 % 32
      · exact .inl (by omega)
      · exact .inr ⟨by omega, settled_lt_cons (by omega) (by omega) (.inl (by omega))⟩
    rw [if_neg hw2]
    split_ifs <;> exact settled_lt_cons (by omega) (by omega) (.inl (by omega))
  rw [if_neg hv2, if_neg (by omega : ¬ w ≤ 2047)]
  by_cases hv3 : v ≤ 65535
  · rw [if_pos hv3]
    by_cases hw3 : w ≤ 65535
    · rw [if_pos hw3]
      refine settled_lt_cons (by omega) (by omega) ?_
      by_cases h1 : v / 4096 % 16 < w / 4096 % 16
      · exact .inl (by omega)
      refine .inr ⟨by omega, settled_lt_cons (by omega) (by omega) ?_⟩
      by_cases h2 : v / 64 % 64 < w / 64 % 64
      · exact .inl (by omega)
      · exact .inr ⟨by omega, settled_lt_cons (by omega) (by omega) (.inl (by omega))⟩
    rw [if_neg hw3]
    exact settled_lt_cons (by omega) (by omega) (.inl (by omega))
  rw [if_neg hv3, if_neg (by omega : ¬ w ≤ 65535)]
  have hdiv : ∀ n : ℕ, n / 64 / 64 = n / 4096 ∧ n / 4096 / 64 = n / 262144 := by
    intro n
    rw [Nat.div_div_eq_div_mul, Nat.div_div_eq_div_mul]
    exact ⟨rfl, rfl⟩
  obtain ⟨hdv, hdv'⟩ := hdiv v
  obtain ⟨hdw, hdw'⟩ := hdiv w
  refine settled_lt_cons (by omega) (by omega) ?_
  by_cases h1 : v / 262144 % 8 < w / 262144 % 8
  · exact .inl (by omega)
  have he1 : v / 262144 = w / 262144 := by omega
  refine .inr ⟨by omega, settled_lt_cons (by omega) (by omega) ?_⟩
  by_cases h2 : v / 4096 % 64 < w / 4096 % 64
  · exact .inl (by omega)
  have he2 : v / 4096 = w / 4096 := by omega
  refine .inr ⟨by omega, settled_lt_cons (by omega) (by omega) ?_⟩
  by_cases h3 : v / 64 % 64 < w / 64 % 64
  · exact .inl (by omega)
  have he3 : v / 64 = w / 64 := by omega
  exact .inr ⟨by omega, settled_lt_cons (by omega) (by omega) (.inl (by omega))⟩

end Secantus.Library
