/-
  Field names whose bytes are not UTF-8 (`escape_key` and `key_bytes` of bsondoc.rs).

  Such a name is kept as text: each byte that is not part of valid UTF-8 becomes a NUL and its two hex
  digits. A name in a BSON document ends at a NUL and so holds none, and for those names the escape is
  undone by `key_bytes` (`keyBytes_escapeKey`) and meets no carrier's key.
-/
import Secantus.Bson.Value
import Secantus.Library.Utf8

namespace Secantus.Wire

open Secantus Secantus.Library

/-- The characters of `escape_key` from a place in the name, past the rest of a character that was read
    whole. A chunk of `utf8_chunks` that is not UTF-8 is one byte and the continuation bytes after it,
    and no character starts at one of those: each byte of it is met on its own here. -/
def escapeFrom : Bytes → ℕ → List Char
  | [], _ => []
  | _ :: rest, n + 1 => escapeFrom rest n
  | b :: rest, 0 =>
    match decodeChar? (b :: rest) with
    | some c => c :: escapeFrom rest (c.utf8Size - 1)
    | none => '\x00' :: (hex b ++ escapeFrom rest 0)

def escapeKey (bytes : Bytes) : String := String.ofList (escapeFrom bytes 0)

/-- `u8::from_str_radix` of two bytes, base 16. A sign is read too. -/
def fromHex (x y : UInt8) : Option UInt8 :=
  if x = 43 then (hexValue y).map UInt8.ofNat
  else do
    let h ← hexValue x
    let l ← hexValue y
    pure (UInt8.ofNat (16 * h + l))

/-- The loop of `key_bytes`. -/
def unescape : Bytes → Option Bytes
  | [] => some []
  | b :: rest =>
    if b = 0 then
      match rest with
      | x :: y :: rest => do
        let b ← fromHex x y
        let bytes ← unescape rest
        pure (b :: bytes)
      | _ => none
    else (unescape rest).map (b :: ·)

def keyBytes (key : String) : Option Bytes :=
  if '\x00' ∈ key.toList then
    match unescape (utf8 key) with
    | some out => if escapeKey out = key then some out else none
    | none => none
  else some (utf8 key)

/-! ## The escape undone -/

theorem escapeFrom_drop (bs : Bytes) (n : ℕ) : escapeFrom bs n = escapeFrom (bs.drop n) 0 := by
  induction bs generalizing n with
  | nil => cases n <;> rfl
  | cons b rest ih =>
    cases n with
    | zero => rfl
    | succ n => exact ih n

theorem unescape_cons {b : UInt8} (hb : b ≠ 0) (rest : Bytes) :
    unescape (b :: rest) = (unescape rest).map (b :: ·) := by
  rw [unescape.eq_def]
  simp only [if_neg hb]

theorem unescape_append {bs : Bytes} (h : 0 ∉ bs) (rest : Bytes) :
    unescape (bs ++ rest) = (unescape rest).map (bs ++ ·) := by
  induction bs with
  | nil => simp
  | cons b bs ih =>
    have hb : b ≠ 0 := fun hb => h (hb ▸ List.mem_cons_self)
    have hbs : 0 ∉ bs := fun hbs => h (List.mem_cons_of_mem _ hbs)
    rw [List.cons_append, unescape_cons hb, ih hbs, Option.map_map]
    rfl

theorem unescape_of_no_zero {bs : Bytes} (h : 0 ∉ bs) : unescape bs = some bs := by
  simpa [unescape] using unescape_append h []

theorem fromHex_of_values {x y b : UInt8} (hx : hexValue x = some (b.toNat / 16))
    (hy : hexValue y = some (b.toNat % 16)) : fromHex x y = some b := by
  have hsign : x ≠ 43 := by
    rintro rfl
    exact absurd hx (by simp [hexValue])
  have hb : UInt8.ofNat (16 * (b.toNat / 16) + b.toNat % 16) = b := by
    rw [Nat.div_add_mod]
    simp
  simp only [fromHex, if_neg hsign, hx, hy, Option.bind_eq_bind, Option.bind_some, hb]
  rfl

/-- The escape of a name without a NUL, read back byte by byte. -/
theorem unescape_escapeFrom (n : ℕ) : ∀ bs : Bytes, bs.length ≤ n → 0 ∉ bs →
    unescape ((escapeFrom bs 0).flatMap String.utf8EncodeChar) = some bs := by
  induction n with
  | zero =>
    intro bs hlen _
    rw [List.length_eq_zero_iff.mp (Nat.le_zero.mp hlen)]
    rfl
  | succ n ih =>
    intro bs hlen hzero
    cases bs with
    | nil => rfl
    | cons b rest =>
      rw [escapeFrom]
      cases hc : decodeChar? (b :: rest) with
      | some c =>
        have hpos := c.utf8Size_pos
        have hsplit := eq_append_of_decodeChar? hc
        have hdrop : (b :: rest).drop c.utf8Size = rest.drop (c.utf8Size - 1) := by
          obtain ⟨k, hk⟩ := Nat.exists_eq_add_of_lt hpos
          rw [hk]
          simp
        rw [hdrop] at hsplit
        have hhead : 0 ∉ String.utf8EncodeChar c := fun hmem =>
          hzero (hsplit ▸ List.mem_append_left _ hmem)
        have htail : 0 ∉ rest.drop (c.utf8Size - 1) := fun hmem =>
          hzero (List.mem_cons_of_mem _ (List.mem_of_mem_drop hmem))
        have hlen' : (rest.drop (c.utf8Size - 1)).length ≤ n := by
          rw [List.length_drop]
          simp only [List.length_cons] at hlen
          omega
        simp only
        rw [List.flatMap_cons, unescape_append hhead, escapeFrom_drop, ih _ hlen' htail,
          Option.map_some, ← hsplit]
      | none =>
        obtain ⟨x, y, hxy, hx, hy⟩ := encode_hex b
        have htail : 0 ∉ rest := fun hmem => hzero (List.mem_cons_of_mem _ hmem)
        have hlen' : rest.length ≤ n := by simpa using hlen
        have hnul : String.utf8EncodeChar '\x00' = [0] := rfl
        simp only
        rw [List.flatMap_cons, List.flatMap_append, hnul, hxy]
        show unescape (0 :: x :: y :: (escapeFrom rest 0).flatMap String.utf8EncodeChar) = _
        rw [unescape, if_pos rfl]
        simp [fromHex_of_values hx hy, ih rest hlen' htail]

theorem utf8_eq_bytesOf (s : String) : utf8 s = bytesOf s := rfl

theorem utf8_escapeKey (bs : Bytes) :
    utf8 (escapeKey bs) = (escapeFrom bs 0).flatMap String.utf8EncodeChar := bytesOf_ofList _

/-- A text has a NUL among its bytes exactly when it has one among its characters. -/
theorem zero_mem_utf8_iff (s : String) : 0 ∈ utf8 s ↔ '\x00' ∈ s.toList := by
  have hs : utf8 s = s.toList.flatMap String.utf8EncodeChar := by
    rw [← bytesOf_ofList, String.ofList_toList]
    rfl
  rw [hs, List.mem_flatMap]
  constructor
  · rintro ⟨c, hc, hzero⟩
    exact zero_mem_utf8EncodeChar hzero ▸ hc
  · exact fun h => ⟨'\x00', h, by decide⟩

theorem keyBytes_escapeKey {bs : Bytes} (h : 0 ∉ bs) : keyBytes (escapeKey bs) = some bs := by
  have hback : unescape (utf8 (escapeKey bs)) = some bs := by
    rw [utf8_escapeKey]
    exact unescape_escapeFrom bs.length bs le_rfl h
  unfold keyBytes
  split
  · simp [hback]
  · rename_i hnul
    rw [← zero_mem_utf8_iff] at hnul
    rw [← hback, unescape_of_no_zero hnul]

/-- The key a name is read as (`read_doc`). -/
def nameOf (bs : Bytes) : String :=
  match fromUtf8? bs with
  | some key => key
  | none => escapeKey bs

theorem keyBytes_nameOf {bs : Bytes} (h : 0 ∉ bs) : keyBytes (nameOf bs) = some bs := by
  unfold nameOf
  cases hkey : fromUtf8? bs with
  | none => exact keyBytes_escapeKey h
  | some key =>
    have hbytes : utf8 key = bs := fromUtf8?_eq_some_iff.mp hkey
    have hnul : '\x00' ∉ key.toList := by
      rw [← zero_mem_utf8_iff, hbytes]
      exact h
    simp only [keyBytes, if_neg hnul, hbytes]

theorem nameOf_injective {bs bs' : Bytes} (h : 0 ∉ bs) (h' : 0 ∉ bs') (heq : nameOf bs = nameOf bs') :
    bs = bs' := by
  have := keyBytes_nameOf h
  rw [heq, keyBytes_nameOf h'] at this
  exact (Option.some.inj this).symm

theorem nameOf_ne_carrier {bs : Bytes} (h : 0 ∉ bs) :
    nameOf bs ≠ Bson.invalidUtf8Key ∧ ∀ t : Bson.RawType, nameOf bs ≠ t.key := by
  have hback := keyBytes_nameOf h
  constructor
  · intro heq
    have hnone : keyBytes Bson.invalidUtf8Key = none := by decide
    rw [heq, hnone] at hback
    cases hback
  · intro t heq
    have hnone : keyBytes t.key = none := by cases t <;> decide
    rw [heq, hnone] at hback
    cases hback

end Secantus.Wire
