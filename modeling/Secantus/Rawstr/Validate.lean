/-
  The UTF-8 check of a regular expression's strings (rawstr.rs): `pcre2_utf8_error`.

  The text is taken apart from the front, one character at a time; `checkChar` is what the loop does at one
  lead byte, the message of its fault or the number of bytes behind it.

  * `checkChar_eq_ok_iff`: it passes what RFC 3629 derives, and nothing else;
  * `pcre2Utf8Error_eq_none_iff`: no fault exactly in well-formed UTF-8;
  * `exists_fault_of_pcre2Utf8Error`: otherwise the message is that of the first place where no character
    starts.
-/
import Secantus.Library.Utf8

namespace Secantus.Rawstr

open Secantus.Library

def isContinuation (b : UInt8) : Bool := b &&& 0xC0 == 0x80

/-- The additional bytes a lead byte announces. -/
def additional (c : UInt8) : ℕ :=
  if c ≤ 0xDF then 1 else if c ≤ 0xEF then 2 else if c ≤ 0xF7 then 3 else if c ≤ 0xFB then 4 else 5

/-- The message for bytes missing at the end. -/
def missing : ℕ → String
  | 1 => "UTF-8 error: 1 byte missing at end"
  | 2 => "UTF-8 error: 2 bytes missing at end"
  | 3 => "UTF-8 error: 3 bytes missing at end"
  | 4 => "UTF-8 error: 4 bytes missing at end"
  | _ => "UTF-8 error: 5 bytes missing at end"

/-- `TOP`. -/
def top : List String :=
  ["UTF-8 error: byte 3 top bits not 0x80",
    "UTF-8 error: byte 4 top bits not 0x80",
    "UTF-8 error: byte 5 top bits not 0x80",
    "UTF-8 error: byte 6 top bits not 0x80"]

/-- The loop over `TOP`: the message at the first byte that does not continue. -/
def topFault : List String → List UInt8 → Option String
  | message :: messages, b :: bs => if isContinuation b then topFault messages bs else some message
  | _, _ => none

/-- What is wrong with a whole sequence of `ab` additional bytes, the first of them `d`. -/
def sequenceFault (ab : ℕ) (c d : UInt8) : Option String :=
  if ab = 1 ∧ c &&& 0x3E = 0 then some "UTF-8 error: overlong 2-byte sequence"
  else if ab = 2 ∧ c = 0xE0 ∧ d &&& 0x20 = 0 then some "UTF-8 error: overlong 3-byte sequence"
  else if ab = 2 ∧ c = 0xED ∧ 0xA0 ≤ d then
    some "UTF-8 error: code points 0xd800-0xdfff are not defined"
  else if ab = 3 ∧ c = 0xF0 ∧ d &&& 0x30 = 0 then some "UTF-8 error: overlong 4-byte sequence"
  else if ab = 3 ∧ (0xF4 < c ∨ c = 0xF4 ∧ 0x8F < d) then
    some "UTF-8 error: code points greater than 0x10ffff are not defined"
  else if ab = 4 ∧ c = 0xF8 ∧ d &&& 0x38 = 0 then some "UTF-8 error: overlong 5-byte sequence"
  else if ab = 5 ∧ c = 0xFC ∧ d &&& 0x3C = 0 then some "UTF-8 error: overlong 6-byte sequence"
  else if ab = 4 then some "UTF-8 error: 5-byte character is not allowed (RFC 3629)"
  else if ab = 5 then some "UTF-8 error: 6-byte character is not allowed (RFC 3629)"
  else none

/-- One turn of the loop, at the lead byte `c`: a fault, or the additional bytes it steps over. -/
def checkChar (c : UInt8) (rest : List UInt8) : Except String ℕ :=
  if c < 0x80 then .ok 0
  else if c < 0xC0 then .error "UTF-8 error: isolated byte with 0x80 bit set"
  else if 0xFE ≤ c then .error "UTF-8 error: illegal byte (0xfe or 0xff)"
  else
    let ab := additional c
    if rest.length < ab then .error (missing (ab - rest.length))
    else
      match rest.take ab with
      | [] => .ok ab
      | d :: more =>
        if !isContinuation d then .error "UTF-8 error: byte 2 top bits not 0x80"
        else
          match topFault top more with
          | some message => .error message
          | none =>
            match sequenceFault ab c d with
            | some message => .error message
            | none => .ok ab

def pcre2Utf8Error : List UInt8 → Option String
  | [] => none
  | c :: rest =>
    match checkChar c rest with
    | .error message => some message
    | .ok ab => pcre2Utf8Error (rest.drop ab)
termination_by bytes => bytes.length
decreasing_by
  rw [List.length_drop, List.length_cons]
  omega

/-! ## Bytes -/

theorem forall_byte {P : UInt8 → Prop} (h : ∀ n < 256, P (UInt8.ofNat n)) (b : UInt8) : P b := by
  have := h b.toNat b.toNat_lt
  rwa [UInt8.ofNat_toNat] at this

theorem isContinuation_iff (b : UInt8) : isContinuation b = true ↔ IsTail b := by
  revert b
  unfold isContinuation IsTail
  apply forall_byte
  decide +kernel

theorem overlong_two {c : UInt8} (hlow : 0xC0 ≤ c.toNat) (hhigh : c.toNat ≤ 0xDF) :
    c &&& 0x3E = 0 ↔ c.toNat < 0xC2 := by
  revert c
  apply forall_byte
  decide +kernel

theorem overlong_three {d : UInt8} (h : IsTail d) : d &&& 0x20 = 0 ↔ d.toNat < 0xA0 := by
  revert d
  unfold IsTail
  apply forall_byte
  decide +kernel

theorem overlong_four {d : UInt8} (h : IsTail d) : d &&& 0x30 = 0 ↔ d.toNat < 0x90 := by
  revert d
  unfold IsTail
  apply forall_byte
  decide +kernel

theorem lt_iff (a b : UInt8) : a < b ↔ a.toNat < b.toNat := UInt8.lt_iff_toNat_lt

theorem additional_eq (c : UInt8) :
    additional c =
      if c.toNat ≤ 0xDF then 1 else if c.toNat ≤ 0xEF then 2 else if c.toNat ≤ 0xF7 then 3
      else if c.toNat ≤ 0xFB then 4 else 5 := by
  unfold additional
  simp only [UInt8.le_iff_toNat_le]
  rfl

theorem additional_bounds (c : UInt8) : 1 ≤ additional c ∧ additional c ≤ 5 := by
  unfold additional
  split_ifs <;> omega

theorem topFault_eq_none {messages : List String} {bs : List UInt8} :
    topFault messages bs = none ↔ ∀ b ∈ bs.take messages.length, IsTail b := by
  induction messages generalizing bs with
  | nil => simp [topFault]
  | cons m ms ih =>
    cases bs with
    | nil => simp [topFault]
    | cons b bs =>
      rw [topFault, List.length_cons, List.take_succ_cons, List.forall_mem_cons, ← ih,
        ← isContinuation_iff]
      cases isContinuation b <;> simp

/-! ## One character -/

theorem charBytes_of_sequence {c d : UInt8} {more : List UInt8} (hc : 0xC0 ≤ c.toNat)
    (hlen : more.length + 1 = additional c) (hd : IsTail d) (hmore : ∀ b ∈ more, IsTail b)
    (h : sequenceFault (additional c) c d = none) : CharBytes (c :: d :: more) := by
  have hab := additional_eq c
  unfold sequenceFault at h
  split_ifs at h with f1 f2 f3 f4 f5 f6 f7 f8 f9
  by_cases h1 : c.toNat ≤ 0xDF
  · rw [if_pos h1] at hab
    obtain rfl : more = [] := List.eq_nil_of_length_eq_zero (by omega)
    have hlow : ¬c.toNat < 0xC2 := fun hlt => f1 ⟨hab, (overlong_two hc h1).mpr hlt⟩
    exact .two ⟨by omega, h1⟩ hd
  rw [if_neg h1] at hab
  by_cases h2 : c.toNat ≤ 0xEF
  · rw [if_pos h2] at hab
    obtain ⟨e, rfl⟩ := List.length_eq_one_iff.mp (by omega : more.length = 1)
    refine .three ⟨by omega, h2⟩ hd (hmore e List.mem_cons_self) (fun he => ?_) (fun he => ?_)
    · have hc0 : c = 0xE0 := UInt8.toNat_inj.mp he
      have hd0 : ¬d.toNat < 0xA0 := fun hlt => f2 ⟨hab, hc0, (overlong_three hd).mpr hlt⟩
      omega
    · have hc0 : c = 0xED := UInt8.toNat_inj.mp he
      have hd0 : ¬(0xA0 : UInt8) ≤ d := fun hle => f3 ⟨hab, hc0, hle⟩
      rw [UInt8.le_iff_toNat_le] at hd0
      have : (0xA0 : UInt8).toNat = 0xA0 := rfl
      omega
  rw [if_neg h2] at hab
  by_cases h3 : c.toNat ≤ 0xF7
  · rw [if_pos h3] at hab
    obtain ⟨e, f, rfl⟩ := List.length_eq_two.mp (by omega : more.length = 2)
    have hrange : ¬((0xF4 : UInt8) < c ∨ c = 0xF4 ∧ (0x8F : UInt8) < d) := fun hr => f5 ⟨hab, hr⟩
    rw [not_or, not_and] at hrange
    have hle : ¬(0xF4 : UInt8).toNat < c.toNat := fun hlt => hrange.1 ((lt_iff _ _).mpr hlt)
    have hF4 : (0xF4 : UInt8).toNat = 0xF4 := rfl
    refine .four ⟨by omega, by omega⟩ hd (hmore e List.mem_cons_self)
      (hmore f (List.mem_cons_of_mem _ List.mem_cons_self)) (fun he => ?_) (fun he => ?_)
    · have hc0 : c = 0xF0 := UInt8.toNat_inj.mp he
      have hd0 : ¬d.toNat < 0x90 := fun hlt => f4 ⟨hab, hc0, (overlong_four hd).mpr hlt⟩
      omega
    · have hc0 : c = 0xF4 := UInt8.toNat_inj.mp he
      have hd0 : ¬(0x8F : UInt8).toNat < d.toNat := fun hlt => hrange.2 hc0 ((lt_iff _ _).mpr hlt)
      have : (0x8F : UInt8).toNat = 0x8F := rfl
      omega
  -- five and six bytes are refused whatever they are
  rw [if_neg h3] at hab
  split_ifs at hab
  · exact absurd hab f8
  · exact absurd hab f9

theorem charBytes_of_checkChar {c : UInt8} {rest : List UInt8} {ab : ℕ} (h : checkChar c rest = .ok ab) :
    ab ≤ rest.length ∧ CharBytes (c :: rest.take ab) := by
  unfold checkChar at h
  split at h
  · rename_i hc
    cases h
    rw [lt_iff] at hc
    have : (0x80 : UInt8).toNat = 0x80 := rfl
    refine ⟨Nat.zero_le _, .one ?_⟩
    omega
  · split at h
    · cases h
    · rename_i hc
      rw [lt_iff] at hc
      have hC0 : (0xC0 : UInt8).toNat = 0xC0 := rfl
      have hab := additional_bounds c
      split at h
      · cases h
      · dsimp only at h
        split at h
        · cases h
        · rename_i hleft
          have hlen : (rest.take (additional c)).length = additional c := by
            rw [List.length_take]
            omega
          split at h
          · rename_i hnil
            rw [hnil] at hlen
            simp at hlen
            omega
          · rename_i d more htake
            rw [htake, List.length_cons] at hlen
            split at h
            · cases h
            · rename_i hd
              split at h
              · cases h
              · rename_i htop
                split at h
                · cases h
                · rename_i hseq
                  obtain rfl := Except.ok.inj h
                  refine ⟨by omega, ?_⟩
                  rw [htake]
                  have hd' : IsTail d := (isContinuation_iff d).mp (by simpa using hd)
                  have hmore : ∀ b ∈ more, IsTail b := by
                    have := topFault_eq_none.mp htop
                    rwa [List.take_of_length_le] at this
                    rw [top]
                    simp only [List.length_cons, List.length_nil]
                    omega
                  exact charBytes_of_sequence (by omega) hlen hd' hmore hseq

theorem checkChar_multi {c d : UInt8} (more : List UInt8) {rest : List UInt8} (hc : 0xC0 ≤ c.toNat ∧ c.toNat < 0xFE)
    (hlen : more.length + 1 = additional c) (hd : IsTail d) (hmore : ∀ b ∈ more, IsTail b)
    (h : sequenceFault (additional c) c d = none) :
    checkChar c (d :: more ++ rest) = .ok (more.length + 1) := by
  have h80 : ¬c < 0x80 := by
    rw [lt_iff]
    have : (0x80 : UInt8).toNat = 0x80 := rfl
    omega
  have hC0 : ¬c < 0xC0 := by
    rw [lt_iff]
    have : (0xC0 : UInt8).toNat = 0xC0 := rfl
    omega
  have hFE : ¬0xFE ≤ c := by
    rw [UInt8.le_iff_toNat_le]
    have : (0xFE : UInt8).toNat = 0xFE := rfl
    omega
  have hleft : ¬(d :: more ++ rest).length < additional c := by
    rw [List.length_append, List.length_cons]
    omega
  have htake : (d :: more ++ rest).take (additional c) = d :: more := by
    rw [← hlen]
    exact List.take_left' rfl
  have htop : topFault top more = none :=
    topFault_eq_none.mpr fun b hb => hmore b (List.mem_of_mem_take hb)
  unfold checkChar
  rw [if_neg h80, if_neg hC0, if_neg hFE]
  dsimp only
  rw [if_neg hleft, htake]
  dsimp only
  rw [(isContinuation_iff d).mpr hd, htop, h]
  exact congrArg Except.ok hlen.symm

theorem checkChar_of_charBytes {c : UInt8} {tail rest : List UInt8} (h : CharBytes (c :: tail)) :
    checkChar c (tail ++ rest) = .ok tail.length := by
  have hab := additional_eq c
  cases h with
  | one lead =>
    have h80 : c < 0x80 := by
      rw [lt_iff]
      have : (0x80 : UInt8).toNat = 0x80 := rfl
      omega
    unfold checkChar
    rw [if_pos h80]
    rfl
  | @two c d lead hb =>
    rw [if_pos lead.2] at hab
    have hlow : ¬c &&& 0x3E = 0 := by
      rw [overlong_two (by omega) lead.2]
      omega
    have hseq : sequenceFault (additional c) c d = none := by
      rw [hab]
      simp [sequenceFault, hlow]
    exact checkChar_multi [] (by omega) hab.symm hb (by simp) hseq
  | @three c d e lead hb he short noSurrogate =>
    rw [if_neg (by omega), if_pos lead.2] at hab
    have hshort : ¬(c = 0xE0 ∧ d &&& 0x20 = 0) := by
      rintro ⟨rfl, hd⟩
      rw [overlong_three hb] at hd
      have := short rfl
      omega
    have hsurrogate : ¬(c = 0xED ∧ 0xA0 ≤ d) := by
      rintro ⟨rfl, hd⟩
      rw [UInt8.le_iff_toNat_le] at hd
      have : (0xA0 : UInt8).toNat = 0xA0 := rfl
      have := noSurrogate rfl
      omega
    have hseq : sequenceFault (additional c) c d = none := by
      rw [hab]
      simp only [sequenceFault, true_and, hshort, hsurrogate]
      rfl
    exact checkChar_multi [e] (by omega) hab.symm hb (by simpa using he) hseq
  | @four c d e f lead hb he hf short inRange =>
    rw [if_neg (by omega), if_neg (by omega), if_pos (by omega)] at hab
    have hshort : ¬(c = 0xF0 ∧ d &&& 0x30 = 0) := by
      rintro ⟨rfl, hd⟩
      rw [overlong_four hb] at hd
      have := short rfl
      omega
    have hrange : ¬(0xF4 < c ∨ c = 0xF4 ∧ 0x8F < d) := by
      have hF4 : (0xF4 : UInt8).toNat = 0xF4 := rfl
      have h8F : (0x8F : UInt8).toNat = 0x8F := rfl
      rintro (hc | ⟨rfl, hd⟩)
      · rw [lt_iff] at hc
        omega
      · rw [lt_iff] at hd
        have := inRange rfl
        omega
    have hseq : sequenceFault (additional c) c d = none := by
      rw [hab]
      simp only [sequenceFault, true_and, hshort, hrange]
      rfl
    exact checkChar_multi [e, f] (by omega) hab.symm hb (by simpa using ⟨he, hf⟩) hseq

theorem checkChar_eq_ok_iff {c : UInt8} {rest : List UInt8} {ab : ℕ} :
    checkChar c rest = .ok ab ↔ ab ≤ rest.length ∧ CharBytes (c :: rest.take ab) := by
  refine ⟨charBytes_of_checkChar, fun ⟨hle, h⟩ => ?_⟩
  have hcheck : checkChar c (rest.take ab ++ rest.drop ab) = .ok (rest.take ab).length := checkChar_of_charBytes h
  rwa [List.take_append_drop, List.length_take, Nat.min_eq_left hle] at hcheck

/-! ## The whole text -/

theorem pcre2Utf8Error_cons (c : UInt8) (rest : List UInt8) :
    pcre2Utf8Error (c :: rest) =
      match checkChar c rest with
      | .error message => some message
      | .ok ab => pcre2Utf8Error (rest.drop ab) := by
  rw [pcre2Utf8Error]

theorem pcre2Utf8Error_encode (ch : Char) (rest : List UInt8) :
    pcre2Utf8Error (String.utf8EncodeChar ch ++ rest) = pcre2Utf8Error rest := by
  have h := charBytes_encode ch
  obtain ⟨c, tail, hct⟩ := h.exists_cons
  rw [hct] at h ⊢
  rw [List.cons_append, pcre2Utf8Error_cons, checkChar_of_charBytes h]
  dsimp only
  rw [List.drop_left]

theorem pcre2Utf8Error_flatMap (cs : List Char) (rest : List UInt8) :
    pcre2Utf8Error (cs.flatMap String.utf8EncodeChar ++ rest) = pcre2Utf8Error rest := by
  induction cs with
  | nil => rfl
  | cons ch cs ih => rw [List.flatMap_cons, List.append_assoc, pcre2Utf8Error_encode, ih]

/-- A text is characters up to its end, or up to the first place where none starts. -/
theorem exists_prefix (bytes : List UInt8) :
    ∃ cs : List Char, ∃ rest, bytes = cs.flatMap String.utf8EncodeChar ++ rest ∧
      (rest = [] ∨ ∃ c tail message, rest = c :: tail ∧ checkChar c tail = .error message) := by
  induction hn : bytes.length using Nat.strongRecOn generalizing bytes with
  | _ n ih =>
    cases bytes with
    | nil => exact ⟨[], [], rfl, .inl rfl⟩
    | cons c tail =>
      cases hcheck : checkChar c tail with
      | error message => exact ⟨[], c :: tail, rfl, .inr ⟨c, tail, message, rfl, hcheck⟩⟩
      | ok ab =>
        obtain ⟨hle, hchar⟩ := checkChar_eq_ok_iff.mp hcheck
        obtain ⟨ch, hch⟩ := charBytes_iff.mp hchar
        have hlt : (tail.drop ab).length < n := by
          rw [List.length_drop, ← hn, List.length_cons]
          omega
        obtain ⟨cs, rest, hrest, hend⟩ := ih _ hlt (tail.drop ab) rfl
        refine ⟨ch :: cs, rest, ?_, hend⟩
        rw [List.flatMap_cons, hch, List.append_assoc, ← hrest, List.cons_append,
          List.take_append_drop]

theorem pcre2Utf8Error_eq_none_iff {bytes : List UInt8} :
    pcre2Utf8Error bytes = none ↔ Octets bytes := by
  rw [octets_iff]
  constructor
  · intro h
    obtain ⟨cs, rest, rfl, hend⟩ := exists_prefix bytes
    rw [pcre2Utf8Error_flatMap] at h
    rcases hend with rfl | ⟨c, tail, message, rfl, hcheck⟩
    · exact ⟨String.ofList cs, by rw [bytesOf_ofList, List.append_nil]⟩
    · rw [pcre2Utf8Error_cons, hcheck] at h
      cases h
  · rintro ⟨s, rfl⟩
    rw [bytesOf_toList, ← List.append_nil (List.flatMap _ _), pcre2Utf8Error_flatMap]
    rw [pcre2Utf8Error]

/-- Otherwise there is an offset with a string before it and no character at it, and the message is
    the one of the bytes there. -/
theorem exists_fault_of_pcre2Utf8Error {bytes : List UInt8} {message : String}
    (h : pcre2Utf8Error bytes = some message) :
    ∃ (s : String) (c : UInt8) (tail : List UInt8), bytes = bytesOf s ++ c :: tail ∧
      checkChar c tail = .error message ∧ decodeChar? (c :: tail) = none := by
  obtain ⟨cs, rest, rfl, hend⟩ := exists_prefix bytes
  rw [pcre2Utf8Error_flatMap] at h
  rcases hend with rfl | ⟨c, tail, message', rfl, hcheck⟩
  · rw [pcre2Utf8Error] at h
    cases h
  · rw [pcre2Utf8Error_cons, hcheck] at h
    cases h
    refine ⟨String.ofList cs, c, tail, by rw [bytesOf_ofList], hcheck, ?_⟩
    rw [Option.eq_none_iff_forall_ne_some]
    intro ch hch
    have happ := eq_append_of_decodeChar? hch
    obtain ⟨b, more, hbm⟩ := (charBytes_encode ch).exists_cons
    rw [hbm, List.cons_append] at happ
    obtain ⟨rfl, htail⟩ := List.cons.inj happ
    have hchar : CharBytes (c :: more) := hbm ▸ charBytes_encode ch
    rw [htail, checkChar_of_charBytes hchar] at hcheck
    cases hcheck

end Secantus.Rawstr
