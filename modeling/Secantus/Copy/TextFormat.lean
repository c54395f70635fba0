/-
  The text format reads back (parse_text over write_field of secantus-pg/src/copy_text.rs).

  `Passes` says that the scan for delimiters runs over some bytes without stopping and without taking the byte
  after them along. Every written value passes (`passes_escapeText`), and the NULL string does unless it ends in
  a backslash of its own (`Dangling`), which takes the delimiter with it. `parse_text_iff` is the exact
  condition: no row is lost, because its line is empty or the end-of-data marker, and no NULL swallows a
  delimiter.
-/
import Secantus.Copy.Rows

namespace Secantus.Copy
open Library

/-! ## Bytes -/

@[simp] theorem utf8_nil : utf8 [] = [] := rfl

theorem utf8_cons (c : Char) (s : List Char) : utf8 (c :: s) = String.utf8EncodeChar c ++ utf8 s :=
  List.flatMap_cons

theorem utf8_append (s t : List Char) : utf8 (s ++ t) = utf8 s ++ utf8 t := List.flatMap_append

theorem utf8_injective {s t : List Char} (h : utf8 s = utf8 t) : s = t := by
  have := congrArg fromUtf8Lossy h
  rwa [utf8, utf8, fromUtf8Lossy_flatMap, fromUtf8Lossy_flatMap] at this

/-- The byte of a one-byte character. -/
def byteOf (c : Char) : UInt8 := UInt8.ofNat c.toNat

theorem utf8EncodeChar_byteOf {c : Char} (h : c.toNat < 128) : String.utf8EncodeChar c = [byteOf c] :=
  utf8EncodeChar_ascii h

theorem byteOf_toNat {c : Char} (h : c.toNat < 128) : (byteOf c).toNat = c.toNat := by
  show (UInt8.ofNat c.toNat).toNat = c.toNat
  rw [UInt8.toNat_ofNat']
  omega

/-- A one-byte character's byte is in the encoding of no other character. -/
theorem eq_of_byteOf_mem {c d : Char} (hd : d.toNat < 128) (h : byteOf d ∈ String.utf8EncodeChar c) : c = d := by
  have hlt : (byteOf d).toNat < 128 := by rw [byteOf_toNat hd]; exact hd
  obtain ⟨-, hc⟩ := utf8EncodeChar_of_mem h hlt
  rw [byteOf_toNat hd] at hc
  exact Char.ext (UInt32.toNat_inj.mp hc)

/-! ## The scan for delimiters -/

/-- The scan runs over these bytes and goes on after them. -/
def Passes (delim : UInt8) (bs : List UInt8) : Prop :=
  ∀ rest, cutFields delim (bs ++ rest) = (cutFields delim rest).modifyHead (bs ++ ·)

theorem modifyHead_modifyHead {α : Type} (f g : α → α) (l : List α) :
    (l.modifyHead f).modifyHead g = l.modifyHead (g ∘ f) := by
  cases l with
  | nil => rfl
  | cons a l => rfl

theorem passes_nil (delim : UInt8) : Passes delim [] := by
  intro rest
  cases h : cutFields delim rest with
  | nil => simp [h]
  | cons a l => simp [h]

theorem Passes.append {delim : UInt8} {a b : List UInt8} (ha : Passes delim a) (hb : Passes delim b) :
    Passes delim (a ++ b) := by
  intro rest
  rw [List.append_assoc, ha, hb, modifyHead_modifyHead]
  refine congrArg (List.modifyHead · (cutFields delim rest)) ?_
  funext x
  exact (List.append_assoc a b x).symm

theorem passes_single {delim b : UInt8} (hd : b ≠ delim) (hb : b ≠ 92) : Passes delim [b] := by
  intro rest
  show cutFields delim (b :: rest) = _
  rw [cutFields.eq_def]
  simp only [if_neg hd, if_neg hb]
  rfl

theorem passes_pair {delim : UInt8} (hd : delim ≠ 92) (c : UInt8) : Passes delim [92, c] := by
  intro rest
  show cutFields delim (92 :: c :: rest) = _
  rw [cutFields.eq_def]
  simp only [if_neg hd.symm, if_pos trivial]

theorem passes_of_forall {delim : UInt8} {bs : List UInt8} (h : ∀ b ∈ bs, b ≠ delim ∧ b ≠ 92) : Passes delim bs := by
  induction bs with
  | nil => exact passes_nil delim
  | cons b bs ih =>
    have hb := h b List.mem_cons_self
    exact (passes_single hb.1 hb.2).append (ih fun c hc => h c (List.mem_cons_of_mem b hc))

theorem Passes.cut {delim : UInt8} {bs : List UInt8} (h : Passes delim bs) : cutFields delim bs = [bs] := by
  have := h []
  rw [List.append_nil] at this
  rw [this]
  show [bs ++ []] = [bs]
  rw [List.append_nil]

theorem Passes.cut_delim {delim : UInt8} {bs : List UInt8} (h : Passes delim bs) (rest : List UInt8) :
    cutFields delim (bs ++ delim :: rest) = bs :: cutFields delim rest := by
  rw [h]
  have hd : cutFields delim (delim :: rest) = [] :: cutFields delim rest := by
    rw [cutFields.eq_def]
    simp
  rw [hd]
  show (bs ++ []) :: _ = _
  rw [List.append_nil]

/-! ## What is written -/

variable {o : CopyOptions}

/-- The delimiter's byte. -/
def CopyOptions.delim (o : CopyOptions) : UInt8 := byteOf o.delimiter

theorem CopyOptions.Valid.not_unsafe (hv : o.Valid false) {c : Char} (hc : c ∈ unsafeDelimiters) : o.delimiter ≠ c :=
  fun h => hv.delimiter_safe rfl (h ▸ hc)

theorem CopyOptions.Valid.delim_ne (hv : o.Valid false) : o.delim ≠ 92 := by
  intro h
  have htn := congrArg UInt8.toNat h
  rw [CopyOptions.delim, byteOf_toNat hv.delimiter_byte] at htn
  have hc : o.delimiter = '\\' := Char.ext (UInt32.toNat_inj.mp htn)
  exact hv.not_unsafe (by decide) hc

/-- A character that is neither the delimiter nor a backslash passes. -/
theorem passes_char (hv : o.Valid false) {c : Char} (hd : c ≠ o.delimiter) (hb : c ≠ '\\') :
    Passes o.delim (String.utf8EncodeChar c) := by
  refine passes_of_forall fun b hmem => ⟨?_, ?_⟩
  · rintro rfl
    exact hd (eq_of_byteOf_mem hv.delimiter_byte hmem)
  · rintro rfl
    exact hb (eq_of_byteOf_mem (d := '\\') (by decide) hmem)

theorem passes_escape (hv : o.Valid false) {c : Char} (hc : c.toNat < 128) : Passes o.delim (utf8 ['\\', c]) := by
  have h : utf8 ['\\', c] = [92, byteOf c] := by
    rw [utf8_cons, utf8_cons, utf8_nil, utf8EncodeChar_byteOf hc, utf8EncodeChar_byteOf (c := '\\') (by decide)]
    rfl
  rw [h]
  exact passes_pair hv.delim_ne _

theorem unescapeBytes_letter {b byte : UInt8} (h : letterEscape b = some byte) (rest : List UInt8) :
    unescapeBytes (92 :: b :: rest) = byte :: unescapeBytes rest := by
  rw [unescapeBytes.eq_def]
  simp [h]

theorem unescapeBytes_other {b : UInt8} (hl : letterEscape b = none) (ho : octalValue b = none) (hx : b ≠ 120)
    (rest : List UInt8) : unescapeBytes (92 :: b :: rest) = b :: unescapeBytes rest := by
  rw [unescapeBytes.eq_def]
  simp [hl, ho, hx]

theorem unescapeBytes_plain {bs : List UInt8} (h : ∀ b ∈ bs, b ≠ 92) (rest : List UInt8) :
    unescapeBytes (bs ++ rest) = bs ++ unescapeBytes rest := by
  induction bs with
  | nil => rfl
  | cons b bs ih =>
    rw [List.cons_append, unescapeBytes.eq_def]
    simp only [if_pos (h b List.mem_cons_self)]
    rw [ih fun c hc => h c (List.mem_cons_of_mem b hc)]
    rfl

/-- A delimiter that is safe outside CSV stands for itself after a backslash. -/
theorem safe_delimiter : ∀ n < 128, Char.ofNat n ∉ unsafeDelimiters →
    letterEscape (UInt8.ofNat n) = none ∧ octalValue (UInt8.ofNat n) = none ∧ UInt8.ofNat n ≠ 120 := by
  have hletters : ∀ n ∈ [48, 49, 50, 51, 52, 53, 54, 55, 98, 102, 110, 114, 116, 118, 120],
      Char.ofNat n ∈ unsafeDelimiters := by decide
  have hother : ∀ n < 128, n ∉ [48, 49, 50, 51, 52, 53, 54, 55, 98, 102, 110, 114, 116, 118, 120] →
      letterEscape (UInt8.ofNat n) = none ∧ octalValue (UInt8.ofNat n) = none ∧ UInt8.ofNat n ≠ 120 := by
    decide +kernel
  exact fun n hn hsafe => hother n hn fun hmem => hsafe (hletters n hmem)

/-- What an escaped character is: itself, or a backslash and a byte that together are read as it. -/
theorem escapeChar_cases (hv : o.Valid false) (c : Char) :
    (escapeChar o.delimiter c = [c] ∧ c ≠ o.delimiter ∧ c ≠ '\\' ∧ c ≠ '\n') ∨
      ∃ e, escapeChar o.delimiter c = ['\\', e] ∧ e.toNat < 128 ∧ e ≠ '\n' ∧ e ≠ '.' ∧
        ∀ rest, unescapeBytes (92 :: byteOf e :: rest) = String.utf8EncodeChar c ++ unescapeBytes rest := by
  have hletter : ∀ e : Char, ∀ byte, letterEscape (byteOf e) = some byte → String.utf8EncodeChar c = [byte] →
      ∀ rest, unescapeBytes (92 :: byteOf e :: rest) = String.utf8EncodeChar c ++ unescapeBytes rest := by
    intro e byte he hc rest
    rw [unescapeBytes_letter he, hc]
    rfl
  unfold escapeChar
  split
  · rename_i h
    exact .inr ⟨'b', rfl, by decide, by decide, by decide, hletter _ _ rfl (h ▸ by decide)⟩
  split
  · rename_i h
    exact .inr ⟨'f', rfl, by decide, by decide, by decide, hletter _ _ rfl (h ▸ by decide)⟩
  split
  · rename_i h
    exact .inr ⟨'n', rfl, by decide, by decide, by decide, hletter _ _ rfl (h ▸ by decide)⟩
  rename_i hline
  split
  · rename_i h
    exact .inr ⟨'r', rfl, by decide, by decide, by decide, hletter _ _ rfl (h ▸ by decide)⟩
  split
  · rename_i h
    exact .inr ⟨'t', rfl, by decide, by decide, by decide, hletter _ _ rfl (h.1 ▸ by decide)⟩
  split
  · rename_i h
    exact .inr ⟨'v', rfl, by decide, by decide, by decide, hletter _ _ rfl (h ▸ by decide)⟩
  split
  · rename_i h
    refine .inr ⟨'\\', rfl, by decide, by decide, by decide, fun rest => ?_⟩
    rw [unescapeBytes_other (by decide) (by decide) (by decide), h]
    rfl
  rename_i hback
  split
  · rename_i h
    by_cases htab : c = '\t'
    · rw [if_pos htab]
      exact .inr ⟨'t', rfl, by decide, by decide, by decide, hletter _ _ rfl (htab ▸ by decide)⟩
    · rw [if_neg htab]
      subst h
      have hbyte := hv.delimiter_byte
      have hchar : Char.ofNat o.delimiter.toNat = o.delimiter := Char.ofNat_toNat _
      obtain ⟨hl, ho, hx⟩ := safe_delimiter _ hbyte (by rw [hchar]; exact hv.delimiter_safe rfl)
      refine .inr ⟨o.delimiter, rfl, hbyte, hv.delimiter_line.2, hv.not_unsafe (by decide), fun rest => ?_⟩
      rw [utf8EncodeChar_byteOf hbyte]
      exact unescapeBytes_other hl ho hx rest
  · rename_i hdelim
    exact .inl ⟨rfl, hdelim, hback, hline⟩

theorem unescapeBytes_escapeText (hv : o.Valid false) (text : List Char) :
    unescapeBytes (utf8 (escapeText o.delimiter text)) = utf8 text := by
  induction text with
  | nil => rw [show escapeText o.delimiter [] = [] from rfl, utf8_nil, unescapeBytes]
  | cons c text ih =>
    have hcons : escapeText o.delimiter (c :: text) =
        escapeChar o.delimiter c ++ escapeText o.delimiter text := List.flatMap_cons
    rw [hcons, utf8_append, utf8_cons]
    rcases escapeChar_cases hv c with ⟨hc, -, hback, -⟩ | ⟨e, hc, he, -, -, hread⟩
    · rw [hc, utf8_cons, utf8_nil, List.append_nil, unescapeBytes_plain, ih]
      rintro b hb rfl
      exact hback (eq_of_byteOf_mem (d := '\\') (by decide) hb)
    · rw [hc, utf8_cons, utf8_cons, utf8_nil, utf8EncodeChar_byteOf he,
        utf8EncodeChar_byteOf (c := '\\') (by decide)]
      show unescapeBytes (92 :: byteOf e :: utf8 (escapeText o.delimiter text)) = _
      rw [hread, ih]

theorem passes_escapeText (hv : o.Valid false) (text : List Char) :
    Passes o.delim (utf8 (escapeText o.delimiter text)) := by
  induction text with
  | nil => exact passes_nil _
  | cons c text ih =>
    have hcons : escapeText o.delimiter (c :: text) =
        escapeChar o.delimiter c ++ escapeText o.delimiter text := List.flatMap_cons
    rw [hcons, utf8_append]
    refine Passes.append ?_ ih
    rcases escapeChar_cases hv c with ⟨hc, hd, hback, -⟩ | ⟨e, hc, he, -⟩
    · rw [hc, utf8_cons, utf8_nil, List.append_nil]
      exact passes_char hv hd hback
    · rw [hc]
      exact passes_escape hv he

theorem newline_not_mem_escapeText (hv : o.Valid false) (text : List Char) : '\n' ∉ escapeText o.delimiter text := by
  intro hmem
  obtain ⟨c, -, hc⟩ := List.mem_flatMap.mp hmem
  rcases escapeChar_cases hv c with ⟨h, -, -, hline⟩ | ⟨e, h, -, hline, -⟩
  · rw [h, List.mem_singleton] at hc
    exact hline hc.symm
  · rw [h] at hc
    simp only [List.mem_cons, List.not_mem_nil, or_false] at hc
    rcases hc with hc | hc
    · exact absurd hc (by decide)
    · exact hline hc.symm

/-! ## NULL -/

/-- The string's last backslash is left without a character to escape (an odd number of backslashes ends
    it). -/
def Dangling : List Char → Bool
  | [] => false
  | ['\\'] => true
  | c :: d :: rest => if c = '\\' then Dangling rest else Dangling (d :: rest)
  | [_] => false

/-- Bytes that pass, but for a last backslash when `dangling`. -/
def PassesBut (delim : UInt8) (dangling : Bool) (bs : List UInt8) : Prop :=
  if dangling then ∃ start, bs = start ++ [92] ∧ Passes delim start else Passes delim bs

theorem PassesBut.append {delim : UInt8} {dangling : Bool} {a b : List UInt8} (ha : Passes delim a)
    (hb : PassesBut delim dangling b) : PassesBut delim dangling (a ++ b) := by
  cases dangling with
  | false => exact ha.append hb
  | true =>
    obtain ⟨start, rfl, hstart⟩ := hb
    exact ⟨a ++ start, (List.append_assoc _ _ _).symm, ha.append hstart⟩

/-- A backslash takes the first byte of any character; the others pass. -/
theorem passes_backslash_char (hv : o.Valid false) (c : Char) :
    Passes o.delim (92 :: String.utf8EncodeChar c) := by
  have hlong : ∀ first more b, String.utf8EncodeChar c = first :: more → b ∈ more → 128 ≤ b.toNat := by
    intro first more b heq hb
    by_contra hlt
    obtain ⟨hone, -⟩ := utf8EncodeChar_of_mem (c := c) (heq ▸ List.mem_cons_of_mem first hb) (by omega)
    rw [hone] at heq
    obtain ⟨-, rfl⟩ := List.cons.inj heq
    cases hb
  have hsmall : o.delim.toNat < 128 := by
    rw [CopyOptions.delim, byteOf_toNat hv.delimiter_byte]
    exact hv.delimiter_byte
  cases heq : String.utf8EncodeChar c with
  | nil => exact absurd heq (String.utf8EncodeChar_ne_nil)
  | cons first more =>
    refine (passes_pair hv.delim_ne first).append (passes_of_forall fun b hb => ?_)
    have hb' := hlong first more b heq hb
    constructor
    · rintro rfl
      omega
    · rintro rfl
      exact absurd hb' (by decide)

/-- The NULL string passes, or all of it but its last backslash does. -/
theorem passesBut_null (hv : o.Valid false) {null : List Char} (hd : o.delimiter ∉ null) :
    PassesBut o.delim (Dangling null) (utf8 null) := by
  fun_induction Dangling null with
  | case1 => exact passes_nil _
  | case2 => exact ⟨[], by decide, passes_nil _⟩
  | case3 d rest ih =>
    have hrest : o.delimiter ∉ rest := fun h => hd (List.mem_cons_of_mem _ (List.mem_cons_of_mem _ h))
    have hcons : utf8 ('\\' :: d :: rest) = (92 :: String.utf8EncodeChar d) ++ utf8 rest := by
      rw [utf8_cons, utf8_cons, utf8EncodeChar_byteOf (c := '\\') (by decide)]
      rfl
    rw [hcons]
    exact PassesBut.append (passes_backslash_char hv d) (ih hrest)
  | case4 c d rest hback ih =>
    have hrest : o.delimiter ∉ d :: rest := fun h => hd (List.mem_cons_of_mem _ h)
    rw [utf8_cons]
    exact PassesBut.append (passes_char hv (fun h => hd (h ▸ List.mem_cons_self)) hback) (ih hrest)
  | case5 c hback =>
    rw [utf8_cons, utf8_nil, List.append_nil]
    exact passes_char hv (fun h => hd (h ▸ List.mem_cons_self)) fun h => hback (by rw [h])

/-! ## Rows -/

/-- The bytes of a field. -/
def rawField (o : CopyOptions) (field : Field) : List UInt8 := utf8 (writeField field false o false false)

/-- A field whose last backslash takes the delimiter after it along. -/
def Swallows (o : CopyOptions) (field : Field) : Prop := field = none ∧ Dangling o.null = true

theorem passes_rawField (hv : o.Valid false) {field : Field} (h : ¬Swallows o field) :
    Passes o.delim (rawField o field) := by
  cases field with
  | none =>
    have hd : Dangling o.null = false := by
      cases heq : Dangling o.null with
      | false => rfl
      | true => exact absurd ⟨rfl, heq⟩ h
    have := passesBut_null hv hv.null_delimiter
    rw [hd] at this
    exact this
  | some text => exact passes_escapeText hv text

theorem swallows_rawField (hv : o.Valid false) {field : Field} (h : Swallows o field) :
    ∃ start, rawField o field = start ++ [92] ∧ Passes o.delim start := by
  obtain ⟨rfl, hd⟩ := h
  have := passesBut_null hv hv.null_delimiter
  rw [hd] at this
  exact this

/-- The bytes of a row, without its line's end. -/
def rawRow (o : CopyOptions) (row : List Field) : List UInt8 := utf8 (writeFields false o false [] row)

theorem writeField_text (field : Field) (o : CopyOptions) (force single force' single' : Bool) :
    writeField field false o force single = writeField field false o force' single' := by
  cases field with
  | none => rfl
  | some text => rfl

theorem writeFields_text (o : CopyOptions) (single : Bool) (force : List Bool) (row : List Field) :
    writeFields false o single force row = writeFields false o false [] row := by
  induction row generalizing force with
  | nil => rfl
  | cons field row ih =>
    cases row with
    | nil => exact writeField_text ..
    | cons next row =>
      show _ ++ _ :: _ = _ ++ _ :: _
      rw [writeField_text field o (force.headD false) single ([].headD false) false, ih]
      rfl

theorem rawRow_single (o : CopyOptions) (field : Field) : rawRow o [field] = rawField o field := rfl

theorem rawRow_cons (hv : o.Valid false) (field next : Field) (row : List Field) :
    rawRow o (field :: next :: row) = rawField o field ++ o.delim :: rawRow o (next :: row) := by
  show utf8 (_ ++ o.delimiter :: _) = _
  rw [utf8_append, utf8_cons, utf8EncodeChar_byteOf hv.delimiter_byte]
  rfl

/-- Where no field but the last swallows a delimiter, the scan finds the fields. -/
theorem cutFields_rawRow (hv : o.Valid false) {row : List Field} (hne : row ≠ [])
    (h : ∀ field ∈ row.dropLast, ¬Swallows o field) : cutFields o.delim (rawRow o row) = row.map (rawField o) := by
  induction row with
  | nil => exact absurd rfl hne
  | cons field row ih =>
    cases row with
    | nil =>
      rw [rawRow_single]
      by_cases hs : Swallows o field
      · obtain ⟨start, heq, hstart⟩ := swallows_rawField hv hs
        have hlast : cutFields o.delim [92] = [[92]] := by
          rw [cutFields.eq_def]
          simp [hv.delim_ne.symm]
        rw [List.map_singleton, heq, hstart, hlast]
        rfl
      · exact (passes_rawField hv hs).cut
    | cons next row =>
      rw [List.dropLast_cons_cons] at h
      have hfield := h field List.mem_cons_self
      rw [rawRow_cons hv, (passes_rawField hv hfield).cut_delim,
        ih (List.cons_ne_nil next row) fun f hf => h f (List.mem_cons_of_mem field hf)]
      rfl

/-- The scan finds at most as many fields as were written, and fewer where a field before the last swallows
    its delimiter. -/
theorem length_cutFields (hv : o.Valid false) {row : List Field} (hne : row ≠ []) :
    (cutFields o.delim (rawRow o row)).length ≤ row.length ∧
      ((∃ field ∈ row.dropLast, Swallows o field) → (cutFields o.delim (rawRow o row)).length < row.length) := by
  induction row with
  | nil => exact absurd rfl hne
  | cons field row ih =>
    cases row with
    | nil =>
      refine ⟨?_, fun ⟨f, hf, _⟩ => absurd hf (by simp)⟩
      have hcut := cutFields_rawRow hv hne (by simp)
      rw [hcut]
      simp
    | cons next row =>
      obtain ⟨hle, hlt⟩ := ih (List.cons_ne_nil next row)
      rw [rawRow_cons hv]
      by_cases hs : Swallows o field
      · obtain ⟨start, heq, hstart⟩ := swallows_rawField hv hs
        have hpair : cutFields o.delim (92 :: o.delim :: rawRow o (next :: row)) =
            (cutFields o.delim (rawRow o (next :: row))).modifyHead ([92, o.delim] ++ ·) :=
          passes_pair hv.delim_ne o.delim _
        rw [heq, List.append_assoc, hstart, List.singleton_append, hpair, List.length_modifyHead,
          List.length_modifyHead]
        simp only [List.length_cons] at hle ⊢
        exact ⟨by omega, fun _ => by omega⟩
      · rw [(passes_rawField hv hs).cut_delim]
        simp only [List.length_cons] at hle hlt ⊢
        refine ⟨by omega, fun ⟨f, hf, hsw⟩ => ?_⟩
        rw [List.dropLast_cons_cons, List.mem_cons] at hf
        rcases hf with rfl | hf
        · exact absurd hsw hs
        · have := hlt ⟨f, hf, hsw⟩
          omega

/-- A raw field is read as the field, unless its escaped form is the NULL string. -/
theorem textField_rawField (hv : o.Valid false) {field : Field}
    (h : ∀ text, field = some text → escapeText o.delimiter text ≠ o.null) :
    textField o.null (rawField o field) = field := by
  unfold textField
  cases field with
  | none => exact if_pos rfl
  | some text =>
    have hne : rawField o (some text) ≠ utf8 o.null := fun heq => h text rfl (utf8_injective heq)
    rw [if_neg hne, unescapeCopyText]
    have hraw : rawField o (some text) = utf8 (escapeText o.delimiter text) := rfl
    rw [hraw, unescapeBytes_escapeText hv, utf8, fromUtf8Lossy_flatMap]

/-! ## Lines -/

theorem splitLines_append {line : List Char} (h : '\n' ∉ line) (rest : List Char) :
    splitLines (line ++ '\n' :: rest) = line :: splitLines rest := by
  induction line with
  | nil =>
    rw [List.nil_append, splitLines]
    exact if_pos rfl
  | cons c line ih =>
    have hc : c ≠ '\n' := fun heq => h (heq ▸ List.mem_cons_self)
    rw [List.cons_append, splitLines, if_neg hc, ih fun hmem => h (List.mem_cons_of_mem c hmem)]
    rfl

/-- The line of a row. -/
def textLine (o : CopyOptions) (row : List Field) : List Char := writeFields false o false [] row

theorem copyTextRow_text (o : CopyOptions) (force : List Bool) (row : List Field) :
    copyTextRow false o force row = textLine o row ++ ['\n'] := by
  unfold copyTextRow textLine
  rw [writeFields_text]

theorem textLine_cons (o : CopyOptions) (field next : Field) (row : List Field) :
    textLine o (field :: next :: row) =
      writeField field false o false false ++ o.delimiter :: textLine o (next :: row) := rfl

theorem newline_not_mem_writeField (hv : o.Valid false) (field : Field) :
    '\n' ∉ writeField field false o false false := by
  cases field with
  | none => exact hv.null_line.2
  | some text => exact newline_not_mem_escapeText hv text

theorem newline_not_mem_textLine (hv : o.Valid false) (row : List Field) : '\n' ∉ textLine o row := by
  induction row with
  | nil => exact List.not_mem_nil
  | cons field row ih =>
    cases row with
    | nil => exact newline_not_mem_writeField hv field
    | cons next row =>
      rw [textLine_cons, List.mem_append, List.mem_cons]
      rintro (h | h | h)
      · exact newline_not_mem_writeField hv field h
      · exact hv.delimiter_line.2 h.symm
      · exact ih h

theorem splitLines_copyText (hv : o.Valid false) (force : List Bool) (rows : List (List Field)) :
    splitLines (copyText false o force rows) = rows.map (textLine o) ++ [[]] := by
  induction rows with
  | nil => rfl
  | cons row rows ih =>
    have hcons : copyText false o force (row :: rows) =
        textLine o row ++ '\n' :: copyText false o force rows := by
      show copyTextRow false o force row ++ copyText false o force rows = _
      rw [copyTextRow_text, List.append_assoc]
      rfl
    rw [hcons, splitLines_append (newline_not_mem_textLine hv row), ih]
    rfl

/-- The row is lost: its line is empty, or it is the end-of-data marker. -/
def Vanishes (o : CopyOptions) (row : List Field) : Prop :=
  row = [some []] ∨ row = [none] ∧ (o.null = [] ∨ o.null = ['\\', '.'])

/-- An escaped text is empty only for the empty text, and is never the end-of-data marker. -/
theorem escapeText_marker (hv : o.Valid false) (text : List Char) :
    (escapeText o.delimiter text = [] ∨ escapeText o.delimiter text = ['\\', '.']) ↔ text = [] := by
  constructor
  · intro h
    cases text with
    | nil => rfl
    | cons c text =>
      have hcons : escapeText o.delimiter (c :: text) =
          escapeChar o.delimiter c ++ escapeText o.delimiter text := List.flatMap_cons
      rw [hcons] at h
      rcases escapeChar_cases hv c with ⟨hc, -, hback, -⟩ | ⟨e, hc, -, -, hdot, -⟩
      · rw [hc] at h
        rcases h with h | h
        · cases h
        · exact absurd (List.cons.inj h).1 hback
      · rw [hc] at h
        rcases h with h | h
        · cases h
        · exact absurd (List.cons.inj (List.cons.inj h).2).1 hdot
  · rintro rfl
    exact .inl rfl

theorem vanishes_iff (hv : o.Valid false) {row : List Field} (hne : row ≠ []) :
    Vanishes o row ↔ textLine o row = [] ∨ textLine o row = ['\\', '.'] := by
  cases row with
  | nil => exact absurd rfl hne
  | cons field row =>
    cases row with
    | nil =>
      cases field with
      | none =>
        show _ ↔ o.null = [] ∨ o.null = ['\\', '.']
        simp [Vanishes]
      | some text =>
        show _ ↔ escapeText o.delimiter text = [] ∨ escapeText o.delimiter text = ['\\', '.']
        rw [escapeText_marker hv]
        simp [Vanishes]
    | cons next row =>
      have hmem : o.delimiter ∈ textLine o (field :: next :: row) := by
        rw [textLine_cons]
        exact List.mem_append_right _ List.mem_cons_self
      constructor
      · rintro (h | ⟨h, -⟩)
        · cases h
        · cases h
      · rintro (h | h)
        · rw [h] at hmem
          cases hmem
        · rw [h] at hmem
          simp only [List.mem_cons, List.not_mem_nil, or_false] at hmem
          rcases hmem with hmem | hmem
          · exact absurd hmem (hv.not_unsafe (by decide))
          · exact absurd hmem (hv.not_unsafe (by decide))

theorem parseTextLines_map {lines : List (List Char)} (h : ∀ line ∈ lines, line ≠ [] ∧ line ≠ ['\\', '.']) :
    (parseTextLines o (lines ++ [[]])).map Prod.fst =
      lines.map fun line => (cutFields o.delim (utf8 line)).map (textField o.null) := by
  induction lines with
  | nil => rfl
  | cons line lines ih =>
    have hline := h line List.mem_cons_self
    rw [List.cons_append, parseTextLines, if_neg hline.1, if_neg hline.2]
    exact congrArg (_ :: ·) (ih fun l hl => h l (List.mem_cons_of_mem line hl))

/-- A lost line leaves fewer rows. -/
theorem length_parseTextLines {lines : List (List Char)} :
    (parseTextLines o (lines ++ [[]])).length ≤ lines.length ∧
      ((∃ line ∈ lines, line = [] ∨ line = ['\\', '.']) →
        (parseTextLines o (lines ++ [[]])).length < lines.length) := by
  induction lines with
  | nil => exact ⟨le_rfl, fun ⟨_, h, _⟩ => by cases h⟩
  | cons line lines ih =>
    obtain ⟨hle, hlt⟩ := ih
    rw [List.cons_append, parseTextLines]
    split
    · simp only [List.length_cons]
      exact ⟨by omega, fun _ => by omega⟩
    split
    · simp
    rename_i hempty hmarker
    simp only [List.length_cons]
    refine ⟨by omega, fun ⟨l, hl, hlost⟩ => ?_⟩
    rcases List.mem_cons.mp hl with rfl | hl
    · exact absurd hlost (not_or.mpr ⟨hempty, hmarker⟩)
    · have := hlt ⟨l, hl, hlost⟩
      omega

/-- A NULL before the last column takes a delimiter along. -/
def Merges (o : CopyOptions) (row : List Field) : Prop := Dangling o.null = true ∧ none ∈ row.dropLast

/-- The text format reads back exactly where no row is lost and no delimiter swallowed. -/
theorem parseText_iff (hv : o.Valid false) (force : List Bool) {rows : List (List Field)}
    (hne : ∀ row ∈ rows, row ≠ [])
    (hnull : ∀ row ∈ rows, ∀ text, some text ∈ row → escapeText o.delimiter text ≠ o.null) :
    (parseText (copyText false o force rows) o).map Prod.fst = rows ↔
      ∀ row ∈ rows, ¬Vanishes o row ∧ ¬Merges o row := by
  unfold parseText
  rw [splitLines_copyText hv]
  constructor
  · intro h
    have hlen := congrArg List.length h
    rw [List.length_map] at hlen
    obtain ⟨-, hlt⟩ := @length_parseTextLines o (rows.map (textLine o))
    rw [List.length_map, hlen] at hlt
    have hkept : ∀ row ∈ rows, textLine o row ≠ [] ∧ textLine o row ≠ ['\\', '.'] := by
      intro row hrow
      rw [← not_or]
      intro hlost
      exact absurd (hlt ⟨_, List.mem_map_of_mem hrow, hlost⟩) (lt_irrefl _)
    rw [parseTextLines_map (by simpa using hkept), List.map_map] at h
    intro row hrow
    refine ⟨fun hv' => ?_, fun ⟨hdangle, hmem⟩ => ?_⟩
    · exact ((vanishes_iff hv (hne row hrow)).mp hv').elim (hkept row hrow).1 (hkept row hrow).2
    · have hsame : (cutFields o.delim (rawRow o row)).map (textField o.null) = row := by
        have hmap := List.map_eq_map_iff.mp (h.trans (List.map_id rows).symm) row hrow
        exact hmap
      have hcount := congrArg List.length hsame
      rw [List.length_map] at hcount
      have := (length_cutFields hv (hne row hrow)).2 ⟨none, hmem, rfl, hdangle⟩
      omega
  · intro h
    have hkept : ∀ row ∈ rows, textLine o row ≠ [] ∧ textLine o row ≠ ['\\', '.'] := by
      intro row hrow
      rw [← not_or, ← vanishes_iff hv (hne row hrow)]
      exact (h row hrow).1
    rw [parseTextLines_map (by simpa using hkept), List.map_map]
    refine (List.map_congr_left fun row hrow => ?_).trans (List.map_id rows)
    show (cutFields o.delim (rawRow o row)).map (textField o.null) = row
    rw [cutFields_rawRow hv (hne row hrow), List.map_map]
    · refine (List.map_congr_left fun field hfield => ?_).trans (List.map_id row)
      exact textField_rawField hv fun text htext => hnull row hrow text (htext ▸ hfield)
    · rintro field hfield ⟨rfl, hdangle⟩
      exact (h row hrow).2 ⟨hdangle, hfield⟩

end Secantus.Copy
