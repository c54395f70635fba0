/-
  The sections of an OP_MSG (parse_op_msg of secantus-wire/src/lib.rs).

  `docAt_eq` says what a document read at an offset is: bytes in range whose first four are their own length
  (`IsDoc`). From it, one turn of each loop reads the bytes of one document or section (`sectionAt_eq`), and the
  loops what stands in the buffer, all of it (`sectionsFrom_eq`); none leaves the buffer or runs out of turns.
-/
import Secantus.Frame.Message
import Secantus.Library.Outcome
import Secantus.Wire.Reading

namespace Secantus.Frame

open Secantus Secantus.Library Secantus.Wire

/-- Bytes whose first four are their length, at least a document's. -/
def IsDoc (doc : Bytes) : Prop := 5 ≤ doc.length ∧ doc.length < 2 ^ 31 ∧ doc.take 4 = le32 doc.length

/-- What stands at `at_` in the buffer, within `stop`. -/
def StandsAt (buf : Bytes) (at_ stop : ℕ) (bs : Bytes) : Prop :=
  at_ + bs.length ≤ stop ∧ window buf at_ bs.length = bs

theorem standsAt_append {buf : Bytes} {at_ stop : ℕ} (hstop : stop ≤ buf.length) {a b : Bytes} :
    StandsAt buf at_ stop (a ++ b) ↔ StandsAt buf at_ stop a ∧ StandsAt buf (at_ + a.length) stop b := by
  unfold StandsAt
  rw [List.length_append, window_add, ← Nat.add_assoc]
  constructor
  · rintro ⟨hle, hw⟩
    have hlen : (window buf at_ a.length).length = a.length := length_window (by omega)
    obtain ⟨hwa, hwb⟩ := List.append_inj hw hlen
    exact ⟨⟨by omega, hwa⟩, hle, hwb⟩
  · rintro ⟨⟨-, hwa⟩, hle, hwb⟩
    exact ⟨hle, by rw [hwa, hwb]⟩

theorem number_le32 {n : ℕ} (h : n < 2 ^ 31) : (number (le32 n)).toInt = n := by
  unfold number le32
  rw [ofLeBytes_leBytes (by omega)]
  exact toInt_ofNat h

theorem asUsize_number {n : ℕ} (h : n < 2 ^ 31) : asUsize (number (le32 n)) = n := by
  have hnum := number_le32 h
  have husize := @asUsize_of_nonneg (number (le32 n)) (by omega)
  omega

/-- Four bytes whose number is at least `m` are those of a length. -/
theorem le32_number {bs : Bytes} (hlen : bs.length = 4) {m : ℤ} (hm : 0 ≤ m) (h : m ≤ (number bs).toInt) :
    le32 (asUsize (number bs)) = bs ∧ asUsize (number bs) < 2 ^ 31 ∧ (asUsize (number bs) : ℤ) = (number bs).toInt := by
  have husize := @asUsize_of_nonneg (number bs) (by omega)
  obtain ⟨hbytes, hlt⟩ := le32_of_nonneg hlen (n := (number bs).toInt) rfl (by omega)
  have hnat : (number bs).toInt.toNat = asUsize (number bs) := by omega
  rw [hnat] at hbytes
  exact ⟨hbytes, by omega, husize⟩

/-! ## One document -/

theorem validateBson_isDoc {doc : Bytes} (h : IsDoc doc) (place : String) : validateBson doc place = .ok () := by
  obtain ⟨hmin, hmax, htake⟩ := h
  have hwindow : window doc 0 4 = le32 doc.length := htake
  unfold validateBson
  rw [if_neg (by omega), rdI32_eq (by omega), hwindow, ok_bind, asUsize_number hmax, if_neg (by simp)]

/-- A document is read where it stands, and nothing else is. -/
theorem docAt_eq {buf : Bytes} {at_ stop : ℕ} (hstop : stop ≤ buf.length) (truncated place : String)
    {between : Checked Unit} (hbetween : Returns between) :
    Returns (docAt buf at_ stop truncated place between) ∧
      ∀ doc, docAt buf at_ stop truncated place between = .ok doc ↔
        between = .ok () ∧ IsDoc doc ∧ StandsAt buf at_ stop doc := by
  unfold docAt
  by_cases hroom : at_ + 4 > stop
  · rw [if_pos hroom]
    refine ⟨returns_malformedBody _, fun doc => iff_of_false nofun ?_⟩
    rintro ⟨-, ⟨hmin, -⟩, hle, -⟩
    omega
  rw [if_neg hroom, rdI32_eq (by omega), ok_bind]
  have hfour : (window buf at_ 4).length = 4 := length_window (by omega)
  -- where a document stands, its length is the number read
  have hnumber : ∀ doc, IsDoc doc → StandsAt buf at_ stop doc → window buf at_ 4 = le32 doc.length := by
    rintro doc ⟨hmin, -, htake⟩ ⟨-, hw⟩
    rw [← htake, ← take_window buf at_ (Nat.le_of_lt hmin), hw]
  by_cases hfloor : number (window buf at_ 4) < MIN_BSON_DOC_LEN
  · have hlt : (number (window buf at_ 4)).toInt < 5 := Int32.lt_iff_toInt_lt.mp hfloor
    unfold checkDocLen
    rw [if_pos hfloor]
    refine ⟨returns_malformedBody _, fun doc => iff_of_false nofun ?_⟩
    rintro ⟨-, hdoc, hstands⟩
    rw [hnumber doc hdoc hstands, number_le32 hdoc.2.1] at hlt
    have := hdoc.1
    omega
  have hge : 5 ≤ (number (window buf at_ 4)).toInt := not_lt.mp fun h => hfloor (Int32.lt_iff_toInt_lt.mpr h)
  obtain ⟨hbytes, hmax, hval⟩ := le32_number hfour (by decide) hge
  by_cases hend : at_ + asUsize (number (window buf at_ 4)) > stop
  · unfold checkDocLen
    rw [if_neg hfloor, if_pos hend]
    refine ⟨returns_malformedBody _, fun doc => iff_of_false nofun ?_⟩
    rintro ⟨-, hdoc, hstands⟩
    rw [hnumber doc hdoc hstands, asUsize_number hdoc.2.1] at hend
    have := hstands.1
    omega
  have hcheck : checkDocLen (number (window buf at_ 4)) at_ stop place = .ok () := by
    unfold checkDocLen
    rw [if_neg hfloor, if_neg hend]
  rw [hcheck]
  generalize hlen : asUsize (number (window buf at_ 4)) = len at *
  have hwlen : (window buf at_ len).length = len := length_window (by omega)
  have hdoc : IsDoc (window buf at_ len) := by
    refine ⟨by omega, by omega, ?_⟩
    rw [take_window buf at_ (by omega), hwlen, hbytes]
  have hread : (slice buf at_ (at_ + len) >>= fun doc => validateBson doc place >>= fun _ => pure doc) =
      .ok (window buf at_ len) := by
    rw [slice_eq (by omega)]
    show (validateBson (window buf at_ len) place >>= _) = _
    rw [validateBson_isDoc hdoc]
    rfl
  cases between with
  | error e =>
    refine ⟨⟨fun h => hbetween.1 ?_, fun h => hbetween.2 ?_⟩, fun doc => iff_of_false nofun nofun⟩
    · cases h
      rfl
    · cases h
      rfl
  | ok u =>
    rw [ok_bind, ok_bind, hread]
    refine ⟨returns_ok _, fun doc => ?_⟩
    constructor
    · intro h
      obtain rfl := Except.ok.inj h
      exact ⟨rfl, hdoc, by rw [hwlen]; omega, by rw [hwlen]⟩
    · rintro ⟨-, hdoc', hstands⟩
      have hsame : doc.length = len := by
        rw [← hlen, hnumber doc hdoc' hstands, asUsize_number hdoc'.2.1]
      rw [← hsame, hstands.2]

/-! ## A sequence's documents -/

/-- Documents `docs` stand side by side from `offset` to `sectionEnd`. -/
def DocsStand (buf : Bytes) (sectionEnd offset : ℕ) (docs : List Bytes) : Prop :=
  (∀ doc ∈ docs, IsDoc doc) ∧ StandsAt buf offset sectionEnd docs.flatten ∧
    offset + docs.flatten.length = sectionEnd

theorem docsStand_end {buf : Bytes} {sectionEnd : ℕ} (docs : List Bytes) :
    DocsStand buf sectionEnd sectionEnd docs ↔ docs = [] := by
  constructor
  · rintro ⟨hdocs, -, hlen⟩
    cases docs with
    | nil => rfl
    | cons doc docs =>
      have hmin := (hdocs doc List.mem_cons_self).1
      simp only [List.flatten_cons, List.length_append] at hlen
      omega
  · rintro rfl
    exact ⟨nofun, ⟨le_rfl, rfl⟩, rfl⟩

theorem docsStand_cons {buf : Bytes} {sectionEnd offset : ℕ} (hend : sectionEnd ≤ buf.length) (doc : Bytes)
    (docs : List Bytes) :
    DocsStand buf sectionEnd offset (doc :: docs) ↔
      (IsDoc doc ∧ StandsAt buf offset sectionEnd doc) ∧ DocsStand buf sectionEnd (offset + doc.length) docs := by
  unfold DocsStand
  rw [List.flatten_cons, standsAt_append hend, List.length_append, List.forall_mem_cons, Nat.add_assoc]
  constructor
  · rintro ⟨⟨h1, h2⟩, ⟨h3, h4⟩, h5⟩
    exact ⟨⟨h1, h3⟩, h2, h4, h5⟩
  · rintro ⟨⟨h1, h3⟩, h2, h4, h5⟩
    exact ⟨⟨h1, h2⟩, ⟨h3, h4⟩, h5⟩

/-- The loop over a sequence's documents reads those that stand to its end. -/
theorem sequenceDocs_eq {buf : Bytes} {sectionEnd : ℕ} (hend : sectionEnd ≤ buf.length) (fuel offset : ℕ)
    (hfuel : sectionEnd ≤ offset + fuel) (hoffset : offset ≤ sectionEnd) :
    Returns (sequenceDocs buf sectionEnd fuel offset) ∧
      ∀ docs after, sequenceDocs buf sectionEnd fuel offset = .ok (docs, after) ↔
        DocsStand buf sectionEnd offset docs ∧ after = sectionEnd := by
  have hstop : ∀ docs after, (.ok ([], sectionEnd) : Checked (List Bytes × ℕ)) = .ok (docs, after) ↔
      DocsStand buf sectionEnd sectionEnd docs ∧ after = sectionEnd := by
    intro docs after
    rw [docsStand_end]
    simp [eq_comm]
  induction fuel generalizing offset with
  | zero =>
    obtain rfl : offset = sectionEnd := by omega
    unfold sequenceDocs
    rw [if_neg (lt_irrefl _)]
    exact ⟨returns_ok _, hstop⟩
  | succ fuel ih =>
    unfold sequenceDocs
    by_cases hmore : offset < sectionEnd
    · rw [if_pos hmore]
      obtain ⟨hreturns, hread⟩ := @docAt_eq buf offset sectionEnd hend "OP_MSG kind-1: truncated inner doc length"
        "OP_MSG kind-1 inner" _ (returns_ok ())
      cases hdoc : docAt buf offset sectionEnd "OP_MSG kind-1: truncated inner doc length" "OP_MSG kind-1 inner"
        (.ok ()) with
      | error e =>
        rw [hdoc] at hreturns
        refine ⟨hreturns.bind nofun, fun docs after => iff_of_false nofun ?_⟩
        rintro ⟨hstand, -⟩
        cases docs with
        | nil =>
          have := hstand.2.2
          rw [List.flatten_nil, List.length_nil] at this
          omega
        | cons doc docs =>
          have hhead := ((docsStand_cons hend doc docs).mp hstand).1
          rw [(hread doc).mpr ⟨rfl, hhead⟩] at hdoc
          cases hdoc
      | ok doc =>
        obtain ⟨-, hisDoc, hstands⟩ := (hread doc).mp hdoc
        have hmin := hisDoc.1
        have hle := hstands.1
        obtain ⟨hret, hiff⟩ := ih (offset + doc.length) (by omega) hle
        refine ⟨hret.bind fun _ _ => returns_pure _, fun docs after => ?_⟩
        constructor
        · intro h
          change (sequenceDocs buf sectionEnd fuel (offset + doc.length) >>= _) = _ at h
          obtain ⟨⟨rest, after'⟩, hrest, h⟩ := Outcome.bind_eq_ok.mp h
          obtain ⟨rfl, rfl⟩ := Prod.mk.inj (Except.ok.inj h)
          obtain ⟨hstand, rfl⟩ := (hiff rest after').mp hrest
          exact ⟨(docsStand_cons hend doc rest).mpr ⟨⟨hisDoc, hstands⟩, hstand⟩, rfl⟩
        · rintro ⟨hstand, rfl⟩
          cases docs with
          | nil =>
            have := hstand.2.2
            rw [List.flatten_nil, List.length_nil] at this
            omega
          | cons doc' docs =>
            obtain ⟨hhead, htail⟩ := (docsStand_cons hend doc' docs).mp hstand
            have hsame := (hread doc').mpr ⟨rfl, hhead⟩
            rw [hdoc] at hsame
            obtain rfl := Except.ok.inj hsame
            show (sequenceDocs buf after fuel (offset + doc.length) >>= _) = _
            rw [(hiff docs after).mpr ⟨htail, rfl⟩]
            rfl
    · obtain rfl : offset = sectionEnd := by omega
      rw [if_neg hmore]
      exact ⟨returns_ok _, hstop⟩

/-! ## One section -/

/-- The identifier of a sequence, terminated, and its documents. -/
def DocumentSequence.content (s : DocumentSequence) : Bytes := bytesOf s.identifier ++ 0 :: s.documents.flatten

/-- A section, from its kind byte on. -/
def Section.bytes : Section → Bytes
  | .body doc => 0 :: doc
  | .sequence s => 1 :: (le32 (s.content.length + 4) ++ s.content)

/-- A section of documents, with a name that ends at its NUL and a length that is an i32. -/
def Section.Valid : Section → Prop
  | .body doc => IsDoc doc
  | .sequence s => (∀ doc ∈ s.documents, IsDoc doc) ∧ 0 ∉ bytesOf s.identifier ∧ s.content.length + 4 < 2 ^ 31

def Section.isBody : Section → Bool
  | .body _ => true
  | .sequence _ => false

theorem bodySection_eq {buf : Bytes} {stop offset : ℕ} (hstop : stop ≤ buf.length) (hasBody : Bool) :
    Returns (bodySection buf stop offset hasBody) ∧
      ∀ s after, bodySection buf stop offset hasBody = .ok (s, after) ↔
        ∃ doc, s = .body doc ∧ hasBody = false ∧ IsDoc doc ∧ StandsAt buf offset stop doc ∧
          after = offset + doc.length := by
  unfold bodySection
  have hbetween : Returns (if hasBody then malformedBody "OP_MSG has more than one kind-0 section"
      else (.ok () : Checked Unit)) := returns_ite (fun _ => returns_malformedBody _) fun _ => returns_ok _
  have hbetween_ok : (if hasBody then malformedBody "OP_MSG has more than one kind-0 section"
      else (.ok () : Checked Unit)) = .ok () ↔ hasBody = false := by
    cases hasBody with
    | true => exact iff_of_false nofun nofun
    | false => exact iff_of_true rfl rfl
  obtain ⟨hreturns, hread⟩ := @docAt_eq buf offset stop hstop "OP_MSG kind-0 truncated before length" "OP_MSG kind-0"
    _ hbetween
  refine ⟨hreturns.bind fun _ _ => returns_pure _, fun s after => ?_⟩
  rw [Outcome.bind_eq_ok]
  constructor
  · rintro ⟨doc, hdoc, h⟩
    obtain ⟨rfl, rfl⟩ := Prod.mk.inj (Except.ok.inj h)
    obtain ⟨hb, hisDoc, hstands⟩ := (hread doc).mp hdoc
    exact ⟨doc, rfl, hbetween_ok.mp hb, hisDoc, hstands, rfl⟩
  · rintro ⟨doc, rfl, hb, hisDoc, hstands, rfl⟩
    exact ⟨doc, (hread doc).mpr ⟨hbetween_ok.mpr hb, hisDoc, hstands⟩, rfl⟩

theorem idxOf?_zero_iff {bs : Bytes} {n : ℕ} :
    bs.idxOf? 0 = some n ↔ ∃ name rest, bs = name ++ 0 :: rest ∧ 0 ∉ name ∧ n = name.length := by
  constructor
  · intro h
    induction bs generalizing n with
    | nil => simp at h
    | cons b bs ih =>
      rw [List.idxOf?_cons] at h
      by_cases hb : b = 0
      · subst hb
        simp at h
        exact ⟨[], bs, rfl, List.not_mem_nil, h.symm⟩
      · simp only [beq_iff_eq, hb, if_false, Option.map_eq_some_iff] at h
        obtain ⟨m, hm, rfl⟩ := h
        obtain ⟨name, rest, rfl, hname, rfl⟩ := ih hm
        refine ⟨b :: name, rest, rfl, ?_, rfl⟩
        rw [List.mem_cons]
        exact not_or.mpr ⟨Ne.symm hb, hname⟩
  · rintro ⟨name, rest, rfl, hname, rfl⟩
    exact idxOf?_zero hname rest

/-- A sequence's length, identifier and documents in the buffer. -/
theorem standsAt_sequence {buf : Bytes} {stop offset : ℕ} (hstop : stop ≤ buf.length) (s : DocumentSequence) :
    StandsAt buf offset stop (le32 (s.content.length + 4) ++ s.content) ↔
      offset + (s.content.length + 4) ≤ stop ∧ window buf offset 4 = le32 (s.content.length + 4) ∧
        window buf (offset + 4) s.content.length = s.content := by
  rw [standsAt_append hstop, length_le32]
  unfold StandsAt
  rw [length_le32]
  constructor
  · rintro ⟨⟨-, h1⟩, h2, h3⟩
    exact ⟨by omega, h1, h3⟩
  · rintro ⟨h1, h2, h3⟩
    exact ⟨⟨by omega, h2⟩, by omega, h3⟩

theorem split_at_nul {name rest name' rest' : Bytes} (h : name ++ 0 :: rest = name' ++ 0 :: rest') (hn : 0 ∉ name)
    (hn' : 0 ∉ name') : name = name' ∧ rest = rest' := by
  have hidx := idxOf?_zero hn rest
  rw [h, idxOf?_zero hn' rest'] at hidx
  obtain ⟨hname, hrest⟩ := List.append_inj h (Option.some.inj hidx).symm
  exact ⟨hname, (List.cons.inj hrest).2⟩

/-- Documents that stand to the end of the section are all that stands there. -/
theorem docsStand_iff {buf : Bytes} {sectionEnd offset : ℕ} {rest : Bytes}
    (hrest : window buf offset rest.length = rest) (hend : offset + rest.length = sectionEnd) (docs : List Bytes) :
    DocsStand buf sectionEnd offset docs ↔ (∀ doc ∈ docs, IsDoc doc) ∧ docs.flatten = rest := by
  constructor
  · rintro ⟨hdocs, ⟨-, hw⟩, hlen⟩
    have hsame : docs.flatten.length = rest.length := by omega
    rw [hsame, hrest] at hw
    exact ⟨hdocs, hw.symm⟩
  · rintro ⟨hdocs, rfl⟩
    exact ⟨hdocs, ⟨hend.le, hrest⟩, hend⟩

/-- What is read after a sequence's length is its identifier and its documents. -/
theorem sequenceContent_eq {buf : Bytes} {start m : ℕ} (hend : start + m ≤ buf.length) :
    Returns (sequenceContent buf start (start + m)) ∧
      ∀ s after, sequenceContent buf start (start + m) = .ok (s, after) ↔
        ∃ seq : DocumentSequence, s = .sequence seq ∧ (∀ doc ∈ seq.documents, IsDoc doc) ∧
          0 ∉ bytesOf seq.identifier ∧ window buf start m = seq.content ∧ after = start + m := by
  unfold sequenceContent
  rw [memchr0_eq hend]
  have hlen : (window buf start m).length = m := length_window hend
  cases hidx : (window buf start m).idxOf? 0 with
  | none =>
    refine ⟨returns_malformedBody _, fun s after => iff_of_false nofun ?_⟩
    rintro ⟨seq, -, -, hname, hw, -⟩
    rw [idxOf?_zero_iff.mpr ⟨bytesOf seq.identifier, seq.documents.flatten, hw, hname, rfl⟩] at hidx
    cases hidx
  | some k =>
    obtain ⟨name, rest, hw, hname, rfl⟩ := idxOf?_zero_iff.mp hidx
    have hm : m = name.length + 1 + rest.length := by
      rw [← hlen, hw, List.length_append, List.length_cons]
      omega
    -- the name, its NUL and the rest, each where it stands
    have hsplit : window buf start name.length = name ∧
        window buf (start + name.length + 1) rest.length = rest := by
      have hparts : window buf start (name ++ [0]).length ++ window buf (start + (name ++ [0]).length) rest.length =
          (name ++ [0]) ++ rest := by
        rw [← window_add, List.length_append, List.length_singleton, ← hm, hw, List.append_assoc]
        rfl
      obtain ⟨hfirst, hrest⟩ := List.append_inj hparts (length_window (by simp; omega))
      refine ⟨?_, by simpa [Nat.add_assoc] using hrest⟩
      rw [← take_window buf start (n := (name ++ [0]).length) (by simp), hfirst, List.take_left]
    show Returns (slice buf start (start + name.length) >>= _) ∧ ∀ s after,
      (slice buf start (start + name.length) >>= _) = _ ↔ _
    rw [slice_eq (by omega), hsplit.1]
    have hcontent : ∀ seq : DocumentSequence, 0 ∉ bytesOf seq.identifier →
        (window buf start m = seq.content ↔ bytesOf seq.identifier = name ∧ seq.documents.flatten = rest) := by
      intro seq hseq
      rw [hw]
      constructor
      · intro h
        obtain ⟨h1, h2⟩ := split_at_nul h hname hseq
        exact ⟨h1.symm, h2.symm⟩
      · rintro ⟨rfl, rfl⟩
        rfl
    rw [ok_bind]
    cases hutf8 : fromUtf8? name with
    | none =>
      simp only
      refine ⟨returns_malformedBody _, fun s after => iff_of_false nofun ?_⟩
      rintro ⟨seq, -, -, hseq, hsame, -⟩
      rw [← ((hcontent seq hseq).mp hsame).1, fromUtf8?_bytesOf] at hutf8
      cases hutf8
    | some identifier =>
      have hident := fromUtf8?_eq_some_iff.mp hutf8
      obtain ⟨hreturns, hdocs⟩ := sequenceDocs_eq hend buf.length (start + name.length + 1) (by omega) (by omega)
      have hstand := docsStand_iff hsplit.2 (by omega : start + name.length + 1 + rest.length = start + m)
      simp only
      refine ⟨hreturns.bind fun _ _ => returns_pure _, fun s after => ?_⟩
      rw [Outcome.bind_eq_ok]
      constructor
      · rintro ⟨⟨docs, after'⟩, hread, h⟩
        obtain ⟨rfl, rfl⟩ := Prod.mk.inj (Except.ok.inj h)
        obtain ⟨hstands, rfl⟩ := (hdocs docs after').mp hread
        obtain ⟨hisDoc, hflat⟩ := (hstand docs).mp hstands
        have hzero : 0 ∉ bytesOf identifier := hident ▸ hname
        exact ⟨⟨identifier, docs⟩, rfl, hisDoc, hzero, (hcontent ⟨identifier, docs⟩ hzero).mpr ⟨hident, hflat⟩, rfl⟩
      · rintro ⟨seq, rfl, hisDoc, hseq, hsame, rfl⟩
        obtain ⟨hname', hflat⟩ := (hcontent seq hseq).mp hsame
        obtain rfl := bytesOf_injective (hident.trans hname'.symm)
        exact ⟨(seq.documents, start + m), (hdocs _ _).mpr ⟨(hstand _).mpr ⟨hisDoc, hflat⟩, rfl⟩, rfl⟩

/-- A sequence is read where it stands, and nothing else is. -/
theorem sequenceSection_eq {buf : Bytes} {stop offset : ℕ} (hstop : stop ≤ buf.length) :
    Returns (sequenceSection buf stop offset) ∧
      ∀ s after, sequenceSection buf stop offset = .ok (s, after) ↔
        ∃ seq : DocumentSequence, s = .sequence seq ∧ (Section.sequence seq).Valid ∧
          StandsAt buf offset stop (le32 (seq.content.length + 4) ++ seq.content) ∧
          after = offset + (seq.content.length + 4) := by
  unfold sequenceSection
  by_cases hroom : offset + 4 > stop
  · rw [if_pos hroom]
    refine ⟨returns_malformedBody _, fun s after => iff_of_false nofun ?_⟩
    rintro ⟨seq, -, -, hstands, -⟩
    have := ((standsAt_sequence hstop seq).mp hstands).1
    omega
  rw [if_neg hroom, rdI32_eq (by omega), ok_bind]
  have hfour : (window buf offset 4).length = 4 := length_window (by omega)
  by_cases hrefused : number (window buf offset 4) < 4 ∨ offset + asUsize (number (window buf offset 4)) > stop
  · rw [if_pos hrefused]
    refine ⟨returns_malformedBody _, fun s after => iff_of_false nofun ?_⟩
    rintro ⟨seq, -, ⟨-, -, hmax⟩, hstands, -⟩
    obtain ⟨hle, hbytes, -⟩ := (standsAt_sequence hstop seq).mp hstands
    rw [hbytes, asUsize_number hmax, Int32.lt_iff_toInt_lt, number_le32 hmax] at hrefused
    have hfloor : ¬((seq.content.length + 4 : ℕ) : ℤ) < 4 := by omega
    rcases hrefused with h | h
    · exact hfloor h
    · omega
  rw [if_neg hrefused]
  rw [not_or, Int32.lt_iff_toInt_lt, not_lt, not_lt] at hrefused
  obtain ⟨hbytes, hmax, hval⟩ := le32_number hfour (by decide) hrefused.1
  obtain ⟨m, hm⟩ : ∃ m, asUsize (number (window buf offset 4)) = m + 4 := by
    have hge : (4 : ℤ) ≤ (number (window buf offset 4)).toInt := hrefused.1
    exact ⟨asUsize (number (window buf offset 4)) - 4, by omega⟩
  rw [hm] at hbytes hmax hrefused
  have hstart : offset + asUsize (number (window buf offset 4)) = offset + 4 + m := by omega
  rw [hstart]
  obtain ⟨hreturns, hread⟩ := @sequenceContent_eq buf (offset + 4) m (by omega)
  have hwlen : (window buf (offset + 4) m).length = m := length_window (by omega)
  refine ⟨hreturns, fun s after => (hread s after).trans ?_⟩
  constructor
  · rintro ⟨seq, rfl, hdocs, hzero, hw, rfl⟩
    have hlen : seq.content.length = m := by rw [← hw, hwlen]
    refine ⟨seq, rfl, ⟨hdocs, hzero, by omega⟩, (standsAt_sequence hstop seq).mpr ?_, by omega⟩
    rw [hlen]
    exact ⟨by omega, hbytes.symm, hw⟩
  · rintro ⟨seq, rfl, ⟨hdocs, hzero, hmax'⟩, hstands, rfl⟩
    obtain ⟨hle, hbytes', hw⟩ := (standsAt_sequence hstop seq).mp hstands
    rw [hbytes', asUsize_number hmax'] at hm
    have hlen : seq.content.length = m := by omega
    rw [hlen] at hw
    exact ⟨seq, rfl, hdocs, hzero, hw, by omega⟩

/-- One turn reads the section that stands at the offset, a second body excepted. -/
theorem sectionAt_eq {buf : Bytes} {stop offset : ℕ} (hstop : stop ≤ buf.length) (hmore : offset < stop)
    (hasBody : Bool) :
    Returns (sectionAt buf stop offset hasBody) ∧
      ∀ s after, sectionAt buf stop offset hasBody = .ok (s, after) ↔
        s.Valid ∧ StandsAt buf offset stop s.bytes ∧ (s.isBody && hasBody) = false ∧
          after = offset + s.bytes.length := by
  obtain ⟨kind, hindex, hkind⟩ := @index_window buf offset (by omega)
  -- a section stands where its kind does, and the rest of it after that
  have hcons : ∀ k bs, StandsAt buf offset stop (k :: bs) ↔ kind = k ∧ StandsAt buf (offset + 1) stop bs := by
    intro k bs
    rw [← List.singleton_append, standsAt_append hstop]
    refine and_congr_left fun _ => ?_
    unfold StandsAt
    rw [List.length_singleton, hkind]
    simp
    omega
  unfold sectionAt
  rw [hindex, ok_bind]
  by_cases h0 : kind = 0
  · obtain ⟨hreturns, hread⟩ := @bodySection_eq buf stop (offset + 1) hstop hasBody
    rw [if_pos h0]
    refine ⟨hreturns, fun s after => (hread s after).trans ?_⟩
    constructor
    · rintro ⟨doc, rfl, hb, hdoc, hstands, rfl⟩
      refine ⟨hdoc, (hcons 0 doc).mpr ⟨h0, hstands⟩, by rw [hb, Bool.and_false], ?_⟩
      show _ = offset + (doc.length + 1)
      omega
    · rintro ⟨hvalid, hstands, hb, rfl⟩
      cases s with
      | body doc =>
        refine ⟨doc, rfl, hb, hvalid, ((hcons 0 doc).mp hstands).2, ?_⟩
        show offset + (doc.length + 1) = _
        omega
      | sequence seq => exact absurd (((hcons 1 _).mp hstands).1.symm.trans h0) (by decide)
  rw [if_neg h0]
  by_cases h1 : kind = 1
  · obtain ⟨hreturns, hread⟩ := @sequenceSection_eq buf stop (offset + 1) hstop
    rw [if_pos h1]
    refine ⟨hreturns, fun s after => (hread s after).trans ?_⟩
    have hlen : ∀ seq : DocumentSequence, offset + (Section.sequence seq).bytes.length =
        offset + 1 + (seq.content.length + 4) := by
      intro seq
      show offset + (_ ++ _ : Bytes).length.succ = _
      rw [List.length_append, length_le32]
      omega
    constructor
    · rintro ⟨seq, rfl, hvalid, hstands, rfl⟩
      exact ⟨hvalid, (hcons 1 _).mpr ⟨h1, hstands⟩, rfl, (hlen seq).symm⟩
    · rintro ⟨hvalid, hstands, -, rfl⟩
      cases s with
      | body doc => exact absurd ((hcons 0 doc).mp hstands).1 h0
      | sequence seq => exact ⟨seq, rfl, hvalid, ((hcons 1 _).mp hstands).2, hlen seq⟩
  · rw [if_neg h1]
    refine ⟨returns_protocol _, fun s after => iff_of_false nofun ?_⟩
    rintro ⟨-, hstands, -⟩
    cases s with
    | body doc => exact h0 ((hcons 0 doc).mp hstands).1
    | sequence seq => exact h1 ((hcons 1 _).mp hstands).1

/-! ## All sections -/

/-- The bodies among the sections. -/
def bodies (sections : List Section) : List Bytes :=
  sections.filterMap fun s => match s with
    | .body doc => some doc
    | .sequence _ => none

/-- The document sequences among the sections. -/
def sequences (sections : List Section) : List DocumentSequence :=
  sections.filterMap fun s => match s with
    | .body _ => none
    | .sequence seq => some seq

/-- Sections that stand side by side from `offset` to `stop`. -/
def SectionsStand (buf : Bytes) (stop offset : ℕ) (sections : List Section) : Prop :=
  (∀ s ∈ sections, s.Valid) ∧ StandsAt buf offset stop (sections.flatMap Section.bytes) ∧
    offset + (sections.flatMap Section.bytes).length = stop

theorem Section.bytes_pos (s : Section) : 0 < s.bytes.length := by
  cases s with
  | body doc => exact Nat.succ_pos _
  | sequence seq => exact Nat.succ_pos _

theorem sectionsStand_end {buf : Bytes} {stop : ℕ} (sections : List Section) :
    SectionsStand buf stop stop sections ↔ sections = [] := by
  constructor
  · rintro ⟨-, -, hlen⟩
    cases sections with
    | nil => rfl
    | cons s sections =>
      have hpos := s.bytes_pos
      simp only [List.flatMap_cons, List.length_append] at hlen
      omega
  · rintro rfl
    exact ⟨nofun, ⟨le_rfl, rfl⟩, rfl⟩

theorem sectionsStand_cons {buf : Bytes} {stop offset : ℕ} (hstop : stop ≤ buf.length) (s : Section)
    (sections : List Section) :
    SectionsStand buf stop offset (s :: sections) ↔
      (s.Valid ∧ StandsAt buf offset stop s.bytes) ∧ SectionsStand buf stop (offset + s.bytes.length) sections := by
  unfold SectionsStand
  rw [List.flatMap_cons, standsAt_append hstop, List.length_append, List.forall_mem_cons, Nat.add_assoc]
  constructor
  · rintro ⟨⟨h1, h2⟩, ⟨h3, h4⟩, h5⟩
    exact ⟨⟨h1, h3⟩, h2, h4, h5⟩
  · rintro ⟨⟨h1, h3⟩, h2, h4, h5⟩
    exact ⟨⟨h1, h2⟩, ⟨h3, h4⟩, h5⟩

/-- What the loop holds after sections: the body among them and before, and the sequences. -/
def Holds (body : Option Bytes) (seqs : List DocumentSequence) (sections : List Section)
    (result : Option Bytes × List DocumentSequence) : Prop :=
  result.1.toList = body.toList ++ bodies sections ∧ result.2 = seqs ++ sequences sections

theorem holds_nil {body : Option Bytes} {seqs : List DocumentSequence}
    {result : Option Bytes × List DocumentSequence} : Holds body seqs [] result ↔ (body, seqs) = result := by
  unfold Holds bodies sequences
  simp only [List.filterMap_nil, List.append_nil]
  constructor
  · rintro ⟨h1, h2⟩
    obtain ⟨body', seqs'⟩ := result
    obtain rfl : seqs' = seqs := h2
    cases body' with
    | none =>
      cases body with
      | none => rfl
      | some b => cases h1
    | some b' =>
      cases body with
      | none => cases h1
      | some b =>
        obtain rfl := List.singleton_inj.mp h1
        rfl
  · rintro rfl
    exact ⟨rfl, rfl⟩

theorem holds_body {body : Option Bytes} {seqs : List DocumentSequence} {doc : Bytes} {sections : List Section}
    {result : Option Bytes × List DocumentSequence} :
    Holds body seqs (.body doc :: sections) result ↔ body = none ∧ Holds (some doc) seqs sections result := by
  unfold Holds
  cases body with
  | none => simp [bodies, sequences]
  | some first =>
    refine iff_of_false ?_ (by simp)
    rintro ⟨h, -⟩
    have hlen := congrArg List.length h
    have hle : result.1.toList.length ≤ 1 := by cases result.1 <;> simp
    simp [bodies] at hlen
    omega

theorem holds_sequence {body : Option Bytes} {seqs : List DocumentSequence} {seq : DocumentSequence}
    {sections : List Section} {result : Option Bytes × List DocumentSequence} :
    Holds body seqs (.sequence seq :: sections) result ↔ Holds body (seqs ++ [seq]) sections result := by
  unfold Holds
  simp [bodies, sequences]

/-- The loop over sections reads those that stand to the end. -/
theorem sectionsFrom_eq {buf : Bytes} {stop : ℕ} (hstop : stop ≤ buf.length) (fuel offset : ℕ)
    (hfuel : stop ≤ offset + fuel) (hoffset : offset ≤ stop) (body : Option Bytes) (seqs : List DocumentSequence) :
    Returns (sectionsFrom buf stop fuel offset body seqs) ∧
      ∀ result, sectionsFrom buf stop fuel offset body seqs = .ok result ↔
        ∃ sections, SectionsStand buf stop offset sections ∧ Holds body seqs sections result := by
  have hdone : ∀ body seqs result, (.ok (body, seqs) : Checked (Option Bytes × List DocumentSequence)) = .ok result ↔
      ∃ sections, SectionsStand buf stop stop sections ∧ Holds body seqs sections result := by
    intro body seqs result
    constructor
    · intro h
      exact ⟨[], (sectionsStand_end []).mpr rfl, holds_nil.mpr (Except.ok.inj h)⟩
    · rintro ⟨sections, hstand, hholds⟩
      obtain rfl := (sectionsStand_end sections).mp hstand
      rw [holds_nil.mp hholds]
  induction fuel generalizing offset body seqs with
  | zero =>
    obtain rfl : offset = stop := by omega
    unfold sectionsFrom
    rw [if_neg (lt_irrefl _)]
    exact ⟨returns_ok _, hdone body seqs⟩
  | succ fuel ih =>
    unfold sectionsFrom
    by_cases hmore : offset < stop
    · rw [if_pos hmore]
      obtain ⟨hreturns, hread⟩ := sectionAt_eq hstop hmore body.isSome
      -- a first section that stands here is the one that is read
      have hfirst : ∀ result, (∃ sections, SectionsStand buf stop offset sections ∧ Holds body seqs sections result) ↔
          ∃ s rest, sectionAt buf stop offset body.isSome = .ok (s, offset + s.bytes.length) ∧
            SectionsStand buf stop (offset + s.bytes.length) rest ∧ Holds body seqs (s :: rest) result := by
        intro result
        constructor
        · rintro ⟨sections, hstand, hholds⟩
          cases sections with
          | nil =>
            have := hstand.2.2
            rw [List.flatMap_nil, List.length_nil] at this
            omega
          | cons s rest =>
            obtain ⟨⟨hvalid, hs⟩, hrest⟩ := (sectionsStand_cons hstop s rest).mp hstand
            refine ⟨s, rest, (hread s _).mpr ⟨hvalid, hs, ?_, rfl⟩, hrest, hholds⟩
            cases s with
            | body doc => rw [(holds_body.mp hholds).1]; rfl
            | sequence seq => rfl
        · rintro ⟨s, rest, hs, hrest, hholds⟩
          obtain ⟨hvalid, hstands, -, -⟩ := (hread s _).mp hs
          exact ⟨s :: rest, (sectionsStand_cons hstop s rest).mpr ⟨⟨hvalid, hstands⟩, hrest⟩, hholds⟩
      simp only [hfirst]
      cases hsection : sectionAt buf stop offset body.isSome with
      | error e =>
        rw [hsection] at hreturns
        exact ⟨hreturns.bind nofun, fun result => iff_of_false nofun nofun⟩
      | ok found =>
        obtain ⟨s, after⟩ := found
        obtain ⟨hvalid, hstands, hbody, rfl⟩ := (hread s after).mp hsection
        have hpos := s.bytes_pos
        have hle := hstands.1
        rw [ok_bind]
        cases s with
        | body doc =>
          have hnone : body = none := by
            cases body with
            | none => rfl
            | some first => cases hbody
          obtain ⟨hreturn, hiff⟩ := ih (offset + (Section.body doc).bytes.length) (by omega) hle (some doc) seqs
          refine ⟨hreturn, fun result => (hiff result).trans ?_⟩
          constructor
          · rintro ⟨rest, hrest, hholds⟩
            exact ⟨.body doc, rest, rfl, hrest, holds_body.mpr ⟨hnone, hholds⟩⟩
          · rintro ⟨s, rest, heq, hrest, hholds⟩
            obtain ⟨rfl, -⟩ := Prod.mk.inj (Except.ok.inj heq)
            exact ⟨rest, hrest, (holds_body.mp hholds).2⟩
        | sequence seq =>
          obtain ⟨hreturn, hiff⟩ := ih (offset + (Section.sequence seq).bytes.length) (by omega) hle body (seqs ++ [seq])
          refine ⟨hreturn, fun result => (hiff result).trans ?_⟩
          constructor
          · rintro ⟨rest, hrest, hholds⟩
            exact ⟨.sequence seq, rest, rfl, hrest, holds_sequence.mpr hholds⟩
          · rintro ⟨s, rest, heq, hrest, hholds⟩
            obtain ⟨rfl, -⟩ := Prod.mk.inj (Except.ok.inj heq)
            exact ⟨rest, hrest, holds_sequence.mp hholds⟩
    · obtain rfl : offset = stop := by omega
      rw [if_neg hmore]
      exact ⟨returns_ok _, hdone body seqs⟩

end Secantus.Frame
