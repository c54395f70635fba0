/-
  Wire framing trusts no length, but the header's (secantus-wire/src/lib.rs).

  `parseOpMsg_eq`: an OP_MSG is read exactly when flags, sections with one body and the checksum tile the
  buffer (`Assembled`), and then as these. No parser leaves its buffer. A reply with a checksum passes the
  check of frames and is read back. The header's length is checked after it was made unsigned, so a negative
  one passes (`bodyLen_sound_iff`).
-/
import Secantus.Frame.Sections

namespace Secantus.Frame

open Secantus Secantus.Library Secantus.Wire

/-! ## OP_MSG -/

/-- The flags, sections with exactly one body, and a checksum when the flags say so are the whole buffer. -/
def Assembled (buf : Bytes) (msg : OpMsg) : Prop :=
  ∃ sections trailer, (∀ s ∈ sections, s.Valid) ∧ bodies sections = [msg.body] ∧
    sequences sections = msg.document_sequences ∧ trailer.length = (if hasChecksum msg.flags then 4 else 0) ∧
    buf = u32Bytes msg.flags ++ (sections.flatMap Section.bytes ++ trailer)

/-- Where the sections stand between the flags and the checksum. -/
theorem sectionsStand_iff {buf : Bytes} {stop : ℕ} (hstop : stop ≤ buf.length) (hfour : 4 ≤ stop)
    (sections : List Section) :
    SectionsStand buf stop 4 sections ↔ (∀ s ∈ sections, s.Valid) ∧
      buf = window buf 0 4 ++ (sections.flatMap Section.bytes ++ buf.drop stop) := by
  have hbuf : buf = window buf 0 4 ++ (window buf 4 (stop - 4) ++ buf.drop stop) := by
    have hsplit : window buf 0 4 ++ window buf 4 (stop - 4) = buf.take stop := by
      have hadd := window_add buf 0 4 (stop - 4)
      have hsum : 4 + (stop - 4) = stop := by omega
      rw [hsum, Nat.zero_add] at hadd
      exact hadd.symm
    rw [← List.append_assoc, hsplit, List.take_append_drop]
  have hlen : (window buf 4 (stop - 4)).length = stop - 4 := length_window (by omega)
  constructor
  · rintro ⟨hvalid, ⟨-, hw⟩, hsum⟩
    have hm : (sections.flatMap Section.bytes).length = stop - 4 := by omega
    rw [hm] at hw
    exact ⟨hvalid, by rw [← hw]; exact hbuf⟩
  · rintro ⟨hvalid, heq⟩
    have hw : window buf 4 (stop - 4) = sections.flatMap Section.bytes := by
      have hboth := hbuf.symm.trans heq
      have hrest := List.append_cancel_left hboth
      exact List.append_cancel_right hrest
    have hm : (sections.flatMap Section.bytes).length = stop - 4 := by rw [← hw, hlen]
    exact ⟨hvalid, ⟨by omega, by rw [hm, hw]⟩, by omega⟩

theorem bodies_length {sections : List Section} {doc : Bytes} (hvalid : ∀ s ∈ sections, s.Valid)
    (h : bodies sections = [doc]) : 6 ≤ (sections.flatMap Section.bytes).length := by
  have hmem : doc ∈ bodies sections := h ▸ List.mem_cons_self
  obtain ⟨s, hs, hdoc⟩ := List.mem_filterMap.mp hmem
  cases s with
  | body d =>
    have hmin := (hvalid _ hs).1
    have hlen : (Section.body d).bytes.length = d.length + 1 := rfl
    obtain ⟨before, after, rfl⟩ := List.append_of_mem hs
    rw [List.flatMap_append, List.flatMap_cons, List.length_append, List.length_append]
    omega
  | sequence seq => cases hdoc

/-- An OP_MSG is read where its parts tile the buffer, and as these parts. -/
theorem parseOpMsg_eq (buf : Bytes) :
    Returns (parseOpMsg buf) ∧ ∀ msg, parseOpMsg buf = .ok msg ↔ Assembled buf msg := by
  have hassembled : ∀ msg, Assembled buf msg → 10 + (if hasChecksum msg.flags then 4 else 0) ≤ buf.length ∧
      UInt32.ofNat (ofLeBytes (window buf 0 4)) = msg.flags ∧ window buf 0 4 = u32Bytes msg.flags := by
    rintro msg ⟨sections, trailer, hvalid, hbodies, -, htrailer, rfl⟩
    have hmin := bodies_length hvalid hbodies
    have hwindow := window_append [] (u32Bytes msg.flags) (sections.flatMap Section.bytes ++ trailer)
    rw [length_u32Bytes] at hwindow
    refine ⟨?_, ?_, hwindow⟩
    · rw [List.length_append, List.length_append, length_u32Bytes, htrailer]
      omega
    · have hw : window (u32Bytes msg.flags ++ (sections.flatMap Section.bytes ++ trailer)) 0 4 = u32Bytes msg.flags :=
        hwindow
      rw [hw, ofLeBytes_u32Bytes]
  unfold parseOpMsg
  by_cases hshort : buf.length < 4
  · rw [if_pos hshort]
    refine ⟨returns_protocol _, fun msg => iff_of_false (fun hok => by cases hok) fun h => ?_⟩
    have := (hassembled msg h).1
    omega
  rw [if_neg hshort, rdU32_eq (by omega), ok_bind]
  generalize hflags : UInt32.ofNat (ofLeBytes (window buf 0 4)) = flags
  have hwindow : window buf 0 4 = u32Bytes flags := by
    rw [← hflags, u32Bytes_ofLeBytes (length_window (by omega))]
  simp only
  obtain ⟨stop, hstop⟩ : ∃ stop, (if hasChecksum flags then buf.length - 4 else buf.length) = stop := ⟨_, rfl⟩
  rw [hstop]
  have htrailer : (buf.drop stop).length = min (if hasChecksum flags then 4 else 0) buf.length := by
    rw [List.length_drop, ← hstop]
    split <;> omega
  have hle : stop ≤ buf.length := by
    rw [← hstop]
    split <;> omega
  by_cases hroom : 4 ≤ stop
  · obtain ⟨hreturns, hread⟩ := sectionsFrom_eq hle buf.length 4 (by omega) hroom none []
    constructor
    · refine hreturns.bind fun result _ => ?_
      obtain ⟨body, seqs⟩ := result
      cases body with
      | none => exact returns_protocol _
      | some body => exact returns_pure _
    · intro msg
      rw [Outcome.bind_eq_ok]
      constructor
      · rintro ⟨⟨body, seqs⟩, hsections, h⟩
        obtain ⟨sections, hstand, hbodies, hseqs⟩ := (hread _).mp hsections
        cases body with
        | none => cases h
        | some body =>
          obtain rfl := Except.ok.inj h
          obtain ⟨hvalid, hbuf⟩ := (sectionsStand_iff hle hroom sections).mp hstand
          refine ⟨sections, buf.drop stop, hvalid, hbodies.symm, hseqs.symm, ?_, hwindow ▸ hbuf⟩
          rw [htrailer]
          exact Nat.min_eq_left (by split <;> omega)
      · rintro h
        obtain ⟨hmin, hsame, -⟩ := hassembled msg h
        obtain ⟨sections, trailer, hvalid, hbodies, hseqs, hlen, hbuf⟩ := h
        rw [hflags] at hsame
        subst hsame
        have hcut : buf.drop stop = trailer := by
          have hsum : stop = (u32Bytes msg.flags ++ sections.flatMap Section.bytes).length := by
            have htotal := congrArg List.length hbuf
            simp only [List.length_append, length_u32Bytes] at htotal ⊢
            rw [List.length_drop] at htrailer
            rw [hlen] at htotal
            omega
          rw [hsum]
          nth_rewrite 1 [hbuf]
          rw [← List.append_assoc, List.drop_left]
        refine ⟨(some msg.body, msg.document_sequences), (hread _).mpr ⟨sections, ?_, hbodies.symm, hseqs.symm⟩, rfl⟩
        refine (sectionsStand_iff hle hroom sections).mpr ⟨hvalid, ?_⟩
        rw [hcut, hwindow]
        exact hbuf
  · have hnone : sectionsFrom buf stop buf.length 4 none [] = .ok (none, []) := by
      cases hlen : buf.length with
      | zero => omega
      | succ n =>
        unfold sectionsFrom
        rw [if_neg (by omega)]
    rw [hnone]
    refine ⟨returns_protocol _, fun msg => iff_of_false (fun hok => by cases hok) fun h => ?_⟩
    obtain ⟨hmin, hsame, -⟩ := hassembled msg h
    rw [hflags] at hsame
    subst hsame
    rw [← hstop] at hroom
    cases hc : hasChecksum msg.flags with
    | true =>
      simp only [hc, if_true] at hmin hroom
      omega
    | false =>
      simp only [hc, Bool.false_eq_true, if_false] at hmin hroom
      omega

/-! ## The other parsers -/

theorem memchr0_range {buf : Bytes} {start : ℕ} (h : start ≤ buf.length) :
    Returns (memchr0 buf start buf.length) ∧
      ∀ i, memchr0 buf start buf.length = .ok (some i) → start ≤ i ∧ i < buf.length := by
  obtain ⟨n, hn⟩ := Nat.exists_eq_add_of_le h
  have heq := @memchr0_eq buf start n (by omega)
  rw [← hn] at heq
  rw [heq]
  refine ⟨returns_ok _, fun i hi => ?_⟩
  obtain ⟨k, hk, rfl⟩ := Option.map_eq_some_iff.mp (Except.ok.inj hi)
  obtain ⟨name, rest, hw, -, rfl⟩ := idxOf?_zero_iff.mp hk
  have hlen := congrArg List.length hw
  rw [length_window (by omega), List.length_append, List.length_cons] at hlen
  omega

theorem queryFrom_returns (buf : Bytes) (flags : UInt32) (name : String) (offset : ℕ) :
    Returns (queryFrom buf flags name offset) := by
  unfold queryFrom
  refine returns_ite (fun _ => returns_malformedBody _) fun hroom => ?_
  rw [rdI32_eq (by omega), ok_bind, rdI32_eq (by omega), ok_bind]
  refine (docAt_eq le_rfl _ _ (returns_ok ())).1.bind fun query _ => ?_
  refine returns_ite (fun _ => Returns.bind ?_ fun _ _ => returns_pure _) fun _ => returns_pure _
  obtain ⟨hr, hs⟩ := (@docAt_eq buf (offset + 8 + query.length) buf.length le_rfl
    "OP_QUERY: truncated before field selector" "OP_QUERY selector" _ (returns_ok ())).1
  cases hdoc : docAt buf (offset + 8 + query.length) buf.length "OP_QUERY: truncated before field selector"
    "OP_QUERY selector" (.ok ()) with
  | ok doc => exact returns_ok _
  | error e =>
    refine ⟨fun h => hr ?_, fun h => hs ?_⟩
    · cases h
      exact hdoc
    · cases h
      exact hdoc

theorem parseOpQuery_returns (buf : Bytes) : Returns (parseOpQuery buf) := by
  unfold parseOpQuery
  refine returns_ite (fun _ => returns_protocol _) fun hroom => ?_
  obtain ⟨hreturns, hrange⟩ := @memchr0_range buf 4 (by omega)
  rw [rdU32_eq (by omega), ok_bind]
  refine hreturns.bind fun found hfound => ?_
  cases found with
  | none => exact returns_malformedBody _
  | some nameEnd =>
    obtain ⟨hstart, hend⟩ := hrange nameEnd hfound
    obtain ⟨n, rfl⟩ := Nat.exists_eq_add_of_le hstart
    show Returns (slice buf 4 (4 + n) >>= _)
    rw [slice_eq (by omega), ok_bind]
    cases fromUtf8? (window buf 4 n) with
    | none => exact returns_malformedBody _
    | some name => exact queryFrom_returns buf _ name _

theorem parseBody_returns (opCode : Int32) (body : Bytes) : Returns (parseBody opCode body) := by
  unfold parseBody
  refine returns_ite (fun _ => (parseOpMsg_eq body).1.bind fun _ _ => returns_pure _) fun _ => ?_
  refine returns_ite (fun _ => (parseOpQuery_returns body).bind fun _ _ => returns_pure _) fun _ => ?_
  refine returns_ite (fun _ => ?_) fun _ => ?_
  · refine returns_ite (fun _ => returns_protocol _) fun hroom => ?_
    refine (@memchr0_range body 4 (by omega)).1.bind fun found _ => ?_
    cases found with
    | none => exact returns_protocol _
    | some i => exact returns_pure _
  · exact returns_ite (fun _ => returns_protocol _) fun _ =>
      returns_ite (fun _ => returns_protocol _) fun _ => returns_pure _

theorem parseOpCompressed_returns (body : Bytes) : Returns (parseOpCompressed body) := by
  unfold parseOpCompressed PREFIX_LEN
  refine returns_ite (fun _ => returns_protocol _) fun hroom => ?_
  obtain ⟨n, hn⟩ : ∃ n, body.length = 9 + n := Nat.exists_eq_add_of_le (by omega)
  have hslice := @slice_eq body 9 n (by omega)
  rw [← hn] at hslice
  rw [rdI32_eq (by omega), ok_bind, rdI32_eq (by omega), ok_bind, index_eq (by omega), ok_bind, hslice]
  exact returns_pure _

/-! ## Checksums -/

theorem opMsgFrameProblem_returns (header : Header) (body : Bytes) : Returns (opMsgFrameProblem header body) := by
  unfold opMsgFrameProblem
  refine returns_ite (fun _ => returns_pure _) fun hroom => ?_
  rw [rdU32_eq (by omega), ok_bind]
  refine returns_ite (fun _ => returns_pure _) fun _ => ?_
  refine returns_ite (fun _ => ?_) fun _ => returns_pure _
  refine returns_ite (fun _ => returns_pure _) fun hchecksum => ?_
  obtain ⟨n, hn⟩ : ∃ n, body.length = n + 4 := ⟨body.length - 4, by omega⟩
  have hcovered := @slice_eq body 0 n (by omega)
  have htrailer := @slice_eq body n 4 (by omega)
  rw [Nat.zero_add] at hcovered
  rw [hn, Nat.add_sub_cancel, hcovered, ok_bind, htrailer, ok_bind,
    rdU32_eq (by rw [length_window (by omega)]), ok_bind]
  exact returns_ite (fun _ => returns_pure _) fun _ => returns_pure _

theorem crc32cUpdate_append (state : UInt32) (a b : Bytes) :
    crc32cUpdate state (a ++ b) = crc32cUpdate (crc32cUpdate state a) b := List.foldl_append

/-- The message that a reply's checksum covers: the new length in the header, the checksum's bit in the
    flags. -/
def covered (response_to request_id : Int32) (body : Bytes) (flags : UInt32) : Bytes :=
  Header.pack ⟨Int32.ofNat (HEADER_SIZE + (body.length + 9)), request_id, response_to, OP_MSG⟩ ++
    (u32Bytes (flags ||| OP_MSG_FLAG_CHECKSUM_PRESENT) ++ 0 :: body)

/-- A reply with its checksum. -/
theorem withOpMsgChecksum_reply (response_to request_id : Int32) (body : Bytes) (flags : UInt32) :
    withOpMsgChecksum (buildOpMsgReply response_to request_id body flags) =
      .ok (covered response_to request_id body flags ++
        u32Bytes (crc32c (~~~0) (covered response_to request_id body flags))) := by
  obtain ⟨frame, hframe⟩ : ∃ frame, buildOpMsgReply response_to request_id body flags = frame := ⟨_, rfl⟩
  have hshape : frame = i32Bytes (Int32.ofNat (16 + (4 + 1 + body.length))) ++
      (i32Bytes request_id ++ (i32Bytes response_to ++ (i32Bytes OP_MSG ++ (u32Bytes flags ++ 0 :: body)))) := by
    rw [← hframe]
    simp only [buildOpMsgReply, Header.pack, HEADER_SIZE, List.append_assoc]
  have hlen : frame.length = 21 + body.length := by
    rw [hshape]
    simp only [List.length_append, length_i32Bytes, length_u32Bytes, List.length_cons]
    omega
  have hopcode : rdI32 frame 12 = .ok OP_MSG := by
    have hw : window frame 12 4 = i32Bytes OP_MSG := by
      have h := window_append (i32Bytes (Int32.ofNat (16 + (4 + 1 + body.length))) ++ i32Bytes request_id ++
        i32Bytes response_to) (i32Bytes OP_MSG) (u32Bytes flags ++ 0 :: body)
      simp only [List.length_append, length_i32Bytes, List.append_assoc] at h
      rw [hshape]
      exact h
    rw [rdI32_eq (by omega), hw, number, ofLeBytes_i32Bytes]
  have hout : i32Bytes (Int32.ofNat (frame.length + 4)) ++ frame.drop 4 =
      Header.pack ⟨Int32.ofNat (HEADER_SIZE + (body.length + 9)), request_id, response_to, OP_MSG⟩ ++
        (u32Bytes flags ++ 0 :: body) := by
    have hdrop : frame.drop 4 =
        i32Bytes request_id ++ (i32Bytes response_to ++ (i32Bytes OP_MSG ++ (u32Bytes flags ++ 0 :: body))) := by
      rw [hshape, List.drop_left' (length_i32Bytes _)]
    have hsum : frame.length + 4 = 16 + (body.length + 9) := by omega
    rw [hdrop, hsum]
    simp only [Header.pack, HEADER_SIZE, List.append_assoc]
  rw [hframe]
  unfold withOpMsgChecksum
  rw [if_neg (by rw [hlen, HEADER_SIZE]; omega), hopcode, ok_bind, if_neg (by simp), hout]
  generalize hhead : Header.pack ⟨Int32.ofNat (HEADER_SIZE + (body.length + 9)), request_id, response_to, OP_MSG⟩ = head
  have hheadlen : head.length = 16 := by
    rw [← hhead]
    simp only [Header.pack, List.length_append, length_i32Bytes]
  have hflags : rdU32 (head ++ (u32Bytes flags ++ 0 :: body)) HEADER_SIZE = .ok flags := by
    have hw := window_append head (u32Bytes flags) (0 :: body)
    rw [hheadlen, length_u32Bytes] at hw
    rw [rdU32_eq]
    · show Except.ok (UInt32.ofNat (ofLeBytes (window _ 16 4))) = _
      rw [hw, ofLeBytes_u32Bytes]
    · simp only [List.length_append, hheadlen, length_u32Bytes, HEADER_SIZE]
      omega
  have htake : (head ++ (u32Bytes flags ++ 0 :: body)).take HEADER_SIZE = head := List.take_left' hheadlen
  have hdrop : (head ++ (u32Bytes flags ++ 0 :: body)).drop (HEADER_SIZE + 4) = 0 :: body := by
    rw [← List.append_assoc]
    exact List.drop_left' (by rw [List.length_append, hheadlen, length_u32Bytes]; rfl)
  simp only [hflags, ok_bind, htake, hdrop]
  have hassoc : head ++ (u32Bytes (flags ||| OP_MSG_FLAG_CHECKSUM_PRESENT) ++ 0 :: body) =
      head ++ u32Bytes (flags ||| OP_MSG_FLAG_CHECKSUM_PRESENT) ++ 0 :: body := (List.append_assoc _ _ _).symm
  unfold covered
  rw [hhead, hassoc]
  rfl

theorem unpack_pack (h : Header) (rest : Bytes) : Header.unpack (h.pack ++ rest) = .ok h := by
  have hlen : (h.pack ++ rest).length = 16 + rest.length := by
    simp only [Header.pack, List.length_append, length_i32Bytes]
  have hread : ∀ start field tail, h.pack ++ rest = start ++ (i32Bytes field ++ tail) → start.length + 4 ≤ 16 →
      rdI32 (h.pack ++ rest) start.length = .ok field := by
    intro start field tail heq hle
    have hw := window_append start (i32Bytes field) tail
    rw [← heq, length_i32Bytes] at hw
    rw [rdI32_eq (by omega), hw, number, ofLeBytes_i32Bytes]
  have hpack : h.pack ++ rest = i32Bytes h.message_length ++
      (i32Bytes h.request_id ++ (i32Bytes h.response_to ++ (i32Bytes h.op_code ++ rest))) := by
    simp only [Header.pack, List.append_assoc]
  have h0 := hread [] h.message_length _ hpack (by simp)
  have h4 := hread (i32Bytes h.message_length) h.request_id _ hpack (by simp)
  have h8 := hread (i32Bytes h.message_length ++ i32Bytes h.request_id) h.response_to (i32Bytes h.op_code ++ rest)
    (by rw [hpack, List.append_assoc]) (by simp)
  have h12 := hread (i32Bytes h.message_length ++ i32Bytes h.request_id ++ i32Bytes h.response_to) h.op_code rest
    (by rw [hpack, List.append_assoc, List.append_assoc]) (by simp)
  simp only [List.length_append, length_i32Bytes, List.length_nil] at h0 h4 h8 h12
  unfold Header.unpack
  rw [if_neg (by rw [hlen, HEADER_SIZE]; omega), h0, ok_bind, h4, ok_bind, h8, ok_bind, h12]
  rfl

theorem and_or_distrib (a b c : UInt32) : (a ||| b) &&& c = (a &&& c) ||| (b &&& c) :=
  UInt32.toBitVec_inj.mp (by simp [BitVec.and_or_distrib_right])

theorem hasChecksum_or (flags : UInt32) : hasChecksum (flags ||| OP_MSG_FLAG_CHECKSUM_PRESENT) = true := by
  have hne : ∀ x : UInt32, x ||| 1 ≠ 0 := by
    intro x h
    have hbit := congrArg (fun u => u.toBitVec.getLsbD 0) h
    simp at hbit
  unfold hasChecksum OP_MSG_FLAG_CHECKSUM_PRESENT
  rw [and_or_distrib]
  exact bne_iff_ne.mpr (hne _)

/-- No required flag bit is unknown. -/
def KnownFlags (flags : UInt32) : Prop :=
  flags &&& OP_MSG_REQUIRED_FLAG_BITS &&& ~~~(OP_MSG_FLAG_CHECKSUM_PRESENT ||| OP_MSG_FLAG_MORE_TO_COME) = 0

theorem knownFlags_or {flags : UInt32} (h : KnownFlags flags) :
    KnownFlags (flags ||| OP_MSG_FLAG_CHECKSUM_PRESENT) := by
  unfold KnownFlags at h ⊢
  rw [and_or_distrib, and_or_distrib, h]
  decide

/-- A reply with a checksum, as it comes in: its header, and what follows it. -/
theorem checksummed_parts (response_to request_id : Int32) (body : Bytes) (flags : UInt32) {message : Bytes}
    (h : withOpMsgChecksum (buildOpMsgReply response_to request_id body flags) = .ok message) :
    Header.unpack message =
        .ok ⟨Int32.ofNat (HEADER_SIZE + (body.length + 9)), request_id, response_to, OP_MSG⟩ ∧
      message.drop HEADER_SIZE = u32Bytes (flags ||| OP_MSG_FLAG_CHECKSUM_PRESENT) ++
        (0 :: body ++ u32Bytes (crc32c (~~~0) (covered response_to request_id body flags))) := by
  rw [withOpMsgChecksum_reply] at h
  obtain rfl := Except.ok.inj h
  unfold covered
  rw [List.append_assoc]
  refine ⟨unpack_pack _ _, ?_⟩
  rw [List.drop_left' (by simp [Header.pack, HEADER_SIZE]), List.append_assoc]

/-- A reply with a checksum passes the check of frames. -/
theorem opMsgFrameProblem_reply (response_to request_id : Int32) (body : Bytes) {flags : UInt32}
    (hknown : KnownFlags flags) :
    opMsgFrameProblem ⟨Int32.ofNat (HEADER_SIZE + (body.length + 9)), request_id, response_to, OP_MSG⟩
      (u32Bytes (flags ||| OP_MSG_FLAG_CHECKSUM_PRESENT) ++
        (0 :: body ++ u32Bytes (crc32c (~~~0) (covered response_to request_id body flags)))) = .ok none := by
  obtain ⟨c, hc⟩ : ∃ c, u32Bytes (flags ||| OP_MSG_FLAG_CHECKSUM_PRESENT) ++ 0 :: body = c := ⟨_, rfl⟩
  obtain ⟨sum, hsum⟩ : ∃ sum, crc32c (~~~0) (covered response_to request_id body flags) = sum := ⟨_, rfl⟩
  have hclen : c.length = body.length + 5 := by
    rw [← hc, List.length_append, length_u32Bytes, List.length_cons]
    omega
  have hflags : rdU32 (c ++ u32Bytes sum) 0 = .ok (flags ||| OP_MSG_FLAG_CHECKSUM_PRESENT) := by
    have hw := window_append [] (u32Bytes (flags ||| OP_MSG_FLAG_CHECKSUM_PRESENT)) (0 :: body ++ u32Bytes sum)
    rw [length_u32Bytes, List.nil_append, List.length_nil, ← List.append_assoc, hc] at hw
    rw [rdU32_eq (by rw [List.length_append]; omega), hw, ofLeBytes_u32Bytes]
  have hcovered : slice (c ++ u32Bytes sum) 0 (c.length + 4 - 4) = .ok c := by
    have h := @slice_eq (c ++ u32Bytes sum) 0 c.length (by rw [List.length_append]; omega)
    rw [Nat.zero_add] at h
    rw [Nat.add_sub_cancel, h]
    exact congrArg Except.ok (window_append [] c (u32Bytes sum))
  have htrailer : slice (c ++ u32Bytes sum) (c.length + 4 - 4) (c.length + 4) = .ok (u32Bytes sum) := by
    have hw := window_append c (u32Bytes sum) []
    rw [List.append_nil, length_u32Bytes] at hw
    rw [Nat.add_sub_cancel, slice_eq (by rw [List.length_append, length_u32Bytes]), hw]
  have hread : rdU32 (u32Bytes sum) 0 = .ok sum := by
    have hw := window_append [] (u32Bytes sum) []
    rw [List.append_nil, List.nil_append, List.length_nil, length_u32Bytes] at hw
    rw [rdU32_eq (by rw [length_u32Bytes]), hw, ofLeBytes_u32Bytes]
  have hlen : (c ++ u32Bytes sum).length = c.length + 4 := by rw [List.length_append, length_u32Bytes]
  have hmatch : crc32c (crc32cUpdate (~~~0) (i32Bytes (Int32.ofNat (HEADER_SIZE + (c.length + 4))) ++
      i32Bytes request_id ++ i32Bytes response_to ++ i32Bytes OP_MSG)) c = sum := by
    have hsame : c.length + 4 = body.length + 9 := by omega
    rw [← hsum, hsame]
    unfold crc32c covered
    rw [hc, crc32cUpdate_append]
    rfl
  rw [hsum, ← List.append_assoc, hc]
  unfold opMsgFrameProblem
  rw [if_neg (by omega), hflags, ok_bind]
  have hbits := knownFlags_or hknown
  unfold KnownFlags at hbits
  rw [if_neg (by rw [hbits]; simp), if_pos (hasChecksum_or flags), if_neg (by omega), hlen, hcovered, ok_bind, htrailer,
    ok_bind, hread, ok_bind]
  exact if_neg (by rw [hmatch]; simp)

/-- What follows the header of a reply with a checksum is read back, where its body is a document. -/
theorem parseOpMsg_reply (body : Bytes) (flags sum : UInt32) :
    (∃ msg, parseOpMsg (u32Bytes (flags ||| OP_MSG_FLAG_CHECKSUM_PRESENT) ++ (0 :: body ++ u32Bytes sum)) = .ok msg ∧
      msg.body = body) ↔ IsDoc body := by
  constructor
  · rintro ⟨msg, hmsg, rfl⟩
    obtain ⟨sections, trailer, hvalid, hbodies, -⟩ := ((parseOpMsg_eq _).2 msg).mp hmsg
    have hmem : msg.body ∈ bodies sections := hbodies ▸ List.mem_cons_self
    obtain ⟨s, hs, hdoc⟩ := List.mem_filterMap.mp hmem
    cases s with
    | body doc =>
      obtain rfl := Option.some.inj hdoc
      exact hvalid _ hs
    | sequence seq => cases hdoc
  · intro hdoc
    refine ⟨⟨flags ||| OP_MSG_FLAG_CHECKSUM_PRESENT, body, []⟩, ((parseOpMsg_eq _).2 _).mpr ?_, rfl⟩
    refine ⟨[.body body], u32Bytes sum, ?_, rfl, rfl, ?_, ?_⟩
    · intro s hs
      obtain rfl := List.mem_singleton.mp hs
      exact hdoc
    · rw [if_pos (hasChecksum_or flags), length_u32Bytes]
    · rw [List.flatMap_singleton]
      rfl

/-! ## The header's length -/

/-- The body's length is the message's without its header, for a length within its bounds. -/
def BodyLenSound (h : Header) : Prop :=
  ∀ n, h.bodyLen = .ok n →
    16 ≤ h.message_length.toInt ∧ h.message_length ≤ MAX_MESSAGE_SIZE ∧ (n : ℤ) = h.message_length.toInt - 16

theorem asUsize_of_neg {n : Int32} (h : n.toInt < 0) : (asUsize n : ℤ) = n.toInt + 2 ^ 64 := by
  have hle : -2 ^ 31 ≤ n.toInt := n.le_toInt
  unfold asUsize
  omega

/-- A negative length passes both checks: it is past the floor as an unsigned number and below the maximum as a
    signed one. -/
theorem bodyLen_negative {h : Header} (hneg : h.message_length.toInt < 0) :
    h.bodyLen = .ok (asUsize h.message_length - HEADER_SIZE) := by
  have husize := asUsize_of_neg hneg
  have hle : -2 ^ 31 ≤ h.message_length.toInt := h.message_length.le_toInt
  have hmax : MAX_MESSAGE_SIZE.toInt = 48000000 := by decide
  unfold Header.bodyLen
  rw [if_neg (by unfold HEADER_SIZE; omega), if_neg]
  rw [gt_iff_lt, Int32.lt_iff_toInt_lt]
  omega

/-- The header's length is sound exactly when it is not negative. -/
theorem bodyLen_sound_iff (h : Header) : BodyLenSound h ↔ 0 ≤ h.message_length.toInt := by
  constructor
  · intro hsound
    by_contra hneg
    have := (hsound _ (bodyLen_negative (not_le.mp hneg))).1
    omega
  · intro hge n hn
    have husize := asUsize_of_nonneg hge
    unfold Header.bodyLen HEADER_SIZE at hn
    split at hn
    · cases hn
    rename_i hfloor
    split at hn
    · cases hn
    rename_i hmax
    obtain rfl := Except.ok.inj hn
    refine ⟨by omega, ?_, by omega⟩
    rw [Int32.le_iff_toInt_le]
    rw [gt_iff_lt, Int32.lt_iff_toInt_lt] at hmax
    omega

theorem bodyLen_minus_one :
    Header.bodyLen ⟨-1, 0, 0, OP_MSG⟩ = .ok 18446744073709551599 ∧ ¬BodyLenSound ⟨-1, 0, 0, OP_MSG⟩ := by
  refine ⟨by decide, fun h => ?_⟩
  have hnonneg := (bodyLen_sound_iff _).mp h
  exact absurd hnonneg (by decide)

/-- The framing of messages. The header's length is checked exactly for what is not negative. No parser leaves
    its buffer; an OP_MSG is read exactly when its parts tile the buffer, and as these parts; a reply with a
    checksum passes the check of frames, and is read back where its body is a document. -/
theorem framing_sound (h header : Header) (buf : Bytes) (msg : OpMsg) (opCode response_to request_id : Int32)
    (body : Bytes) (flags : UInt32) :
    (BodyLenSound h ↔ 0 ≤ h.message_length.toInt) ∧
      (Returns (parseOpMsg buf) ∧ Returns (parseOpQuery buf) ∧ Returns (parseOpCompressed buf) ∧
        Returns (opMsgFrameProblem header buf) ∧ Returns (parseBody opCode buf)) ∧
      (parseOpMsg buf = .ok msg ↔ Assembled buf msg) ∧
      (KnownFlags flags → ∃ message replied,
        withOpMsgChecksum (buildOpMsgReply response_to request_id body flags) = .ok message ∧
          Header.unpack message = .ok replied ∧
          opMsgFrameProblem replied (message.drop HEADER_SIZE) = .ok none ∧
          ((∃ parsed, parseOpMsg (message.drop HEADER_SIZE) = .ok parsed ∧ parsed.body = body) ↔ IsDoc body)) := by
  refine ⟨bodyLen_sound_iff h, ?_, (parseOpMsg_eq buf).2 msg, fun hknown => ?_⟩
  · exact ⟨(parseOpMsg_eq buf).1, parseOpQuery_returns buf, parseOpCompressed_returns buf,
      opMsgFrameProblem_returns header buf, parseBody_returns opCode buf⟩
  · obtain ⟨hunpack, hdrop⟩ := checksummed_parts response_to request_id body flags
      (withOpMsgChecksum_reply response_to request_id body flags)
    refine ⟨_, _, withOpMsgChecksum_reply response_to request_id body flags, hunpack, ?_⟩
    rw [hdrop]
    exact ⟨opMsgFrameProblem_reply response_to request_id body hknown, parseOpMsg_reply body flags _⟩

end Secantus.Frame
